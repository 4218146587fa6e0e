import LogicAsm.Count
import LogicAsm.Node
import LogicAsm.Settings

/-!
# Layout

The canonical layout of a program.  Tokens are written as they are, with one space between them;
line breaks and indentation are new.

## Blocks

The nodes are cut into blocks:

* a label with the comments above it is a block at the margin; it starts with the first comment of
  that run that stands in column zero, or with the label if there is none;
* the comments at the end of the program are a block at the margin in the same way;
* what stands in front of the first such block is at the margin too;
* all else is indented by one unit.

A comment that was indented stays so, also in a block at the margin, which is why a second layout
changes nothing.

## Line breaks

The distance between two nodes is kept between one line and three; above a block at the margin it is
two lines at least, and in front of the first node two at most.
-/

namespace LogicAsm.Layout

/-- A run of nodes from `start` up to, and without, `stop`, all indented or all at the margin. -/
structure Block where
  start : Nat
  stop : Nat
  indented : Bool
deriving DecidableEq

/-- A number moved between two bounds. -/
def clamp (value minimum maximum : Int) : Int := min (max value minimum) maximum

/-! ### Blocks -/

def atMargin (n : Node) : Bool := n.start.character == 0

/-- Where a block at the margin starts: `before` are the nodes in front of it, the nearest first, of
which the nearest has the index `index - 1`; `start` is the answer so far. -/
def runStart (index start : Nat) : List Node → Nat
  | [] => start
  | n :: ns =>
    if n.isComment then runStart (index - 1) (if atMargin n then index - 1 else start) ns
    else start

/-- The blocks at the margin as pairs of start and end, where `before` are the nodes passed, the
nearest first, and `index` is their number. -/
def marginBlocksFrom (before : List Node) (index : Nat) : List Node → List (Nat × Nat)
  | [] =>
    let start := runStart index index before
    if start = index then [] else [(start, index)]
  | n :: ns =>
    (if n.isLabel then [(runStart index index before, index + 1)] else []) ++
      marginBlocksFrom (n :: before) (index + 1) ns

/-- The blocks between and after the given ones at the margin, where `passed` nodes are in blocks
already.  Nodes in front of the first block are not indented. -/
def fill (count passed : Nat) : List (Nat × Nat) → List Block
  | [] => if passed = count then [] else [⟨passed, count, passed != 0⟩]
  | (start, stop) :: rest =>
    (if passed < start then [⟨passed, start, passed != 0⟩] else []) ++
      ⟨start, stop, false⟩ :: fill count stop rest

def blocks (nodes : List Node) : List Block :=
  fill nodes.length 0 (marginBlocksFrom [] 0 nodes)

/-! ### Rendering -/

/-- What the indentation and the end of the output look like. -/
structure Options where
  tabSize : Int := 4
  insertSpaces : Bool := true
  finalNewline : Bool := true
deriving DecidableEq

def Options.ofSettings (s : Settings) : Options := ⟨s.tabSize, s.insertSpaces, s.finalNewline⟩

def Options.unit (o : Options) : Text :=
  if o.insertSpaces then List.replicate o.tabSize.toNat ' ' else ['\t']

/-- Refuse a unit of indentation that cannot be made. -/
def Options.check (o : Options) : Except Fault Unit :=
  if o.insertSpaces then (Count.check o.tabSize).map fun _ => () else .ok ()

/-- The fewest and the most line breaks in front of a node. -/
def gapBounds (index : Nat) (b : Block) : Int × Int :=
  if index = 0 then (0, 2)
  else if index = b.start ∧ ¬ b.indented then (2, 3)
  else (1, 3)

/-- The tokens of a node with one space between them. -/
def nodeText (n : Node) : Text := List.intercalate [' '] (n.tokens.map (·.content))

/-- A node with what the layout puts in front of it: line breaks, and a unit of indentation or
none. -/
structure Placement where
  breaks : Nat
  indented : Bool
  node : Node
deriving DecidableEq

def Placement.text (o : Options) (p : Placement) : Text :=
  List.replicate p.breaks '\n' ++ (if p.indented then o.unit else []) ++ nodeText p.node

/-- The place of the node with the given index in its block, where `line` is the line of the node
before. -/
def place (b : Block) (index : Nat) (line : Int) (n : Node) : Placement :=
  let (least, most) := gapBounds index b
  { breaks := (clamp (n.line - line) least most).toNat
    indented := b.indented || (n.isComment && !atMargin n)
    node := n }

def placeNodes (b : Block) (index : Nat) (line : Int) : List Node → List Placement
  | [] => []
  | n :: ns => place b index line n :: placeNodes b (index + 1) n.line ns

/-- The places of the nodes of blocks, where `nodes` are the nodes that are left and `line` is the
line of the node before them. -/
def placeBlocks (line : Int) (nodes : List Node) : List Block → List Placement
  | [] => []
  | b :: bs =>
    let here := nodes.take (b.stop - b.start)
    placeNodes b b.start line here ++
      placeBlocks ((here.getLast?.map Node.line).getD line) (nodes.drop (b.stop - b.start)) bs

def placements (nodes : List Node) : List Placement := placeBlocks 0 nodes (blocks nodes)

def render (o : Options) (nodes : List Node) : Text :=
  (placements nodes).flatMap (·.text o) ++ if o.finalNewline then ['\n'] else []

def canonical (o : Options) (t : Text) : Text := render o (Node.ofText t)

/-- The canonical layout of a program, under options that can be honoured. -/
def format (o : Options) (nodes : List Node) : Except Fault Text :=
  o.check.map fun _ => render o nodes

def formatText (o : Options) (t : Text) : Except Fault Text := o.check.map fun _ => canonical o t

end LogicAsm.Layout
