import LogicAsm.Statement

/-!
# Nodes

A program is a sequence of nodes: comments, label declarations and instructions.  A statement is one
node, unless it starts with labels and goes on: `loop: print x` is a label and an instruction.  A
comment behind a label stays with the label.

There is no malformed statement: what is neither a comment nor a label is an instruction, whatever
its opcode.
-/

namespace LogicAsm

inductive NodeKind where
  | comment
  | label
  | instruction
deriving DecidableEq

/-- A node of a program: its tokens, of which there is at least one, and where it ends. -/
structure Node where
  kind : NodeKind
  head : Token
  tail : List Token
  stop : Position
deriving DecidableEq

/-- Whether a token declares a label: an identifier that ends in a colon and is more than the
colon. -/
def Token.isLabel (t : Token) : Bool :=
  t.kind == .identifier && 1 < t.content.length && t.content.endsWith ':'

namespace Node

/-! ### Parts of a node -/

def tokens (n : Node) : List Token := n.head :: n.tail

def start (n : Node) : Position := n.head.start

def range (n : Node) : Range := ⟨n.start, n.stop⟩

def line (n : Node) : Int := n.start.line

def isComment (n : Node) : Bool := n.kind == .comment

def isLabel (n : Node) : Bool := n.kind == .label

def isInstruction (n : Node) : Bool := n.kind == .instruction

/-- The text of a comment, without the `#`. -/
def commentText (n : Node) : Text := n.head.content.drop 1

/-- The name that a label declaration declares. -/
def labelName (n : Node) : Text := n.head.content.dropLast

/-- The place of a label's name, without the colon. -/
def nameRange (n : Node) : Range :=
  ⟨n.head.start, ⟨n.head.stop.line, n.head.stop.character - 1⟩⟩

def opcode (n : Node) : Text := n.head.content

def last (n : Node) : Token := n.tail.getLast?.getD n.head

/-- The tokens behind the first one, without a comment at the end. -/
def operands (n : Node) : List Token :=
  match n.tail.getLast? with
  | some t => if t.isComment then n.tail.dropLast else n.tail
  | none => []

/-- The comment at the end of an instruction. -/
def trailingComment? (n : Node) : Option Token := n.tail.getLast?.filter (·.isComment)

/-! ### Nodes of a program -/

/-- The nodes of a row of tokens that ends at `stop`. -/
def ofTokens (stop : Position) : List Token → List Node
  | [] => []
  | head :: tail =>
    if head.isComment then [⟨.comment, head, tail, stop⟩]
    else if head.isLabel then
      match tail with
      | [] => [⟨.label, head, [], stop⟩]
      | second :: rest =>
        if second.isComment then [⟨.label, head, second :: rest, stop⟩]
        else ⟨.label, head, [], head.stop⟩ :: ofTokens stop (second :: rest)
    else [⟨.instruction, head, tail, stop⟩]

def ofStatement (s : Statement) : List Node := ofTokens s.stop s.tokens

def ofText (t : Text) : List Node := (Statement.ofText t).flatMap ofStatement

end Node

/-- The node with an index declares a label. -/
def IsLabelAt (nodes : List Node) (i : Nat) : Prop := ∃ n, nodes[i]? = some n ∧ n.isLabel = true

end LogicAsm
