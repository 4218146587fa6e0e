import LogicAsm.BitSet
import LogicAsm.Instruction.Operand
import LogicAsm.LabelTable

/-!
# The flow of control

How control leaves the nodes of a program.  Each node has one *exit*:

* most nodes go on to the next node;
* a node that writes the program counter may go anywhere;
* a jump whose destination is found goes there, and unless it always jumps it may go on as well.

A jump whose destination is not found does nothing when it runs, so it goes on.  Destinations are
label names, or numbers that count instructions.

## Problems

Declaring a label again, jumping to a label that is not declared and jumping to a number without an
instruction are reported, the first kind in front of the others.  A number that no binary64 number
is near to stops the analysis.
-/

namespace LogicAsm

/-- How control leaves a node. -/
inductive Exit where
  | next
  | anywhere
  /-- To a node, and to the next one too unless the jump is always taken. -/
  | jump (target : Nat) (always : Bool)
deriving DecidableEq

inductive EdgeKind where
  | fallthrough
  | jump
deriving DecidableEq

structure Edge where
  source : Nat
  target : Nat
  kind : EdgeKind
  conditional : Bool
deriving DecidableEq

/-- The nodes of a program with their exits. -/
structure FlowGraph where
  nodes : List Node
  labels : LabelTable
  instructions : List Nat
  exits : Array Exit
  problems : List Diagnostic

namespace FlowGraph

/-! ### Problems with labels and jumps -/

def redeclaration (uri : String) (again first : Node) : Diagnostic :=
  { range := again.nameRange
    message := s!"Redeclaration of label '{String.ofList again.labelName}'"
    severity := .error
    code := .labelRedeclaration
    related := [⟨first.nameRange, "The label is first declared here", uri⟩] }

def redeclarations (uri : String) (nodes : List Node) (labels : LabelTable) : List Diagnostic :=
  labels.duplicates.filterMap fun (again, first) => do
    return redeclaration uri (← nodes[again]?) (← nodes[first]?)

/-- The report of a number that is no instruction counter. -/
def outOfRange (destination : Token) (count : Nat) : Diagnostic :=
  { range := destination.range
    message :=
      s!"Jump address '{String.ofList destination.content}' is out of range " ++
        s!"(the program has {count} instructions)"
    severity := .error
    code := .outOfRangeValue }

def undeclared (n : Node) (destination : Token) : Diagnostic :=
  { range := n.range
    message := s!"Label '{String.ofList destination.content}' is not declared"
    severity := .error
    code := .undefinedLabel }

/-! ### Exits -/

/-- The node that a jump goes to, or what is wrong with its destination. -/
def resolve (labels : LabelTable) (instructions : List Nat) (n : Node) (destination : Token) :
    Except Fault (Option Nat × List Diagnostic) :=
  if destination.isNumber then do
    let counter ← destination.counter instructions.length
    match counter.bind (instructions[·]?) with
    | some target => return (some target, [])
    | none => return (none, [outOfRange destination instructions.length])
  else
    match labels.find? destination.content with
    | some target => .ok (some target, [])
    | none => .ok (none, [undeclared n destination])

/-- The exit of a node, and what is wrong with its destination. -/
def exitOf (labels : LabelTable) (instructions : List Nat) (n : Node) :
    Except Fault (Exit × List Diagnostic) :=
  if n.writesCounter then .ok (.anywhere, [])
  else
    match n.destination? with
    | none => .ok (.next, [])
    | some destination => do
      let (target, problems) ← resolve labels instructions n destination
      match target with
      | some target => return (.jump target n.alwaysJumps, problems)
      | none => return (.next, problems)

/-- The graph of a program whose labels are known. -/
def build (uri : String) (nodes : List Node) (labels : LabelTable) : Except Fault FlowGraph := do
  let instructions := instructionIndices nodes
  let exits ← nodes.mapM (exitOf labels instructions)
  return {
    nodes, labels, instructions
    exits := (exits.map (·.1)).toArray
    problems := redeclarations uri nodes labels ++ exits.flatMap (·.2) }

def ofNodes (uri : String) (nodes : List Node) : Except Fault FlowGraph :=
  build uri nodes (LabelTable.ofNodes nodes)

/-! ### Edges -/

def size (g : FlowGraph) : Nat := g.exits.size

def jumpTarget? (g : FlowGraph) (i : Nat) : Option Nat :=
  match g.exits[i]? with
  | some (.jump target _) => some target
  | _ => none

/-- The edge to the next node, if there is one. -/
def fallthroughFrom (g : FlowGraph) (i : Nat) : List Edge :=
  if i + 1 < g.size then [⟨i, i + 1, .fallthrough, false⟩] else []

def successors (g : FlowGraph) (i : Nat) : List Edge :=
  match g.exits[i]? with
  | none => []
  | some .next => g.fallthroughFrom i
  | some .anywhere => (List.range g.size).map fun target => ⟨i, target, .jump, true⟩
  | some (.jump target always) =>
    ⟨i, target, .jump, !always⟩ :: if always then [] else g.fallthroughFrom i

/-- All edges, by the node that they leave. -/
def edges (g : FlowGraph) : List Edge := (List.range g.size).flatMap g.successors

end FlowGraph

end LogicAsm
