import LogicAsm.Node

/-!
# Labels and instruction counters

Where the labels of a program are declared, and which nodes its instructions are.

The first declaration of a name counts; a later one is a duplicate of it.  Instruction counters
count instructions only, so comments and labels never shift them: counter `c` is the node
`(instructionIndices nodes)[c]`, and a label stands for the counter of the next instruction.
-/

namespace LogicAsm

/-- The labels of a program by the index of their node, in the order of declaration, and for each
later declaration of a name its index and that of the first. -/
structure LabelTable where
  labels : List (Text × Nat)
  duplicates : List (Nat × Nat)
deriving DecidableEq

namespace LabelTable

def find? (table : LabelTable) (name : Text) : Option Nat := table.labels.lookup name

/-- The table with the declaration of a name at an index. -/
def declare (table : LabelTable) (name : Text) (index : Nat) : LabelTable :=
  match table.find? name with
  | none => { table with labels := table.labels ++ [(name, index)] }
  | some first => { table with duplicates := table.duplicates ++ [(index, first)] }

/-- The table with the declarations of nodes, the first of which has the given index. -/
def declareAll (table : LabelTable) (index : Nat) : List Node → LabelTable
  | [] => table
  | n :: ns =>
    declareAll (if n.isLabel then table.declare n.labelName index else table) (index + 1) ns

def ofNodes (nodes : List Node) : LabelTable := declareAll ⟨[], []⟩ 0 nodes

end LabelTable

/-- The indices of instructions among nodes, the first of which has the given index. -/
def instructionIndicesFrom (index : Nat) : List Node → List Nat
  | [] => []
  | n :: ns =>
    (if n.isInstruction then [index] else []) ++ instructionIndicesFrom (index + 1) ns

def instructionIndices (nodes : List Node) : List Nat := instructionIndicesFrom 0 nodes

/-- The counter that a token names by a number, in a program with so many instructions. -/
def Token.counter (count : Nat) (t : Token) : Except Fault (Option Nat) := do
  let address ← t.address
  return address.bind fun a => if 0 ≤ a ∧ a < count then some a.toNat else none

/-- The counter of the first instruction at or behind a node: the number of instructions in front of
it, if there is one more. -/
def counterAt? (instructions : List Nat) (index : Nat) : Option Nat :=
  let counter := (instructions.takeWhile (· < index)).length
  if counter < instructions.length then some counter else none

end LogicAsm
