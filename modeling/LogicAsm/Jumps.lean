import LogicAsm.Edit
import LogicAsm.Instruction.Operand

/-!
# Labelled and numbered jumps

A jump names its target by a label or by the number of an instruction.  `Jumps.toLabels` replaces
numbers by labels and `Jumps.toNumbers` replaces labels by numbers; both give the edits to make.

* To labels: a label that stands in front of the target is used if there is one.  Otherwise a new
  label `label_<n>`, with the next number that makes no name declared already, is put on a line of
  its own above the target.  Numbers without an instruction are left alone.
* To numbers: the declarations of all labels that were replaced are deleted, with the blanks around
  them and, where nothing else is left on the line, the line break.  Labels that are not declared,
  and labels without an instruction behind them, are left alone.
-/

namespace LogicAsm.Jumps

/-! ### Places around a node -/

/-- The start of a node, moved left over the blanks in front of it. -/
def lineStart (doc : Document) (n : Node) : Position :=
  let line := (doc.lineText? n.start.line).getD []
  let before := line.take n.start.character.toNat
  let blanks := (before.reverse.takeWhile Piece.isBlank).length
  ⟨n.start.line, n.start.character - blanks⟩

/-- The end of a node, moved right over the blanks behind it, and to the next line if nothing else
follows on this one. -/
def lineEnd (doc : Document) (n : Node) : Position :=
  let line := (doc.lineText? n.stop.line).getD []
  let rest := line.drop n.stop.character.toNat
  let stripped := rest.dropWhile Piece.isBlank
  if stripped.all (· == '\r') ∧ (doc.lineText? (n.stop.line + 1)).isSome then
    ⟨n.stop.line + 1, 0⟩
  else ⟨n.stop.line, n.stop.character + (rest.length - stripped.length : Nat)⟩

/-! ### Labels and counters -/

/-- The labels of a document that an instruction follows, with its counter, in the order of their
declaration. -/
def labelCounters (doc : Document) : List (Text × Nat) :=
  doc.labels.labels.filterMap fun (name, index) =>
    (counterAt? doc.instructions index).map fun counter => (name, counter)

/-! ### To labels -/

/-- The destinations of a document that are numbers and count an instruction, with the counter. -/
def numberedDestinations (doc : Document) : Except Fault (List (Nat × Token)) := do
  let tokens := (doc.nodes.filterMap Node.destination?).filter (·.isNumber)
  let counters ← tokens.mapM (Token.counter doc.instructions.length)
  return (counters.zip tokens).filterMap fun (counter, t) => counter.map fun c => (c, t)

def freshName (n : Nat) : Text := "label_".toList ++ Text.ofNat n

/-- The first number from `n` on whose label is not taken.  Of the numbers tried, one more than
there are names taken, at least one is free. -/
def freshNumber (taken : List Text) : (tries n : Nat) → Nat
  | 0, n => n
  | tries + 1, n => if taken.contains (freshName n) then freshNumber taken tries (n + 1) else n

/-- The label that jumps to an instruction get, and whether it is new. -/
structure TargetLabel where
  counter : Nat
  label : Text
  fresh : Bool
deriving DecidableEq

/-- The labels of instructions in order, where new labels have numbers from `n` on. -/
def targetLabels (reusable : List (Nat × Text)) (taken : List Text) (n : Nat) :
    List Nat → List TargetLabel
  | [] => []
  | counter :: counters =>
    match reusable.lookup counter with
    | some label => ⟨counter, label, false⟩ :: targetLabels reusable taken n counters
    | none =>
      let fresh := freshNumber taken (taken.length + 1) n
      let label := freshName fresh
      ⟨counter, label, true⟩ :: targetLabels reusable (label :: taken) (fresh + 1) counters

/-- The edit that declares a new label above its instruction. -/
def declaration (doc : Document) (target : TargetLabel) : List Edit :=
  match doc.instructions[target.counter]?.bind (doc.nodes[·]?) with
  | some n =>
    if target.fresh then [.insert (lineStart doc n) (target.label ++ [':', '\n'])] else []
  | none => []

/-- The edits that name an instruction by its label in all jumps to it. -/
def references (destinations : List (Nat × Token)) (target : TargetLabel) : List Edit :=
  (destinations.filter fun d => d.1 == target.counter).map fun d =>
    .replace d.2.range target.label

/-- What a conversion does: its edits, and how many targets or labels it is about. -/
structure Conversion where
  subjects : Nat
  edits : List Edit
deriving DecidableEq

/-- Replace numbers by labels. -/
def toLabels (doc : Document) : Except Fault Conversion := do
  let destinations ← numberedDestinations doc
  let counters := (List.range doc.instructions.length).filter (destinations.map (·.1)).contains
  let reusable := (labelCounters doc).map fun (name, counter) => (counter, name)
  let taken := (doc.nodes.filter (·.isLabel)).map (·.labelName)
  let targets := targetLabels reusable taken 0 counters
  return ⟨targets.length,
    targets.flatMap fun target => declaration doc target ++ references destinations target⟩

/-! ### To numbers -/

def toNumbers (doc : Document) : Conversion :=
  let counters := labelCounters doc
  let destinations :=
    (doc.nodes.filterMap Node.destination?).filter fun t => !t.isNumber
  let replacements := destinations.filterMap fun t =>
    (counters.lookup t.content).map fun counter => Edit.replace t.range (Text.ofNat counter)
  -- Labels are listed in the order of their declaration, so the deletions are too.
  let converted := doc.labels.labels.filter fun (name, _) =>
    (counters.lookup name).isSome && destinations.any fun t => t.content == name
  let deletions := converted.filterMap fun (_, index) =>
    doc.nodes[index]?.map fun n => Edit.delete ⟨lineStart doc n, lineEnd doc n⟩
  ⟨converted.length, replacements ++ deletions⟩

inductive Form where
  | labels
  | numbers
deriving DecidableEq

def convert (form : Form) (doc : Document) : Except Fault Conversion :=
  match form with
  | .labels => toLabels doc
  | .numbers => .ok (toNumbers doc)

end LogicAsm.Jumps
