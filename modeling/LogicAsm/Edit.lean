import LogicAsm.Document

/-!
# Edits

An edit puts a new text in the place of a range.  Edits of one document are made at once: they are
sorted by range, and between them the text is kept.  Two edits that cover the same text cannot both
be made.
-/

namespace LogicAsm

/-- A new text in the place of a range. -/
structure Edit where
  range : Range
  newText : Text
deriving DecidableEq

namespace Edit

def insert (p : Position) (t : Text) : Edit := ⟨⟨p, p⟩, t⟩

def replace (r : Range) (t : Text) : Edit := ⟨r, t⟩

def delete (r : Range) : Edit := ⟨r, []⟩

def toJson (e : Edit) : Json :=
  .object [("range", Diagnostic.rangeJson e.range), ("newText", .string e.newText)]

/-- Edits by range; those of one range keep their order. -/
def sort (edits : List Edit) : List Edit :=
  Sorting.sort (fun a b => a.range ≤ b.range) edits

/-- The text from offset `start` up to offset `stop`. -/
def slice (t : Text) (start stop : Nat) : Text := (t.drop start).take (stop - start)

/-- Make sorted edits, where the text up to `cursor` is done and `previous` is the last range. -/
def applyFrom (doc : Document) (cursor : Nat) (previous : Range) :
    List Edit → Except Fault Text
  | [] => .ok (doc.text.drop cursor)
  | e :: es =>
    let start := doc.offsetAt e.range.start
    if start < cursor then .error (.overlappingEdits previous e.range)
    else
      (applyFrom doc (doc.offsetAt e.range.stop) e.range es).map fun rest =>
        slice doc.text cursor start ++ e.newText ++ rest

/-- The text of a document after all edits, or the first two that overlap. -/
def applyAll (doc : Document) (edits : List Edit) : Except Fault Text :=
  applyFrom doc 0 (.of 0 0 0 0) (sort edits)

end Edit

end LogicAsm
