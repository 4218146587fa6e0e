/-!
# Positions and ranges

A position is a line and a character in it, both counted from zero; a range is the half-open span
between two positions.  Both are ordered as they are read: positions by line and then by character,
ranges by start and then by end.

Positions come from scanning, where they are never negative, and from outside, where nothing
promises that; so the components are integers.
-/

namespace LogicAsm

/-- A place in a text: a line and a character of that line, counted from zero. -/
structure Position where
  line : Int
  character : Int
deriving DecidableEq

namespace Position

instance : LT Position where
  lt a b := a.line < b.line ∨ a.line = b.line ∧ a.character < b.character

instance : LE Position where
  le a b := a.line < b.line ∨ a.line = b.line ∧ a.character ≤ b.character

instance (a b : Position) : Decidable (a < b) :=
  inferInstanceAs (Decidable (a.line < b.line ∨ a.line = b.line ∧ a.character < b.character))

instance (a b : Position) : Decidable (a ≤ b) :=
  inferInstanceAs (Decidable (a.line < b.line ∨ a.line = b.line ∧ a.character ≤ b.character))

theorem lt_iff {a b : Position} :
    a < b ↔ a.line < b.line ∨ a.line = b.line ∧ a.character < b.character := Iff.rfl

theorem le_iff {a b : Position} :
    a ≤ b ↔ a.line < b.line ∨ a.line = b.line ∧ a.character ≤ b.character := Iff.rfl

/-- The order of positions is total, so what does not come at or before comes after. -/
theorem not_le {a b : Position} : ¬ a ≤ b ↔ b < a := by
  simp only [le_iff, lt_iff]; omega

end Position

/-- The span from `start` up to, and without, `stop`. -/
structure Range where
  start : Position
  stop : Position
deriving DecidableEq

namespace Range

/-- The range between two places given by line and character. -/
def of (startLine startCharacter stopLine stopCharacter : Int) : Range :=
  ⟨⟨startLine, startCharacter⟩, ⟨stopLine, stopCharacter⟩⟩

instance : LT Range where
  lt a b := a.start < b.start ∨ a.start = b.start ∧ a.stop < b.stop

instance : LE Range where
  le a b := a.start < b.start ∨ a.start = b.start ∧ a.stop ≤ b.stop

instance (a b : Range) : Decidable (a < b) :=
  inferInstanceAs (Decidable (a.start < b.start ∨ a.start = b.start ∧ a.stop < b.stop))

instance (a b : Range) : Decidable (a ≤ b) :=
  inferInstanceAs (Decidable (a.start < b.start ∨ a.start = b.start ∧ a.stop ≤ b.stop))

/-- Whether a position lies in the range, its end included. -/
def contains (r : Range) (p : Position) : Bool := r.start ≤ p && p ≤ r.stop

theorem contains_iff {r : Range} {p : Position} :
    r.contains p = true ↔ r.start ≤ p ∧ p ≤ r.stop := by
  simp [contains]

end Range

def Position.message (p : Position) : String :=
  s!"Position(line={p.line}, character={p.character})"

def Range.message (r : Range) : String :=
  s!"Range(start={r.start.message}, end={r.stop.message})"

end LogicAsm
