import LogicAsm.Binary64
import LogicAsm.Text.LowerCase

/-!
# Spelling suggestions

What a misspelled name may have been meant to be.  Candidates are compared by edit distance, the
least number of characters to insert, delete or replace; a candidate that differs in case only wins
over all others.

The distance is computed row by row.  Row `i` holds, for each start of the shorter text, its
distance to the first `i` characters of the longer one, so two rows are enough.  With a limit the
computation stops as soon as a whole row is above it.
-/

namespace LogicAsm.Spelling

/-! ### Edit distance -/

/-- The rest of a row, given the entry to the left, the row above from the entry above that one on,
and the characters of the remaining columns. -/
def rowFrom (c : Char) (left : Nat) : List Nat → Text → List Nat
  | diagonal :: above :: rest, d :: ds =>
    let here := min (min (above + 1) (left + 1)) (diagonal + if c = d then 0 else 1)
    here :: rowFrom c here (above :: rest) ds
  | _, _ => []

def nextRow (c : Char) (row : List Nat) (target : Text) : List Nat :=
  match row with
  | [] => []
  | first :: _ => (first + 1) :: rowFrom c (first + 1) row target

def exceeds (limit : Option Int) (n : Nat) : Bool := limit.any fun (l : Int) => l < n

/-- The last row, or nothing when some row is above the limit throughout. -/
def lastRow? (limit : Option Int) (target : Text) (row : List Nat) : Text → Option (List Nat)
  | [] => some row
  | c :: cs =>
    let next := nextRow c row target
    if next.min?.any (exceeds limit) then none else lastRow? limit target next cs

/-- The edit distance of two texts, the longer one first. -/
def distanceOfLonger? (longer shorter : Text) (limit : Option Int) : Option Nat :=
  if exceeds limit (longer.length - shorter.length) then none
  else do
    let row ← lastRow? limit shorter (List.range (shorter.length + 1)) longer
    let distance ← row.getLast?
    if exceeds limit distance then none else some distance

/-- The edit distance of two texts, or nothing when it is above the limit. -/
def distance? (source target : Text) (limit : Option Int) : Option Nat :=
  if source.length < target.length then distanceOfLonger? target source limit
  else distanceOfLonger? source target limit

/-! ### Suggestions -/

/-- The whole part of a fraction of a length.  Both are binary64 numbers, and so is their product,
which is finite for any length that a text can have. -/
def share (length : Nat) (fraction : Magnitude) : Nat :=
  ((Magnitude.ofRatio length 1).mul fraction).wholePart?.getD 0

/-- How much longer or shorter than a name a candidate may be: a third of the name, and two at
least. -/
def lengthSlack (name : Text) : Nat := max 2 (share name.length (.ofRatio 34 100))

/-- The greatest distance of a candidate: two fifths of the name. -/
def reach (name : Text) : Nat := share name.length (.ofRatio 2 5)

def lengthGap (a b : Text) : Nat := max a.length b.length - min a.length b.length

/-- The best of the candidates, where `best` is the best so far and `bound` is the distance that a
better one has to stay below. -/
def suggestFrom (name : Text) (best : Option Text) (bound : Nat) : List Text → Option Text
  | [] => best
  | candidate :: rest =>
    if candidate = name ∨ lengthSlack name < lengthGap candidate name then
      suggestFrom name best bound rest
    else if candidate.lower = name.lower then some candidate
    else if candidate.length < 3 then suggestFrom name best bound rest
    else
      match distance? name.lower candidate.lower (some (bound - 1 : Int)) with
      | some distance => suggestFrom name (some candidate) distance rest
      | none => suggestFrom name best bound rest

/-- The candidate closest to a name, if any is close. -/
def suggest (name : Text) (candidates : List Text) : Option Text :=
  suggestFrom name none (reach name + 1) candidates

/-- The question behind a message about an unknown name. -/
def didYouMean (name : Text) (candidates : List Text) : String :=
  match suggest name candidates with
  | none => ""
  | some candidate => s!" Did you mean '{String.ofList candidate}'?"

end LogicAsm.Spelling
