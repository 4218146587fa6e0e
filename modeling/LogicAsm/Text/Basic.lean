/-!
# Text as a list of characters

Everything the library reads and writes is a `Text`: a list of characters.  Columns, offsets and
lengths count characters, so a list is not only the shape that every scanner recurses on, it is
also the measure that every position refers to.

## What this module holds

* `Text.cut` cuts a text at each separator, so `n` separators give `n + 1` parts; `Text.lines` cuts
  it at its line feeds.
* `Text.unifyNewlines` is the rule for reading files and standard input: a carriage return, alone or
  in front of a line feed, is a line feed.
* `Text.trimLeft`, `Text.trimRight` and `Text.trim` take off characters of a class at the ends, and
  `Text.words` cuts at runs of such characters.
-/

namespace LogicAsm

/-- A text is the list of its characters. -/
abbrev Text := List Char

namespace Text

/-! ### Lines -/

/-- The parts of a text between separators. -/
def cut (separator : Char) : Text → List Text
  | [] => [[]]
  | c :: cs =>
    if c = separator then [] :: cut separator cs
    else
      match cut separator cs with
      | [] => [[c]]
      | l :: ls => (c :: l) :: ls

/-- A text always has a part, if only an empty one. -/
theorem cut_ne_nil (separator : Char) (t : Text) : cut separator t ≠ [] := by
  cases t with
  | nil => simp [cut]
  | cons c cs =>
    unfold cut
    split
    · simp
    · split <;> simp

/-- Joining the parts with separators gives the text back. -/
theorem intercalate_cut (separator : Char) (t : Text) :
    List.intercalate [separator] (cut separator t) = t := by
  induction t with
  | nil => rfl
  | cons c cs ih =>
    unfold cut
    cases hl : cut separator cs with
    | nil => exact absurd hl (cut_ne_nil separator cs)
    | cons l ls =>
      rw [hl] at ih
      split
      · next h => simp [List.intercalate, List.intersperse, h, ← ih]
      · cases ls with
        | nil => simpa [List.intercalate, List.intersperse] using ih
        | cons m ms => simpa [List.intercalate, List.intersperse] using ih

def lines (t : Text) : List Text := cut '\n' t

/-- A carriage return becomes a line feed; one in front of a line feed is dropped. -/
def unifyNewlines : Text → Text
  | [] => []
  | '\r' :: '\n' :: cs => '\n' :: unifyNewlines cs
  | c :: cs => (if c = '\r' then '\n' else c) :: unifyNewlines cs

/-! ### Trimming and words -/

/-- The text from its first character outside the class on. -/
def trimLeft (p : Char → Bool) (t : Text) : Text := t.dropWhile p

/-- The text up to its last character outside the class. -/
def trimRight (p : Char → Bool) (t : Text) : Text := (t.reverse.dropWhile p).reverse

def trim (p : Char → Bool) (t : Text) : Text := trimRight p (trimLeft p t)

/-- The runs of characters outside the class, in order. -/
def words (p : Char → Bool) (t : Text) : List Text :=
  (t.splitBy fun a b => p a == p b).filter fun run => !run.any p

/-! ### Small views -/

def startsWith (t start : Text) : Bool := start.isPrefixOf t

def endsWith (t : Text) (c : Char) : Bool := t.getLast? == some c

def ofNat (n : Nat) : Text := Nat.toDigits 10 n

end Text

end LogicAsm
