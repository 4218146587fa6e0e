import LogicAsm.Token

/-!
# Pieces of a line

The first step of reading a program cuts each line into *pieces*: blanks, separators and lexemes.
Nothing is dropped, so the pieces of a line, put together, are the line (`flatMap_text_scan`).

* A blank is a space or a tab.
* A separator is a semicolon or a carriage return: it ends a statement.
* A comment runs from `#` to the end of the line or a carriage return.
* A string runs from a quote to the next quote; where there is none, to the end of the line or a
  carriage return.
* Everything else is a word, and it ends in front of a blank, a separator or a `#`.  A quote inside
  a word is part of it.
-/

namespace LogicAsm

inductive Piece where
  | blank (c : Char)
  | separator (c : Char)
  | comment (body : Text)
  | quoted (body : Text) (closed : Bool)
  | word (text : Text)
deriving DecidableEq

namespace Piece

/-! ### Classes of characters -/

/-- A character between the tokens of a statement. -/
def isBlank (c : Char) : Bool := c == ' ' || c == '\t'

/-- A character between statements. -/
def isSeparator (c : Char) : Bool := c == ';' || c == '\r'

/-- A character that a comment goes on with. -/
def inComment (c : Char) : Bool := c != '\r'

def inString (c : Char) : Bool := c != '"' && c != '\r'

def inWord (c : Char) : Bool := !isBlank c && !isSeparator c && c != '#'

/-! ### Scanning -/

def text : Piece → Text
  | .blank c => [c]
  | .separator c => [c]
  | .comment body => '#' :: body
  | .quoted body closed => '"' :: body ++ if closed then ['"'] else []
  | .word t => t

/-- A string from behind its opening quote: its piece, and what follows it. -/
def takeString (cs : Text) : Piece × Text :=
  match cs.dropWhile inString with
  | '"' :: rest => (.quoted (cs.takeWhile inString) true, rest)
  | rest => (.quoted (cs.takeWhile inString) false, rest)

theorem length_takeString_le (cs : Text) : (takeString cs).2.length ≤ cs.length := by
  have h := (List.dropWhile_sublist inString (l := cs)).length_le
  unfold takeString
  split
  · next heq =>
    rw [heq] at h
    simp only [List.length_cons] at h
    simp only
    omega
  · exact h

/-- The piece that a line starts with, and what follows it. -/
def next (c : Char) (cs : Text) : Piece × Text :=
  if isBlank c then (.blank c, cs)
  else if isSeparator c then (.separator c, cs)
  else if c = '#' then (.comment (cs.takeWhile inComment), cs.dropWhile inComment)
  else if c = '"' then takeString cs
  else (.word (c :: cs.takeWhile inWord), cs.dropWhile inWord)

/-- A piece takes at least one character. -/
theorem length_next_le (c : Char) (cs : Text) : (next c cs).2.length ≤ cs.length := by
  unfold next
  split
  · exact Nat.le_refl _
  split
  · exact Nat.le_refl _
  split
  · exact (List.dropWhile_sublist _).length_le
  split
  · exact length_takeString_le _
  · exact (List.dropWhile_sublist _).length_le

def scan (cs : Text) : List Piece :=
  match cs with
  | [] => []
  | c :: cs => (next c cs).1 :: scan (next c cs).2
termination_by cs.length
decreasing_by
  have := length_next_le c cs
  simp only [List.length_cons]
  omega

@[simp] theorem scan_nil : scan [] = [] := by
  rw [scan]

theorem scan_cons (c : Char) (cs : Text) :
    scan (c :: cs) = (next c cs).1 :: scan (next c cs).2 := by
  rw [scan]

/-! ### Nothing is lost -/

theorem text_takeString (cs : Text) : (takeString cs).1.text ++ (takeString cs).2 = '"' :: cs := by
  have h := List.takeWhile_append_dropWhile (p := inString) (l := cs)
  unfold takeString
  split
  · next heq =>
    rw [heq] at h
    simp [text, h]
  · simp [text, h]

/-- The first piece and the rest are the line. -/
theorem text_next (c : Char) (cs : Text) : (next c cs).1.text ++ (next c cs).2 = c :: cs := by
  unfold next
  split
  · rfl
  split
  · rfl
  split
  · next h => simp [text, h, List.takeWhile_append_dropWhile]
  split
  · next h => rw [text_takeString, h]
  · simp [text, List.takeWhile_append_dropWhile]

/-- The pieces of a line, put together, are the line. -/
theorem flatMap_text_scan (cs : Text) : (scan cs).flatMap text = cs := by
  fun_induction scan cs with
  | case1 => rfl
  | case2 c cs ih => rw [List.flatMap_cons, ih, text_next]

end Piece

end LogicAsm
