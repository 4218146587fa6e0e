import LogicAsm.Text.Basic

/-!
# Control sequences

A terminal takes some runs of characters as commands, to change a colour or to move the cursor: an
escape character and `[`, then parameters made of digits, `;` and `?`, and a letter that names the
command.  Programs and the names of files may hold such runs, and what is printed about them leaves
the runs out.

`plain` goes through a text once, from left to right.  Where the characters around a run that was
left out make a new one, that one stays.
-/

namespace LogicAsm.Text

/-- The character that starts a control sequence. -/
def escape : Char := '\x1b'

def isParameter (c : Char) : Bool := c.isDigit || c == ';' || c == '?'

/-- What follows the control sequence that a text starts with, if it starts with one. -/
def afterSequence? : Text → Option Text
  | c :: '[' :: cs =>
    match cs.dropWhile isParameter with
    | letter :: rest => if c = escape ∧ letter.isAlpha then some rest else none
    | [] => none
  | _ => none

theorem length_lt_of_afterSequence? {t rest : Text} (h : afterSequence? t = some rest) :
    rest.length < t.length := by
  unfold afterSequence? at h
  split at h
  · next c cs =>
    have hle := (List.dropWhile_sublist isParameter (l := cs)).length_le
    split at h
    · next heq =>
      rw [heq] at hle
      split at h
      · cases h
        simp only [List.length_cons] at hle ⊢
        omega
      · simp at h
    · simp at h
  · simp at h

def plain (t : Text) : Text :=
  match t with
  | [] => []
  | c :: cs =>
    match h : afterSequence? (c :: cs) with
    | some rest =>
      have := length_lt_of_afterSequence? h
      plain rest
    | none => c :: plain cs
termination_by t.length
decreasing_by
  · exact this
  · exact Nat.lt_succ_self _

end LogicAsm.Text
