import LogicAsm.Index

/-!
# Counts

How many copies of something are made.  A count is a signed number of 64 bits, and one below zero
asks for no copies.  The memory that copies take is not a matter of this theory: as many as can be
counted are made.
-/

namespace LogicAsm.Count

/-- The number of copies that a count asks for, or the refusal of a count beyond 64 bits. -/
def check (count : Int) : Except Fault Nat :=
  if Index.isSized count then .ok count.toNat else .error .countTooLarge

def copies (count : Int) (c : Char) : Except Fault Text :=
  (check count).map fun n => List.replicate n c

theorem check_of_lt {count : Nat} (h : (count : Int) < Index.bound) : check count = .ok count := by
  have hlower : -Index.bound ≤ (count : Int) := by
    unfold Index.bound
    omega
  have hsized : Index.isSized count = true :=
    Bool.and_eq_true_iff.2 ⟨decide_eq_true hlower, decide_eq_true h⟩
  rw [check, if_pos hsized]
  rfl

theorem check_of_le {count : Int} (h : Index.bound ≤ count) :
    check count = .error .countTooLarge := by
  have hsized : ¬ Index.isSized count = true := by
    intro hsized
    exact absurd (of_decide_eq_true (Bool.and_eq_true_iff.1 hsized).2) (Int.not_lt.2 h)
  rw [check, if_neg hsized]

theorem eq_of_check_eq_error {count : Int} {fault : Fault} (h : check count = .error fault) :
    fault = .countTooLarge := by
  unfold check at h
  split at h
  · cases h
  · exact (Except.error.inj h).symm

end LogicAsm.Count
