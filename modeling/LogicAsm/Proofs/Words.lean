import LogicAsm.BitSet
import Mathlib.Algebra.Ring.Parity
import Mathlib.Data.Nat.Bitwise

/-!
# Words and their bits

A word is a number, and what is said of it is said bit by bit.  Two loops read a word.  One takes
the lowest bit off, `n & -n`, until nothing is left (`Word.members`); the other counts the ones
among the binary digits (`Word.popcount`).  Here it is shown that the first finds the place of
every bit once, in ascending order, and that the second counts as many.

Both rest on what taking the lowest bit off does to the binary digits.  An odd number loses its
last digit (`xor_lowest_two_mul_add_one`), and an even one loses what its half loses
(`xor_lowest_two_mul`); so the facts about the lowest bit go by induction on the digits, the last
one first, and those about the loop by induction on the number that is left.
-/

namespace LogicAsm

namespace Word

/-! ### Bits of words -/

@[simp] theorem toNat_or (w v : Word) : (w ||| v).toNat = w.toNat ||| v.toNat := rfl

@[simp] theorem toNat_and (w v : Word) : (w &&& v).toNat = w.toNat &&& v.toNat := rfl

@[simp] theorem toNat_xor (w v : Word) : (w ^^^ v).toNat = w.toNat ^^^ v.toNat := rfl

theorem testBit_without (a b i : Nat) :
    (without a b).testBit i = (a.testBit i && !b.testBit i) := by
  rw [without, Nat.testBit_xor, Nat.testBit_and]
  cases a.testBit i <;> cases b.testBit i <;> rfl

theorem testBit_mask (i : Nat) : mask.testBit i = decide (i < 32) :=
  Nat.testBit_two_pow_sub_one 32 i

/-- One bit of the word for a number. -/
theorem testBit_bit (i j : Nat) : (bit i).toNat.testBit (j % 32) = decide (j % 32 = i % 32) := by
  rw [bit, Nat.one_shiftLeft, Nat.testBit_two_pow]
  exact decide_eq_decide.2 eq_comm

theorem testBit_clear (w : Word) (i j : Nat) : (w.clear i).toNat.testBit (j % 32) =
    (w.toNat.testBit (j % 32) && !decide (j % 32 = i % 32)) := by
  have hj : j % 32 < 32 := Nat.mod_lt j (by decide)
  rw [clear, Nat.testBit_and, testBit_without, testBit_mask, testBit_bit, decide_eq_true hj,
    Bool.true_and]

theorem bit_lt (i : Nat) : (bit i).toNat < 2 ^ 32 := by
  rw [bit, Nat.one_shiftLeft]
  exact Nat.pow_lt_pow_right (by decide) (Nat.mod_lt i (by decide))

theorem clear_lt {w : Word} (i : Nat) (h : w.toNat < 2 ^ 32) : (w.clear i).toNat < 2 ^ 32 :=
  Nat.lt_of_le_of_lt Nat.and_le_left h

/-- A word below 2³² has no bit from the 32nd on. -/
theorem lt_of_testBit {w : Word} {j : Nat} (h : w.toNat < 2 ^ 32)
    (hbit : w.toNat.testBit j = true) : j < 32 := by
  by_contra hj
  have hle : 2 ^ 32 ≤ 2 ^ j := Nat.pow_le_pow_right (by decide) (Nat.not_lt.1 hj)
  rw [Nat.testBit_lt_two_pow (Nat.lt_of_lt_of_le h hle)] at hbit
  cases hbit

/-! ### The lowest bit -/

theorem lowest_two_mul (n : Nat) : lowest (2 * n) = 2 * lowest n := by
  have hdiv : (2 * n - 1) / 2 = n - 1 := by omega
  apply Nat.eq_of_testBit_eq
  intro i
  cases i with
  | zero =>
    rw [lowest, testBit_without]
    simp
  | succ i =>
    rw [lowest, testBit_without, Nat.testBit_succ, Nat.testBit_succ, Nat.testBit_succ, hdiv,
      Nat.mul_div_cancel_left _ Nat.two_pos, Nat.mul_div_cancel_left _ Nat.two_pos, lowest,
      testBit_without]

theorem lowest_two_mul_add_one (n : Nat) : lowest (2 * n + 1) = 1 := by
  have hdiv : (2 * n + 1) / 2 = 2 * n / 2 := by omega
  apply Nat.eq_of_testBit_eq
  intro i
  cases i with
  | zero =>
    rw [lowest, testBit_without]
    simp
  | succ i =>
    rw [lowest, testBit_without, Nat.add_sub_cancel, Nat.testBit_succ, Nat.testBit_succ,
      Nat.testBit_succ, hdiv, Bool.and_not_self]
    exact (Nat.zero_testBit i).symm

/-- The lowest bit is a bit of the number, and no bit is below it. -/
theorem exists_lowest_eq {n : Nat} (h : n ≠ 0) :
    ∃ k, lowest n = 2 ^ k ∧ n.testBit k = true ∧ ∀ j < k, n.testBit j = false := by
  induction n using Nat.strongRecOn with
  | ind n ih =>
    obtain ⟨m, rfl | rfl⟩ := n.even_or_odd'
    · have hdiv : 2 * m / 2 = m := by omega
      obtain ⟨k, hlowest, hbit, hbelow⟩ := ih m (by omega) (by omega)
      refine ⟨k + 1, ?_, ?_, fun j hj => ?_⟩
      · rw [lowest_two_mul, hlowest, Nat.pow_succ, Nat.mul_comm]
      · rwa [Nat.testBit_succ, hdiv]
      · cases j with
        | zero => simp
        | succ j =>
          rw [Nat.testBit_succ, hdiv]
          exact hbelow j (by omega)
    · refine ⟨0, lowest_two_mul_add_one m, by simp, ?_⟩
      intro j hj
      exact absurd hj (Nat.not_lt_zero j)

theorem xor_lowest_two_mul (n : Nat) :
    2 * n ^^^ lowest (2 * n) = 2 * (n ^^^ lowest n) := by
  have hdiv : (2 * n ^^^ 2 * lowest n) / 2 = n ^^^ lowest n := by
    rw [Nat.xor_div_two, Nat.mul_div_cancel_left _ Nat.two_pos,
      Nat.mul_div_cancel_left _ Nat.two_pos]
  have hmod : (2 * n ^^^ 2 * lowest n) % 2 = 0 := by
    rw [Nat.xor_mod_two_eq]
    omega
  rw [lowest_two_mul]
  omega

theorem xor_lowest_two_mul_add_one (n : Nat) :
    (2 * n + 1) ^^^ lowest (2 * n + 1) = 2 * n := by
  have hdiv : ((2 * n + 1) ^^^ 1) / 2 = n := by
    rw [Nat.xor_div_two, show (2 * n + 1) / 2 = n by omega]
    exact Nat.xor_zero n
  have hmod : ((2 * n + 1) ^^^ 1) % 2 = 0 := by
    rw [Nat.xor_mod_two_eq]
    omega
  rw [lowest_two_mul_add_one]
  omega

/-- The place of the lowest bit comes first; what is left has the other bits, which are above. -/
theorem exists_members_eq (base : Nat) {n : Nat} (h : n ≠ 0) :
    ∃ k, members base n = (base + k) :: members base (n ^^^ lowest n) ∧
      (∀ j, n.testBit j = true ↔ j = k ∨ (n ^^^ lowest n).testBit j = true) ∧
      ∀ j, (n ^^^ lowest n).testBit j = true → k < j := by
  obtain ⟨k, hlowest, hbit, hbelow⟩ := exists_lowest_eq h
  have hleft (j : Nat) : (n ^^^ lowest n).testBit j = (n.testBit j ^^ decide (k = j)) := by
    rw [hlowest, Nat.testBit_xor, Nat.testBit_two_pow]
  refine ⟨k, ?_, fun j => ?_, fun j hj => ?_⟩
  · have hlength : bitLength (lowest n) = k + 1 := by
      rw [hlowest, bitLength, if_neg (Nat.two_pow_pos k).ne', Nat.log2_two_pow]
    rw [members, if_neg h, hlength]
    rfl
  · rw [hleft]
    by_cases hjk : j = k
    · subst hjk
      simp [hbit]
    · simp [hjk, Ne.symm hjk]
  · rw [hleft] at hj
    -- Below the lowest bit none is set, and the lowest one is cleared.
    by_contra hle
    rcases Nat.lt_or_eq_of_le (Nat.not_lt.1 hle) with hlt | rfl
    · simp [hbelow j hlt, Nat.ne_of_gt hlt] at hj
    · simp [hbit] at hj

/-! ### The places of the bits -/

theorem members_zero (base : Nat) : members base 0 = [] := by
  rw [members, if_pos rfl]

theorem mem_members {base n i : Nat} :
    i ∈ members base n ↔ ∃ j, n.testBit j = true ∧ i = base + j := by
  induction n using Nat.strongRecOn with
  | ind n ih =>
    by_cases h : n = 0
    · subst h
      simp [members_zero]
    · obtain ⟨k, hmembers, hbits, -⟩ := exists_members_eq base h
      rw [hmembers, List.mem_cons, ih _ (xor_lowest_lt h)]
      constructor
      · rintro (rfl | ⟨j, hj, rfl⟩)
        · exact ⟨k, (hbits k).2 (.inl rfl), rfl⟩
        · exact ⟨j, (hbits j).2 (.inr hj), rfl⟩
      · rintro ⟨j, hj, rfl⟩
        rcases (hbits j).1 hj with rfl | hleft
        · exact .inl rfl
        · exact .inr ⟨j, hleft, rfl⟩

/-- The loop goes up: what is left of a number has only bits above the one taken off. -/
theorem pairwise_members (base n : Nat) : (members base n).Pairwise (· < ·) := by
  induction n using Nat.strongRecOn with
  | ind n ih =>
    by_cases h : n = 0
    · subst h
      rw [members_zero]
      exact .nil
    · obtain ⟨k, hmembers, -, habove⟩ := exists_members_eq base h
      rw [hmembers]
      refine .cons (fun i hi => ?_) (ih _ (xor_lowest_lt h))
      obtain ⟨j, hj, rfl⟩ := mem_members.1 hi
      have hlt := habove j hj
      omega

/-! ### The number of bits -/

/-- The last binary digit is counted like the others. -/
theorem popcount_eq (n : Nat) : popcount n = popcount (n / 2) + n % 2 := by
  by_cases h : n < 2
  · obtain rfl | rfl : n = 0 ∨ n = 1 := by omega
    all_goals rfl
  · rw [popcount, Nat.toDigits_of_base_le (by decide) (Nat.not_lt.1 h), List.count_append]
    rcases Nat.mod_two_eq_zero_or_one n with hmod | hmod <;> rw [hmod] <;> rfl

theorem popcount_two_mul (n : Nat) : popcount (2 * n) = popcount n := by
  rw [popcount_eq, Nat.mul_div_cancel_left _ Nat.two_pos, Nat.mul_mod_right, Nat.add_zero]

theorem popcount_two_mul_add_one (n : Nat) : popcount (2 * n + 1) = popcount n + 1 := by
  rw [popcount_eq, show (2 * n + 1) / 2 = n by omega, show (2 * n + 1) % 2 = 1 by omega]

/-- Taking the lowest bit off takes one off the count. -/
theorem popcount_xor_lowest {n : Nat} (h : n ≠ 0) :
    popcount (n ^^^ lowest n) + 1 = popcount n := by
  induction n using Nat.strongRecOn with
  | ind n ih =>
    obtain ⟨m, rfl | rfl⟩ := n.even_or_odd'
    · rw [xor_lowest_two_mul, popcount_two_mul, popcount_two_mul]
      exact ih m (by omega) (by omega)
    · rw [xor_lowest_two_mul_add_one, popcount_two_mul, popcount_two_mul_add_one]

theorem length_members (base n : Nat) : (members base n).length = popcount n := by
  induction n using Nat.strongRecOn with
  | ind n ih =>
    by_cases h : n = 0
    · subst h
      rw [members_zero]
      rfl
    · obtain ⟨k, hmembers, -⟩ := exists_members_eq base h
      rw [hmembers, List.length_cons, ih _ (xor_lowest_lt h), popcount_xor_lowest h]

end Word

end LogicAsm
