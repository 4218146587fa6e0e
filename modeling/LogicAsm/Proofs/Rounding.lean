import LogicAsm.Binary64
import Mathlib.Tactic.Positivity
import Mathlib.Tactic.Ring
import Mathlib.Tactic.SplitIfs

/-!
# Rounding of natural numbers and of their products

A natural number whose bits fit a mantissa is a binary64 number itself (`ofRatio_one`,
`toNat?_ofRatio`).  A product with a fraction is rounded, but its whole part is that of the exact
product if this is not too close below the next whole number (`wholePart?_mul`): the fewer bits the
whole part takes, the more are left to tell the two apart.
-/

namespace LogicAsm

/-! ### Rounding a quotient -/

theorem roundHalfEven_one (n : Nat) : roundHalfEven n 1 = n := by
  simp [roundHalfEven, Nat.mod_one]

/-- Rounding does not fall below a number that the quotient has reached. -/
theorem le_roundHalfEven {num den n : Nat} (hden : 0 < den) (h : n * den ≤ num) :
    n ≤ roundHalfEven num den := by
  have hle : n ≤ num / den := (Nat.le_div_iff_mul_le hden).2 h
  simp only [roundHalfEven]
  split_ifs <;> omega

/-- Rounding does not reach a number that is more than half a unit away. -/
theorem roundHalfEven_lt {num den n : Nat} (h : 2 * num + den < 2 * (n * den)) :
    roundHalfEven num den < n := by
  have hsplit : num / den * den + num % den = num := Nat.div_add_mod' num den
  have hdown : num / den < n := Nat.lt_of_mul_lt_mul_right (a := den) (by omega)
  have hup (htwice : den ≤ 2 * (num % den)) : num / den + 1 < n := by
    refine Nat.lt_of_mul_lt_mul_right (a := den) ?_
    rw [Nat.add_mul, Nat.one_mul]
    omega
  simp only [roundHalfEven]
  split_ifs <;> omega

namespace Magnitude

/-! ### Natural numbers -/

/-- The exponent of the leading bit, over a power of two. -/
theorem leadingExponent_two_pow {n : Nat} (h : n ≠ 0) (b : Nat) :
    leadingExponent n (2 ^ b) = n.log2 - b := by
  have hbits : 2 ^ n.log2 ≤ n := Nat.log2_self_le h
  have hreached : if 0 ≤ (n.log2 : Int) - b
      then 2 ^ b * Nat.pow 2 ((n.log2 : Int) - b).toNat ≤ n
      else 2 ^ b ≤ n * Nat.pow 2 (-((n.log2 : Int) - b)).toNat := by
    split
    · next hle =>
      show 2 ^ b * 2 ^ ((n.log2 : Int) - b).toNat ≤ n
      rwa [← Nat.pow_add, show b + ((n.log2 : Int) - b).toNat = n.log2 by omega]
    · next hlt =>
      show 2 ^ b ≤ n * 2 ^ (-((n.log2 : Int) - b)).toNat
      calc 2 ^ b = 2 ^ n.log2 * 2 ^ (-((n.log2 : Int) - b)).toNat := by
            rw [← Nat.pow_add]
            congr 1
            omega
        _ ≤ n * 2 ^ (-((n.log2 : Int) - b)).toNat := Nat.mul_le_mul_right _ hbits
  simp only [leadingExponent, Nat.log2_two_pow, if_pos hreached]

theorem leadingExponent_one {n : Nat} (h : n ≠ 0) : leadingExponent n 1 = n.log2 := by
  have hpower := leadingExponent_two_pow h 0
  rwa [Nat.pow_zero, Int.natCast_zero, Int.sub_zero] at hpower

/-- A natural number whose bits fit a mantissa is moved up until its leading bit is the highest one
there, so nothing is cut off. -/
theorem ofRatio_one {n shift : Nat} (hzero : n ≠ 0) (hshift : n.log2 + shift = 52) :
    ofRatio n 1 = .finite (n * 2 ^ shift) (-shift) := by
  have hexponent : max (leadingExponent n 1 - 52) minExponent = -(shift : Int) := by
    rw [leadingExponent_one hzero, minExponent]
    omega
  -- The ratio is whole, so moving it up to 53 bits rounds nothing away.
  have hscaled : scaled n 1 (-(shift : Int)) = n * 2 ^ shift := by
    unfold scaled
    split
    · obtain rfl : shift = 0 := by omega
      show roundHalfEven n (1 * 2 ^ 0) = _
      simp [roundHalfEven_one]
    · rw [Int.neg_neg, Int.toNat_natCast, roundHalfEven_one]
      rfl
  have hbound : n * 2 ^ shift < 2 * leadingBit := by
    have hlt : n < 2 ^ (n.log2 + 1) := Nat.lt_log2_self
    calc n * 2 ^ shift < 2 ^ (n.log2 + 1) * 2 ^ shift :=
          Nat.mul_lt_mul_of_pos_right hlt (Nat.two_pow_pos shift)
      _ = 2 ^ 53 := by
          rw [← Nat.pow_add]
          congr 1
          omega
      _ = 2 * leadingBit := by decide
  have hfinite : ¬ maxExponent < -(shift : Int) := by
    rw [maxExponent]
    omega
  rw [ofRatio, if_neg hzero]
  simp only [hexponent, hscaled, if_neg (Nat.ne_of_lt hbound), if_neg hfinite]

/-- A natural number whose bits fit a mantissa is its own nearest magnitude. -/
theorem toNat?_ofRatio {n : Nat} (h : n < 2 ^ 53) : (ofRatio n 1).toNat? = some n := by
  by_cases hzero : n = 0
  · subst hzero
    rw [ofRatio, if_pos rfl, toNat?, if_neg (by decide), Nat.zero_mod, if_pos rfl, Nat.zero_div]
  have hlog : n.log2 < 53 := (Nat.log2_lt hzero).2 h
  obtain ⟨shift, hshift⟩ : ∃ shift, n.log2 + shift = 52 := ⟨52 - n.log2, by omega⟩
  rw [ofRatio_one hzero hshift, toNat?]
  split
  · obtain rfl : shift = 0 := by omega
    simp
  · rw [Int.neg_neg, Int.toNat_natCast]
    show (if n * 2 ^ shift % 2 ^ shift = 0 then some (n * 2 ^ shift / 2 ^ shift) else none) = some n
    rw [if_pos (Nat.mul_mod_left n _), Nat.mul_div_cancel _ (Nat.two_pow_pos shift)]

/-! ### Whole parts -/

theorem wholePart?_finite_neg (m down : Nat) :
    (finite m (-(down : Int))).wholePart? = some (m / 2 ^ down) := by
  rw [wholePart?]
  split
  · obtain rfl : down = 0 := by omega
    simp
  · rw [Int.neg_neg, Int.toNat_natCast]
    rfl

/-- The whole part of what a quotient over a power of two is rounded to, where the exponent of the
mantissa is `-(down + 1)`. -/
theorem wholePart?_ofRatio_two_pow {n b down : Nat} (hzero : n ≠ 0)
    (hdown : n.log2 + (down + 1) = b + 52) (hmin : down < 1074) :
    (ofRatio n (2 ^ b)).wholePart? =
      some (roundHalfEven (n * 2 ^ (down + 1)) (2 ^ b) / 2 ^ (down + 1)) := by
  have hexponent :
      max (leadingExponent n (2 ^ b) - 52) minExponent = -((down + 1 : Nat) : Int) := by
    rw [leadingExponent_two_pow hzero, minExponent]
    omega
  have hscaled : scaled n (2 ^ b) (-((down + 1 : Nat) : Int)) =
      roundHalfEven (n * 2 ^ (down + 1)) (2 ^ b) := by
    rw [scaled, if_neg (by omega), Int.neg_neg, Int.toNat_natCast]
    rfl
  rw [ofRatio, if_neg hzero]
  simp only [hexponent, hscaled]
  by_cases hcarry : roundHalfEven (n * 2 ^ (down + 1)) (2 ^ b) = 2 * leadingBit
  · -- The leading bit takes the place of twice itself, one place further down.
    have hfinite : ¬ maxExponent < -((down + 1 : Nat) : Int) + 1 := by
      rw [maxExponent]
      omega
    have hnext : -((down + 1 : Nat) : Int) + 1 = -(down : Int) := by omega
    rw [if_pos hcarry, hcarry]
    simp only [if_neg hfinite]
    rw [hnext, wholePart?_finite_neg, Nat.pow_succ, Nat.mul_comm (2 ^ down),
      Nat.mul_div_mul_left _ _ (by decide)]
  · have hfinite : ¬ maxExponent < -((down + 1 : Nat) : Int) := by
      rw [maxExponent]
      omega
    rw [if_neg hcarry]
    simp only [if_neg hfinite]
    rw [wholePart?_finite_neg]

/-- A quotient keeps its whole part if it is further below the next whole number than half a unit in
the last place of the mantissa. -/
theorem wholePart?_ofRatio_eq {n b down whole : Nat} (hzero : n ≠ 0)
    (hdown : n.log2 + (down + 1) = b + 52) (hmin : down < 1074) (hle : whole * 2 ^ b ≤ n)
    (hlt : 2 * (n * 2 ^ (down + 1)) + 2 ^ b < 2 * ((whole + 1) * 2 ^ (down + 1) * 2 ^ b)) :
    (ofRatio n (2 ^ b)).wholePart? = some whole := by
  rw [wholePart?_ofRatio_two_pow hzero hdown hmin, Option.some_inj]
  refine Nat.div_eq_of_lt_le (le_roundHalfEven (Nat.two_pow_pos b) ?_) (roundHalfEven_lt hlt)
  rw [Nat.mul_right_comm]
  exact Nat.mul_le_mul_right _ hle

theorem wholePart?_zero_mul (m : Nat) (e : Int) :
    ((ofRatio 0 1).mul (.finite m e)).wholePart? = some 0 := by
  have hzero (den : Nat) : (ofRatio 0 den).wholePart? = some 0 := by
    rw [ofRatio, if_pos rfl, wholePart?, if_neg (by decide), Nat.zero_div]
  rw [ofRatio, if_pos rfl, mul]
  split
  · rw [Nat.zero_mul, Nat.zero_mul, hzero]
  · rw [Nat.zero_mul, hzero]

/-- The product of a natural number with a fraction `m / 2 ^ 54` has the whole part `whole` if the
exact product lies between `whole` and a bit below the next whole number. -/
theorem wholePart?_mul {n m whole : Nat} (hn : n < 2 ^ 48) (hlow : 2 ^ 52 ≤ m) (hhigh : m < 2 ^ 53)
    (hle : whole * 2 ^ 54 ≤ n * m) (hlt : n * m + 2 ^ 47 < (whole + 1) * 2 ^ 54) :
    ((ofRatio n 1).mul (.finite m (-54))).wholePart? = some whole := by
  by_cases hzero : n = 0
  · subst hzero
    obtain rfl : whole = 0 := by omega
    exact wholePart?_zero_mul m (-54)
  have hlog : n.log2 < 48 := (Nat.log2_lt hzero).2 hn
  obtain ⟨shift, hshift⟩ : ∃ shift, n.log2 + shift = 52 := ⟨52 - n.log2, by omega⟩
  have hproduct : (ofRatio n 1).mul (.finite m (-54)) =
      ofRatio (n * m * 2 ^ shift) (2 ^ (54 + shift)) := by
    have hexponent : ¬ (0 : Int) ≤ -(shift : Int) + -54 := by omega
    have hdown : (-(-(shift : Int) + -54)).toNat = 54 + shift := by omega
    rw [ofRatio_one hzero hshift, mul, if_neg hexponent, hdown, Nat.mul_right_comm]
    rfl
  have hpos : n * m * 2 ^ shift ≠ 0 := by
    have hm : m ≠ 0 := by omega
    exact Nat.mul_ne_zero (Nat.mul_ne_zero hzero hm) (Nat.two_pow_pos shift).ne'
  -- The product of two mantissas has 105 or 106 bits.
  have hbits : 104 ≤ (n * m * 2 ^ shift).log2 ∧ (n * m * 2 ^ shift).log2 < 106 := by
    have hself : 2 ^ 52 ≤ n * 2 ^ shift := by
      rw [← hshift, Nat.pow_add]
      exact Nat.mul_le_mul_right _ (Nat.log2_self_le hzero)
    have hnext : n * 2 ^ shift < 2 ^ 53 := by
      rw [show 53 = (n.log2 + 1) + shift by omega, Nat.pow_add]
      exact Nat.mul_lt_mul_of_pos_right Nat.lt_log2_self (Nat.two_pow_pos shift)
    rw [Nat.le_log2 hpos, Nat.log2_lt hpos, Nat.mul_right_comm, show 104 = 52 + 52 from rfl,
      show 106 = 53 + 53 from rfl, Nat.pow_add, Nat.pow_add]
    exact ⟨Nat.mul_le_mul hself hlow, Nat.mul_lt_mul'' hnext hhigh⟩
  obtain ⟨down, hdown⟩ : ∃ down, (n * m * 2 ^ shift).log2 + (down + 1) = (54 + shift) + 52 :=
    ⟨54 + shift + 51 - (n * m * 2 ^ shift).log2, by omega⟩
  rw [hproduct]
  refine wholePart?_ofRatio_eq hpos hdown (by omega) ?_ ?_
  · rw [Nat.pow_add, ← Nat.mul_assoc]
    exact Nat.mul_le_mul_right _ hle
  · -- A length below `2 ^ 48` leaves five places or more below the whole part.
    have hplaces : 2 ^ 54 ≤ 2 ^ 48 * 2 ^ (down + 1) := by
      rw [← Nat.pow_add]
      exact Nat.pow_le_pow_right (by decide) (by omega)
    calc 2 * (n * m * 2 ^ shift * 2 ^ (down + 1)) + 2 ^ (54 + shift)
        = (2 * (n * m) * 2 ^ (down + 1) + 2 ^ 54) * 2 ^ shift := by ring
      _ ≤ (2 * (n * m) * 2 ^ (down + 1) + 2 ^ 48 * 2 ^ (down + 1)) * 2 ^ shift :=
          Nat.mul_le_mul_right _ (Nat.add_le_add_left hplaces _)
      _ = 2 * (n * m + 2 ^ 47) * (2 ^ (down + 1) * 2 ^ shift) := by ring
      _ < 2 * ((whole + 1) * 2 ^ 54) * (2 ^ (down + 1) * 2 ^ shift) :=
          Nat.mul_lt_mul_of_pos_right (Nat.mul_lt_mul_of_pos_left hlt (by decide)) (by positivity)
      _ = 2 * ((whole + 1) * 2 ^ (down + 1) * 2 ^ (54 + shift)) := by ring

end Magnitude

end LogicAsm
