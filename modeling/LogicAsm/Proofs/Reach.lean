import LogicAsm.Proofs.Jumps.Targets
import LogicAsm.Proofs.Numerals

/-!
# Numbers out of reach

A hexadecimal or binary literal writes an exact number of any size.  As an address it has to be in
the reach of binary64 all the same.

* A natural number is out of reach from the midpoint between the largest finite number and two to
  the power of 1024 on (`ofRatio_one_eq_infinite_iff`), since there rounding gives that power.
* A literal that writes such a number begins with `0x` or `0b` (`writesExactly_iff`).  Decimal
  literals are rounded when they are read, and have an address, or none, whatever their size.

So the address of what a token says cannot be taken if and only if it is such a literal
(`Lexeme.address_eq_error_iff`).
-/

namespace LogicAsm

/-! ### Numbers out of reach -/

namespace Magnitude

/-- The midpoint between the largest finite number and two to the power of 1024.  It is rounded up,
since the mantissa of the largest finite number is odd. -/
def overflow : Nat := 2 ^ 1024 - 2 ^ 970

/-- A number below the next multiple of `2 * half` is rounded up to it from the middle on, if the
multiple below is an odd one. -/
theorem roundHalfEven_eq_succ_iff {n k half : Nat} (hhalf : 0 < half) (hodd : k % 2 = 1)
    (hn : n < (k + 1) * (2 * half)) :
    roundHalfEven n (2 * half) = k + 1 ↔ k * (2 * half) + half ≤ n := by
  have hpos : 0 < 2 * half := by omega
  have hq : n / (2 * half) ≤ k := Nat.le_of_lt_succ ((Nat.div_lt_iff_lt_mul hpos).2 hn)
  have hr : n % (2 * half) < 2 * half := Nat.mod_lt n hpos
  have hsplit : n / (2 * half) * (2 * half) + n % (2 * half) = n := Nat.div_add_mod' n (2 * half)
  rw [roundHalfEven]
  rcases Nat.lt_or_eq_of_le hq with hq | hq
  · -- The multiple below is a smaller one, so the next one is not reached.
    have hnext : (n / (2 * half) + 1) * (2 * half) ≤ k * (2 * half) :=
      Nat.mul_le_mul_right _ hq
    rw [Nat.add_mul] at hnext
    constructor
    · intro h
      split_ifs at h <;> omega
    · intro h
      omega
  · rw [hq] at hsplit ⊢
    generalize k * (2 * half) = below at hsplit ⊢
    split_ifs <;> omega

/-- The mantissa of a number that is rounded up to the next power of two has one bit more. -/
theorem scaled_eq_iff {n k : Nat} (hzero : n ≠ 0) (hlog : n.log2 = k + 53) :
    scaled n 1 ((k + 1 : Nat) : Int) = 2 * leadingBit ↔ 2 ^ (k + 54) - 2 ^ k ≤ n := by
  have hscaled : scaled n 1 ((k + 1 : Nat) : Int) = roundHalfEven n (2 * 2 ^ k) := by
    rw [scaled, if_pos (Int.natCast_nonneg _), Int.toNat_natCast, Nat.one_mul, ← Nat.pow_succ']
    rfl
  have hpower : 2 ^ (k + 54) = 2 ^ 54 * 2 ^ k := by rw [Nat.pow_add, Nat.mul_comm]
  have hlt : n < 2 ^ (k + 54) := (Nat.log2_lt hzero).1 (by omega)
  have hrounded := @roundHalfEven_eq_succ_iff n (2 ^ 53 - 1) (2 ^ k) (Nat.two_pow_pos k)
    (by decide) (by omega)
  have hbit : 2 * leadingBit = 2 ^ 53 - 1 + 1 := by decide
  rw [hscaled, hbit, hrounded]
  omega

/-- Where the exponent of a number ends up above `k + 1`, which is one more than that of its unit
while it is not rounded up. -/
theorem exponent_iff {n k : Nat} (hzero : n ≠ 0) :
    k + 53 < n.log2 ∨ n.log2 = k + 53 ∧ scaled n 1 ((k + 1 : Nat) : Int) = 2 * leadingBit ↔
      2 ^ (k + 54) - 2 ^ k ≤ n := by
  have hhigh : 2 ^ (k + 54) = 2 ^ 54 * 2 ^ k := by rw [Nat.pow_add, Nat.mul_comm]
  have hlow : 2 ^ (k + 53) = 2 ^ 53 * 2 ^ k := by rw [Nat.pow_add, Nat.mul_comm]
  rcases Nat.lt_trichotomy n.log2 (k + 53) with hlog | hlog | hlog
  · have hlt := (Nat.log2_lt hzero).1 hlog
    have hpos := Nat.two_pow_pos k
    omega
  · rw [scaled_eq_iff hzero hlog, hlog]
    simp
  · have hle : 2 ^ (k + 54) ≤ n := (Nat.le_log2 hzero).1 hlog
    exact ⟨fun _ => Nat.le_trans (Nat.sub_le _ _) hle, fun _ => .inl hlog⟩

/-- A natural number has no finite magnitude next to it from the midpoint on. -/
theorem ofRatio_one_eq_infinite_iff (n : Nat) : ofRatio n 1 = .infinite ↔ overflow ≤ n := by
  by_cases hzero : n = 0
  · subst hzero
    have hpos : ¬ overflow ≤ 0 := by decide +kernel
    simp [ofRatio, hpos]
  have hexponent : max (leadingExponent n 1 - 52) minExponent = (n.log2 : Int) - 52 := by
    rw [leadingExponent_one hzero, minExponent]
    omega
  have hinfinite : ofRatio n 1 = .infinite ↔ 970 + 53 < n.log2 ∨
      n.log2 = 970 + 53 ∧ scaled n 1 ((n.log2 : Int) - 52) = 2 * leadingBit := by
    rw [ofRatio, if_neg hzero]
    simp only [hexponent, maxExponent]
    split_ifs <;> simp <;> omega
  have hunit (hlog : n.log2 = 970 + 53) : (n.log2 : Int) - 52 = ((970 + 1 : Nat) : Int) := by omega
  have hreach := @exponent_iff n 970 hzero
  rw [hinfinite, show overflow = 2 ^ (970 + 54) - 2 ^ 970 by decide +kernel, ← hreach]
  exact or_congr_right (and_congr_right fun hlog => by rw [hunit hlog])

end Magnitude

/-! ### Literals out of reach -/

namespace Literal

/-- A word that is `0x` or `0b` with digits of that base, and the number that it writes. -/
def WritesExactly (w : Text) (n : Nat) : Prop :=
  ∃ digits, digits ≠ [] ∧
    (w = '0' :: 'x' :: digits ∧ digits.all Text.isHexDigit = true ∧
        n = Text.digitsValue 16 digits ∨
      w = '0' :: 'b' :: digits ∧ digits.all isBinaryDigit = true ∧ n = Text.digitsValue 2 digits)

/-- An exact number is written in base sixteen or two. -/
theorem writesExactly_iff {w : Text} {n : Nat} :
    WritesExactly w n ↔ Number.read? w = some (.exact n) := by
  simp only [Number.read?, Option.map_eq_some_iff, read?_eq_some_iff]
  constructor
  · rintro ⟨digits, hne, ⟨rfl, hdigits, rfl⟩ | ⟨rfl, hdigits, rfl⟩⟩
    · exact ⟨.hexadecimal digits, ⟨⟨hne, List.all_eq_true.1 hdigits⟩, rfl⟩, rfl⟩
    · exact ⟨.binary digits, ⟨⟨hne, List.all_eq_true.1 hdigits⟩, rfl⟩, rfl⟩
  · rintro ⟨l, ⟨hproper, rfl⟩, hvalue⟩
    cases l with
    | hexadecimal digits =>
      exact ⟨digits, hproper.1,
        .inl ⟨rfl, List.all_eq_true.2 hproper.2, (Number.exact.inj hvalue).symm⟩⟩
    | binary digits =>
      exact ⟨digits, hproper.1,
        .inr ⟨rfl, List.all_eq_true.2 hproper.2, (Number.exact.inj hvalue).symm⟩⟩
    | decimal sign whole fraction exponent => cases hvalue

end Literal

/-- The address of a number cannot be taken if it is exact and out of reach. -/
theorem Number.address_eq_error_iff {x : Number} {e : Fault} :
    x.address = .error e ↔
      (∃ n, x = .exact n ∧ Magnitude.overflow ≤ n) ∧ e = .numberTooLarge := by
  cases x with
  | rounded x => simp [address]
  | exact n =>
    have hreach := Magnitude.ofRatio_one_eq_infinite_iff n
    rw [address]
    split
    · next hinfinite =>
      have hle := hreach.1 hinfinite
      constructor
      · rintro ⟨⟩
        exact ⟨⟨n, rfl, hle⟩, rfl⟩
      · rintro ⟨-, rfl⟩
        rfl
    · next hfinite =>
      refine iff_of_false (by rintro ⟨⟩) ?_
      rintro ⟨⟨_, ⟨⟩, hle⟩, -⟩
      rw [hreach.2 hle] at hfinite
      cases hfinite

/-- The address of a lexeme cannot be taken if it writes an exact number out of reach. -/
theorem Lexeme.address_eq_error_iff {x : Lexeme} (hx : x.WellFormed) {e : Fault} :
    x.address = .error e ↔
      (∃ n, Literal.WritesExactly x.2 n ∧ Magnitude.overflow ≤ n) ∧ e = .numberTooLarge := by
  -- Strings and comments begin otherwise, so what writes a number is a word.
  have hnumber {n : Nat} (h : Literal.WritesExactly x.2 n) : x.1 = .number := by
    have hliteral : Number.isLiteral x.2 = true := by
      obtain ⟨l, hl, -⟩ := Option.map_eq_some_iff.1 (Literal.writesExactly_iff.1 h)
      rw [Number.isLiteral, hl]
      rfl
    obtain ⟨digits, -, hw⟩ := h
    obtain ⟨p, -, hp⟩ := hx
    cases p with
    | blank c => cases hp
    | separator c => cases hp
    | comment body =>
      cases hp
      rcases hw with ⟨hw, -⟩ | ⟨hw, -⟩ <;> cases hw
    | quoted body closed =>
      cases hp
      rcases hw with ⟨hw, -⟩ | ⟨hw, -⟩ <;> cases hw
    | word w =>
      cases hp
      exact congrArg Prod.fst (classifyWord_of_isLiteral hliteral)
  rw [address]
  split
  · next hnone =>
    refine iff_of_false (by rintro ⟨⟩) ?_
    rintro ⟨⟨n, hn, -⟩, -⟩
    rw [hnumber hn, beq_self_eq_true, if_pos rfl, Literal.writesExactly_iff.1 hn] at hnone
    cases hnone
  · next value hvalue =>
    rw [Number.address_eq_error_iff]
    refine and_congr_left' (exists_congr fun n => and_congr_left' ?_)
    rw [Literal.writesExactly_iff]
    constructor
    · rintro rfl
      split at hvalue
      · exact hvalue
      · cases hvalue
    · intro hn
      rw [hnumber (Literal.writesExactly_iff.2 hn), beq_self_eq_true, if_pos rfl, hn] at hvalue
      exact (Option.some.inj hvalue).symm

end LogicAsm
