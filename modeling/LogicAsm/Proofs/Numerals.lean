import LogicAsm.Proofs.NumberGrammar
import LogicAsm.Proofs.Rounding

/-!
# Decimal numerals are read back

The numeral of a natural number is a number (`classifyWord_ofNat`), and a number below two to the
power of 53 is read back from it exactly (`address_ofNat`): all of its bits fit a mantissa, so that
rounding changes nothing (`Magnitude.toNat?_ofRatio`).
-/

namespace LogicAsm

namespace Text

/-! ### Digits -/

/-- The usual digits. -/
theorem digit_spec : ∀ d < 10, isDigit (Nat.digitChar d) = true ∧
    digitOfBase? 10 (Nat.digitChar d) = some d := by
  decide

/-- A numeral is made up of the usual digits. -/
theorem mem_ofNat {n : Nat} : ∀ c ∈ ofNat n, ∃ d < 10, c = Nat.digitChar d := by
  induction n using Nat.strongRecOn with
  | ind n ih =>
    intro c hc
    rw [ofNat, Nat.toDigits_eq_if (by decide)] at hc
    split at hc
    · next hlt => exact ⟨n, hlt, List.mem_singleton.1 hc⟩
    · rcases List.mem_append.1 hc with hc | hc
      · exact ih (n / 10) (by omega) c hc
      · exact ⟨n % 10, Nat.mod_lt n (by decide), List.mem_singleton.1 hc⟩

theorem ofNat_ne_nil (n : Nat) : ofNat n ≠ [] := Nat.toDigits_ne_nil

theorem isDigit_of_mem_ofNat {n : Nat} : ∀ c ∈ ofNat n, isDigit c = true := by
  intro c hc
  obtain ⟨d, hd, rfl⟩ := mem_ofNat c hc
  exact (digit_spec d hd).1

/-- A numeral has the value that it was made of. -/
theorem digitsValue_ofNat (n : Nat) : digitsValue 10 (ofNat n) = n := by
  -- Digits are added at the end, as the recursion divides by ten.
  have hsnoc (digits : Text) (d : Nat) (hd : d < 10) :
      digitsValue 10 (digits ++ [Nat.digitChar d]) = digitsValue 10 digits * 10 + d := by
    rw [digitsValue, List.foldl_append, List.foldl_cons, List.foldl_nil, (digit_spec d hd).2]
    rfl
  induction n using Nat.strongRecOn with
  | ind n ih =>
    rw [ofNat, Nat.toDigits_eq_if (by decide)]
    split
    · next hlt =>
      have h := hsnoc [] n hlt
      rwa [List.nil_append, show digitsValue 10 [] = 0 from rfl, Nat.zero_mul, Nat.zero_add] at h
    · have hvalue : digitsValue 10 (Nat.toDigits 10 (n / 10)) = n / 10 := ih (n / 10) (by omega)
      rw [hsnoc _ _ (Nat.mod_lt n (by decide)), hvalue]
      omega

end Text

/-! ### Numerals are literals -/

theorem read?_ofNat (n : Nat) :
    Literal.read? (Text.ofNat n) = some (.decimal .none (Text.ofNat n) none none) :=
  Literal.read?_eq_some_iff.2 ⟨⟨Text.isDigit_of_mem_ofNat, by simp,
    .inl (Text.ofNat_ne_nil n), by simp⟩, by simp [Literal.text, Sign.text]⟩

/-- A numeral is a number. -/
theorem classifyWord_ofNat (n : Nat) : classifyWord (Text.ofNat n) = (.number, []) := by
  apply classifyWord_of_isLiteral
  rw [Number.isLiteral, read?_ofNat]
  rfl

/-- A numeral names the counter that it was made of. -/
theorem address_ofNat {n : Nat} (h : n < 2 ^ 53) {t : Token} (hkind : t.kind = .number)
    (hcontent : t.content = Text.ofNat n) : t.address = .ok (some n) := by
  have hnumber : t.number? = some (.rounded ⟨false, Magnitude.ofRatio n 1⟩) := by
    -- The numeral has no point and no exponent, so it is a whole ratio.
    have hdecimal : Magnitude.ofDecimal n (Text.ofNat n).length 0 = Magnitude.ofRatio n 1 := by
      unfold Magnitude.ofDecimal Magnitude.decimalReach
      by_cases hzero : n = 0
      · rw [if_pos hzero, hzero]
      · rw [if_neg hzero, if_neg (by omega), if_neg (by omega), if_pos (Int.le_refl 0)]
        show Magnitude.ofRatio (n * 10 ^ 0) 1 = _
        rw [Nat.pow_zero, Nat.mul_one]
    rw [Token.number?, Token.isNumber, hkind, hcontent, if_pos (by rfl), Number.read?, read?_ofNat]
    simp only [Option.map_some, Literal.value, Option.getD_none, List.append_nil,
      Text.digitsValue_ofNat, Literal.scaleOf, List.length_nil, Int.natCast_zero, Int.sub_zero,
      hdecimal]
    rfl
  rw [Token.address, hnumber]
  simp only [Number.address, Binary64.toInt?, Magnitude.toNat?_ofRatio h]
  rfl

end LogicAsm
