import LogicAsm.Proofs.Scanning

/-!
# The grammar of number literals

A word is a number literal if it is the text of a proper one: one whose rows hold digits of their
kind, and in which no row is empty that has to be there.  Reading finds its parts, and there is
only one way to take a word apart (`Literal.read?_eq_some_iff`).

Reading a decimal literal never has to look back: the digits in front of the point, and those behind
it, end at the first other character, whatever follows (`readDecimal?_append`).
-/

namespace LogicAsm

/-! ### Proper literals -/

/-- A row of one or more characters of a class. -/
def Text.IsRow (p : Char → Bool) (t : Text) : Prop := t ≠ [] ∧ ∀ c ∈ t, p c = true

/-- An exponent has one of the letters `e` and `E`, and digits. -/
def Exponent.IsProper (e : Exponent) : Prop :=
  (e.mark = 'e' ∨ e.mark = 'E') ∧ Text.IsRow Text.isDigit e.digits

/-- The characters of an exponent. -/
def Exponent.text (e : Exponent) : Text := e.mark :: (e.sign.text ++ e.digits)

namespace Literal

/-- The point of a decimal literal and the digits behind it, if there is a point. -/
def fractionText : Option Text → Text
  | none => []
  | some digits => '.' :: digits

/-- The exponent of a decimal literal, if there is one. -/
def exponentText : Option Exponent → Text
  | none => []
  | some e => e.text

/-- A literal that can be written: digits of the base, and of a decimal one digits in front of the
point or behind it. -/
def IsProper : Literal → Prop
  | .hexadecimal digits => Text.IsRow Text.isHexDigit digits
  | .binary digits => Text.IsRow isBinaryDigit digits
  | .decimal _ whole fraction exponent =>
    (∀ c ∈ whole, Text.isDigit c = true) ∧ (∀ c ∈ fraction.getD [], Text.isDigit c = true) ∧
      (whole ≠ [] ∨ fraction.getD [] ≠ []) ∧ ∀ e ∈ exponent, e.IsProper

theorem text_decimal (sign : Sign) (whole : Text) (fraction : Option Text)
    (exponent : Option Exponent) :
    (decimal sign whole fraction exponent).text =
      sign.text ++ (whole ++ (fractionText fraction ++ exponentText exponent)) := by
  simp only [text, List.append_assoc]
  cases fraction <;> cases exponent <;> rfl

/-! ### Signs -/

theorem takeSign_text (t : Text) : (takeSign t).1.text ++ (takeSign t).2 = t := by
  unfold takeSign
  split <;> rfl

/-- A sign is taken off a text that goes on without one. -/
theorem takeSign_append (sign : Sign) {t : Text} (h : ∀ c ∈ t.head?, c ≠ '+' ∧ c ≠ '-') :
    takeSign (sign.text ++ t) = (sign, t) := by
  cases sign with
  | plus => rfl
  | minus => rfl
  | none =>
    show takeSign t = _
    unfold takeSign
    split
    · exact absurd rfl (h '+' rfl).1
    · exact absurd rfl (h '-' rfl).2
    · rfl

/-- Digits are no signs. -/
theorem ne_sign_of_isDigit {c : Char} (h : Text.isDigit c = true) : c ≠ '+' ∧ c ≠ '-' := by
  constructor <;> (rintro rfl; revert h; decide)

/-! ### Exponents -/

/-- An exponent is read from its text, and from no other. -/
theorem readExponent?_eq_some_iff {t : Text} {exponent : Option Exponent} :
    readExponent? t = some exponent ↔
      (∀ e ∈ exponent, e.IsProper) ∧ t = exponentText exponent := by
  constructor
  · intro h
    cases t with
    | nil =>
      cases h
      simp [exponentText]
    | cons mark rest =>
      simp only [readExponent?] at h
      split at h
      · next hproper =>
        cases h
        obtain ⟨hmark, hne, hdigits⟩ := hproper
        refine ⟨?_, ?_⟩
        · rintro _ ⟨⟩
          exact ⟨hmark, hne, List.all_eq_true.1 hdigits⟩
        · rw [exponentText, Exponent.text, takeSign_text]
      · cases h
  · rintro ⟨hproper, rfl⟩
    cases exponent with
    | none => rfl
    | some e =>
      obtain ⟨hmark, hne, hdigits⟩ := hproper e rfl
      have hsign : takeSign (e.sign.text ++ e.digits) = (e.sign, e.digits) :=
        takeSign_append _ fun c hc => ne_sign_of_isDigit (hdigits c (List.mem_of_mem_head? hc))
      simp only [exponentText, Exponent.text, readExponent?, hsign]
      rw [if_pos ⟨hmark, hne, List.all_eq_true.2 hdigits⟩]

theorem head?_exponentText {exponent : Option Exponent} (h : ∀ e ∈ exponent, e.IsProper) :
    ∀ c ∈ (exponentText exponent).head?, c = 'e' ∨ c = 'E' := by
  cases exponent with
  | none => simp [exponentText]
  | some e =>
    rintro c ⟨⟩
    exact (h e rfl).1

/-! ### Decimal literals -/

/-- The parts of a decimal literal in front of its exponent are found, whatever stands behind, if
that does not go on with a digit or a point. -/
theorem readDecimal?_append (sign : Sign) {whole rest : Text} {fraction : Option Text}
    (hwhole : ∀ c ∈ whole, Text.isDigit c = true)
    (hfraction : ∀ c ∈ fraction.getD [], Text.isDigit c = true)
    (hne : whole ≠ [] ∨ fraction.getD [] ≠ [])
    (hrest : ∀ c ∈ rest.head?, Text.isDigit c = false ∧ c ≠ '.') :
    readDecimal? (sign.text ++ (whole ++ (fractionText fraction ++ rest))) =
      (readExponent? rest).map (decimal sign whole fraction) := by
  have hpoint : Text.isDigit '.' = false := by decide
  -- What follows the whole part is a point or the exponent, so the row of digits ends there.
  have hbehind : ∀ c ∈ (fractionText fraction ++ rest).head?, Text.isDigit c = false := by
    cases fraction with
    | none => exact fun c hc => (hrest c hc).1
    | some digits =>
      rintro c ⟨⟩
      exact hpoint
  have hsign : takeSign (sign.text ++ (whole ++ (fractionText fraction ++ rest))) =
      (sign, whole ++ (fractionText fraction ++ rest)) := by
    refine takeSign_append sign fun c hc => ?_
    cases whole with
    | cons d whole =>
      obtain rfl : d = c := Option.some.inj hc
      exact ne_sign_of_isDigit (hwhole d List.mem_cons_self)
    | nil =>
      cases fraction with
      | none => simp at hne
      | some digits =>
        cases hc
        decide
  rw [readDecimal?, hsign]
  simp only [Piece.takeWhile_append_of_head hwhole hbehind,
    Piece.dropWhile_append_of_head hwhole hbehind]
  cases fraction with
  | none =>
    have hwhole : whole ≠ [] := by simpa using hne
    cases rest with
    | nil => simp [fractionText, hwhole]
    | cons c rest =>
      have hc : c ≠ '.' := (hrest c rfl).2
      simp [fractionText, hwhole, hc]
  | some digits =>
    have hdigits : ∀ c ∈ digits, Text.isDigit c = true := hfraction
    have hend (c : Char) (hc : c ∈ rest.head?) : Text.isDigit c = false := (hrest c hc).1
    have hsome : ¬ (whole = [] ∧ digits = []) := by rwa [not_and_or]
    simp only [fractionText, List.cons_append, Piece.takeWhile_append_of_head hdigits hend,
      Piece.dropWhile_append_of_head hdigits hend, if_neg hsome]

/-- A decimal literal is read from its text, and from no other. -/
theorem readDecimal?_eq_some_iff {w : Text} {l : Literal} :
    readDecimal? w = some l ↔ (∃ sign whole fraction exponent,
      l = decimal sign whole fraction exponent) ∧ l.IsProper ∧ w = l.text := by
  constructor
  · intro h
    obtain ⟨sign, body, hsign⟩ : ∃ sign body, takeSign w = (sign, body) := ⟨_, _, rfl⟩
    have hw := takeSign_text w
    rw [hsign] at hw
    simp only [readDecimal?, hsign] at h
    have hwhole : ∀ c ∈ body.takeWhile Text.isDigit, Text.isDigit c = true :=
      fun c => List.mem_takeWhile_imp
    -- The text is put together again from the pieces that the reader cut off.
    have hbody := List.takeWhile_append_dropWhile (p := Text.isDigit) (l := body)
    split at h
    · next rest hrest =>
      have hfraction : ∀ c ∈ rest.takeWhile Text.isDigit, Text.isDigit c = true :=
        fun c => List.mem_takeWhile_imp
      split at h
      · cases h
      · next hne =>
        obtain ⟨exponent, hexponent, rfl⟩ := Option.map_eq_some_iff.1 h
        obtain ⟨hproper, hend⟩ := readExponent?_eq_some_iff.1 hexponent
        refine ⟨⟨_, _, _, _, rfl⟩, ⟨hwhole, hfraction, not_and_or.1 hne, hproper⟩, ?_⟩
        rw [text_decimal, ← hend, fractionText, List.cons_append,
          List.takeWhile_append_dropWhile, ← hrest, hbody, hw]
    · split at h
      · cases h
      · next hne =>
        obtain ⟨exponent, hexponent, rfl⟩ := Option.map_eq_some_iff.1 h
        obtain ⟨hproper, hend⟩ := readExponent?_eq_some_iff.1 hexponent
        refine ⟨⟨_, _, _, _, rfl⟩, ⟨hwhole, by simp, .inl hne, hproper⟩, ?_⟩
        rw [text_decimal, ← hend, fractionText, List.nil_append, hbody, hw]
  · rintro ⟨⟨sign, whole, fraction, exponent, rfl⟩, ⟨hwhole, hfraction, hne, hproper⟩, rfl⟩
    have hend (c : Char) (hc : c ∈ (exponentText exponent).head?) :
        Text.isDigit c = false ∧ c ≠ '.' := by
      rcases head?_exponentText hproper c hc with rfl | rfl <;> decide
    rw [text_decimal, readDecimal?_append sign hwhole hfraction hne hend,
      readExponent?_eq_some_iff.2 ⟨hproper, rfl⟩, Option.map_some]

/-- The characters of a decimal literal. -/
theorem mem_text_decimal {sign : Sign} {whole : Text} {fraction : Option Text}
    {exponent : Option Exponent} (h : (decimal sign whole fraction exponent).IsProper) :
    ∀ c ∈ (decimal sign whole fraction exponent).text,
      Text.isDigit c = true ∨ c ∈ ['+', '-', '.', 'e', 'E'] := by
  obtain ⟨hwhole, hfraction, -, hexponent⟩ := h
  have hsign (sign : Sign) : ∀ c ∈ sign.text, c ∈ ['+', '-', '.', 'e', 'E'] := by
    cases sign <;> simp [Sign.text]
  intro c hc
  rw [text_decimal] at hc
  rcases List.mem_append.1 hc with hc | hc
  · exact .inr (hsign sign c hc)
  rcases List.mem_append.1 hc with hc | hc
  · exact .inl (hwhole c hc)
  rcases List.mem_append.1 hc with hc | hc
  · cases fraction with
    | none => cases hc
    | some digits =>
      rcases List.mem_cons.1 hc with rfl | hc
      · exact .inr (by simp)
      · exact .inl (hfraction c hc)
  · cases exponent with
    | none => cases hc
    | some e =>
      obtain ⟨hmark, -, hdigits⟩ := hexponent e rfl
      rcases List.mem_cons.1 hc with rfl | hc
      · rcases hmark with hmark | hmark <;> exact .inr (by simp [hmark])
      rcases List.mem_append.1 hc with hc | hc
      · exact .inr (hsign e.sign c hc)
      · exact .inl (hdigits c hc)

/-- A decimal literal does not begin as one of another base. -/
theorem text_decimal_ne {sign : Sign} {whole : Text} {fraction : Option Text}
    {exponent : Option Exponent} (h : (decimal sign whole fraction exponent).IsProper)
    {letter : Char} (hletter : letter = 'x' ∨ letter = 'b') (digits : Text) :
    (decimal sign whole fraction exponent).text ≠ '0' :: letter :: digits := by
  intro heq
  have hmem := mem_text_decimal h letter (by simp [heq])
  revert hmem
  rcases hletter with rfl | rfl <;> decide

/-- A literal is read from its text, and from no other. -/
theorem read?_eq_some_iff {w : Text} {l : Literal} :
    read? w = some l ↔ l.IsProper ∧ w = l.text := by
  constructor
  · intro h
    unfold read? at h
    split at h
    · split at h
      · next hdigits =>
        cases h
        exact ⟨⟨hdigits.1, List.all_eq_true.1 hdigits.2⟩, rfl⟩
      · cases h
    · split at h
      · next hdigits =>
        cases h
        exact ⟨⟨hdigits.1, List.all_eq_true.1 hdigits.2⟩, rfl⟩
      · cases h
    · exact (readDecimal?_eq_some_iff.1 h).2
  · rintro ⟨hproper, rfl⟩
    cases l with
    | hexadecimal digits =>
      rw [text, read?, if_pos ⟨hproper.1, List.all_eq_true.2 hproper.2⟩]
    | binary digits =>
      rw [text, read?, if_pos ⟨hproper.1, List.all_eq_true.2 hproper.2⟩]
    | decimal sign whole fraction exponent =>
      -- A decimal literal starts neither with `0x` nor with `0b`.
      unfold read?
      split
      · next digits heq => exact absurd heq (text_decimal_ne hproper (.inl rfl) digits)
      · next digits heq => exact absurd heq (text_decimal_ne hproper (.inr rfl) digits)
      · exact readDecimal?_eq_some_iff.2 ⟨⟨_, _, _, _, rfl⟩, hproper, rfl⟩

end Literal

/-- A word that the grammar of number literals has: the text of a proper literal. -/
def IsNumeral (w : Text) : Prop := ∃ l : Literal, l.IsProper ∧ w = l.text

theorem Number.isLiteral_iff {w : Text} : isLiteral w = true ↔ IsNumeral w := by
  rw [isLiteral, Option.isSome_iff_exists]
  exact exists_congr fun l => Literal.read?_eq_some_iff

/-- No number begins as a colour does. -/
theorem not_isNumeral_percent (w : Text) : ¬ IsNumeral ('%' :: w) := by
  rintro ⟨l, hproper, htext⟩
  cases l with
  | hexadecimal digits => cases htext
  | binary digits => cases htext
  | decimal sign whole fraction exponent =>
    have hmem := Literal.mem_text_decimal hproper '%' (by simp [← htext])
    revert hmem
    decide

/-! ### Words that are numbers -/

/-- A word that is a number literal is a number. -/
theorem classifyWord_of_isLiteral {w : Text} (h : Number.isLiteral w = true) :
    classifyWord w = (.number, []) := by
  have hcolor (f : Text → Bool) (hf : ∀ v, f v = true → ∃ u, v = '%' :: u) : f w = false := by
    cases hw : f w with
    | false => rfl
    | true =>
      obtain ⟨u, rfl⟩ := hf w hw
      exact absurd (Number.isLiteral_iff.1 h) (not_isNumeral_percent u)
  have hhex : Color.isHexLiteral w = false := by
    refine hcolor _ fun v hv => ?_
    unfold Color.isHexLiteral at hv
    split at hv
    · exact ⟨_, rfl⟩
    · cases hv
  have hnamed : Color.isNamedLiteral w = false := by
    refine hcolor _ fun v hv => ?_
    unfold Color.isNamedLiteral at hv
    split at hv
    · exact ⟨_, rfl⟩
    · cases hv
  simp [classifyWord, hhex, hnamed, h]

/-- A word that is no number literal is not read as a number. -/
theorem classifyWord_of_not_isLiteral {w : Text} (h : Number.isLiteral w = false) :
    (classifyWord w).1 ≠ .number := by
  unfold classifyWord
  split
  · simp
  split
  · simp
  · simp [h]

/-- A word is read as a number if it is a number literal. -/
theorem isLiteral_eq_false_iff {w : Text} :
    Number.isLiteral w = false ↔ (classifyWord w).1 ≠ .number := by
  refine ⟨classifyWord_of_not_isLiteral, fun hkind => ?_⟩
  rw [← Bool.not_eq_true]
  intro hliteral
  rw [classifyWord_of_isLiteral hliteral] at hkind
  exact hkind rfl

end LogicAsm
