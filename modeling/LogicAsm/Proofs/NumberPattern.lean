import LogicAsm.Proofs.NumberGrammar
import Mathlib.Data.Nat.Digits.Defs

/-!
# Number literals by a pattern

Number literals can also be told by a pattern: the word is searched from its start for the first
match in order of preference, behind which neither a point nor a character of a word may follow, and
it is a literal if that match reaches its end.

A search with preferences may find a shorter match first, and need not be the same as matching the
whole word.  Here it is, because a literal has no other literal as its start that could end there
(`Literal.glued_of_append`): what follows in it is a digit, a point, a letter, or the sign of an
exponent, and in front of that stands an `e`.

* `Pattern.rests` is the search: what is left behind each match, the preferred ones first.
* `Pattern.Matches` says which texts a pattern stands for, and `mem_rests_iff` that the search finds
  all of them and no others.
-/

namespace LogicAsm

/-! ### Patterns -/

/-- A pattern for texts. -/
inductive Pattern where
  | one (p : Char → Bool)
  | many (p : Char → Bool)
  | maybe (a : Pattern)
  | seq (a b : Pattern)
  | either (a b : Pattern)

namespace Pattern

/-- What is left of a text behind a row of characters, the longest row first. -/
def restsOfMany (p : Char → Bool) : Text → List Text
  | [] => [[]]
  | c :: cs => if p c then restsOfMany p cs ++ [c :: cs] else [c :: cs]

/-- What is left of a text behind each match of a pattern, in order of preference: as many
characters as there are, something rather than nothing, the first of two. -/
def rests : Pattern → Text → List Text
  | one p, t =>
    match t with
    | [] => []
    | c :: cs => if p c then [cs] else []
  | many p, t => restsOfMany p t
  | maybe a, t => a.rests t ++ [t]
  | seq a b, t => (a.rests t).flatMap b.rests
  | either a b, t => a.rests t ++ b.rests t

/-- The texts that a pattern stands for. -/
def Matches : Pattern → Text → Prop
  | one p, t => ∃ c, t = [c] ∧ p c = true
  | many p, t => ∀ c ∈ t, p c = true
  | maybe a, t => a.Matches t ∨ t = []
  | seq a b, t => ∃ u v, t = u ++ v ∧ a.Matches u ∧ b.Matches v
  | either a b, t => a.Matches t ∨ b.Matches t

theorem mem_restsOfMany_iff {p : Char → Bool} {t rest : Text} :
    rest ∈ restsOfMany p t ↔ ∃ front, t = front ++ rest ∧ ∀ c ∈ front, p c = true := by
  induction t with
  | nil =>
    simp only [restsOfMany, List.mem_singleton]
    constructor
    · rintro rfl
      exact ⟨[], rfl, by simp⟩
    · rintro ⟨front, h, -⟩
      exact (List.append_eq_nil_iff.1 h.symm).2
  | cons c cs ih =>
    -- The star can always match nothing and leave the whole text.
    have hwhole : rest = c :: cs → ∃ front, c :: cs = front ++ rest ∧ ∀ c ∈ front, p c = true := by
      rintro rfl
      exact ⟨[], rfl, by simp⟩
    rw [restsOfMany]
    split
    · next hc =>
      rw [List.mem_append, List.mem_singleton, ih]
      constructor
      · rintro (⟨front, rfl, hfront⟩ | h)
        · exact ⟨c :: front, rfl, List.forall_mem_cons.2 ⟨hc, hfront⟩⟩
        · exact hwhole h
      · rintro ⟨front, h, hfront⟩
        cases front with
        | nil => exact .inr h.symm
        | cons d front =>
          exact .inl ⟨front, (List.cons.inj h).2, (List.forall_mem_cons.1 hfront).2⟩
    · next hc =>
      rw [List.mem_singleton]
      refine ⟨hwhole, ?_⟩
      rintro ⟨front, h, hfront⟩
      cases front with
      | nil => exact h.symm
      | cons d front =>
        obtain ⟨rfl, -⟩ := List.cons.inj h
        exact absurd (hfront c List.mem_cons_self) hc

/-- The search finds every start of a text that the pattern stands for, and no other. -/
theorem mem_rests_iff {a : Pattern} {t rest : Text} :
    rest ∈ a.rests t ↔ ∃ front, t = front ++ rest ∧ a.Matches front := by
  -- One case for each way to build a pattern; a sequence joins the two fronts.
  induction a generalizing t rest with
  | one p =>
    cases t with
    | nil => simp [rests, Matches]
    | cons c cs =>
      rw [rests]
      constructor
      · intro h
        split at h
        · next hc =>
          obtain rfl := List.mem_singleton.1 h
          exact ⟨[c], rfl, c, rfl, hc⟩
        · cases h
      · rintro ⟨_, h, d, rfl, hd⟩
        obtain ⟨rfl, rfl⟩ := List.cons.inj h
        rw [if_pos hd]
        exact List.mem_singleton_self _
  | many p => exact mem_restsOfMany_iff
  | maybe a ih =>
    rw [rests, List.mem_append, ih, List.mem_singleton]
    constructor
    · rintro (⟨front, rfl, h⟩ | rfl)
      · exact ⟨front, rfl, .inl h⟩
      · exact ⟨[], rfl, .inr rfl⟩
    · rintro ⟨front, rfl, h | rfl⟩
      · exact .inl ⟨front, rfl, h⟩
      · exact .inr rfl
  | seq a b iha ihb =>
    simp only [rests, List.mem_flatMap, iha, ihb]
    constructor
    · rintro ⟨_, ⟨u, rfl, hu⟩, v, rfl, hv⟩
      exact ⟨u ++ v, by simp, u, v, rfl, hu, hv⟩
    · rintro ⟨_, rfl, u, v, rfl, hu, hv⟩
      exact ⟨v ++ rest, ⟨u, by simp, hu⟩, v, rfl, hv⟩
  | either a b iha ihb =>
    rw [rests, List.mem_append, iha, ihb, ← exists_or]
    simp only [Matches, and_or_left]

/-- One or more characters of a class. -/
def row (p : Char → Bool) : Pattern := seq (one p) (many p)

theorem matches_row_iff {p : Char → Bool} {t : Text} : (row p).Matches t ↔ t.IsRow p := by
  constructor
  · rintro ⟨_, v, rfl, ⟨c, rfl, hc⟩, hv⟩
    exact ⟨by simp, List.forall_mem_cons.2 ⟨hc, hv⟩⟩
  · rintro ⟨hne, h⟩
    obtain ⟨c, cs, rfl⟩ := List.exists_cons_of_ne_nil hne
    obtain ⟨hc, hcs⟩ := List.forall_mem_cons.1 h
    exact ⟨[c], cs, rfl, ⟨c, rfl, hc⟩, hcs⟩

/-- What is left behind the first match of a pattern at the start of a text, if the character
behind a match must not be of some class. -/
def firstRest? (a : Pattern) (glues : Char → Bool) (t : Text) : Option Text :=
  (a.rests t).find? fun rest => !rest.head?.any glues

/-- Where no match but that of the whole text may end, the first match is that one. -/
theorem firstRest?_eq_nil_iff {a : Pattern} {glues : Char → Bool} {t : Text}
    (h : ∀ front c rest, t = front ++ c :: rest → a.Matches front → a.Matches t →
      glues c = true) :
    a.firstRest? glues t = some [] ↔ a.Matches t := by
  constructor
  · intro hfirst
    obtain ⟨front, ht, hfront⟩ := mem_rests_iff.1 (List.mem_of_find?_eq_some hfirst)
    rwa [ht, List.append_nil]
  · intro ht
    have hmem : [] ∈ a.rests t := mem_rests_iff.2 ⟨t, by simp, ht⟩
    cases hfirst : a.firstRest? glues t with
    | none => simpa using List.find?_eq_none.1 hfirst [] hmem
    | some rest =>
      cases rest with
      | nil => rfl
      | cons c rest =>
        obtain ⟨front, hsplit, hfront⟩ := mem_rests_iff.1 (List.mem_of_find?_eq_some hfirst)
        have hends := List.find?_some hfirst
        simp [h front c rest hsplit hfront ht] at hends

/-! ### The pattern of number literals -/

/-- An optional sign. -/
def sign : Pattern := maybe (one fun c => c == '+' || c == '-')

/-- An optional exponent. -/
def exponent : Pattern :=
  maybe (seq (one fun c => c == 'e' || c == 'E') (seq sign (row Text.isDigit)))

/-- Digits with a point behind or among them, or a point and digits. -/
def mantissa : Pattern :=
  either (seq (row Text.isDigit) (seq (maybe (one (· == '.'))) (many Text.isDigit)))
    (seq (one (· == '.')) (row Text.isDigit))

/-- Digits of another base, behind a zero and a letter. -/
def based (letter : Char) (p : Char → Bool) : Pattern :=
  seq (one (· == '0')) (seq (one (· == letter)) (row p))

/-- A number literal: hexadecimal, binary or decimal. -/
def numeral : Pattern :=
  either (based 'x' Text.isHexDigit)
    (either (based 'b' Literal.isBinaryDigit) (seq sign (seq mantissa exponent)))

theorem matches_sign_iff {t : Text} : sign.Matches t ↔ ∃ s : Sign, t = s.text := by
  constructor
  · rintro (⟨c, rfl, hc⟩ | rfl)
    · rcases Bool.or_eq_true _ _ ▸ hc with hc | hc
      · exact ⟨.plus, by rw [beq_iff_eq.1 hc]; rfl⟩
      · exact ⟨.minus, by rw [beq_iff_eq.1 hc]; rfl⟩
    · exact ⟨.none, rfl⟩
  · rintro ⟨s, rfl⟩
    cases s with
    | none => exact .inr rfl
    | plus => exact .inl ⟨'+', rfl, rfl⟩
    | minus => exact .inl ⟨'-', rfl, rfl⟩

theorem matches_exponent_iff {t : Text} :
    exponent.Matches t ↔
      ∃ e : Option Exponent, (∀ x ∈ e, x.IsProper) ∧ t = Literal.exponentText e := by
  constructor
  · rintro (⟨_, _, rfl, ⟨mark, rfl, hmark⟩, _, digits, rfl, hsign, hdigits⟩ | rfl)
    · obtain ⟨s, rfl⟩ := matches_sign_iff.1 hsign
      refine ⟨some ⟨mark, s, digits⟩, ?_, rfl⟩
      rintro _ ⟨⟩
      exact ⟨by simpa using hmark, matches_row_iff.1 hdigits⟩
    · exact ⟨none, by simp, rfl⟩
  · rintro ⟨e, hproper, rfl⟩
    cases e with
    | none => exact .inr rfl
    | some e =>
      obtain ⟨hmark, hdigits⟩ := hproper e rfl
      exact .inl ⟨[e.mark], e.sign.text ++ e.digits, rfl, ⟨e.mark, rfl, by simpa using hmark⟩,
        e.sign.text, e.digits, rfl, matches_sign_iff.2 ⟨e.sign, rfl⟩, matches_row_iff.2 hdigits⟩

theorem matches_mantissa_iff {t : Text} :
    mantissa.Matches t ↔
      ∃ (whole : Text) (fraction : Option Text), (∀ c ∈ whole, Text.isDigit c = true) ∧
        (∀ c ∈ fraction.getD [], Text.isDigit c = true) ∧
        (whole ≠ [] ∨ fraction.getD [] ≠ []) ∧ t = whole ++ Literal.fractionText fraction := by
  constructor
  · rintro (⟨whole, _, rfl, hwhole, _, digits, rfl, hpoint, hdigits⟩ |
      ⟨_, digits, rfl, ⟨c, rfl, hc⟩, hdigits⟩)
    · obtain ⟨hne, hwhole⟩ := matches_row_iff.1 hwhole
      rcases hpoint with ⟨c, rfl, hc⟩ | rfl
      · obtain rfl : c = '.' := by simpa using hc
        exact ⟨whole, some digits, hwhole, hdigits, .inl hne, rfl⟩
      · -- Without a point in between both rows are one.
        refine ⟨whole ++ digits, none, ?_, by simp, by simp [hne], by simp [Literal.fractionText]⟩
        exact List.forall_mem_append.2 ⟨hwhole, hdigits⟩
    · obtain rfl : c = '.' := by simpa using hc
      obtain ⟨hne, hdigits⟩ := matches_row_iff.1 hdigits
      exact ⟨[], some digits, by simp, hdigits, .inr hne, rfl⟩
  · rintro ⟨whole, fraction, hwhole, hfraction, hne, rfl⟩
    rcases eq_or_ne whole [] with rfl | hsome
    · cases fraction with
      | none => simp at hne
      | some digits =>
        have hdigits : Text.IsRow Text.isDigit digits := ⟨by simpa using hne, hfraction⟩
        exact .inr ⟨['.'], digits, rfl, ⟨'.', rfl, rfl⟩, matches_row_iff.2 hdigits⟩
    · refine .inl ⟨whole, _, rfl, matches_row_iff.2 ⟨hsome, hwhole⟩, ?_⟩
      cases fraction with
      | none => exact ⟨[], [], rfl, .inr rfl, by simp [Matches]⟩
      | some digits => exact ⟨['.'], digits, rfl, .inl ⟨'.', rfl, rfl⟩, hfraction⟩

theorem matches_based_iff {letter : Char} {p : Char → Bool} {t : Text} :
    (based letter p).Matches t ↔
      ∃ digits : Text, digits.IsRow p ∧ t = '0' :: letter :: digits := by
  constructor
  · rintro ⟨_, _, rfl, ⟨c, rfl, hc⟩, _, digits, rfl, ⟨d, rfl, hd⟩, hdigits⟩
    obtain rfl : c = '0' := by simpa using hc
    obtain rfl : d = letter := by simpa using hd
    exact ⟨digits, matches_row_iff.1 hdigits, rfl⟩
  · rintro ⟨digits, hdigits, rfl⟩
    exact ⟨['0'], letter :: digits, rfl, ⟨'0', rfl, rfl⟩, [letter], digits, rfl,
      ⟨letter, rfl, by simp⟩, matches_row_iff.2 hdigits⟩

/-- The pattern stands for the texts of proper literals. -/
theorem matches_numeral_iff {t : Text} : numeral.Matches t ↔ IsNumeral t := by
  -- The three alternatives of the pattern are the three kinds of literal.
  constructor
  · rintro (h | h | ⟨_, _, rfl, hsign, _, _, rfl, hmantissa, hexponent⟩)
    · obtain ⟨digits, hdigits, rfl⟩ := matches_based_iff.1 h
      exact ⟨.hexadecimal digits, hdigits, rfl⟩
    · obtain ⟨digits, hdigits, rfl⟩ := matches_based_iff.1 h
      exact ⟨.binary digits, hdigits, rfl⟩
    · obtain ⟨s, rfl⟩ := matches_sign_iff.1 hsign
      obtain ⟨whole, fraction, hwhole, hfraction, hne, rfl⟩ := matches_mantissa_iff.1 hmantissa
      obtain ⟨e, hproper, rfl⟩ := matches_exponent_iff.1 hexponent
      refine ⟨.decimal s whole fraction e, ⟨hwhole, hfraction, hne, hproper⟩, ?_⟩
      rw [Literal.text_decimal, List.append_assoc]
  · rintro ⟨l, hproper, rfl⟩
    cases l with
    | hexadecimal digits => exact .inl (matches_based_iff.2 ⟨digits, hproper, rfl⟩)
    | binary digits => exact .inr (.inl (matches_based_iff.2 ⟨digits, hproper, rfl⟩))
    | decimal s whole fraction e =>
      obtain ⟨hwhole, hfraction, hne, hexponent⟩ := hproper
      rw [Literal.text_decimal, ← List.append_assoc whole]
      exact .inr (.inr ⟨_, _, rfl, matches_sign_iff.2 ⟨s, rfl⟩, _, _, rfl,
        matches_mantissa_iff.2 ⟨whole, fraction, hwhole, hfraction, hne, rfl⟩,
        matches_exponent_iff.2 ⟨e, hexponent, rfl⟩⟩)

end Pattern

/-! ### No literal ends inside another one -/

/-- What holds of all hexadecimal digits is decided on the first 128 characters. -/
theorem Text.of_isHexDigit (p : Char → Prop)
    (hp : ∀ n < 128, isHexDigit (Char.ofNat n) = true → p (Char.ofNat n)) {c : Char}
    (h : isHexDigit c = true) : p c := by
  have hcode : c.toNat < 128 := by
    simp only [isHexDigit, Bool.or_eq_true, Bool.and_eq_true, decide_eq_true_eq, Char.le_def,
      UInt32.le_iff_toNat_le] at h
    have hlast : 'f'.val.toNat < 128 ∧ 'F'.val.toNat < 128 ∧ '9'.val.toNat < 128 := by decide
    show c.val.toNat < 128
    omega
  have hc := hp c.toNat hcode
  rw [Char.ofNat_toNat] at hc
  exact hc h

/-- The characters that may not follow a number literal: a point and the characters of a word,
which are the usual letters, digits and the underscore, decimal digits, and other letters and
numerals of the scripts. -/
def gluesToNumeral (other : Char → Bool) (c : Char) : Bool :=
  c == '.' || c == '_' || c.isAlphanum || Text.isDigit c || other c

theorem gluesToNumeral_of_isDigit {other : Char → Bool} {c : Char} (h : Text.isDigit c = true) :
    gluesToNumeral other c = true := by
  simp [gluesToNumeral, h]

theorem gluesToNumeral_of_isHexDigit {other : Char → Bool} {c : Char}
    (h : Text.isHexDigit c = true) : gluesToNumeral other c = true := by
  have halphanum : c.isAlphanum = true :=
    Text.of_isHexDigit (fun c => c.isAlphanum = true) (by decide) h
  simp [gluesToNumeral, halphanum]

/-- An exponent, or none, does not end in front of an exponent that goes on otherwise than with a
digit or as an exponent starts. -/
theorem Literal.of_readExponent?_append {e e' : Option Exponent} {c : Char} {rest : Text}
    (he : ∀ x ∈ e, x.IsProper) (h : readExponent? (exponentText e ++ c :: rest) = some e') :
    Text.isDigit c = true ∨ c = 'e' ∨ c = 'E' := by
  obtain ⟨hproper, htext⟩ := readExponent?_eq_some_iff.1 h
  cases e with
  | none => exact .inr (head?_exponentText hproper c (by rw [← htext]; rfl))
  | some x =>
    obtain ⟨-, hne, hdigits⟩ := he x rfl
    obtain ⟨d, ds, hd⟩ := List.exists_cons_of_ne_nil hne
    have hsign : takeSign (x.sign.text ++ x.digits ++ c :: rest) =
        (x.sign, x.digits ++ c :: rest) := by
      rw [List.append_assoc, hd]
      refine takeSign_append x.sign ?_
      rintro _ ⟨⟩
      exact ne_sign_of_isDigit (hdigits d (hd ▸ List.mem_cons_self))
    simp only [exponentText, Exponent.text, List.cons_append, readExponent?, hsign] at h
    split at h
    · next hall => exact .inl (List.all_eq_true.1 hall.2.2 c (by simp))
    · cases h

/-- Behind a literal that is the start of another one, that one goes on with a digit, a letter or a
point. -/
theorem IsNumeral.glues_of_append {other : Char → Bool} {front rest : Text} {c : Char}
    (hfront : IsNumeral front) (h : IsNumeral (front ++ c :: rest)) :
    gluesToNumeral other c = true := by
  have hletter : ∀ c ∈ ['0', '1', 'x', 'b', '.', 'e', 'E'], gluesToNumeral other c = true := by
    simp [gluesToNumeral]
  obtain ⟨l, hl, hwhole⟩ := h
  have hmem : c ∈ l.text := by simp [← hwhole]
  cases l with
  | hexadecimal digits =>
    rcases List.mem_cons.1 hmem with rfl | hmem
    · exact hletter _ (by simp)
    rcases List.mem_cons.1 hmem with rfl | hmem
    · exact hletter _ (by simp)
    · exact gluesToNumeral_of_isHexDigit (hl.2 c hmem)
  | binary digits =>
    rcases List.mem_cons.1 hmem with rfl | hmem
    · exact hletter _ (by simp)
    rcases List.mem_cons.1 hmem with rfl | hmem
    · exact hletter _ (by simp)
    · have hbinary := hl.2 c hmem
      rw [Literal.isBinaryDigit, Bool.or_eq_true, beq_iff_eq, beq_iff_eq] at hbinary
      rcases hbinary with rfl | rfl <;> exact hletter _ (by simp)
  | decimal s whole fraction e =>
    by_contra hglue
    have hdigit : Text.isDigit c = false := by
      rw [← Bool.not_eq_true]
      exact fun h => hglue (gluesToNumeral_of_isDigit h)
    have hne : ∀ d ∈ ['0', '1', 'x', 'b', '.', 'e', 'E'], c ≠ d := by
      rintro d hd rfl
      exact hglue (hletter c hd)
    -- What stands in front of `c` is a decimal literal too, and so has to end in its exponent.
    obtain ⟨l', hl', rfl⟩ := hfront
    cases l' with
    | hexadecimal digits => exact Literal.text_decimal_ne hl (.inl rfl) _ hwhole.symm
    | binary digits => exact Literal.text_decimal_ne hl (.inr rfl) _ hwhole.symm
    | decimal s' whole' fraction' e' =>
      obtain ⟨hwhole', hfraction', hne', hexponent'⟩ := hl'
      have hread := Literal.readDecimal?_eq_some_iff.2 ⟨⟨s, whole, fraction, e, rfl⟩, hl, hwhole⟩
      have hend : ∀ d ∈ (Literal.exponentText e' ++ c :: rest).head?,
          Text.isDigit d = false ∧ d ≠ '.' := by
        intro d hd
        cases e' with
        | none =>
          obtain rfl : c = d := Option.some.inj hd
          exact ⟨hdigit, hne '.' (by simp)⟩
        | some x => rcases Literal.head?_exponentText hexponent' d hd with rfl | rfl <;> decide
      rw [Literal.text_decimal, List.append_assoc, List.append_assoc, List.append_assoc,
        Literal.readDecimal?_append s' hwhole' hfraction' hne' hend] at hread
      obtain ⟨e'', he'', -⟩ := Option.map_eq_some_iff.1 hread
      rcases Literal.of_readExponent?_append hexponent' he'' with h | rfl | rfl
      · rw [hdigit] at h
        cases h
      · exact hne _ (by simp) rfl
      · exact hne _ (by simp) rfl

/-! ### Number literals -/

/-- The value of one of the sixteen digits, letters in either case. -/
def digitRank (c : Char) : Nat :=
  ['0', '1', '2', '3', '4', '5', '6', '7', '8', '9', 'a', 'b', 'c', 'd', 'e', 'f'].idxOf c.toLower

theorem Text.digitOfBase?_eq_some {c : Char} (h : isHexDigit c = true) :
    digitOfBase? 16 c = some (digitRank c) :=
  of_isHexDigit (fun c => digitOfBase? 16 c = some (digitRank c)) (by decide +kernel) h

theorem Text.digitOfBase?_binary {c : Char} (h : Literal.isBinaryDigit c = true) :
    digitOfBase? 2 c = some (digitRank c) := by
  rw [Literal.isBinaryDigit, Bool.or_eq_true, beq_iff_eq, beq_iff_eq] at h
  rcases h with rfl | rfl <;> decide

/-- A row of digits writes a number by the places of its digits. -/
theorem Text.digitsValue_eq_ofDigits {base : Nat} {digits : Text}
    (h : ∀ c ∈ digits, digitOfBase? base c = some (digitRank c)) :
    digitsValue base digits = Nat.ofDigits base (digits.reverse.map digitRank) := by
  induction digits using List.reverseRecOn with
  | nil => rfl
  | append_singleton digits c ih =>
    obtain ⟨hdigits, hc⟩ := List.forall_mem_append.1 h
    rw [List.reverse_concat, List.map_cons, Nat.ofDigits_cons, ← ih hdigits, digitsValue,
      List.foldl_concat, hc c (List.mem_singleton_self c), Nat.add_comm, Nat.mul_comm]
    rfl

/-- The exact numbers are those that digits of base sixteen or two write. -/
theorem Number.read?_eq_exact_iff {w : Text} {n : Nat} :
    read? w = some (.exact n) ↔
      (∃ digits : Text, digits.IsRow Text.isHexDigit ∧ w = '0' :: 'x' :: digits ∧
          n = Nat.ofDigits 16 (digits.reverse.map digitRank)) ∨
        ∃ digits : Text, digits.IsRow Literal.isBinaryDigit ∧ w = '0' :: 'b' :: digits ∧
          n = Nat.ofDigits 2 (digits.reverse.map digitRank) := by
  have hhex {digits : Text} (h : digits.IsRow Text.isHexDigit) :=
    Text.digitsValue_eq_ofDigits fun c hc => Text.digitOfBase?_eq_some (h.2 c hc)
  have hbinary {digits : Text} (h : digits.IsRow Literal.isBinaryDigit) :=
    Text.digitsValue_eq_ofDigits fun c hc => Text.digitOfBase?_binary (h.2 c hc)
  simp only [read?, Option.map_eq_some_iff, Literal.read?_eq_some_iff]
  constructor
  · rintro ⟨l, ⟨hproper, rfl⟩, hvalue⟩
    cases l with
    | hexadecimal digits =>
      exact .inl ⟨digits, hproper, rfl, (exact.inj hvalue).symm.trans (hhex hproper)⟩
    | binary digits =>
      exact .inr ⟨digits, hproper, rfl, (exact.inj hvalue).symm.trans (hbinary hproper)⟩
    | decimal sign whole fraction exponent => cases hvalue
  · rintro (⟨digits, hdigits, rfl, rfl⟩ | ⟨digits, hdigits, rfl, rfl⟩)
    · exact ⟨.hexadecimal digits, ⟨hdigits, rfl⟩, congrArg exact (hhex hdigits)⟩
    · exact ⟨.binary digits, ⟨hdigits, rfl⟩, congrArg exact (hbinary hdigits)⟩

/-- A word is a number literal if and only if it is one by the grammar, and this is the same as
searching it for the pattern, whatever the letters of other scripts are.  Any other word has no
value, and one in base sixteen or two has the exact value that its digits write.  The words that are
classified as numbers are the number literals, and no literal begins as a colour does. -/
theorem Number.literals_exact (w : Text) :
    (isLiteral w = true ↔ IsNumeral w) ∧
      (∀ other, Pattern.numeral.firstRest? (gluesToNumeral other) w = some [] ↔ IsNumeral w) ∧
      (read? w = none ↔ ¬ IsNumeral w) ∧
      (∀ n, read? w = some (.exact n) ↔
        (∃ digits : Text, digits.IsRow Text.isHexDigit ∧ w = '0' :: 'x' :: digits ∧
            n = Nat.ofDigits 16 (digits.reverse.map digitRank)) ∨
          ∃ digits : Text, digits.IsRow Literal.isBinaryDigit ∧ w = '0' :: 'b' :: digits ∧
            n = Nat.ofDigits 2 (digits.reverse.map digitRank)) ∧
      ((classifyWord w).1 = .number ↔ IsNumeral w) ∧
      ¬ IsNumeral ('%' :: w) := by
  refine ⟨isLiteral_iff, fun other => ?_, ?_, fun n => read?_eq_exact_iff, ?_,
    not_isNumeral_percent w⟩
  · rw [← Pattern.matches_numeral_iff]
    refine Pattern.firstRest?_eq_nil_iff ?_
    rintro front c rest rfl hfront hwhole
    exact (Pattern.matches_numeral_iff.1 hfront).glues_of_append
      (Pattern.matches_numeral_iff.1 hwhole)
  · rw [← isLiteral_iff, read?, isLiteral, Option.map_eq_none_iff, Option.not_isSome_iff_eq_none]
  · rw [← isLiteral_iff, ← not_iff_not, ← ne_eq, ← isLiteral_eq_false_iff, Bool.not_eq_true]

end LogicAsm
