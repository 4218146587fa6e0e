import LogicAsm.Piece
import Mathlib.Data.List.Chain
import Mathlib.Data.List.TakeWhile

/-!
# Rows of pieces

`Piece.scan` cuts a line into pieces, and putting the pieces together gives the line back.  This
module is about the other direction: which rows of pieces come back when the text they make up is
cut again.

The pieces of a whole text (`Piece.ofText`) are those of its lines, with a line feed as the
separator between two lines.  A `Row` is a list of pieces that scanning can give:

* each piece is well formed, so a word holds no blank and a comment no line end;
* no piece swallows the one behind it, so a word is followed by a blank, a separator or a comment,
  and a comment or an open string by the end of its line.

Texts and rows are the same thing: `ofText` and `flatMap text` are inverse to each other
(`flatMap_text_ofText`, `row_ofText`, `ofText_flatMap_text`).  Whoever changes a text can therefore
change its row of pieces, and has to look only at the places where new neighbours meet.
-/

namespace LogicAsm

namespace Text

/-! ### Lines of a text -/

theorem lines_nil : lines [] = [[]] := rfl

theorem lines_newline (t : Text) : lines ('\n' :: t) = [] :: lines t := by
  simp [lines, cut]

theorem lines_ne_nil (t : Text) : lines t ≠ [] := cut_ne_nil _ _

/-- A character other than a line feed joins the first line. -/
theorem lines_cons {c : Char} (hc : c ≠ '\n') {t l : Text} {ls : List Text}
    (h : lines t = l :: ls) : lines (c :: t) = (c :: l) :: ls := by
  unfold lines at h ⊢
  rw [cut, if_neg hc, h]

/-- A text without line feeds joins the first line. -/
theorem lines_append {a : Text} (ha : '\n' ∉ a) {t l : Text} {ls : List Text}
    (h : lines t = l :: ls) : lines (a ++ t) = (a ++ l) :: ls := by
  induction a with
  | nil => exact h
  | cons c cs ih =>
    rw [List.mem_cons, not_or] at ha
    exact lines_cons (Ne.symm ha.1) (ih ha.2)

/-- The first line starts as the text does, unless it is empty. -/
theorem head?_of_lines {t l : Text} {ls : List Text} (h : lines t = l :: ls) :
    ∀ c ∈ l.head?, c ∈ t.head? ∧ c ≠ '\n' := by
  intro c hc
  cases t with
  | nil =>
    rw [lines_nil] at h
    cases h
    simp at hc
  | cons d ds =>
    by_cases hd : d = '\n'
    · subst hd
      rw [lines_newline] at h
      cases h
      simp at hc
    · obtain ⟨m, ms, hm⟩ := List.exists_cons_of_ne_nil (lines_ne_nil ds)
      rw [lines_cons hd hm] at h
      cases h
      simp only [List.head?_cons, Option.mem_some_iff] at hc
      exact ⟨by simp [hc], hc ▸ hd⟩

end Text

namespace Piece

/-- The pieces of a text: those of its lines, with a line feed as the separator between two
lines. -/
def ofText (t : Text) : List Piece := List.intercalate [.separator '\n'] (t.lines.map scan)

@[simp] theorem ofText_nil : ofText [] = [] := by
  simp [ofText, Text.lines_nil]

theorem ofText_newline (t : Text) : ofText ('\n' :: t) = .separator '\n' :: ofText t := by
  obtain ⟨l, ls, h⟩ := List.exists_cons_of_ne_nil (Text.lines_ne_nil t)
  simp [ofText, Text.lines_newline, h]

/-! ### Well-formed pieces and their neighbours -/

/-- A character that ends the line, and with it a comment or an open string. -/
def endsLine (c : Char) : Bool := c == '\r' || c == '\n'

/-- A piece that scanning can give. -/
def WellFormed : Piece → Prop
  | .blank c => isBlank c
  | .separator c => isSeparator c ∨ c = '\n'
  | .comment body => ∀ c ∈ body, endsLine c = false
  | .quoted body _ => ∀ c ∈ body, c ≠ '"' ∧ endsLine c = false
  | .word w => w ≠ [] ∧ w.head? ≠ some '"' ∧ ∀ c ∈ w, inWord c ∧ c ≠ '\n'

/-- Whether a text is a word can be tested character by character. -/
theorem wellFormed_word_iff {w : Text} : (Piece.word w).WellFormed ↔
    w ≠ [] ∧ w.head? ≠ some '"' ∧ (w.all fun c => inWord c && c != '\n') = true := by
  simp [WellFormed]

/-- Whether a piece ends in front of the character, if that is what follows it. -/
def stopsAt (c : Char) : Piece → Bool
  | .comment _ | .quoted _ false => endsLine c
  | .word _ => !inWord c || c == '\n'
  | _ => true

/-- Whether the second piece can stand right behind the first one. -/
def mayPrecede : Piece → Piece → Bool
  | .comment _, .separator c | .quoted _ false, .separator c => c != ';'
  | .comment _, _ | .quoted _ false, _ => false
  | .word _, .word _ | .word _, .quoted _ _ => false
  | _, _ => true

/-- A list of pieces that scanning can give. -/
structure Row (ps : List Piece) : Prop where
  wellFormed : ∀ p ∈ ps, p.WellFormed
  chain : ps.IsChain (mayPrecede · ·)

/-- A well-formed piece has a first character. -/
theorem WellFormed.exists_head {p : Piece} (h : p.WellFormed) : ∃ c, p.text.head? = some c := by
  cases p with
  | word w =>
    obtain ⟨c, cs, rfl⟩ := List.exists_cons_of_ne_nil h.1
    exact ⟨c, rfl⟩
  | _ => exact ⟨_, rfl⟩

/-- What may follow a piece is decided by the first character of what follows. -/
theorem stopsAt_eq_mayPrecede (p : Piece) {q : Piece} (hq : q.WellFormed) {c : Char}
    (hc : q.text.head? = some c) : p.stopsAt c = p.mayPrecede q := by
  cases q with
  | blank d =>
    obtain rfl : d = c := by simpa [text] using hc
    have hd : d = ' ' ∨ d = '\t' := by simpa [WellFormed, isBlank] using hq
    rcases hd with rfl | rfl <;> cases p with
    | quoted _ closed => cases closed <;> rfl
    | _ => rfl
  | separator d =>
    obtain rfl : d = c := by simpa [text] using hc
    have hd : (d = ';' ∨ d = '\r') ∨ d = '\n' := by simpa [WellFormed, isSeparator] using hq
    rcases hd with (rfl | rfl) | rfl <;> cases p with
    | quoted _ closed => cases closed <;> rfl
    | _ => rfl
  | comment _ =>
    cases hc
    cases p with
    | quoted _ closed => cases closed <;> rfl
    | _ => rfl
  | quoted _ _ =>
    cases hc
    cases p with
    | quoted _ closed => cases closed <;> rfl
    | _ => rfl
  | word w =>
    obtain ⟨hin, hnl⟩ := hq.2.2 c (List.mem_of_mem_head? hc)
    have hend : endsLine c = false := by
      have hcr : c ≠ '\r' := by
        rintro rfl
        exact absurd hin (by decide)
      simp [endsLine, hcr, hnl]
    cases p with
    | quoted _ closed => cases closed <;> simp [stopsAt, mayPrecede, hend]
    | _ => simp [stopsAt, mayPrecede, hend, hin, hnl]

/-- A line feed may follow everything. -/
theorem mayPrecede_newline (p : Piece) : p.mayPrecede (.separator '\n') = true := by
  cases p with
  | quoted body closed => cases closed <;> rfl
  | _ => rfl

/-- No piece but a line feed holds a line feed. -/
theorem WellFormed.newline_not_mem {p : Piece} (h : p.WellFormed) (hp : p ≠ .separator '\n') :
    '\n' ∉ p.text := by
  intro hmem
  cases p with
  | blank c =>
    obtain rfl : '\n' = c := by simpa [text] using hmem
    exact absurd (show isBlank '\n' = true from h) (by decide)
  | separator c =>
    obtain rfl : '\n' = c := by simpa [text] using hmem
    exact hp rfl
  | comment body =>
    have hbody : '\n' ∈ body := by simpa [text] using hmem
    exact absurd (h _ hbody) (by decide)
  | quoted body closed =>
    have hbody : '\n' ∈ body := by
      cases closed <;> simpa [text] using hmem
    exact absurd (h _ hbody).2 (by decide)
  | word w => exact (h.2.2 _ hmem).2 rfl

/-! ### Cutting a text that starts with a piece -/

theorem inComment_eq {c : Char} (hc : c ≠ '\n') : inComment c = !endsLine c := by
  have hn : (c == '\n') = false := by simpa using hc
  simp [inComment, endsLine, hn, bne]

theorem inString_of {c : Char} (hq : c ≠ '"') (he : endsLine c = false) : inString c = true := by
  have hcr : c ≠ '\r' := by
    rintro rfl
    exact absurd he (by decide)
  simp [inString, hq, hcr]

/-- The run of a class ends where the class does. -/
theorem takeWhile_append_of_head {f : Char → Bool} {a rest : Text} (ha : ∀ c ∈ a, f c)
    (hr : ∀ c ∈ rest.head?, f c = false) : (a ++ rest).takeWhile f = a := by
  rw [List.takeWhile_append_of_pos ha]
  cases rest with
  | nil => simp
  | cons c cs =>
    have hc : f c = false := hr c rfl
    simp [hc]

theorem dropWhile_append_of_head {f : Char → Bool} {a rest : Text} (ha : ∀ c ∈ a, f c)
    (hr : ∀ c ∈ rest.head?, f c = false) : (a ++ rest).dropWhile f = rest := by
  rw [List.dropWhile_append_of_pos ha]
  cases rest with
  | nil => rfl
  | cons c cs =>
    have hc : f c = false := hr c rfl
    simp [hc]

/-- A string that ends at its quote, at the end of its line or with the text. -/
theorem takeString_text {body rest : Text} {closed : Bool}
    (hb : (Piece.quoted body closed).WellFormed)
    (hr : ∀ c ∈ rest.head?, (Piece.quoted body closed).stopsAt c = true ∧ c ≠ '\n') :
    takeString (body ++ (if closed then ['"'] else []) ++ rest) = (.quoted body closed, rest) := by
  have hin : ∀ c ∈ body, inString c := fun c hc => inString_of (hb c hc).1 (hb c hc).2
  cases closed with
  | true =>
    have hq : ∀ c ∈ ('"' :: rest).head?, inString c = false := by
      rintro c ⟨⟩
      decide
    have hd := dropWhile_append_of_head hin hq
    have ht := takeWhile_append_of_head hin hq
    simp [takeString, hd, ht]
  | false =>
    -- A string that is open stops with its line, and here that can only be at a return.
    have hstop : ∀ c ∈ rest.head?, c = '\r' := by
      intro c hc
      obtain ⟨he, hn⟩ := hr c hc
      simpa [stopsAt, endsLine, hn] using he
    have hq : ∀ c ∈ rest.head?, inString c = false := by
      intro c hc
      rw [hstop c hc]
      decide
    have hd := dropWhile_append_of_head hin hq
    have ht := takeWhile_append_of_head hin hq
    have hne : ∀ cs, rest ≠ '"' :: cs := by
      rintro cs rfl
      exact absurd (hstop '"' rfl) (by decide)
    simp only [takeString, Bool.false_eq_true, if_false, List.append_nil, hd, ht]

/-- Cutting a line that starts with a piece gives that piece first. -/
theorem scan_text_append {p : Piece} (hp : p.WellFormed) (hnl : p ≠ .separator '\n') {rest : Text}
    (hr : ∀ c ∈ rest.head?, p.stopsAt c = true ∧ c ≠ '\n') :
    scan (p.text ++ rest) = p :: scan rest := by
  -- One step of the scanner is enough, as it goes on with what the step leaves.
  suffices h : ∃ c cs, p.text ++ rest = c :: cs ∧ next c cs = (p, rest) by
    obtain ⟨c, cs, htext, hnext⟩ := h
    rw [htext, scan_cons, hnext]
  cases p with
  | blank c =>
    refine ⟨c, rest, rfl, ?_⟩
    have hb : isBlank c = true := hp
    simp [next, hb]
  | separator c =>
    have hs : isSeparator c = true := hp.resolve_right fun h => hnl (by rw [h])
    have hb : isBlank c = false := by
      have hc : c = ';' ∨ c = '\r' := by simpa [isSeparator] using hs
      rcases hc with rfl | rfl <;> decide
    exact ⟨c, rest, rfl, by simp [next, hb, hs]⟩
  | comment body =>
    refine ⟨'#', body ++ rest, rfl, ?_⟩
    have hin : ∀ c ∈ body, inComment c := by
      intro c hc
      have hcn : c ≠ '\n' := by
        rintro rfl
        exact absurd (hp _ hc) (by decide)
      rw [inComment_eq hcn, hp c hc]
      rfl
    have hout : ∀ c ∈ rest.head?, inComment c = false := by
      intro c hc
      obtain ⟨he, hn⟩ := hr c hc
      rw [inComment_eq hn, show endsLine c = true from he]
      rfl
    have hd := dropWhile_append_of_head hin hout
    have ht := takeWhile_append_of_head hin hout
    simp [next, isBlank, isSeparator, hd, ht]
  | quoted body closed =>
    refine ⟨'"', body ++ (if closed then ['"'] else []) ++ rest, by simp [text], ?_⟩
    rw [← takeString_text hp hr]
    simp [next, isBlank, isSeparator]
  | word w =>
    obtain ⟨hne, hquote, hw⟩ := hp
    obtain ⟨c, cs, rfl⟩ := List.exists_cons_of_ne_nil hne
    refine ⟨c, cs ++ rest, rfl, ?_⟩
    have hout : ∀ d ∈ rest.head?, inWord d = false := by
      intro d hd
      obtain ⟨hs, hn⟩ := hr d hd
      simpa [stopsAt, hn] using hs
    have hin : ∀ d ∈ cs, inWord d := fun d hd => (hw d (by simp [hd])).1
    have hd := dropWhile_append_of_head hin hout
    have ht := takeWhile_append_of_head hin hout
    have hc := (hw c (by simp)).1
    simp only [inWord, Bool.and_eq_true, Bool.not_eq_true', bne_iff_ne] at hc
    have hcq : c ≠ '"' := by simpa using hquote
    simp [next, hc.1.1, hc.1.2, hc.2, hcq, hd, ht]

/-- Cutting a text that starts with a piece gives that piece first. -/
theorem ofText_text_append {p : Piece} (hp : p.WellFormed) {rest : Text}
    (hr : ∀ c ∈ rest.head?, p.stopsAt c = true) : ofText (p.text ++ rest) = p :: ofText rest := by
  by_cases hnl : p = .separator '\n'
  · subst hnl
    exact ofText_newline rest
  · obtain ⟨l, ls, hl⟩ := List.exists_cons_of_ne_nil (Text.lines_ne_nil rest)
    have hfirst : ∀ c ∈ l.head?, p.stopsAt c = true ∧ c ≠ '\n' := by
      intro c hc
      obtain ⟨hmem, hcn⟩ := Text.head?_of_lines hl c hc
      exact ⟨hr c hmem, hcn⟩
    simp only [ofText, hl, Text.lines_append (hp.newline_not_mem hnl) hl, List.map_cons,
      scan_text_append hp hnl hfirst, List.intercalate_cons_cons_left]

/-! ### Every text is a row, and a row is cut into itself -/

/-- The head of a run's remainder is outside the class. -/
theorem head?_dropWhile_not (f : Char → Bool) (t : Text) :
    ∀ c ∈ (t.dropWhile f).head?, f c = false := by
  intro c hc
  have h := List.head?_dropWhile_not f t
  rw [hc] at h
  simpa using h

/-- A string goes up to its closing quote, to the end of its line or to the end of the text. -/
theorem exists_quoted (cs : Text) :
    ∃ body closed rest, cs = body ++ (if closed then ['"'] else []) ++ rest ∧
      (Piece.quoted body closed).WellFormed ∧
      ∀ c ∈ rest.head?, (Piece.quoted body closed).stopsAt c = true := by
  let inside : Char → Bool := fun c => c != '"' && !endsLine c
  have hbody : ∀ closed, (Piece.quoted (cs.takeWhile inside) closed).WellFormed := by
    intro _ c hc
    have h := List.mem_takeWhile_imp hc
    simpa [inside] using h
  have hsplit := List.takeWhile_append_dropWhile (p := inside) (l := cs)
  have hhead := head?_dropWhile_not inside cs
  cases hrest : cs.dropWhile inside with
  | nil =>
    refine ⟨cs.takeWhile inside, false, [], ?_, hbody false, by simp⟩
    rw [hrest] at hsplit
    simpa using hsplit.symm
  | cons d rest =>
    rw [hrest] at hsplit hhead
    have hd : inside d = false := hhead d rfl
    by_cases hq : d = '"'
    · subst hq
      refine ⟨cs.takeWhile inside, true, rest, ?_, hbody true, fun _ _ => rfl⟩
      simpa using hsplit.symm
    · refine ⟨cs.takeWhile inside, false, d :: rest, ?_, hbody false, ?_⟩
      · simpa using hsplit.symm
      · rintro c ⟨⟩
        simpa [inside, hq, stopsAt] using hd

/-- Every text that is not empty starts with a piece. -/
theorem exists_piece (c : Char) (cs : Text) :
    ∃ (p : Piece) (rest : Text), c :: cs = p.text ++ rest ∧ p.WellFormed ∧
      ∀ d ∈ rest.head?, p.stopsAt d = true := by
  -- By the first character; a word is what none of the others claims.
  by_cases hb : isBlank c = true
  · exact ⟨.blank c, cs, rfl, hb, fun _ _ => rfl⟩
  by_cases hs : isSeparator c = true ∨ c = '\n'
  · exact ⟨.separator c, cs, rfl, hs, fun _ _ => rfl⟩
  by_cases hc : c = '#'
  · subst hc
    refine ⟨.comment (cs.takeWhile fun d => !endsLine d), cs.dropWhile fun d => !endsLine d,
      ?_, ?_, ?_⟩
    · simp [text, List.takeWhile_append_dropWhile]
    · intro d hd
      simpa using List.mem_takeWhile_imp hd
    · intro d hd
      simpa [stopsAt] using head?_dropWhile_not _ cs d hd
  by_cases hq : c = '"'
  · subst hq
    obtain ⟨body, closed, rest, hcs, hwf, hstop⟩ := exists_quoted cs
    exact ⟨.quoted body closed, rest, by simp [text, hcs], hwf, hstop⟩
  · rw [not_or] at hs
    refine ⟨.word (c :: cs.takeWhile fun d => inWord d && d != '\n'),
      cs.dropWhile fun d => inWord d && d != '\n', ?_, ⟨by simp, by simpa using hq, ?_⟩, ?_⟩
    · simp [text, List.takeWhile_append_dropWhile]
    · intro d hd
      rcases List.mem_cons.1 hd with rfl | hd
      · exact ⟨by simp [inWord, hb, hs.1, hc], hs.2⟩
      · simpa using List.mem_takeWhile_imp hd
    · intro d hd
      have h := head?_dropWhile_not _ cs d hd
      cases hw : inWord d <;> simp_all [stopsAt]

theorem row_nil : Row [] := ⟨by simp, .nil⟩

/-- A piece in front of a row, where the row starts with what the piece stops at. -/
theorem Row.cons {p : Piece} {ps : List Piece} (hp : p.WellFormed) (hps : Row ps)
    (h : ∀ q ∈ ps.head?, p.mayPrecede q = true) : Row (p :: ps) :=
  ⟨fun q hq => (List.mem_cons.1 hq).elim (fun e => e ▸ hp) (hps.wellFormed q),
    List.isChain_cons.2 ⟨h, hps.chain⟩⟩

/-- The text of a row starts with what a piece stops at, if its first piece may follow that. -/
theorem Row.stopsAt {p : Piece} {ps : List Piece} (hps : Row ps)
    (h : ∀ q ∈ ps.head?, p.mayPrecede q = true) :
    ∀ c ∈ (ps.flatMap text).head?, p.stopsAt c = true := by
  intro c hc
  cases ps with
  | nil => simp at hc
  | cons q qs =>
    have hq := hps.wellFormed q (by simp)
    obtain ⟨d, hd⟩ := hq.exists_head
    have hcd : c = d := by
      rw [List.flatMap_cons, List.head?_append, hd] at hc
      simpa using hc.symm
    rw [hcd, stopsAt_eq_mayPrecede p hq hd]
    exact h q rfl

/-- Cutting the text of a row gives the row. -/
theorem ofText_flatMap_text {ps : List Piece} (h : Row ps) : ofText (ps.flatMap text) = ps := by
  induction ps with
  | nil => simp
  | cons p ps ih =>
    have htail : Row ps :=
      ⟨fun q hq => h.wellFormed q (by simp [hq]), (List.isChain_cons.1 h.chain).2⟩
    have hnext := (List.isChain_cons.1 h.chain).1
    rw [List.flatMap_cons, ofText_text_append (h.wellFormed p (by simp)) (htail.stopsAt hnext),
      ih htail]

/-- The pieces of a text are a row, and put together they are the text. -/
theorem row_and_text_ofText (t : Text) : Row (ofText t) ∧ (ofText t).flatMap text = t := by
  induction hn : t.length using Nat.strongRecOn generalizing t with
  | ind n ih =>
    cases t with
    | nil => simpa using row_nil
    | cons c cs =>
      obtain ⟨p, rest, hsplit, hp, hstop⟩ := exists_piece c cs
      obtain ⟨d, hd⟩ := hp.exists_head
      -- A piece takes at least one character, which makes the rest shorter.
      have hlength : rest.length < n := by
        have hpos : 0 < p.text.length := List.length_pos_of_mem (List.mem_of_mem_head? hd)
        rw [← hn, hsplit, List.length_append]
        omega
      obtain ⟨hrow, htext⟩ := ih rest.length hlength rest rfl
      rw [hsplit, ofText_text_append hp hstop, List.flatMap_cons, htext]
      refine ⟨hrow.cons hp ?_, rfl⟩
      intro q hq
      have hqwf := hrow.wellFormed q (List.mem_of_mem_head? hq)
      obtain ⟨e, he⟩ := hqwf.exists_head
      have hrest : rest.head? = some e := by
        rw [← htext]
        obtain ⟨qs, hqs⟩ := List.head?_eq_some_iff.1 hq
        rw [hqs, List.flatMap_cons, List.head?_append, he]
        rfl
      rw [← stopsAt_eq_mayPrecede p hqwf he]
      exact hstop e hrest

theorem row_ofText (t : Text) : Row (ofText t) := (row_and_text_ofText t).1

theorem flatMap_text_ofText (t : Text) : (ofText t).flatMap text = t := (row_and_text_ofText t).2

end Piece

end LogicAsm
