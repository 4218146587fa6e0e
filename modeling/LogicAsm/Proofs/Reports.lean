import LogicAsm.Proofs.Pointing
import LogicAsm.Report

/-!
# Reports mark what they mean

A report of a text goes through the diagnostics by place.  `Report.Shows` says how each of them has
to appear: its place, counted from one, and what there is to say, under that the line that it starts
on, four blanks in and without the carriage returns at its end, and under the line a run of carets.
The run has as many carets as the range has characters and begins as far in as the range, so it lies
under the characters that are meant.

The range of a diagnostic may be anywhere, and then its carets may be anywhere too; here it is in
the text (`Range.InText`), which is what the checks of a text promise
(`Checks.inText_of_mem_run`).  From that both halves follow, one paragraph at a time: what is shown
has the form (`shows_of_paragraph`), and it is shown (`exists_paragraph`), as long as the numbers
of the text are ones that can be written and counted.
-/

namespace LogicAsm

/-! ### Numbers and rows of copies -/

/-- No line starts behind the text, and none is longer. -/
theorem Text.add_length_le_of_lines {t l : Text} {i : Nat} (h : t.lines[i]? = some l) :
    i + l.length ≤ t.length := by
  rw [lines] at h
  -- Each line before takes up a character at least, its line feed.
  fun_induction cut '\n' t generalizing i l with
  | case1 =>
    obtain ⟨hi, rfl⟩ := List.getElem?_eq_some_iff.1 h
    simpa using hi
  | case2 cs ih =>
    cases i with
    | zero =>
      cases h
      exact Nat.zero_le _
    | succ i =>
      have hle := ih h
      simp only [List.length_cons]
      omega
  | case3 c cs hc hnil => exact absurd hnil (cut_ne_nil '\n' cs)
  | case4 c cs hc first rest hcut ih =>
    rw [hcut] at ih
    cases i with
    | zero =>
      cases h
      have hle := @ih first 0 rfl
      simp only [List.length_cons]
      omega
    | succ i =>
      have hle := @ih l (i + 1) h
      simp only [List.length_cons]
      omega

/-- A number that 64 bits hold has far fewer digits than are ever refused. -/
theorem Text.ofInteger?_of_lt {n : Nat} (h : (n : Int) < Index.bound) :
    ofInteger? n = some (toString n) := by
  have hlt : n < 10 ^ 19 := by
    unfold Index.bound at h
    omega
  have hlength : (ofNat n).length ≤ 19 :=
    (Nat.length_toDigits_le_iff (by decide) (by decide)).2 hlt
  have hfew : ¬ maxDecimalDigits < (ofNat (n : Int).natAbs).length := by
    rw [Int.natAbs_natCast]
    unfold maxDecimalDigits
    omega
  rw [ofInteger?, if_neg hfew]
  rfl

/-- Copies that are made are as many as were asked for. -/
theorem Count.eq_of_copies {count : Int} {c : Char} {row : Text} (h : copies count c = .ok row) :
    row = List.replicate count.toNat c := by
  unfold copies check at h
  split at h
  · cases h
    rfl
  · cases h

theorem Count.copies_of_lt {count : Nat} (h : (count : Int) < Index.bound) (c : Char) :
    copies count c = .ok (List.replicate count c) := by
  rw [copies, check_of_lt h]
  rfl

namespace Report

/-! ### The parts of an entry -/

theorem toString_of_ordinal {n : Nat} {numeral : String} (h : ordinal n = .ok numeral) :
    numeral = toString (n + 1) := by
  unfold ordinal Text.ofInteger? at h
  split at h
  · next hsome =>
    cases h
    exact (Option.some.inj (Option.ite_none_left_eq_some.1 hsome).2).symm
  · cases h

theorem ordinal_of_lt {n : Nat} (h : ((n + 1 : Nat) : Int) < Index.bound) :
    ordinal n = .ok (toString (n + 1)) := by
  rw [ordinal, show ((n : Int) + 1) = ((n + 1 : Nat) : Int) from rfl, Text.ofInteger?_of_lt h]

/-- The line that a report shows for a place in the text. -/
theorem lineOf_eq {t : Text} {d : Diagnostic} {line : Nat} {l : Text}
    (hl : t.lines[line]? = some l) (hline : d.range.start.line = line) (filename : String)
    (ds : List Diagnostic) :
    lineOf ⟨filename, some t, ds⟩ d = .ok (some (l.trimRight (· == '\r'))) := by
  have hget : (sourceLines t)[line]? = some (l.trimRight (· == '\r')) := by
    rw [sourceLines, List.getElem?_map, hl]
    rfl
  obtain ⟨hlt, -⟩ := List.getElem?_eq_some_iff.1 hget
  have hbehind : ¬ ((sourceLines t).length : Int) ≤ line := by omega
  have hresolve : Index.resolve? (sourceLines t).length (line : Int) = some line := by
    rw [Index.resolve?, if_pos (Int.natCast_nonneg line), if_pos (Int.ofNat_lt.2 hlt),
      Int.toNat_natCast]
  simp only [lineOf, hline, hbehind, if_false, Index.get, Index.get?, hresolve, Option.bind_some,
    hget]
  rfl

section place

variable {d : Diagnostic} {line start width : Nat}
  (hrange : d.range = .of line start line (start + width : Nat))

include hrange

theorem eq_of_heading {filename shown : String} (h : heading filename d = .ok shown) :
    shown =
      s!"{filename}:{line + 1}:{start + 1}: {d.severity.label}: {d.message} [{d.code.name}]" := by
  obtain ⟨lineNumber, hline, h⟩ := bind_eq_ok.1 h
  obtain ⟨column, hcolumn, h⟩ := bind_eq_ok.1 h
  rw [hrange] at hline hcolumn
  cases h
  rw [toString_of_ordinal hline, toString_of_ordinal hcolumn]
  rfl

theorem exists_heading (hline : ((line + 1 : Nat) : Int) < Index.bound)
    (hstart : ((start + 1 : Nat) : Int) < Index.bound) (filename : String) :
    ∃ shown, heading filename d = .ok shown := by
  have hlineNumber : ordinal d.range.start.line = .ok (toString (line + 1)) := by
    rw [hrange]
    exact ordinal_of_lt hline
  have hcolumn : ordinal d.range.start.character = .ok (toString (start + 1)) := by
    rw [hrange]
    exact ordinal_of_lt hstart
  exact ⟨_, bind_eq_ok.2 ⟨_, hlineNumber, bind_eq_ok.2 ⟨_, hcolumn, rfl⟩⟩⟩

/-- The mark is as wide as the range, whatever the line. -/
theorem markWidth_eq (hpos : 0 < width) (l : Text) : markWidth d l = width := by
  have hsame : d.range.stop.line = d.range.start.line := by
    rw [hrange]
    rfl
  have hstart : d.range.start.character = start := by
    rw [hrange]
    rfl
  have hstop : d.range.stop.character = (start + width : Nat) := by
    rw [hrange]
    rfl
  simp only [markWidth, hsame, hstart, hstop, if_true]
  omega

theorem eq_of_mark (hpos : 0 < width) {l m : Text} (h : mark d l = .ok m) :
    m = List.replicate (4 + start) ' ' ++ List.replicate width '^' := by
  obtain ⟨blanks, hblanks, h⟩ := bind_eq_ok.1 h
  obtain ⟨carets, hcarets, h⟩ := bind_eq_ok.1 h
  have hcount : (4 + d.range.start.character).toNat = 4 + start := by
    rw [hrange]
    exact Int.toNat_natCast (4 + start)
  rw [markWidth_eq hrange hpos] at hcarets
  cases h
  rw [Count.eq_of_copies hblanks, Count.eq_of_copies hcarets, hcount, Int.toNat_natCast]

theorem exists_mark (hpos : 0 < width) (hstart : ((4 + start : Nat) : Int) < Index.bound)
    (hwidth : (width : Int) < Index.bound) (l : Text) : ∃ m, mark d l = .ok m := by
  have hblanks : Count.copies (4 + d.range.start.character) ' ' =
      .ok (List.replicate (4 + start) ' ') := by
    rw [hrange]
    exact Count.copies_of_lt hstart ' '
  have hcarets : Count.copies (markWidth d l) '^' = .ok (List.replicate width '^') := by
    rw [markWidth_eq hrange hpos]
    exact Count.copies_of_lt hwidth '^'
  exact ⟨_, bind_eq_ok.2 ⟨_, hblanks, bind_eq_ok.2 ⟨_, hcarets, rfl⟩⟩⟩

end place

/-! ### One diagnostic -/

/-- How a diagnostic of a text is shown under a name: the run of carets has the width of the range
and is under the line that is printed, which is as far in. -/
def Shows (t : Text) (filename : String) (d : Diagnostic) (shown : String) : Prop :=
  ∃ (line start width : Nat) (l : Text),
    d.range = .of line start line (start + width : Nat) ∧
    (t.lines[line]?).map (Text.trimRight (· == '\r')) = some l ∧
    0 < width ∧ start + width ≤ l.length ∧
    shown =
      s!"{filename}:{line + 1}:{start + 1}: {d.severity.label}: {d.message} [{d.code.name}]" ++
        "\n    " ++ String.ofList l ++
        "\n" ++ String.ofList (List.replicate (4 + start) ' ' ++ List.replicate width '^') ++
        "\n\n"

/-- A range in the text, by its line and its characters. -/
theorem exists_of_inText {t : Text} {r : Range} (h : r.InText t) :
    ∃ (line start width : Nat) (l : Text), r = .of line start line (start + width : Nat) ∧
      t.lines[line]? = some l ∧ 0 < width ∧
      start + width ≤ (l.trimRight (· == '\r')).length := by
  obtain ⟨line, l, hl, hstartLine, hstopLine, hnonneg, hlt, hle⟩ := h
  obtain ⟨⟨startLine, start⟩, ⟨stopLine, stop⟩⟩ := r
  obtain ⟨start, rfl⟩ := Int.eq_ofNat_of_zero_le hnonneg
  obtain ⟨width, hwidth⟩ := Int.eq_ofNat_of_zero_le (Int.sub_nonneg_of_le (Int.le_of_lt hlt))
  cases hstartLine
  cases hstopLine
  obtain rfl : stop = (start + width : Nat) := by
    push_cast
    simp only at hwidth
    omega
  refine ⟨line, start, width, l, rfl, hl, ?_, Int.ofNat_le.1 hle⟩
  simp only at hlt
  omega

variable {t : Text} {d : Diagnostic}

/-- What is shown of a diagnostic in the text has the form that it should. -/
theorem shows_of_paragraph (h : d.range.InText t) {filename : String} {ds : List Diagnostic}
    {shown : String} (hshown : paragraph ⟨filename, some t, ds⟩ d = .ok shown) :
    Shows t filename d shown := by
  obtain ⟨line, start, width, l, hrange, hl, hpos, hle⟩ := exists_of_inText h
  have hline : d.range.start.line = line := by
    rw [hrange]
    rfl
  obtain ⟨x, hx, hshown⟩ := bind_eq_ok.1 hshown
  rw [lineOf_eq hl hline] at hx
  obtain rfl := Except.ok.inj hx
  obtain ⟨e, he, hshown⟩ := bind_eq_ok.1 hshown
  obtain ⟨first, hfirst, he⟩ := bind_eq_ok.1 he
  obtain ⟨m, hm, he⟩ := bind_eq_ok.1 he
  refine ⟨line, start, width, l.trimRight (· == '\r'), hrange, by rw [hl]; rfl, hpos, hle, ?_⟩
  cases hshown
  cases he
  rw [eq_of_heading hrange hfirst, eq_of_mark hrange hpos hm]
  rfl

/-- A diagnostic in the text is shown, if the text is not longer than what can be counted. -/
theorem exists_paragraph (h : d.range.InText t)
    (hlength : ((4 + t.length : Nat) : Int) < Index.bound) (filename : String)
    (ds : List Diagnostic) : ∃ shown, paragraph ⟨filename, some t, ds⟩ d = .ok shown := by
  obtain ⟨line, start, width, l, hrange, hl, hpos, hle⟩ := exists_of_inText h
  have hline : d.range.start.line = line := by
    rw [hrange]
    rfl
  have hbound := Text.add_length_le_of_lines hl
  have htrim := Text.length_trimRight_le (· == '\r') l
  obtain ⟨first, hfirst⟩ := exists_heading hrange (by omega) (by omega) filename
  obtain ⟨m, hm⟩ := exists_mark hrange hpos (by omega) (by omega) (l.trimRight (· == '\r'))
  obtain ⟨e, he⟩ : ∃ e, entry filename (some (l.trimRight (· == '\r'))) d = .ok e :=
    ⟨_, bind_eq_ok.2 ⟨first, hfirst, bind_eq_ok.2 ⟨m, hm, rfl⟩⟩⟩
  have hlineOf := lineOf_eq hl hline filename ds
  exact ⟨e ++ "\n\n", bind_eq_ok.2 ⟨_, hlineOf, bind_eq_ok.2 ⟨e, he, rfl⟩⟩⟩

/-! ### The report -/

/-- A report of a text shows each of its diagnostics once, in the order of their listing, and the
summary behind them.  It is there if the text, as far in as it is printed, is not longer than what
can be counted. -/
structure MarksUnder (r : Report) (t : Text) : Prop where
  listing : (Diagnostic.sort r.diagnostics).Perm r.diagnostics
  shows : ∀ shown, r.text = .ok shown → ∃ paragraphs,
    List.Forall₂ (Shows t r.filename) (Diagnostic.sort r.diagnostics) paragraphs ∧
      shown = String.join paragraphs ++ r.summary
  exists_text : ((4 + t.length : Nat) : Int) < Index.bound → ∃ shown, r.text = .ok shown

theorem marksUnder_of_inText {ds : List Diagnostic} (h : ∀ d ∈ ds, d.range.InText t)
    (filename : String) : MarksUnder ⟨filename, some t, ds⟩ t := by
  have hsorted : ∀ d ∈ Diagnostic.sort ds, d.range.InText t := by
    intro d hd
    rw [Diagnostic.sort, Sorting.mem_sort] at hd
    exact h d hd
  refine ⟨Sorting.perm_sort _ _, fun shown hshown => ?_, fun hlength => ?_⟩
  · obtain ⟨paragraphs, hparagraphs, hshown⟩ := bind_eq_ok.1 hshown
    cases hshown
    have heach := (List.forall₂_and_left _ _).2 ⟨hsorted, mapM_eq_ok_iff.1 hparagraphs⟩
    exact ⟨paragraphs, heach.imp fun d shown h => shows_of_paragraph h.1 h.2, rfl⟩
  · obtain ⟨paragraphs, hparagraphs⟩ := exists_mapM_eq_ok fun d hd =>
      exists_paragraph (hsorted d hd) hlength filename ds
    exact ⟨_, bind_eq_ok.2 ⟨paragraphs, hparagraphs, rfl⟩⟩

end Report

/-- Diagnostics point into the text: every range that the checks of a text report, and every range
of a related place, is a run of characters of one of its lines, at least one and none of the
carriage returns at the end of the line; so the report of the text has its carets under the part of
the line that is meant. -/
theorem diagnostics_in_text {settings : Settings} {uri : String} {t : Text}
    {found : Checks.Findings} (h : Checks.run settings (.ofText uri t) = .ok found) :
    (∀ d ∈ found.diagnostics, d.range.InText t ∧ ∀ place ∈ d.related, place.range.InText t) ∧
      ∀ filename, Report.MarksUnder ⟨filename, some t, found.diagnostics⟩ t := by
  have hinText := Checks.inText_of_mem_run h
  refine ⟨hinText, fun filename => ?_⟩
  exact Report.marksUnder_of_inText (fun d hd => (hinText d hd).1) filename

/-- A label that is declared again, in front of a string that is open, has an unknown colour in it
and returns behind it: four reports, and one of them names another place. -/
theorem diagnostics_in_text_returns : ∃ found,
    Checks.run {} (.ofText "" "a:\na: print \"[blu]x\r\r".toList) = .ok found ∧
      found.diagnostics.map (fun d => (d.range, d.related.map (·.range))) =
        [(.of 0 0 0 1, []), (.of 1 0 1 1, [.of 0 0 0 1]), (.of 1 9 1 16, []),
          (.of 1 11 1 14, [])] ∧
      (∀ d ∈ found.diagnostics, d.range.InText "a:\na: print \"[blu]x\r\r".toList ∧
        ∀ place ∈ d.related, place.range.InText "a:\na: print \"[blu]x\r\r".toList) ∧
      ∀ filename, Report.MarksUnder
        ⟨filename, some "a:\na: print \"[blu]x\r\r".toList, found.diagnostics⟩
        "a:\na: print \"[blu]x\r\r".toList := by
  have hcomputed : (Checks.run {} (.ofText "" "a:\na: print \"[blu]x\r\r".toList)).toOption.map
        (fun found => found.diagnostics.map fun d => (d.range, d.related.map (·.range))) =
      some [(.of 0 0 0 1, []), (.of 1 0 1 1, [.of 0 0 0 1]), (.of 1 9 1 16, []),
        (.of 1 11 1 14, [])] := by
    decide +kernel
  cases hfound : Checks.run {} (.ofText "" "a:\na: print \"[blu]x\r\r".toList) with
  | error e =>
    rw [hfound] at hcomputed
    cases hcomputed
  | ok found =>
    rw [hfound] at hcomputed
    exact ⟨found, rfl, Option.some.inj hcomputed, diagnostics_in_text hfound⟩

end LogicAsm
