import LogicAsm.Proofs.Overlaps
import LogicAsm.Proofs.Results

/-!
# Edits replace at once

Edits are made one by one, from a cursor that only moves forward, but what comes out can be said
without a cursor.  At each offset of the text stand the new texts of the edits that start there, and
behind them the character of that offset, unless an edit covers it (`Edit.replaced`).  This is what
is made of edits that do not overlap (`applyFrom_of_pairwise`), and edits that overlap are refused
(`exists_applyFrom_iff`), with no other fault (`eq_overlappingEdits_of_applyFrom`).

The order that edits come in matters only for those of one range.  There is one list of the edits by
range in which those of one range keep their order (`StableOrder.eq`), and sorting finds it
(`stableOrder_sort`); so lists of edits that agree about each range give the same text.
-/

namespace LogicAsm.Edit

/-! ### The order of edits -/

/-- A list of edits by range, in which the edits of each range stand as they came. -/
structure StableOrder (edits sorted : List Edit) : Prop where
  pairwise_le : sorted.Pairwise fun e f => e.range ≤ f.range
  filter_eq : ∀ r, sorted.filter (fun e => e.range = r) = edits.filter fun e => e.range = r

theorem stableOrder_sort (edits : List Edit) : StableOrder edits (sort edits) where
  pairwise_le := pairwise_sort_le edits
  filter_eq r := by
    refine Sorting.filter_sort (fun e f he hf => ?_) edits
    obtain rfl := of_decide_eq_true he
    have hrange := of_decide_eq_true hf
    rw [hrange]
    exact decide_eq_true ((Range.le_total _ _).elim id id)

theorem mem_iff_of_filter_eq {edits edits' : List Edit}
    (h : ∀ r, edits.filter (fun e => e.range = r) = edits'.filter fun e => e.range = r) (e : Edit) :
    e ∈ edits ↔ e ∈ edits' := by
  have hmem : ∀ l : List Edit, e ∈ l ↔ e ∈ l.filter fun f => f.range = e.range := by simp
  rw [hmem edits, hmem edits', h]

/-- Sorted edits are determined by those of each range. -/
theorem eq_of_filter_eq {as bs : List Edit} (ha : as.Pairwise fun e f => e.range ≤ f.range)
    (hb : bs.Pairwise fun e f => e.range ≤ f.range)
    (h : ∀ r, as.filter (fun e => e.range = r) = bs.filter fun e => e.range = r) : as = bs := by
  induction as generalizing bs with
  | nil =>
    refine (List.eq_nil_iff_forall_not_mem.2 fun e he => ?_).symm
    exact List.not_mem_nil ((mem_iff_of_filter_eq h e).2 he)
  | cons e as ih =>
    cases bs with
    | nil => exact absurd ((mem_iff_of_filter_eq h e).1 List.mem_cons_self) List.not_mem_nil
    | cons f bs =>
      obtain ⟨hle, has⟩ := List.pairwise_cons.1 ha
      obtain ⟨hle', hbs⟩ := List.pairwise_cons.1 hb
      -- Each of the two first edits stands in the other list too, so their ranges are the same.
      have hrange : e.range = f.range := by
        rcases List.mem_cons.1 ((mem_iff_of_filter_eq h e).1 List.mem_cons_self) with rfl | he
        · rfl
        rcases List.mem_cons.1 ((mem_iff_of_filter_eq h f).2 List.mem_cons_self) with rfl | hf
        · rfl
        exact Range.eq_of_le_of_le (hle f hf) (hle' e he)
      have hfirst := h e.range
      simp only [List.filter_cons, hrange, decide_true, if_true, List.cons.injEq] at hfirst
      obtain rfl := hfirst.1
      refine congrArg (e :: ·) (ih has hbs fun r => ?_)
      have hr := h r
      simp only [List.filter_cons] at hr
      split at hr
      · exact (List.cons.inj hr).2
      · exact hr

theorem StableOrder.eq {edits as bs : List Edit} (ha : StableOrder edits as)
    (hb : StableOrder edits bs) : as = bs :=
  eq_of_filter_eq ha.pairwise_le hb.pairwise_le fun r =>
    (ha.filter_eq r).trans (hb.filter_eq r).symm

/-! ### The text that edits make -/

/-- The offset lies in the stretch of text that an edit replaces. -/
def Covers (doc : Document) (e : Edit) (i : Nat) : Prop :=
  doc.offsetAt e.range.start ≤ i ∧ i < doc.offsetAt e.range.stop

instance (doc : Document) (e : Edit) (i : Nat) : Decidable (Covers doc e i) :=
  inferInstanceAs (Decidable (_ ∧ _))

/-- What stands at an offset after all edits: the new texts of those that start there, and the
character there unless an edit covers it. -/
def replacedAt (doc : Document) (edits : List Edit) (i : Nat) : Text :=
  (edits.filter fun e => doc.offsetAt e.range.start = i).flatMap newText ++
    if ∃ e ∈ edits, Covers doc e i then [] else doc.text[i]?.toList

/-- The text in which every edit's stretch is replaced by its new text. -/
def replaced (doc : Document) (edits : List Edit) : Text :=
  (List.range (doc.text.length + 1)).flatMap (replacedAt doc edits)

variable {doc : Document}

/-- In front of all edits the text is kept. -/
theorem replacedAt_of_lt {edits : List Edit} {i : Nat}
    (h : ∀ e ∈ edits, i < doc.offsetAt e.range.start) :
    replacedAt doc edits i = doc.text[i]?.toList := by
  have hnone : edits.filter (fun e => doc.offsetAt e.range.start = i) = [] := by
    refine List.filter_eq_nil_iff.2 fun e he heq => ?_
    exact Nat.ne_of_gt (h e he) (of_decide_eq_true heq)
  have huncovered : ¬ ∃ e ∈ edits, Covers doc e i := by
    rintro ⟨e, he, hle, -⟩
    exact Nat.not_le.2 (h e he) hle
  rw [replacedAt, hnone, if_neg huncovered]
  rfl

/-- An edit in front of all others changes what stands at its start and takes out what it covers. -/
theorem replacedAt_cons {e : Edit} {es : List Edit}
    (h : ∀ f ∈ es, doc.offsetAt e.range.stop ≤ doc.offsetAt f.range.start) (i : Nat) :
    replacedAt doc (e :: es) i =
      (if doc.offsetAt e.range.start = i then e.newText else []) ++
        if Covers doc e i then [] else replacedAt doc es i := by
  by_cases hcovers : Covers doc e i
  · have hnone : es.filter (fun f => doc.offsetAt f.range.start = i) = [] := by
      refine List.filter_eq_nil_iff.2 fun f hf heq => ?_
      have hstop := h f hf
      have hstart := of_decide_eq_true heq
      have hlt := hcovers.2
      omega
    simp only [replacedAt, List.filter_cons, hnone, List.mem_cons, exists_eq_or_imp, hcovers,
      true_or, if_true, List.append_nil]
    split <;> simp_all
  · simp only [replacedAt, List.filter_cons, List.mem_cons, exists_eq_or_imp, hcovers, false_or,
      if_false]
    split <;> simp_all

/-! ### Edits that overlap -/

/-- An edit ends behind the start of an edit that comes later. -/
def Overlap (doc : Document) (sorted : List Edit) : Prop :=
  ∃ (i j : Nat) (e f : Edit), i < j ∧ sorted[i]? = some e ∧ sorted[j]? = some f ∧
    doc.offsetAt f.range.start < doc.offsetAt e.range.stop

theorem not_overlap_iff {sorted : List Edit} :
    ¬ Overlap doc sorted ↔
      sorted.Pairwise fun e f => doc.offsetAt e.range.stop ≤ doc.offsetAt f.range.start := by
  rw [List.pairwise_iff_getElem]
  constructor
  · intro h i j hi hj hij
    refine Nat.not_lt.1 fun hlt => h ⟨i, j, _, _, hij, ?_, ?_, hlt⟩
    · exact List.getElem?_eq_getElem hi
    · exact List.getElem?_eq_getElem hj
  · rintro h ⟨i, j, e, f, hij, he, hf, hlt⟩
    obtain ⟨hi, rfl⟩ := List.getElem?_eq_some_iff.1 he
    obtain ⟨hj, rfl⟩ := List.getElem?_eq_some_iff.1 hf
    exact Nat.not_le.2 hlt (h i j hi hj hij)

/-- Edits are refused for no other reason than that two of them overlap. -/
theorem eq_overlappingEdits_of_applyFrom {edits : List Edit} {cursor : Nat} {previous : Range}
    {fault : Fault} (h : applyFrom doc cursor previous edits = .error fault) :
    ∃ first second, fault = .overlappingEdits first second := by
  induction edits generalizing cursor previous with
  | nil => cases h
  | cons e es ih =>
    unfold applyFrom at h
    dsimp only at h
    split at h
    · exact ⟨_, _, (Except.error.inj h).symm⟩
    · exact ih (map_eq_error h)

/-! ### Making edits is replacing -/

theorem flatMap_getElem?_range' (t : Text) (start n : Nat) :
    (List.range' start n).flatMap (fun i => t[i]?.toList) = (t.drop start).take n := by
  induction n generalizing start with
  | zero => simp
  | succ n ih =>
    rw [List.range'_succ, List.flatMap_cons, ih]
    cases h : t[start]? with
    | none =>
      have hlength := List.getElem?_eq_none_iff.1 h
      rw [List.drop_eq_nil_of_le hlength, List.drop_eq_nil_of_le (Nat.le_succ_of_le hlength)]
      simp
    | some c =>
      obtain ⟨hlt, rfl⟩ := List.getElem?_eq_some_iff.1 h
      rw [List.drop_eq_getElem_cons hlt]
      rfl

theorem range'_eq_append {a b c : Nat} (hab : a ≤ b) (hbc : b ≤ c) :
    List.range' a (c - a) = List.range' a (b - a) ++ List.range' b (c - b) := by
  obtain ⟨m, rfl⟩ := Nat.exists_eq_add_of_le hab
  obtain ⟨n, rfl⟩ := Nat.exists_eq_add_of_le hbc
  rw [show a + m + n - a = m + n by omega, Nat.add_sub_cancel_left, Nat.add_sub_cancel_left,
    List.range'_append_1]

/-- From the start of the first edit on come its new text and what the others make of the text
behind it. -/
theorem flatMap_replacedAt_cons {e : Edit} {es : List Edit}
    (hle : doc.offsetAt e.range.start ≤ doc.offsetAt e.range.stop)
    (hlength : doc.offsetAt e.range.stop ≤ doc.text.length)
    (h : ∀ f ∈ es, doc.offsetAt e.range.stop ≤ doc.offsetAt f.range.start) :
    (List.range' (doc.offsetAt e.range.start)
        (doc.text.length + 1 - doc.offsetAt e.range.start)).flatMap (replacedAt doc (e :: es)) =
      e.newText ++ (List.range' (doc.offsetAt e.range.stop)
        (doc.text.length + 1 - doc.offsetAt e.range.stop)).flatMap (replacedAt doc es) := by
  have hat := replacedAt_cons h
  generalize hstart : doc.offsetAt e.range.start = start at *
  generalize hstop : doc.offsetAt e.range.stop = stop at *
  let behind (i : Nat) : Text := if i < stop then [] else replacedAt doc es i
  have hbehind : ∀ i, start ≤ i →
      replacedAt doc (e :: es) i = (if start = i then e.newText else []) ++ behind i := by
    intro i hi
    rw [hat]
    simp [behind, Covers, hstart, hstop, hi]
  -- The new text stands at the first offset, so it comes first whether or not the edit covers it.
  have hnew : (List.range' start (doc.text.length + 1 - start)).flatMap (replacedAt doc (e :: es)) =
      e.newText ++ (List.range' start (doc.text.length + 1 - start)).flatMap behind := by
    obtain ⟨n, hn⟩ : ∃ n, doc.text.length + 1 - start = n + 1 := ⟨doc.text.length - start, by omega⟩
    have hrest : ∀ i ∈ List.range' (start + 1) n, replacedAt doc (e :: es) i = behind i := by
      intro i hi
      have hlt := (List.mem_range'_1.1 hi).1
      rw [hbehind i (by omega), if_neg (by omega), List.nil_append]
    rw [hn, List.range'_succ, List.flatMap_cons, List.flatMap_cons, List.flatMap_congr hrest,
      hbehind start (Nat.le_refl start), if_pos rfl, List.append_assoc]
  have hskip : (List.range' start (stop - start)).flatMap behind = [] := by
    refine List.flatMap_eq_nil_iff.2 fun i hi => ?_
    have hlt := (List.mem_range'_1.1 hi).2
    exact if_pos (by omega)
  have hkeep : ∀ i ∈ List.range' stop (doc.text.length + 1 - stop),
      behind i = replacedAt doc es i := by
    intro i hi
    have hge := (List.mem_range'_1.1 hi).1
    exact if_neg (by omega)
  have hsplit := range'_eq_append hle (Nat.le_succ_of_le hlength)
  rw [hnew, hsplit, List.flatMap_append, hskip, List.nil_append, List.flatMap_congr hkeep]

/-- Sorted edits that do not overlap replace the text from the cursor on. -/
theorem applyFrom_of_pairwise {edits : List Edit}
    (hle : ∀ e ∈ edits, doc.offsetAt e.range.start ≤ doc.offsetAt e.range.stop)
    (hlength : ∀ e ∈ edits, doc.offsetAt e.range.stop ≤ doc.text.length)
    (hpairwise : edits.Pairwise fun e f => doc.offsetAt e.range.stop ≤ doc.offsetAt f.range.start)
    {cursor : Nat} (hcursor : ∀ e ∈ edits, cursor ≤ doc.offsetAt e.range.start)
    (previous : Range) :
    applyFrom doc cursor previous edits =
      .ok ((List.range' cursor (doc.text.length + 1 - cursor)).flatMap (replacedAt doc edits)) := by
  induction edits generalizing cursor previous with
  | nil =>
    have hkept : replacedAt doc [] = fun i => doc.text[i]?.toList :=
      funext fun i => replacedAt_of_lt (by simp)
    rw [applyFrom, hkept, flatMap_getElem?_range', List.take_of_length_le (by simp; omega)]
  | cons e es ih =>
    obtain ⟨hbehind, hes⟩ := List.pairwise_cons.1 hpairwise
    have hself := hle e List.mem_cons_self
    have hstop := hlength e List.mem_cons_self
    have hstart := hcursor e List.mem_cons_self
    have hrest := ih (fun f hf => hle f (List.mem_cons_of_mem e hf))
      (fun f hf => hlength f (List.mem_cons_of_mem e hf)) hes hbehind e.range
    -- In front of the first edit no edit changes a character.
    have hkept : ∀ i ∈ List.range' cursor (doc.offsetAt e.range.start - cursor),
        replacedAt doc (e :: es) i = doc.text[i]?.toList := by
      intro i hi
      have hlt := (List.mem_range'_1.1 hi).2
      refine replacedAt_of_lt fun f hf => ?_
      rcases List.mem_cons.1 hf with rfl | hf
      · omega
      · have := hbehind f hf
        omega
    have hsplit := range'_eq_append hstart (Nat.le_succ_of_le (Nat.le_trans hself hstop))
    rw [applyFrom]
    simp only [if_neg (Nat.not_lt.2 hstart), hrest, Except.map]
    rw [hsplit, List.flatMap_append, List.flatMap_congr hkept, flatMap_getElem?_range',
      flatMap_replacedAt_cons hself hstop hbehind, slice, List.append_assoc]

/-! ### Edits in any order -/

section

variable (uri : String) (t : Text) {edits : List Edit}
  (hedits : ∀ e ∈ edits, 0 ≤ e.range.start.line ∧ e.range.start ≤ e.range.stop)

include hedits

theorem offsetAt_start_le_offsetAt_stop (e : Edit) (he : e ∈ sort edits) :
    (Document.ofText uri t).offsetAt e.range.start ≤
      (Document.ofText uri t).offsetAt e.range.stop := by
  obtain ⟨hline, hle⟩ := hedits e (Sorting.mem_sort.1 he)
  exact Document.offsetAt_le_offsetAt uri t hline hle

/-- Edits are refused exactly if two of them overlap. -/
theorem applyAll_eq_overlappingEdits_iff :
    (∃ first second,
        applyAll (Document.ofText uri t) edits = .error (.overlappingEdits first second)) ↔
      Overlap (Document.ofText uri t) (sort edits) := by
  have hmade := exists_applyFrom_iff (offsetAt_start_le_offsetAt_stop uri t hedits) 0 (.of 0 0 0 0)
  rw [← not_overlap_iff, and_iff_right (by simp)] at hmade
  constructor
  · rintro ⟨first, second, hfault⟩
    by_contra hno
    obtain ⟨out, hout⟩ := hmade.2 hno
    exact nomatch hfault.symm.trans hout
  · intro hoverlap
    cases hresult : applyAll (Document.ofText uri t) edits with
    | ok out => exact absurd hoverlap (hmade.1 ⟨out, hresult⟩)
    | error fault =>
      obtain ⟨first, second, rfl⟩ := eq_overlappingEdits_of_applyFrom hresult
      exact ⟨first, second, rfl⟩

/-- Edits that do not overlap replace at once. -/
theorem applyAll_of_not_overlap (h : ¬ Overlap (Document.ofText uri t) (sort edits)) :
    applyAll (Document.ofText uri t) edits =
      .ok (replaced (Document.ofText uri t) (sort edits)) := by
  rw [applyAll, applyFrom_of_pairwise (offsetAt_start_le_offsetAt_stop uri t hedits)
    (fun e _ => Document.offsetAt_le_length uri t e.range.stop) (not_overlap_iff.1 h)
    (fun _ _ => Nat.zero_le _), replaced, List.range_eq_range', Nat.sub_zero]

end

/-- Edits whose ranges start on a line and are not turned around are made at once.  There is one
list of them by range in which those of one range stand as they came.  They are refused exactly if
an edit of it ends behind the start of a later one; else every stretch is replaced by its new text
and the text outside is kept.  Another order of the edits gives the same, if those of each range
come in the same order. -/
theorem applyAll_replaces_at_once (uri : String) (t : Text) (edits : List Edit)
    (hedits : ∀ e ∈ edits, 0 ≤ e.range.start.line ∧ e.range.start ≤ e.range.stop) :
    ∃ sorted, (∀ l, StableOrder edits l ↔ l = sorted) ∧
      ((∃ first second,
          applyAll (Document.ofText uri t) edits = .error (.overlappingEdits first second)) ↔
        Overlap (Document.ofText uri t) sorted) ∧
      (¬ Overlap (Document.ofText uri t) sorted →
        applyAll (Document.ofText uri t) edits = .ok (replaced (Document.ofText uri t) sorted)) ∧
      ∀ edits' : List Edit,
        (∀ r, edits'.filter (fun e => e.range = r) = edits.filter fun e => e.range = r) →
        applyAll (Document.ofText uri t) edits' = applyAll (Document.ofText uri t) edits := by
  have hsorted := stableOrder_sort edits
  refine ⟨sort edits, fun l => ⟨fun hl => hl.eq hsorted, fun hl => hl ▸ hsorted⟩,
    applyAll_eq_overlappingEdits_iff uri t hedits, applyAll_of_not_overlap uri t hedits, ?_⟩
  intro edits' hsame
  have hsorted' := stableOrder_sort edits'
  have hsort : sort edits' = sort edits :=
    eq_of_filter_eq hsorted'.pairwise_le hsorted.pairwise_le fun r =>
      (hsorted'.filter_eq r).trans ((hsame r).trans (hsorted.filter_eq r).symm)
  rw [applyAll, applyAll, hsort]

/-- Two texts that are put in where a line ends, one of them by a place behind the end, and what
takes the rest of the text out. -/
def clampedEdits : List Edit :=
  [delete (.of 0 9 7 0), insert ⟨0, 4⟩ "y".toList, insert ⟨0, 2⟩ "x".toList,
    replace (.of 0 0 0 1) "A".toList]

theorem applyAll_clampedEdits :
    (∀ e ∈ clampedEdits, 0 ≤ e.range.start.line ∧ e.range.start ≤ e.range.stop) ∧
      ¬ Overlap (.ofText "" "ab\ncd".toList) (sort clampedEdits) ∧
      applyAll (.ofText "" "ab\ncd".toList) clampedEdits = .ok "Abxy".toList := by
  have hedits : ∀ e ∈ clampedEdits, 0 ≤ e.range.start.line ∧ e.range.start ≤ e.range.stop := by
    decide
  have hno : ¬ Overlap (.ofText "" "ab\ncd".toList) (sort clampedEdits) :=
    not_overlap_iff.2 (by decide)
  obtain ⟨sorted, hsorted, -, hmade, -⟩ :=
    applyAll_replaces_at_once "" "ab\ncd".toList clampedEdits hedits
  obtain rfl := (hsorted _).1 (stableOrder_sort clampedEdits)
  refine ⟨hedits, hno, (hmade hno).trans ?_⟩
  exact congrArg Except.ok (by decide)

end LogicAsm.Edit
