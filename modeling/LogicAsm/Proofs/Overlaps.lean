import LogicAsm.Proofs.Edits

/-!
# Edits that can be made

Edits are made from front to back, and an edit that starts before the end of the last one is
refused.  Where no range is turned around, this compares each edit with all those in front of it:
sorted edits are made exactly if each one ends before all those behind it start
(`exists_applyFrom_iff`).

Ranges are compared by their places and edits are made at offsets, but the offsets are in the order
of the places (`offsetAt_le_offsetAt`).  So edits that lie one behind the other in the text are
made, in whatever order they come (`exists_applyAll_of_perm`), and two that overlap never are
(`not_exists_applyAll`).
-/

namespace LogicAsm

namespace Range

theorem eq_of_le_of_le {a b : Range} (hab : a ≤ b) (hba : b ≤ a) : a = b := by
  have hstart := Position.eq_of_le_of_le (start_le hab) (start_le hba)
  have hlt : ¬ a.start < b.start := fun h => Position.ne_of_lt h hstart
  have hgt : ¬ b.start < a.start := fun h => Position.ne_of_lt h hstart.symm
  have hstop := Position.eq_of_le_of_le ((le_iff.1 hab).resolve_left hlt).2
    ((le_iff.1 hba).resolve_left hgt).2
  obtain ⟨start, stop⟩ := a
  obtain ⟨start', stop'⟩ := b
  obtain rfl : start = start' := hstart
  obtain rfl : stop = stop' := hstop
  rfl

end Range

/-! ### Offsets are in the order of places -/

namespace Document

/-- A line starts where the lines in front of it, with their line feeds, end. -/
theorem lineOffset_eq_length (doc : Document) (line : Nat) :
    doc.lineOffset line = ((doc.lines.take line).flatMap fun l => l ++ ['\n']).length := by
  rw [lineOffset]
  induction doc.lines.take line with
  | nil => rfl
  | cons l ls ih =>
    rw [List.foldr_cons, ih, List.flatMap_cons, List.length_append, List.length_append]
    rfl

theorem lineOffset_succ {doc : Document} {line : Nat} {l : Text} (h : doc.lines[line]? = some l) :
    doc.lineOffset (line + 1) = doc.lineOffset line + (l.length + 1) := by
  rw [lineOffset_eq_length, lineOffset_eq_length, List.take_add_one, h, List.flatMap_append,
    List.length_append, Option.toList_some, List.flatMap_singleton, List.length_append]
  rfl

theorem lineOffset_mono (doc : Document) {i j : Nat} (h : i ≤ j) :
    doc.lineOffset i ≤ doc.lineOffset j := by
  obtain ⟨k, rfl⟩ := Nat.exists_eq_add_of_le h
  rw [lineOffset_eq_length, lineOffset_eq_length, List.take_add, List.flatMap_append,
    List.length_append]
  exact Nat.le_add_right _ _

/-- The end of a line is a place in the text. -/
theorem lineOffset_add_length_le (uri : String) (t : Text) {line : Nat} {l : Text}
    (h : (ofText uri t).lines[line]? = some l) :
    (ofText uri t).lineOffset line + l.length ≤ t.length := by
  obtain ⟨init, last, hlines⟩ := Text.exists_lines_eq_append t
  obtain ⟨doc, hdoc⟩ : ∃ doc, doc = ofText uri t := ⟨_, rfl⟩
  have hdocLines : doc.lines = init ++ [last] := by rw [hdoc]; exact hlines
  have hlength : t.length = doc.lineOffset init.length + last.length := by
    rw [Text.length_eq_of_lines hlines, lineOffset, hdocLines, List.take_left]
  rw [← hdoc] at h ⊢
  by_cases hline : line < init.length
  · -- The line ends with a line feed, which the next line starts behind.
    have hnext := lineOffset_succ h
    have hmono : doc.lineOffset (line + 1) ≤ doc.lineOffset init.length :=
      doc.lineOffset_mono (Nat.succ_le_of_lt hline)
    omega
  · obtain rfl : line = init.length := by
      have hlt := (List.getElem?_eq_some_iff.1 h).1
      rw [hdocLines, List.length_append, List.length_singleton] at hlt
      omega
    obtain rfl : last = l := by
      rw [hdocLines, List.getElem?_append_right (Nat.le_refl _), Nat.sub_self] at h
      exact Option.some.inj h
    exact Nat.le_of_eq hlength.symm

theorem offsetAt_le_length (uri : String) (t : Text) (p : Position) :
    (ofText uri t).offsetAt p ≤ t.length := by
  unfold offsetAt
  split
  · exact Nat.le_refl _
  · next l h =>
    have hend := lineOffset_add_length_le uri t h
    have hmin := Nat.min_le_right p.character.toNat l.length
    omega

/-- The offsets of places are in the order of the places. -/
theorem offsetAt_le_offsetAt (uri : String) (t : Text) {p q : Position} (hp : 0 ≤ p.line)
    (h : p ≤ q) : (ofText uri t).offsetAt p ≤ (ofText uri t).offsetAt q := by
  have hbound := offsetAt_le_length uri t p
  rcases Position.le_iff.1 h with hline | ⟨hline, hcharacter⟩
  · unfold offsetAt at hbound ⊢
    cases hq : (ofText uri t).lines[q.line.toNat]? with
    | none => exact hbound
    | some m =>
      have hlt : p.line.toNat < q.line.toNat := by omega
      obtain ⟨l, hl⟩ : ∃ l, (ofText uri t).lines[p.line.toNat]? = some l := by
        have hqlt := (List.getElem?_eq_some_iff.1 hq).1
        exact ⟨_, List.getElem?_eq_getElem (Nat.lt_trans hlt hqlt)⟩
      have hnext := lineOffset_succ hl
      have hmono : (ofText uri t).lineOffset (p.line.toNat + 1) ≤
          (ofText uri t).lineOffset q.line.toNat :=
        (ofText uri t).lineOffset_mono (Nat.succ_le_of_lt hlt)
      have hmin := Nat.min_le_right p.character.toNat l.length
      simp only [hl]
      omega
  · unfold offsetAt
    rw [hline]
    split
    · exact Nat.le_refl _
    · omega

end Document

namespace Edit

/-! ### Sorted edits -/

/-- Sorted edits are made exactly if each one ends before all those behind it start. -/
theorem exists_applyFrom_iff {doc : Document} {edits : List Edit}
    (hedits : ∀ e ∈ edits, doc.offsetAt e.range.start ≤ doc.offsetAt e.range.stop) (cursor : Nat)
    (previous : Range) :
    (∃ out, applyFrom doc cursor previous edits = .ok out) ↔
      (∀ e ∈ edits, cursor ≤ doc.offsetAt e.range.start) ∧
        edits.Pairwise fun e f => doc.offsetAt e.range.stop ≤ doc.offsetAt f.range.start := by
  induction edits generalizing cursor previous with
  | nil => exact ⟨fun _ => ⟨by simp, .nil⟩, fun _ => ⟨_, rfl⟩⟩
  | cons e es ih =>
    have hself := hedits e List.mem_cons_self
    have hrest := ih (fun f hf => hedits f (List.mem_cons_of_mem e hf))
      (doc.offsetAt e.range.stop) e.range
    rw [List.pairwise_cons]
    unfold applyFrom
    -- An edit that starts at the cursor or behind it is put in, any other stops the run.
    by_cases hlt : doc.offsetAt e.range.start < cursor
    · simp only [if_pos hlt]
      refine iff_of_false (by rintro ⟨out, ⟨⟩⟩) ?_
      rintro ⟨hcursor, -⟩
      exact Nat.not_le.2 hlt (hcursor e List.mem_cons_self)
    · simp only [if_neg hlt]
      constructor
      · rintro ⟨out, hout⟩
        obtain ⟨later, hlater⟩ : ∃ later,
            applyFrom doc (doc.offsetAt e.range.stop) e.range es = .ok later := by
          cases happlied : applyFrom doc (doc.offsetAt e.range.stop) e.range es with
          | error fault => rw [happlied] at hout; cases hout
          | ok later => exact ⟨later, rfl⟩
        obtain ⟨hbehind, hpairwise⟩ := hrest.1 ⟨later, hlater⟩
        refine ⟨?_, hbehind, hpairwise⟩
        intro f hf
        rcases List.mem_cons.1 hf with rfl | hf
        · exact Nat.not_lt.1 hlt
        · exact Nat.le_trans (Nat.not_lt.1 hlt) (Nat.le_trans hself (hbehind f hf))
      · rintro ⟨-, hbehind, hpairwise⟩
        obtain ⟨later, hlater⟩ := hrest.2 ⟨hbehind, hpairwise⟩
        rw [hlater]
        exact ⟨_, rfl⟩

/-! ### Edits in any order -/

variable (uri : String) (t : Text)

/-- Edits that are a range each, in the order of the text. -/
structure InOrder (edits : List Edit) : Prop where
  line : ∀ e ∈ edits, 0 ≤ e.range.start.line
  start_le_stop : ∀ e ∈ edits, e.range.start ≤ e.range.stop
  stop_le_start : edits.Pairwise fun e f => e.range.stop ≤ f.range.start

/-- Edits that lie one behind the other are made, in whatever order they come. -/
theorem exists_applyAll_of_perm {edits sorted : List Edit} (h : InOrder sorted)
    (hperm : edits.Perm sorted) :
    ∃ out, applyAll (Document.ofText uri t) edits = .ok out := by
  have hmem : ∀ e ∈ sort edits, e ∈ sorted := fun e he =>
    hperm.mem_iff.1 (Sorting.mem_sort.1 he)
  have hline : ∀ e ∈ sorted, 0 ≤ e.range.stop.line := by
    intro e he
    have hstart := h.line e he
    have hle := h.start_le_stop e he
    rw [Position.le_iff] at hle
    omega
  -- Edits of the same range may change places, but the ranges come in one order only.
  have hranges : (sort edits).map range = sorted.map range := by
    refine List.Perm.eq_of_pairwise (fun a b _ _ => Range.eq_of_le_of_le)
      (List.pairwise_map.2 (pairwise_sort_le edits)) (List.pairwise_map.2 ?_)
      (((Sorting.perm_sort _ _).trans hperm).map range)
    refine h.stop_le_start.imp_of_mem ?_
    intro e f he hf hef
    have hstart := Position.le_trans (h.start_le_stop e he) hef
    by_cases hlt : e.range.start < f.range.start
    · exact .inl hlt
    · have heq : e.range.start = f.range.start :=
        Position.eq_of_le_of_le hstart (by rw [Position.le_iff]; rw [Position.lt_iff] at hlt; omega)
      exact .inr ⟨heq, Position.le_trans hef (h.start_le_stop f hf)⟩
  have hsorted : (sort edits).Pairwise fun e f => e.range.stop ≤ f.range.start := by
    have hpairwise : (sorted.map range).Pairwise fun a b => a.stop ≤ b.start :=
      List.pairwise_map.2 h.stop_le_start
    rw [← hranges] at hpairwise
    exact List.pairwise_map.1 hpairwise
  refine (exists_applyFrom_iff ?_ 0 _).2 ⟨fun _ _ => Nat.zero_le _, ?_⟩
  · intro e he
    exact Document.offsetAt_le_offsetAt uri t (h.line e (hmem e he)) (h.start_le_stop e (hmem e he))
  · refine hsorted.imp_of_mem ?_
    intro e f he _ hef
    exact Document.offsetAt_le_offsetAt uri t (hline e (hmem e he)) hef

/-- Edits are refused if one of them starts within another one. -/
theorem not_exists_applyAll {edits : List Edit}
    (hedits : ∀ e ∈ edits, 0 ≤ e.range.start.line ∧ e.range.start ≤ e.range.stop) {e f : Edit}
    (he : e ∈ edits) (hf : f ∈ edits) (hlt : e.range.start < f.range.start)
    (hoverlap : (Document.ofText uri t).offsetAt f.range.start <
      (Document.ofText uri t).offsetAt e.range.stop) :
    ¬ ∃ out, applyAll (Document.ofText uri t) edits = .ok out := by
  intro hmade
  have hoffsets : ∀ g ∈ sort edits, (Document.ofText uri t).offsetAt g.range.start ≤
      (Document.ofText uri t).offsetAt g.range.stop := by
    intro g hg
    obtain ⟨hline, hle⟩ := hedits g (Sorting.mem_sort.1 hg)
    exact Document.offsetAt_le_offsetAt uri t hline hle
  obtain ⟨-, hpairwise⟩ := (exists_applyFrom_iff hoffsets 0 _).1 hmade
  -- Of two sorted edits one stands in front, and that is the one that starts first.
  let before (g h : Edit) : Prop := g.range ≤ h.range ∧
    (Document.ofText uri t).offsetAt g.range.stop ≤ (Document.ofText uri t).offsetAt h.range.start
  have hbefore : (sort edits).Pairwise fun g h => before g h ∨ before h g :=
    (hpairwise.and (pairwise_sort_le edits)).imp fun h => .inl h.symm
  have : Std.Symm fun g h => before g h ∨ before h g := ⟨fun _ _ => Or.symm⟩
  have hne : e ≠ f := fun h => Position.ne_of_lt hlt (congrArg (·.range.start) h)
  rcases hbefore.forall (Sorting.mem_sort.2 he) (Sorting.mem_sort.2 hf) hne with
    ⟨-, hstop⟩ | ⟨hle, -⟩
  · exact Nat.not_le.2 hoverlap hstop
  · exact Position.not_le.2 hlt (Range.start_le hle)

end Edit

end LogicAsm
