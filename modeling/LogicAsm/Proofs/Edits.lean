import LogicAsm.Edit
import LogicAsm.Proofs.Places
import Mathlib.Data.List.Nodup

/-!
# Edits that are made

A text is *rewritten* to another one by edits (`Edit.Rewrites`) if the two can be read side by side:
what they share is kept, and where they differ stands an edit of what the first one has there.  Such
edits come in the order of the text, so they can be given in any order (`sort_eq_of_perm`), and
making them gives the second text (`applyAll_of_rewrites`).

Offsets, overlaps and the order of edits are dealt with here once; who makes edits has to say only
what becomes of each part of the text.
-/

namespace LogicAsm

namespace Position

/-! ### The order of places -/

theorem le_refl (a : Position) : a ≤ a := .inr ⟨rfl, Int.le_refl _⟩

theorem le_trans {a b c : Position} (hab : a ≤ b) (hbc : b ≤ c) : a ≤ c := by
  simp only [le_iff] at *
  omega

theorem le_total (a b : Position) : a ≤ b ∨ b ≤ a := by
  simp only [le_iff]
  omega

theorem eq_of_le_of_le {a b : Position} (hab : a ≤ b) (hba : b ≤ a) : a = b := by
  obtain ⟨line, character⟩ := a
  obtain ⟨line', character'⟩ := b
  simp only [le_iff] at hab hba
  obtain rfl : line = line' := by omega
  obtain rfl : character = character' := by omega
  rfl

theorem le_of_lt {a b : Position} (h : a < b) : a ≤ b := by
  simp only [le_iff, lt_iff] at *
  omega

theorem lt_of_lt_of_le {a b c : Position} (hab : a < b) (hbc : b ≤ c) : a < c := by
  simp only [le_iff, lt_iff] at *
  omega

theorem ne_of_lt {a b : Position} (h : a < b) : a ≠ b := by
  rintro rfl
  simp only [lt_iff] at h
  omega

theorem lt_after (a : Position) (c : Char) : a < a.after c := by
  unfold after
  split
  · exact .inl (Int.lt_succ _)
  · exact .inr ⟨rfl, Int.lt_succ _⟩

/-- Reading on leads on. -/
theorem le_advance (a : Position) (t : Text) : a ≤ a.advance t := by
  induction t generalizing a with
  | nil => exact le_refl a
  | cons c cs ih => exact le_trans (le_of_lt (lt_after a c)) (ih (a.after c))

theorem lt_advance (a : Position) {t : Text} (ht : t ≠ []) : a < a.advance t := by
  obtain ⟨c, cs, rfl⟩ := List.exists_cons_of_ne_nil ht
  exact lt_of_lt_of_le (lt_after a c) (le_advance (a.after c) cs)

end Position

namespace Range

theorem le_iff {a b : Range} :
    a ≤ b ↔ a.start < b.start ∨ a.start = b.start ∧ a.stop ≤ b.stop := Iff.rfl

theorem start_le {a b : Range} (h : a ≤ b) : a.start ≤ b.start := by
  rcases le_iff.1 h with hlt | ⟨heq, -⟩
  · exact Position.le_of_lt hlt
  · exact heq ▸ Position.le_refl _

theorem le_trans {a b c : Range} (hab : a ≤ b) (hbc : b ≤ c) : a ≤ c := by
  rcases le_iff.1 hab with hlt | ⟨heq, hstop⟩
  · exact .inl (Position.lt_of_lt_of_le hlt (start_le hbc))
  · rcases le_iff.1 hbc with hlt | ⟨heq', hstop'⟩
    · exact .inl (heq ▸ hlt)
    · exact .inr ⟨heq.trans heq', Position.le_trans hstop hstop'⟩

theorem le_total (a b : Range) : a ≤ b ∨ b ≤ a := by
  by_cases hle : a.start ≤ b.start
  · by_cases hge : b.start ≤ a.start
    · have heq := Position.eq_of_le_of_le hle hge
      rcases Position.le_total a.stop b.stop with hstop | hstop
      · exact .inl (.inr ⟨heq, hstop⟩)
      · exact .inr (.inr ⟨heq.symm, hstop⟩)
    · exact .inl (.inl (Position.not_le.1 hge))
  · exact .inr (.inl (Position.not_le.1 hle))

end Range

namespace Edit

/-! ### Rewriting a text -/

/-- The first text, which starts at a position, becomes the second one by edits that are in the
order of the text. -/
inductive Rewrites : Position → Text → Text → List Edit → Prop where
  | done (here : Position) : Rewrites here [] [] []
  | keep {here : Position} {old new : Text} {edits : List Edit} (t : Text)
      (rest : Rewrites (here.advance t) old new edits) : Rewrites here (t ++ old) (t ++ new) edits
  | change {here : Position} {old new : Text} {edits : List Edit} {u : Text} (hu : u ≠ [])
      (v : Text) (rest : Rewrites (here.advance u) old new edits) :
      Rewrites here (u ++ old) (v ++ new) (⟨⟨here, here.advance u⟩, v⟩ :: edits)
  -- Only one text is put in at a place, and it stands in front of something.
  | insert {here : Position} {old new : Text} {edits : List Edit} (v : Text) (hold : old ≠ [])
      (later : ∀ e ∈ edits, here < e.range.start) (rest : Rewrites here old new edits) :
      Rewrites here old (v ++ new) (.insert here v :: edits)

namespace Rewrites

/-- A text that is kept. -/
theorem kept (here : Position) (t : Text) : Rewrites here t t [] := by
  have h := keep t (done (here.advance t))
  rwa [List.append_nil] at h

/-- A text that is put in the place of another one. -/
theorem changed (here : Position) {u : Text} (hu : u ≠ []) (v : Text) :
    Rewrites here u v [⟨⟨here, here.advance u⟩, v⟩] := by
  have h := change hu v (done (here.advance u))
  rwa [List.append_nil, List.append_nil] at h

/-- No edit starts in front of the text. -/
theorem le_start {here : Position} {old new : Text} {edits : List Edit}
    (h : Rewrites here old new edits) : ∀ e ∈ edits, here ≤ e.range.start := by
  induction h with
  | done => simp
  | keep t _ ih => exact fun e he => Position.le_trans (Position.le_advance _ t) (ih e he)
  | @change here _ _ _ u hu v _ ih =>
    intro e he
    rcases List.mem_cons.1 he with rfl | he
    · exact Position.le_refl here
    · exact Position.le_trans (Position.le_advance here u) (ih e he)
  | @insert here _ _ _ v _ _ _ ih =>
    intro e he
    rcases List.mem_cons.1 he with rfl | he
    · exact Position.le_refl here
    · exact ih e he

/-- Two texts behind each other are rewritten one by one. -/
theorem append {here : Position} {old new old' new' : Text} {edits edits' : List Edit}
    (h : Rewrites here old new edits) (h' : Rewrites (here.advance old) old' new' edits') :
    Rewrites here (old ++ old') (new ++ new') (edits ++ edits') := by
  induction h with
  | done => exact h'
  | keep t _ ih =>
    rw [Position.advance_append] at h'
    rw [List.append_assoc, List.append_assoc]
    exact keep t (ih h')
  | change hu v _ ih =>
    rw [Position.advance_append] at h'
    rw [List.append_assoc, List.append_assoc]
    exact change hu v (ih h')
  | insert v hold later _ ih =>
    rw [List.append_assoc]
    refine insert v (by simp [hold]) (fun e he => ?_) (ih h')
    rcases List.mem_append.1 he with he | he
    · exact later e he
    · exact Position.lt_of_lt_of_le (Position.lt_advance _ hold) (h'.le_start e he)

/-- Each edit starts behind those in front of it. -/
theorem pairwise_start {here : Position} {old new : Text} {edits : List Edit}
    (h : Rewrites here old new edits) :
    edits.Pairwise fun e f => e.range.start < f.range.start := by
  induction h with
  | done => exact .nil
  | keep _ _ ih => exact ih
  | change hu _ rest ih =>
    refine List.pairwise_cons.2 ⟨fun f hf => ?_, ih⟩
    exact Position.lt_of_lt_of_le (Position.lt_advance _ hu) (rest.le_start f hf)
  | insert _ _ later _ ih => exact List.pairwise_cons.2 ⟨later, ih⟩

end Rewrites

/-! ### Making the edits -/

/-- Sorting orders edits by their ranges. -/
theorem pairwise_sort_le (edits : List Edit) :
    (sort edits).Pairwise fun e f => e.range ≤ f.range := by
  have hsorted : (sort edits).Pairwise fun e f => decide (e.range ≤ f.range) = true := by
    apply Sorting.pairwise_sort
    · intro e f g hef hfg
      exact decide_eq_true (Range.le_trans (of_decide_eq_true hef) (of_decide_eq_true hfg))
    · intro e f
      exact (Range.le_total e.range f.range).imp decide_eq_true decide_eq_true
  exact hsorted.imp of_decide_eq_true

/-- Edits that start one behind the other are what sorting gives, in whatever order they come. -/
theorem sort_eq_of_perm {edits sorted : List Edit}
    (h : sorted.Pairwise fun e f => e.range.start < f.range.start) (hperm : edits.Perm sorted) :
    sort edits = sorted := by
  have hmem : ∀ e ∈ sort edits, e ∈ sorted := fun e he =>
    hperm.mem_iff.1 (Sorting.mem_sort.1 he)
  have hnodup : (sorted.map fun e => e.range.start).Nodup :=
    List.pairwise_map.2 (h.imp Position.ne_of_lt)
  -- No two edits start at one place, so there is only one sorted order.
  refine List.Perm.eq_of_pairwise ?_ (pairwise_sort_le edits) (h.imp fun hlt => .inl hlt)
    ((Sorting.perm_sort _ _).trans hperm)
  intro e f he hf hef hfe
  exact List.inj_on_of_nodup_map hnodup (hmem e he) hf
    (Position.eq_of_le_of_le (Range.start_le hef) (Range.start_le hfe))

theorem slice_append_of_le (a b : Text) {cursor : Nat} (h : cursor ≤ a.length) :
    slice (a ++ b) cursor a.length = a.drop cursor := by
  rw [slice, List.drop_append_of_le_length h]
  exact List.take_left' List.length_drop

/-- Making edits that rewrite the rest of a text, where the text up to `cursor` is done. -/
theorem applyFrom_of_rewrites (uri : String) {a old new : Text} {edits : List Edit}
    (h : Rewrites (Position.origin.advance a) old new edits) {cursor : Nat}
    (hcursor : cursor ≤ a.length) (previous : Range) :
    applyFrom (Document.ofText uri (a ++ old)) cursor previous edits =
      .ok (a.drop cursor ++ new) := by
  generalize hhere : Position.origin.advance a = here at h
  -- The text in front grows with every step, but the cursor moves with a change only: what is kept
  -- is copied when the next change comes, or at the end.
  induction h generalizing a cursor previous with
  | done => simp [applyFrom, Document.ofText]
  | keep t _ ih =>
    have hlength : cursor ≤ (a ++ t).length := by
      rw [List.length_append]
      omega
    have hdone := ih hlength previous (by rw [Position.advance_append, hhere])
    rw [List.append_assoc] at hdone
    rw [hdone, List.drop_append_of_le_length hcursor, List.append_assoc]
  | @change _ old new edits u hu v _ ih =>
    subst hhere
    have hstart := Document.offsetAt_advance uri a (u ++ old)
    have hstop := Document.offsetAt_advance uri (a ++ u) old
    have hdone := ih (Nat.le_refl (a ++ u).length)
      ⟨Position.origin.advance a, (Position.origin.advance a).advance u⟩
      (Position.advance_append _ a u)
    rw [Position.advance_append] at hstop
    rw [List.append_assoc] at hstop hdone
    have htext : (Document.ofText uri (a ++ (u ++ old))).text = a ++ (u ++ old) := rfl
    rw [applyFrom]
    simp only [hstart, hstop, if_neg (Nat.not_lt.2 hcursor), hdone, htext,
      slice_append_of_le a _ hcursor, List.drop_length, List.nil_append, Except.map,
      List.append_assoc]
  | @insert _ old new edits v _ _ _ ih =>
    subst hhere
    have hplace := Document.offsetAt_advance uri a old
    have hdone := ih (Nat.le_refl a.length)
      ⟨Position.origin.advance a, Position.origin.advance a⟩ rfl
    have htext : (Document.ofText uri (a ++ old)).text = a ++ old := rfl
    rw [applyFrom]
    simp only [Edit.insert, hplace, if_neg (Nat.not_lt.2 hcursor), hdone, htext,
      slice_append_of_le a _ hcursor, List.drop_length, List.nil_append, Except.map,
      List.append_assoc]

/-- Edits that rewrite a text give the text that it is rewritten to. -/
theorem applyAll_of_rewrites (uri : String) {old new : Text} {sorted edits : List Edit}
    (h : Rewrites .origin old new sorted) (hperm : edits.Perm sorted) :
    applyAll (Document.ofText uri old) edits = .ok new := by
  rw [applyAll, sort_eq_of_perm h.pairwise_start hperm]
  exact @applyFrom_of_rewrites uri [] old new sorted h 0 (Nat.le_refl 0) _

end Edit

end LogicAsm
