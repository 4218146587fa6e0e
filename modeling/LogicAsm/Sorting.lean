/-!
# Stable sorting

Insertion sort: each element is put in front of the first one that it may precede, the last element
first.  Elements that may precede each other keep their order, which is what the listing of
diagnostics and the application of edits rely on.

The recursion is on the list itself, so a sorted list can be computed wherever the list is known.
-/

namespace LogicAsm.Sorting

variable {α : Type}

/-- Put an element in front of the first one that it may precede. -/
def insert (le : α → α → Bool) (a : α) : List α → List α
  | [] => [a]
  | b :: bs => if le a b then a :: b :: bs else b :: insert le a bs

/-- Sort a list; what may precede each other keeps its order. -/
def sort (le : α → α → Bool) : List α → List α
  | [] => []
  | a :: as => insert le a (sort le as)

/-! ### Nothing is lost -/

theorem perm_insert (le : α → α → Bool) (a : α) (l : List α) : (insert le a l).Perm (a :: l) := by
  induction l with
  | nil => exact .refl _
  | cons b bs ih =>
    unfold insert
    split
    · exact .refl _
    · exact (ih.cons b).trans (.swap a b bs)

/-- Sorting keeps the elements. -/
theorem perm_sort (le : α → α → Bool) (l : List α) : (sort le l).Perm l := by
  induction l with
  | nil => exact .refl _
  | cons a as ih => exact (perm_insert le a _).trans (ih.cons a)

theorem mem_sort {le : α → α → Bool} {l : List α} {a : α} : a ∈ sort le l ↔ a ∈ l :=
  (perm_sort le l).mem_iff

/-! ### The result is sorted -/

theorem pairwise_insert {le : α → α → Bool} (trans : ∀ a b c, le a b → le b c → le a c)
    (total : ∀ a b, le a b ∨ le b a) (a : α) {l : List α} (h : l.Pairwise (le · ·)) :
    (insert le a l).Pairwise (le · ·) := by
  induction l with
  | nil => simp [insert]
  | cons b bs ih =>
    obtain ⟨hb, hbs⟩ := List.pairwise_cons.1 h
    unfold insert
    split
    · next hab =>
      refine List.pairwise_cons.2 ⟨fun c hc => ?_, h⟩
      rcases List.mem_cons.1 hc with rfl | hc
      · exact hab
      · exact trans a b c hab (hb c hc)
    · next hab =>
      refine List.pairwise_cons.2 ⟨fun c hc => ?_, ih hbs⟩
      rcases List.mem_cons.1 ((perm_insert le a bs).mem_iff.1 hc) with rfl | hc
      · exact (total c b).resolve_left hab
      · exact hb c hc

/-- In a sorted list each element may precede all that follow it. -/
theorem pairwise_sort {le : α → α → Bool} (trans : ∀ a b c, le a b → le b c → le a c)
    (total : ∀ a b, le a b ∨ le b a) (l : List α) : (sort le l).Pairwise (le · ·) := by
  induction l with
  | nil => exact .nil
  | cons a as ih => exact pairwise_insert trans total a ih

/-! ### What may precede each other keeps its order -/

theorem filter_insert {le : α → α → Bool} {p : α → Bool} (a : α) {l : List α}
    (h : p a = true → ∀ b ∈ l, p b = true → le a b = true) :
    (insert le a l).filter p = (a :: l).filter p := by
  induction l with
  | nil => rfl
  | cons b bs ih =>
    unfold insert
    split
    · rfl
    · next hab =>
      have hrest := ih fun ha c hc => h ha c (List.mem_cons_of_mem b hc)
      have hone : p a = false ∨ p b = false := by
        by_cases ha : p a = true
        · exact .inr (Bool.eq_false_iff.2 fun hb => hab (h ha b List.mem_cons_self hb))
        · exact .inl (Bool.eq_false_iff.2 ha)
      rw [List.filter_cons, hrest]
      rcases hone with ha | hb
      · simp [List.filter_cons, ha]
      · simp [List.filter_cons, hb]

/-- Sorting keeps the order of elements any two of which may precede each other. -/
theorem filter_sort {le : α → α → Bool} {p : α → Bool}
    (h : ∀ a b, p a = true → p b = true → le a b = true) (l : List α) :
    (sort le l).filter p = l.filter p := by
  induction l with
  | nil => rfl
  | cons a as ih =>
    rw [sort, filter_insert a fun ha b _ hb => h a b ha hb, List.filter_cons, ih, List.filter_cons]

end LogicAsm.Sorting
