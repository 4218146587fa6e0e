import LogicAsm.Proofs.Jumps.NodeEdits
import LogicAsm.Proofs.Numerals

/-!
# New labels

`Jumps.targetLabels` gives each instruction that is jumped to a label: one that stands in front of
it, or a new one.  New labels are found by counting, and as many numbers are tried as there are
names taken and one more, so one of them is free (`freshName_freshNumber_not_mem`).  So no new label
is the name of an old one (`mem_targetLabels`), and no two of them are the same
(`pairwise_targetLabels`).
-/

namespace LogicAsm.Jumps

theorem freshName_injective {m n : Nat} (h : freshName m = freshName n) : m = n := by
  have hdigits : Text.ofNat m = Text.ofNat n := List.append_cancel_left h
  rw [← Text.digitsValue_ofNat m, hdigits, Text.digitsValue_ofNat]

theorem le_freshNumber (taken : List Text) (tries n : Nat) : n ≤ freshNumber taken tries n := by
  induction tries generalizing n with
  | zero => exact Nat.le_refl n
  | succ tries ih =>
    rw [freshNumber]
    split
    · exact Nat.le_of_succ_le (ih (n + 1))
    · exact Nat.le_refl n

/-- If a number that is tried is free, the number that is found is. -/
theorem freshName_freshNumber_not_mem_of_lt {taken : List Text} {tries n i : Nat} (hi : i < tries)
    (hfree : freshName (n + i) ∉ taken) : freshName (freshNumber taken tries n) ∉ taken := by
  induction tries generalizing n i with
  | zero => omega
  | succ tries ih =>
    rw [freshNumber]
    split
    · next hused =>
      cases i with
      | zero => exact absurd (List.contains_iff_mem.1 hused) hfree
      | succ i => exact ih (Nat.lt_of_succ_lt_succ hi) (by rwa [Nat.add_right_comm])
    · next hused => exact fun h => hused (List.contains_iff_mem.2 h)

/-- One more number than there are names taken is tried, so that the number found is free. -/
theorem freshName_freshNumber_not_mem (taken : List Text) (n : Nat) :
    freshName (freshNumber taken (taken.length + 1) n) ∉ taken := by
  by_contra hmem
  -- All names that were tried would be among the names taken.
  have hall : (List.range (taken.length + 1)).map (fun i => freshName (n + i)) ⊆ taken := by
    intro name hname
    obtain ⟨i, hi, rfl⟩ := List.mem_map.1 hname
    by_contra hfree
    exact freshName_freshNumber_not_mem_of_lt (List.mem_range.1 hi) hfree hmem
  have hnodup : ((List.range (taken.length + 1)).map fun i => freshName (n + i)).Nodup :=
    List.Nodup.map (fun i j h => Nat.add_left_cancel (freshName_injective h)) List.nodup_range
  have hlength := (List.subperm_of_subset hnodup hall).length_le
  rw [List.length_map, List.length_range] at hlength
  omega

theorem map_counter_targetLabels (reusable : List (Nat × Text)) (taken : List Text) (n : Nat)
    (counters : List Nat) :
    (targetLabels reusable taken n counters).map TargetLabel.counter = counters := by
  induction counters generalizing taken n with
  | nil => rfl
  | cons counter counters ih =>
    rw [targetLabels]
    split
    · rw [List.map_cons, ih]
    · rw [List.map_cons, ih]

/-- A target has a label that stands in front of it, or there is none and its label is new. -/
theorem mem_targetLabels {reusable : List (Nat × Text)} {taken : List Text} {n : Nat}
    {counters : List Nat} : ∀ target ∈ targetLabels reusable taken n counters,
      if target.fresh then reusable.lookup target.counter = none ∧ target.label ∉ taken ∧
        ∃ m ≥ n, target.label = freshName m
      else reusable.lookup target.counter = some target.label := by
  induction counters generalizing taken n with
  | nil => simp [targetLabels]
  | cons counter counters ih =>
    intro target htarget
    rw [targetLabels] at htarget
    -- A label that can be reused takes no number, and a new one takes the next that is free.
    split at htarget
    · next label hlabel =>
      rcases List.mem_cons.1 htarget with rfl | htarget
      · simpa using hlabel
      · exact ih target htarget
    · next hnone =>
      rcases List.mem_cons.1 htarget with rfl | htarget
      · have hle := le_freshNumber taken (taken.length + 1) n
        rw [if_pos rfl]
        exact ⟨hnone, freshName_freshNumber_not_mem taken n, _, hle, rfl⟩
      · have hlater := ih target htarget
        have hle := le_freshNumber taken (taken.length + 1) n
        split
        · next hfresh =>
          rw [if_pos hfresh] at hlater
          obtain ⟨hlookup, hfree, m, hm, hname⟩ := hlater
          exact ⟨hlookup, fun h => hfree (List.mem_cons_of_mem _ h), m, by omega, hname⟩
        · next hfresh => rwa [if_neg hfresh] at hlater

/-- No two new labels are the same. -/
theorem pairwise_targetLabels (reusable : List (Nat × Text)) (taken : List Text) (n : Nat)
    (counters : List Nat) :
    (targetLabels reusable taken n counters).Pairwise fun a b =>
      a.fresh = true → b.fresh = true → a.label ≠ b.label := by
  induction counters generalizing taken n with
  | nil => exact .nil
  | cons counter counters ih =>
    rw [targetLabels]
    split
    · exact List.pairwise_cons.2 ⟨fun _ _ hfresh => (nomatch hfresh), ih taken n⟩
    · refine List.pairwise_cons.2 ⟨fun b hb _ hfresh heq => ?_, ih _ _⟩
      have hlater := mem_targetLabels b hb
      rw [if_pos hfresh] at hlater
      exact hlater.2.1 (heq ▸ List.mem_cons_self)

end LogicAsm.Jumps
