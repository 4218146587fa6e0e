import LogicAsm.Flow.Reachability
import LogicAsm.Proofs.BitSets
import LogicAsm.Proofs.Flow.Edges

/-!
# What can be reached

The walk through a flow graph sees a node if and only if edges lead to it from the first one
(`contains_reachable_iff`).

One invariant carries the walk (`Walk.Sound`): what was seen can be reached, what waits was seen,
and where a node that was seen does not wait, its edges were followed.  A node waits once, when it
is seen first, so the nodes seen are at least as many as the steps made and the nodes that wait;
after as many steps as there are nodes, none waits any more.
-/

namespace LogicAsm.FlowGraph

/-- Whether edges lead from the first node to another one. -/
def Reaches (g : FlowGraph) (i : Nat) : Prop := Relation.ReflTransGen g.Leads 0 i

namespace Walk

/-! ### Seeing nodes -/

/-- What seeing the targets of edges adds to a walk. -/
structure Sees (g : FlowGraph) (edges : List Edge) (w w' : Walk) : Prop where
  sized : w'.seen.Sized g.size
  seen : ∀ j, w'.seen.contains j = true ↔
    w.seen.contains j = true ∨ ∃ edge ∈ edges, edge.target = j
  queue : ∀ j, j ∈ w'.queue ↔
    j ∈ w.queue ∨ w.seen.contains j = false ∧ ∃ edge ∈ edges, edge.target = j
  count : (w'.seen.members g.size).card + w.queue.length =
    (w.seen.members g.size).card + w'.queue.length

theorem card_members_insert {n i : Nat} {s : BitSet} (hs : s.Sized n) (hi : i < n)
    (hnew : s.contains i = false) : ((s.insert i).members n).card = (s.members n).card + 1 := by
  have hmembers : (s.insert i).members n = insert i (s.members n) := by
    ext j
    rw [BitSet.mem_members, Finset.mem_insert, BitSet.mem_members,
      BitSet.contains_insert (hs.div_lt hi), Bool.or_eq_true, decide_eq_true_iff]
    constructor
    · rintro ⟨hj, rfl | hcontains⟩
      · exact .inl rfl
      · exact .inr ⟨hj, hcontains⟩
    · rintro (rfl | ⟨hj, hcontains⟩)
      · exact ⟨hi, .inl rfl⟩
      · exact ⟨hj, .inr hcontains⟩
  rw [hmembers, Finset.card_insert_of_notMem]
  rw [BitSet.mem_members, hnew]
  simp

/-- Seeing the target of one edge. -/
theorem sees_see {g : FlowGraph} {w : Walk} (hw : w.seen.Sized g.size) {edge : Edge}
    (hedge : edge.target < g.size) : Sees g [edge] w (w.see edge.target) := by
  have hone (j : Nat) : (∃ e ∈ [edge], e.target = j) ↔ j = edge.target := by
    simp [eq_comm]
  unfold see
  split
  · next hseen =>
    refine ⟨hw, ?_, ?_, rfl⟩
    · intro j
      rw [hone]
      constructor
      · exact .inl
      · rintro (hj | rfl)
        · exact hj
        · exact hseen
    · intro j
      rw [hone]
      constructor
      · exact .inl
      · rintro (hj | ⟨hnew, rfl⟩)
        · exact hj
        · rw [hseen] at hnew
          cases hnew
  · next hnew =>
    have hnew' : w.seen.contains edge.target = false := by simpa using hnew
    refine ⟨hw.insert hedge, ?_, ?_, ?_⟩
    · intro j
      rw [hone, BitSet.contains_insert (hw.div_lt hedge), Bool.or_eq_true, decide_eq_true_iff,
        or_comm]
    · intro j
      rw [hone, List.mem_append, List.mem_singleton]
      constructor
      · rintro (hj | rfl)
        · exact .inl hj
        · exact .inr ⟨hnew', rfl⟩
      · rintro (hj | ⟨-, rfl⟩)
        · exact .inl hj
        · exact .inr rfl
    · rw [card_members_insert hw hedge hnew', List.length_append, List.length_singleton]
      omega

/-- Seeing the targets of edges one by one. -/
theorem sees_foldl {g : FlowGraph} {edges : List Edge} {w : Walk} (hw : w.seen.Sized g.size)
    (hedges : ∀ edge ∈ edges, edge.target < g.size) :
    Sees g edges w (edges.foldl (fun w edge => w.see edge.target) w) := by
  induction edges generalizing w with
  | nil => exact ⟨hw, by simp, by simp, rfl⟩
  | cons edge rest ih =>
    have hfirst := sees_see hw (hedges edge (by simp))
    have hrest := ih hfirst.sized fun e he => hedges e (by simp [he])
    have htargets (j : Nat) : (∃ e ∈ edge :: rest, e.target = j) ↔
        (∃ e ∈ [edge], e.target = j) ∨ ∃ e ∈ rest, e.target = j := by
      simp
    refine ⟨hrest.sized, ?_, ?_, ?_⟩
    · intro j
      rw [List.foldl_cons, hrest.seen, hfirst.seen, htargets, or_assoc]
    · intro j
      rw [List.foldl_cons, hrest.queue, hfirst.queue, htargets]
      -- What the first edge has seen already waits because of it.
      have hseen := hfirst.seen j
      by_cases hnew : w.seen.contains j = true
      · have hlater : (w.see edge.target).seen.contains j = true := hseen.2 (.inl hnew)
        simp [hnew, hlater]
      · have hnew' : w.seen.contains j = false := by simpa using hnew
        by_cases hhere : ∃ e ∈ [edge], e.target = j
        · simp only [hnew', hhere, true_and, true_or, or_true]
        · have hlater : (w.see edge.target).seen.contains j = false := by
            rw [← Bool.not_eq_true, hseen]
            rintro (h | h)
            · exact hnew h
            · exact hhere h
          simp only [hnew', hlater, hhere, and_false, or_false, false_or]
    · have h₁ := hfirst.count
      have h₂ := hrest.count
      rw [List.foldl_cons]
      omega

/-! ### The invariant of a walk -/

/-- A walk that has made `done` steps. -/
structure Sound (g : FlowGraph) (done : Nat) (w : Walk) : Prop where
  sized : w.seen.Sized g.size
  first : w.seen.contains 0 = true
  reaches : ∀ i, w.seen.contains i = true → g.Reaches i
  waits : ∀ i ∈ w.queue, w.seen.contains i = true
  followed : ∀ i, w.seen.contains i = true → i ∉ w.queue → ∀ j, g.Leads i j →
    w.seen.contains j = true
  count : done + w.queue.length ≤ (w.seen.members g.size).card

/-- The walk that has seen the first node only. -/
theorem sound_initial {g : FlowGraph} (hsize : 0 < g.size) :
    Sound g 0 (see ⟨.empty g.size, []⟩ 0) := by
  have hempty := BitSet.sized_empty g.size
  have hsees := @sees_see g ⟨.empty g.size, []⟩ hempty ⟨0, 0, .fallthrough, false⟩ hsize
  have hseen (i : Nat) : (see ⟨.empty g.size, []⟩ 0).seen.contains i = true ↔ i = 0 := by
    rw [hsees.seen, BitSet.contains_empty]
    simp [eq_comm]
  refine ⟨hsees.sized, (hseen 0).2 rfl, ?_, ?_, ?_, ?_⟩
  · intro i hi
    rw [(hseen i).1 hi]
    exact .refl
  · intro i hi
    rw [hsees.queue] at hi
    rcases hi with hi | ⟨-, edge, hedge, rfl⟩
    · cases hi
    · obtain rfl := List.mem_singleton.1 hedge
      exact (hseen 0).2 rfl
  · intro i hi hnot
    refine absurd ?_ hnot
    rw [hsees.queue, BitSet.contains_empty]
    simp [(hseen i).1 hi]
  · have hcount := hsees.count
    simp only [List.length_nil] at hcount
    omega

/-- One step of a walk. -/
theorem Sound.step {g : FlowGraph} (hg : g.WellFormed) {done : Nat} {w : Walk}
    (h : Sound g done w) {i : Nat} {queue : List Nat} (hqueue : w.queue = i :: queue) :
    Sound g (done + 1) (w.step g) := by
  have hi : w.seen.contains i = true := h.waits i (by simp [hqueue])
  have hstep : w.step g =
      (g.successors i).foldl (fun w edge => w.see edge.target) ⟨w.seen, queue⟩ := by
    rw [Walk.step, hqueue]
  have hsees := @sees_foldl g (g.successors i) ⟨w.seen, queue⟩ h.sized hg.target_lt
  rw [hstep]
  refine ⟨hsees.sized, (hsees.seen 0).2 (.inl h.first), ?_, ?_, ?_, ?_⟩
  · intro j hj
    rcases (hsees.seen j).1 hj with hj | hj
    · exact h.reaches j hj
    · exact (h.reaches i hi).tail hj
  · intro j hj
    rw [hsees.seen]
    rcases (hsees.queue j).1 hj with hj | ⟨-, hj⟩
    · exact .inl (h.waits j (by simp [hqueue, show j ∈ queue from hj]))
    · exact .inr hj
  · intro j hj hnot k hjk
    rw [hsees.seen]
    rw [hsees.queue, not_or] at hnot
    by_cases hji : j = i
    · subst hji
      exact .inr hjk
    · -- A node that does not wait now did not wait before, as it is not the one taken.
      have hseen : w.seen.contains j = true := by
        rcases (hsees.seen j).1 hj with hj | hj
        · exact hj
        · by_contra hnew
          exact hnot.2 ⟨by simpa using hnew, hj⟩
      refine .inl (h.followed j hseen ?_ k hjk)
      rw [hqueue, List.mem_cons, not_or]
      exact ⟨hji, hnot.1⟩
  · have hcount := hsees.count
    have hbefore := h.count
    rw [hqueue, List.length_cons] at hbefore
    simp only at hcount
    omega

/-- A walk with enough steps left ends with an empty queue. -/
theorem Sound.steps {g : FlowGraph} (hg : g.WellFormed) {done n : Nat} {w : Walk}
    (h : Sound g done w) (hn : g.size ≤ done + n) :
    ∃ all, Sound g all (w.steps g n) ∧ (w.steps g n).queue = [] := by
  induction n generalizing done w with
  | zero =>
    refine ⟨done, h, ?_⟩
    have hcount := h.count
    -- The nodes done and waiting are the seen ones, and of these there are `g.size` at most.
    have hcard := BitSet.card_members_le g.size w.seen
    rw [Walk.steps]
    exact List.eq_nil_of_length_eq_zero (by omega)
  | succ n ih =>
    rw [Walk.steps]
    cases hqueue : w.queue with
    | nil =>
      have hstay : w.step g = w := by rw [Walk.step, hqueue]
      have hend (k : Nat) : w.steps g k = w := by
        induction k with
        | zero => rfl
        | succ k hk => rw [Walk.steps, hstay, hk]
      rw [hstay, hend]
      exact ⟨done, h, hqueue⟩
    | cons i queue => exact ih (h.step hg hqueue) (by omega)

end Walk

/-- The walk sees the nodes that edges lead to from the first one. -/
theorem contains_reachable_iff {g : FlowGraph} (hg : g.WellFormed) (hsize : 0 < g.size) (i : Nat) :
    g.reachable.contains i = true ↔ g.Reaches i := by
  obtain ⟨all, hsound, hqueue⟩ :=
    (Walk.sound_initial hsize).steps hg (show g.size ≤ 0 + g.size by omega)
  have hreachable : g.reachable = ((Walk.see ⟨.empty g.size, []⟩ 0).steps g g.size).seen := by
    rw [reachable]
    simp only
    rw [if_neg (by omega)]
  rw [hreachable]
  refine ⟨hsound.reaches i, ?_⟩
  intro hreaches
  induction hreaches with
  | refl => exact hsound.first
  | tail _ hlast ih => exact hsound.followed _ ih (by simp [hqueue]) _ hlast

end LogicAsm.FlowGraph
