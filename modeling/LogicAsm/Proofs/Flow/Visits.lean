import LogicAsm.Proofs.Flow.Unset

/-!
# Which nodes the solver takes

The solver takes nodes from its queue until none waits, and this comes to an end for every graph,
whatever cycles it has: `UnsetState.Takes` describes the loop without a bound on its steps, and the
run with the bound is such a loop (`takes_run`).

A node waits only behind one that leads to it (`Stepped`), so what is taken can be reached.  In the
end nothing waits, so of a node that was looked at all successors were looked at, and a node is
looked at only when it is taken: what can be reached is taken.  How often a node is taken is bounded
by the invariant of the solver.  The main result is `solve_takes_reachable`.
-/

namespace LogicAsm

namespace UnsetState

/-- The loop of the solver from one state to another one: while a node waits, the first one is taken
from the queue.  The nodes taken are listed in order. -/
inductive Takes (g : FlowGraph) (keep : Array BitSet) : UnsetState → List Nat → UnsetState → Prop
    where
  | done {s : UnsetState} : s.queue = [] → Takes g keep s [] s
  | take {s s' : UnsetState} {i : Nat} {queue order : List Nat} : s.queue = i :: queue →
    Takes g keep (s.step g keep) order s' → Takes g keep s (i :: order) s'

variable {g : FlowGraph} {keep : Array BitSet} {slots : Nat} {s s' : UnsetState} {order : List Nat}

/-! ### What the loop does -/

/-- The run with a bound is the loop, if it leaves no node waiting. -/
theorem takes_run {n : Nat} (h : (s.run g keep n).queue = []) :
    ∃ order, Takes g keep s order (s.run g keep n) := by
  induction n generalizing s with
  | zero => exact ⟨[], .done h⟩
  | succ n ih =>
    rw [run] at h ⊢
    cases hqueue : s.queue with
    | nil => exact ⟨[], .done hqueue⟩
    | cons i queue =>
      simp only [hqueue, List.isEmpty_cons, Bool.false_eq_true, if_false] at h ⊢
      obtain ⟨order, horder⟩ := ih h
      exact ⟨i :: order, .take hqueue horder⟩

theorem Takes.queue_eq_nil (h : Takes g keep s order s') : s'.queue = [] := by
  induction h with
  | done hempty => exact hempty
  | take _ _ ih => exact ih

/-- What was taken is kept in the state. -/
theorem Takes.taken_eq (h : Takes g keep s order s') : s'.taken = order.reverse ++ s.taken := by
  induction h with
  | done => rfl
  | take hqueue _ ih =>
    rw [ih, (stepped hqueue).taken, List.reverse_cons, List.append_assoc, List.singleton_append]

/-- What is taken can be reached, if what waits can. -/
theorem Takes.reaches (h : Takes g keep s order s') (hwaits : ∀ j ∈ s.queue, g.Reaches j) :
    ∀ j ∈ order, g.Reaches j := by
  induction h with
  | done => simp
  | @take s s' i queue order hqueue _ ih =>
    have hi : g.Reaches i := hwaits i (by simp [hqueue])
    refine List.forall_mem_cons.2 ⟨hi, ih fun j hj => ?_⟩
    rcases (stepped hqueue).queue j hj with hj | hlead
    · exact hwaits j (by simp [hqueue, hj])
    · exact hi.tail hlead

/-- A node that is looked at in the loop is taken there. -/
theorem Takes.mem_of_looked (h : Takes g keep s order s') {j : Nat} {out : BitSet}
    (hlooked : s'.after[j]? = some (some out)) :
    j ∈ order ∨ ∃ out, s.after[j]? = some (some out) := by
  induction h with
  | done => exact .inr ⟨out, hlooked⟩
  | take hqueue _ ih =>
    rcases ih hlooked with hj | ⟨out', hout'⟩
    · exact .inl (List.mem_cons_of_mem _ hj)
    · rcases (stepped hqueue).looked j out' hout' with rfl | hbefore
      · exact .inl (by simp)
      · exact .inr ⟨out', hbefore⟩

/-- If nothing waits any more, all nodes that can be reached were looked at. -/
theorem Solving.looked_of_reaches (h : Solving g keep slots s) (hempty : s.queue = []) {i : Nat}
    (hi : g.Reaches i) : ∃ out, s.after[i]? = some (some out) := by
  induction hi with
  | refl => exact h.first.noted.looked hempty
  | tail _ hlead ih =>
    obtain ⟨out, hout⟩ := ih
    exact (h.carried _ out _ hout hlead).noted.looked hempty

/-- From the start the loop takes just the nodes that can be reached, and none of them more than
once more often than there are variables. -/
theorem exists_takes_initial (hg : g.WellFormed) (hpos : 0 < g.size) (hsize : keep.size = g.size)
    (hkeep : ∀ (i : Nat) (kept : BitSet), keep[i]? = some kept → kept.Sized slots) :
    ∃ order, Takes g keep (initial g.size slots) order
        ((initial g.size slots).run g keep (g.size * (slots + 1))) ∧
      (∀ i, i ∈ order ↔ g.Reaches i) ∧ ∀ i, order.count i ≤ slots + 1 := by
  obtain ⟨hrun, hempty⟩ := solving_run hg hpos hsize hkeep
  obtain ⟨order, htakes⟩ := takes_run hempty
  have htaken := htakes.taken_eq
  refine ⟨order, htakes, fun i => ⟨htakes.reaches ?_ i, fun hi => ?_⟩, fun i => ?_⟩
  · intro j hj
    have hzero : j ∈ [0] := by rwa [initial, if_neg (by omega)] at hj
    rw [List.mem_singleton.1 hzero]
    exact .refl
  · obtain ⟨out, hout⟩ := hrun.looked_of_reaches hempty hi
    refine (htakes.mem_of_looked hout).resolve_right ?_
    rintro ⟨out', hout'⟩
    exact after_initial_ne g.size slots i out' hout'
  · have hcount := hrun.count_le i
    have hnothing : (initial g.size slots).taken = [] := rfl
    rw [htaken, hnothing, List.append_nil, List.count_reverse] at hcount
    omega

end UnsetState

/-- What can be reached from the first of some nodes is a node. -/
theorem FlowGraph.Reaches.lt_size {g : FlowGraph} (hg : g.WellFormed) (hpos : 0 < g.size) {i : Nat}
    (h : g.Reaches i) : i < g.size := by
  cases h with
  | refl => exact hpos
  | tail _ hlead =>
    obtain ⟨edge, hedge, rfl⟩ := hlead
    exact hg.target_lt edge hedge

namespace VariableAnalysis

/-- The solver comes to an end on every graph whose jumps lead to nodes, as those of a graph that is
built do, whatever cycles it has and however many variables there are: its loop ends with an empty
queue.  A node is taken if and only if it can be reached from the first one, which is what the walk
through the graph finds too, and none is taken more than once more often than there are
variables. -/
theorem solve_takes_reachable {g : FlowGraph} (hg : g.WellFormed) (slots : Nat)
    {accesses : List NodeAccesses} (hsize : accesses.length = g.size) :
    ∃ order, (UnsetState.initial g.size slots).Takes g (accesses.map (kept slots)).toArray order
        (solve g slots accesses) ∧
      (solve g slots accesses).queue = [] ∧ (solve g slots accesses).taken = order.reverse ∧
      (∀ i, i ∈ order ↔ i < g.size ∧ g.Reaches i) ∧
      (∀ i, i ∈ order ↔ g.reachable.contains i = true) ∧
      ∀ i, order.count i ≤ slots + 1 := by
  -- Without a node nothing waits, and the run from the first node does not begin.
  rcases Nat.eq_zero_or_pos g.size with hzero | hpos
  · have hsolve : solve g slots accesses = .initial g.size slots := by
      rw [solve, hzero, Nat.zero_mul]
      rfl
    have hempty : (UnsetState.initial g.size slots).queue = [] := if_pos hzero
    have hnothing (i : Nat) : g.reachable.contains i = false := by
      rw [FlowGraph.reachable]
      simp only [hzero, if_pos]
      exact BitSet.contains_empty _ i
    rw [hsolve]
    refine ⟨[], .done hempty, hempty, rfl, ?_, ?_, by simp⟩
    · simp [hzero]
    · simp [hnothing]
  · obtain ⟨order, htakes, hreaches, hcount⟩ :=
      UnsetState.exists_takes_initial hg hpos (by simpa using hsize)
        fun i bits h => sized_of_map_kept h
    refine ⟨order, htakes, htakes.queue_eq_nil, ?_, ?_, ?_, hcount⟩
    · exact htakes.taken_eq.trans (List.append_nil _)
    · intro i
      rw [hreaches]
      exact ⟨fun h => ⟨h.lt_size hg hpos, h⟩, And.right⟩
    · intro i
      rw [hreaches, FlowGraph.contains_reachable_iff hg hpos]

/-- Where a way that sets a variable meets a longer one that does not, the nodes behind are taken
twice; behind a jump that is always taken, none is. -/
theorem solve_takes_reachable_meeting : ∃ g,
    FlowGraph.ofNodes "" (Node.ofText
      "jump c equal 1 2\nset x 1\nm: print x\nend\nc: d: jump m always\nprint x".toList) = .ok g ∧
      g.WellFormed ∧ (ofGraph g).accesses.length = g.size ∧
      (ofGraph g).taken.count 3 = 2 ∧ g.Reaches 3 ∧ ¬ g.Reaches 8 ∧
      ∀ i, (ofGraph g).taken.count i ≤ 2 := by
  have hcomputed : (FlowGraph.ofNodes "" (Node.ofText
      "jump c equal 1 2\nset x 1\nm: print x\nend\nc: d: jump m always\nprint x".toList)
        ).toOption.map (fun g => ((ofGraph g).names.length, g.size, (ofGraph g).taken)) =
      some (1, 9, [4, 3, 4, 2, 3, 7, 2, 6, 1, 5, 0]) := by
    decide +kernel
  cases hg : FlowGraph.ofNodes "" (Node.ofText
      "jump c equal 1 2\nset x 1\nm: print x\nend\nc: d: jump m always\nprint x".toList) with
  | error e =>
    rw [hg] at hcomputed
    cases hcomputed
  | ok g =>
    have hwell := FlowGraph.wellFormed_of_ofNodes hg
    have hsize : (ofGraph g).accesses.length = g.size := by
      rw [← (ofGraph_spec g).2.length_eq, hwell.size]
    rw [hg] at hcomputed
    obtain ⟨hnames, hnodes, htaken⟩ : (ofGraph g).names.length = 1 ∧ g.size = 9 ∧
        (ofGraph g).taken = [4, 3, 4, 2, 3, 7, 2, 6, 1, 5, 0] := by
      simpa only [Except.toOption, Option.map_some, Option.some.injEq, Prod.mk.injEq]
        using hcomputed
    obtain ⟨order, -, -, horder, hreaches, -, hcount⟩ :=
      solve_takes_reachable hwell (ofGraph g).names.length hsize
    have hreverse : (ofGraph g).taken = order.reverse := horder
    have hmem (i : Nat) : i ∈ (ofGraph g).taken ↔ i < g.size ∧ g.Reaches i := by
      rw [hreverse, List.mem_reverse, hreaches]
    refine ⟨g, rfl, hwell, hsize, by rw [htaken]; decide, ?_, ?_, ?_⟩
    · exact ((hmem 3).1 (by rw [htaken]; decide)).2
    · intro hreach
      have htrue := (hmem 8).2 ⟨by omega, hreach⟩
      rw [htaken] at htrue
      revert htrue
      decide
    · intro i
      have hle := hcount i
      rw [hnames] at hle
      rwa [hreverse, List.count_reverse]

end VariableAnalysis

end LogicAsm
