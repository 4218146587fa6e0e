import LogicAsm.Flow.Variables
import LogicAsm.Proofs.Flow.Reaching
import Mathlib.Algebra.Order.BigOperators.Group.Finset

/-!
# The solver finds all paths

A variable may be unset in front of a node if and only if a path leads there from the first node on
which no node writes it.  The solver finds exactly these (`contains_before_run_iff`).

## The invariant

`UnsetState.Sound` says what holds after every change of the solver's state: what may be unset in
front of a node really is on some path, and a node that was looked at and does not wait leaves unset
what it should.  `UnsetState.Solving` adds that what a node leaves unset has arrived in front of its
successors (`Carried`); this holds between steps only, as a step carries to one successor after
another.

## The number of steps

A node waits for the first time when it is noted, and again only when its set has grown.  So it was
taken and waits at most once more than its set has members, and the steps that are allowed empty the
queue (`solving_run`).
-/

namespace LogicAsm

/-- Whether a node leaves a variable as it is, where `keep` has what each node does not write. -/
def Keeps (keep : Array BitSet) (v i : Nat) : Prop :=
  ∃ kept, keep[i]? = some kept ∧ kept.contains v = true

/-- Whether a path leads from the first node to another one, on which each node in front of it
leaves a variable as it is. -/
def FlowGraph.Carries (g : FlowGraph) (keep : Array BitSet) (v i : Nat) : Prop :=
  Relation.ReflTransGen (fun a b => Keeps keep v a ∧ g.Leads a b) 0 i

namespace UnsetState

/-! ### The invariant -/

/-- Whether a node was looked at, or waits. -/
def Noted (s : UnsetState) (i : Nat) : Prop :=
  i ∈ s.queue ∨ ∃ out, s.after[i]? = some (some out)

/-- Whether what a node leaves unset has arrived in front of another one. -/
structure Carried (s : UnsetState) (out : BitSet) (j : Nat) : Prop where
  noted : s.Noted j
  sub : ∃ b, s.before[j]? = some b ∧ ∀ v, out.contains v = true → b.contains v = true

/-- What holds after every change of a state. -/
structure Sound (g : FlowGraph) (keep : Array BitSet) (slots : Nat) (s : UnsetState) : Prop where
  before_size : s.before.size = g.size
  after_size : s.after.size = g.size
  before_sized : ∀ (i : Nat) (b : BitSet), s.before[i]? = some b → b.Sized slots
  queued_sized : s.queued.Sized g.size
  queued : ∀ i, s.queued.contains i = true ↔ i ∈ s.queue
  nodup : s.queue.Nodup
  carries : ∀ (i : Nat) (b : BitSet) (v : Nat), s.before[i]? = some b → b.contains v = true →
    g.Carries keep v i
  settled : ∀ (i : Nat) (out b kept : BitSet), s.after[i]? = some (some out) → i ∉ s.queue →
    s.before[i]? = some b → keep[i]? = some kept → out = b.inter kept
  first : s.Carried (.full slots) 0
  taken : ∀ i ∈ s.taken, ∃ out, s.after[i]? = some (some out)
  count : ∀ (i : Nat) (b : BitSet), s.before[i]? = some b →
    s.taken.count i + s.queue.count i ≤ (b.members slots).card + 1

/-- What holds between two steps. -/
structure Solving (g : FlowGraph) (keep : Array BitSet) (slots : Nat) (s : UnsetState) : Prop
    extends Sound g keep slots s where
  carried : ∀ (i : Nat) (out : BitSet) (j : Nat), s.after[i]? = some (some out) → g.Leads i j →
    s.Carried out j

/-! ### Carrying to one successor -/

/-- A state in which the set of one node was replaced, so that it waits. -/
structure Grown (g : FlowGraph) (s s' : UnsetState) (target : Nat) (merged : BitSet) : Prop where
  before : s'.before = s.before.setIfInBounds target merged
  after : s'.after = s.after
  taken : s'.taken = s.taken
  queue : ∀ j, j ∈ s'.queue ↔ j ∈ s.queue ∨ j = target
  nodup : s'.queue.Nodup
  queued_sized : s'.queued.Sized g.size
  queued : ∀ i, s'.queued.contains i = true ↔ i ∈ s'.queue

variable {g : FlowGraph} {keep : Array BitSet} {slots : Nat} {s : UnsetState}

/-- What adding to a successor can do: nothing, as it was looked at and has all of it; or its set
is replaced. -/
theorem Sound.flow_cases (h : Sound g keep slots s) (out : BitSet) {target : Nat}
    (htarget : target < g.size) :
    ∃ old looked, s.before[target]? = some old ∧ s.after[target]? = some looked ∧
      ((looked ≠ none ∧ old.union out = old ∧ s.flow out target = s) ∨
      (looked = none ∨ old.union out ≠ old) ∧
        Grown g s (s.flow out target) target (old.union out)) := by
  obtain ⟨old, hold⟩ : ∃ old, s.before[target]? = some old :=
    ⟨_, Array.getElem?_eq_getElem (by rw [h.before_size]; exact htarget)⟩
  obtain ⟨looked, hlooked⟩ : ∃ looked, s.after[target]? = some looked :=
    ⟨_, Array.getElem?_eq_getElem (by rw [h.after_size]; exact htarget)⟩
  refine ⟨old, looked, hold, hlooked, ?_⟩
  rw [flow, hold, hlooked]
  simp only
  split
  · next hgrows =>
    refine .inr ⟨by simpa using hgrows, ?_⟩
    split
    · next hwaits =>
      -- The target waits already: its bits grow and the queue stays.
      have hmem : target ∈ s.queue := (h.queued target).1 hwaits
      refine ⟨rfl, rfl, rfl, ?_, h.nodup, h.queued_sized, h.queued⟩
      intro j
      constructor
      · exact .inl
      · rintro (hj | rfl)
        · exact hj
        · exact hmem
    · next hnot =>
      have hmem : target ∉ s.queue := fun hmem => hnot ((h.queued target).2 hmem)
      refine ⟨rfl, rfl, rfl, by simp, ?_, h.queued_sized.insert htarget, ?_⟩
      · exact List.nodup_append.2 ⟨h.nodup, List.nodup_singleton target, by
          rintro a ha b hb rfl
          exact hmem (List.mem_singleton.1 hb ▸ ha)⟩
      · intro i
        rw [BitSet.contains_insert (h.queued_sized.div_lt htarget), Bool.or_eq_true,
          decide_eq_true_iff, h.queued, List.mem_append, List.mem_singleton, or_comm]
  · next hsame =>
    have hboth : ¬ looked = none ∧ old.union out = old := by simpa using hsame
    exact .inl ⟨hboth.1, hboth.2, rfl⟩

/-- Sets grow, and noted nodes stay so. -/
theorem Grown.carried {s' : UnsetState} {target : Nat} {old out o : BitSet} {j : Nat}
    (h : Grown g s s' target (old.union out)) (hold : s.before[target]? = some old)
    (hwords : old.words.length = out.words.length) (hj : s.Carried o j) : s'.Carried o j := by
  refine ⟨?_, ?_⟩
  · rcases hj.noted with hqueue | hafter
    · exact .inl ((h.queue j).2 (.inl hqueue))
    · exact .inr (h.after ▸ hafter)
  · obtain ⟨b, hb, hsub⟩ := hj.sub
    rw [h.before, Array.getElem?_setIfInBounds]
    by_cases htarget : target = j
    · subst htarget
      obtain rfl : old = b := Option.some.inj (hold.symm.trans hb)
      obtain ⟨hlt, -⟩ := Array.getElem?_eq_some_iff.1 hold
      refine ⟨old.union out, by simp [hlt], ?_⟩
      intro v hv
      rw [BitSet.contains_union hwords, hsub v hv]
      rfl
    · exact ⟨b, by simpa [htarget] using hb, hsub⟩

/-- Adding to a successor keeps the invariant. -/
theorem Sound.flow (h : Sound g keep slots s) {out : BitSet} (hout : out.Sized slots)
    {target : Nat} (htarget : target < g.size)
    (hcarries : ∀ v, out.contains v = true → g.Carries keep v target) :
    Sound g keep slots (s.flow out target) := by
  obtain ⟨old, looked, hold, hlooked, ⟨-, -, hstay⟩ | ⟨hgrows, hgrown⟩⟩ := h.flow_cases out htarget
  · rw [hstay]
    exact h
  have holdsized := h.before_sized target old hold
  have hwords := holdsized.words_eq hout
  have hbefore (i : Nat) (b : BitSet) (hb : (s.flow out target).before[i]? = some b) :
      (i = target ∧ b = old.union out) ∨ (i ≠ target ∧ s.before[i]? = some b) := by
    rw [hgrown.before, Array.getElem?_setIfInBounds] at hb
    by_cases hi : target = i
    · subst hi
      obtain ⟨hlt, -⟩ := Array.getElem?_eq_some_iff.1 hold
      exact .inl ⟨rfl, by simpa [hlt, eq_comm] using hb⟩
    · exact .inr ⟨fun e => hi e.symm, by simpa [hi] using hb⟩
  refine
    { before_size := by rw [hgrown.before, Array.size_setIfInBounds, h.before_size]
      after_size := by rw [hgrown.after, h.after_size]
      before_sized := ?_
      queued_sized := hgrown.queued_sized
      queued := hgrown.queued
      nodup := hgrown.nodup
      carries := ?_
      settled := ?_
      first := hgrown.carried hold hwords h.first
      taken := ?_
      count := ?_ }
  · intro i b hb
    obtain ⟨-, rfl⟩ | ⟨-, hb⟩ := hbefore i b hb
    · exact holdsized.union hout
    · exact h.before_sized i b hb
  · intro i b v hb hv
    obtain ⟨rfl, rfl⟩ | ⟨-, hb⟩ := hbefore i b hb
    · rw [BitSet.contains_union hwords, Bool.or_eq_true] at hv
      exact hv.elim (h.carries i old v hold) (hcarries v)
    · exact h.carries i b v hb hv
  -- The target waits, so nothing is asked of what it left unset; the others are as before.
  · intro i left b kept hafter hnot hb hkept
    rw [hgrown.after] at hafter
    rw [hgrown.queue, not_or] at hnot
    obtain ⟨rfl, -⟩ | ⟨-, hb⟩ := hbefore i b hb
    · exact absurd rfl hnot.2
    · exact h.settled i left b kept hafter hnot.1 hb hkept
  · rw [hgrown.taken, hgrown.after]
    exact h.taken
  · intro i b hb
    have hcount (j : Nat) : (s.flow out target).queue.count j = if j ∈ (s.flow out target).queue
        then 1 else 0 := hgrown.nodup.count
    have hcountold (j : Nat) : s.queue.count j = if j ∈ s.queue then 1 else 0 := h.nodup.count
    rw [hgrown.taken, hcount]
    obtain ⟨rfl, rfl⟩ | ⟨hne, hb⟩ := hbefore i b hb
    · have hsub (v : Nat) (hv : old.contains v = true) : (old.union out).contains v = true := by
        rw [BitSet.contains_union hwords, hv]
        rfl
      have hbound := h.count i old hold
      rw [hcountold] at hbound
      rw [if_pos ((hgrown.queue i).2 (.inr rfl))]
      by_cases hwaits : i ∈ s.queue
      · -- It waited already, so it was taken no more than before.
        have hcard := BitSet.card_members_le_card slots hsub
        rw [if_pos hwaits] at hbound
        omega
      rw [if_neg hwaits] at hbound
      rcases hgrows with rfl | hne
      · -- It was never looked at, so it was never taken.
        have hnever : s.taken.count i = 0 := by
          apply List.count_eq_zero.2
          intro hmem
          obtain ⟨left, hleft⟩ := h.taken i hmem
          rw [hlooked] at hleft
          cases hleft
        omega
      -- It did not wait, but its set has grown, and that pays for taking it once more.
      · have hcard := BitSet.card_members_lt holdsized (holdsized.union hout) hsub hne
        omega
    · have hqueue : i ∈ (s.flow out target).queue ↔ i ∈ s.queue := by
        rw [hgrown.queue]
        simp [hne]
      have hbound := h.count i b hb
      rw [hcountold] at hbound
      simpa only [hqueue] using hbound

/-- Adding to a successor carries all of it there, and takes nothing away elsewhere. -/
theorem Sound.carried_flow (h : Sound g keep slots s) {out : BitSet} (hout : out.Sized slots)
    {target : Nat} (htarget : target < g.size) :
    (s.flow out target).Carried out target ∧
      ∀ o j, s.Carried o j → (s.flow out target).Carried o j := by
  obtain ⟨old, looked, hold, hlooked, ⟨hsome, hsame, hstay⟩ | ⟨-, hgrown⟩⟩ :=
    h.flow_cases out htarget
  · have hwords := (h.before_sized target old hold).words_eq hout
    rw [hstay]
    refine ⟨⟨.inr ?_, old, hold, ?_⟩, fun _ _ hj => hj⟩
    · obtain ⟨left, rfl⟩ := Option.ne_none_iff_exists'.1 hsome
      exact ⟨left, hlooked⟩
    · intro v hv
      rw [← hsame, BitSet.contains_union hwords, hv, Bool.or_true]
  · have hwords := (h.before_sized target old hold).words_eq hout
    obtain ⟨hlt, -⟩ := Array.getElem?_eq_some_iff.1 hold
    refine ⟨⟨.inl ((hgrown.queue target).2 (.inr rfl)), old.union out, ?_, ?_⟩,
      fun o j hj => hgrown.carried hold hwords hj⟩
    · rw [hgrown.before, Array.getElem?_setIfInBounds]
      simp [hlt]
    · intro v hv
      rw [BitSet.contains_union hwords, hv, Bool.or_true]

/-- Carrying to all successors. -/
theorem Sound.flowAll (h : Sound g keep slots s) {out : BitSet} (hout : out.Sized slots)
    {edges : List Edge} (hedges : ∀ edge ∈ edges, edge.target < g.size ∧
      ∀ v, out.contains v = true → g.Carries keep v edge.target) :
    Sound g keep slots (edges.foldl (fun s edge => s.flow out edge.target) s) ∧
      (∀ edge ∈ edges,
        (edges.foldl (fun s edge => s.flow out edge.target) s).Carried out edge.target) ∧
      ∀ o j, s.Carried o j →
        (edges.foldl (fun s edge => s.flow out edge.target) s).Carried o j := by
  induction edges generalizing s with
  | nil => exact ⟨h, by simp, fun _ _ hj => hj⟩
  | cons edge rest ih =>
    obtain ⟨htarget, hcarries⟩ := hedges edge (by simp)
    obtain ⟨hhere, hkeeps⟩ := h.carried_flow hout htarget
    obtain ⟨hsound, hall, hmore⟩ :=
      ih (h.flow hout htarget hcarries) fun e he => hedges e (by simp [he])
    rw [List.foldl_cons]
    refine ⟨hsound, ?_, fun o j hj => hmore o j (hkeeps o j hj)⟩
    intro e he
    rcases List.mem_cons.1 he with rfl | he
    · exact hmore out e.target hhere
    · exact hall e he

/-! ### One step -/

/-- The state after a node was taken from the front of the queue and found to leave `out` unset. -/
def look (s : UnsetState) (i : Nat) (queue : List Nat) (out : BitSet) : UnsetState :=
  { s with
    after := s.after.setIfInBounds i (some out)
    queue
    queued := s.queued.erase i
    taken := i :: s.taken }

theorem getElem?_after_look {i : Nat} (hi : i < s.after.size) (queue : List Nat) (out : BitSet)
    (j : Nat) :
    (s.look i queue out).after[j]? = if i = j then some (some out) else s.after[j]? := by
  show (s.after.setIfInBounds i (some out))[j]? = _
  rw [Array.getElem?_setIfInBounds]
  simp [hi]

/-- Adding to a successor notes nothing as looked at or taken, and makes at most this one wait. -/
theorem flow_frame (s : UnsetState) (out : BitSet) (target : Nat) :
    (s.flow out target).taken = s.taken ∧ (s.flow out target).after = s.after ∧
      ∀ j ∈ (s.flow out target).queue, j ∈ s.queue ∨ j = target := by
  have hstay : ∀ j ∈ s.queue, j ∈ s.queue ∨ j = target := fun _ => .inl
  unfold flow
  split
  · simp only
    split
    · split
      · exact ⟨rfl, rfl, hstay⟩
      · exact ⟨rfl, rfl, by simp⟩
    · exact ⟨rfl, rfl, hstay⟩
  · exact ⟨rfl, rfl, hstay⟩

theorem flowAll_frame (s : UnsetState) (out : BitSet) (edges : List Edge) :
    (edges.foldl (fun s edge => s.flow out edge.target) s).taken = s.taken ∧
      (edges.foldl (fun s edge => s.flow out edge.target) s).after = s.after ∧
      ∀ j ∈ (edges.foldl (fun s edge => s.flow out edge.target) s).queue,
        j ∈ s.queue ∨ ∃ edge ∈ edges, edge.target = j := by
  induction edges generalizing s with
  | nil => exact ⟨rfl, rfl, fun _ => .inl⟩
  | cons edge rest ih =>
    obtain ⟨htaken, hafter, hqueue⟩ := flow_frame s out edge.target
    obtain ⟨htaken', hafter', hqueue'⟩ := ih (s.flow out edge.target)
    refine ⟨htaken'.trans htaken, hafter'.trans hafter, fun j hj => ?_⟩
    rcases hqueue' j hj with hj | ⟨e, he, hj⟩
    · exact (hqueue j hj).imp_right fun e => ⟨edge, by simp, e.symm⟩
    · exact .inr ⟨e, by simp [he], hj⟩

/-- A step that took node `i`, behind which `queue` waited: only nodes that it leads to begin to
wait, and no other node is looked at. -/
structure Stepped (g : FlowGraph) (i : Nat) (queue : List Nat) (s s' : UnsetState) : Prop where
  taken : s'.taken = i :: s.taken
  queue : ∀ j ∈ s'.queue, j ∈ queue ∨ g.Leads i j
  looked : ∀ (j : Nat) (out : BitSet), s'.after[j]? = some (some out) →
    j = i ∨ s.after[j]? = some (some out)

/-- What a step does to any state in which a node waits. -/
theorem stepped {i : Nat} {queue : List Nat} (hqueue : s.queue = i :: queue) :
    Stepped g i queue s (s.step g keep) := by
  rw [step, hqueue]
  simp only
  split
  · next unset kept _ _ =>
    split
    · exact ⟨rfl, fun _ => .inl, fun _ _ => .inr⟩
    · obtain ⟨htaken, hafter, hwaits⟩ := flowAll_frame (s.look i queue (unset.inter kept))
        (unset.inter kept) (g.successors i)
      refine ⟨htaken, hwaits, fun j out hout => ?_⟩
      change ((g.successors i).foldl (fun s edge => s.flow (unset.inter kept) edge.target)
        (s.look i queue (unset.inter kept))).after[j]? = _ at hout
      rw [hafter] at hout
      change (s.after.setIfInBounds i (some (unset.inter kept)))[j]? = _ at hout
      rw [Array.getElem?_setIfInBounds] at hout
      by_cases hij : i = j
      · exact .inl hij.symm
      · exact .inr (by simpa [hij] using hout)
  · exact ⟨rfl, fun _ => .inl, fun _ _ => .inr⟩

/-- Taking a node keeps what was carried. -/
theorem Carried.look {i : Nat} {queue : List Nat} (hi : i < s.after.size)
    (hqueue : s.queue = i :: queue) {o : BitSet} {j : Nat} (h : s.Carried o j) (out : BitSet) :
    (s.look i queue out).Carried o j := by
  refine ⟨?_, h.sub⟩
  rw [Noted, getElem?_after_look hi]
  by_cases hij : i = j
  · exact .inr ⟨out, if_pos hij⟩
  · rw [if_neg hij]
    rcases h.noted with hj | hj
    · rw [hqueue, List.mem_cons] at hj
      exact .inl (hj.resolve_left fun e => hij e.symm)
    · exact .inr hj

/-- Taking a node keeps the invariant. -/
theorem Sound.look (h : Sound g keep slots s) {i : Nat} {queue : List Nat}
    (hqueue : s.queue = i :: queue) {b kept : BitSet} (hb : s.before[i]? = some b)
    (hkept : keep[i]? = some kept) : Sound g keep slots (s.look i queue (b.inter kept)) := by
  have hnodup := h.nodup
  rw [hqueue, List.nodup_cons] at hnodup
  have hi : i < s.after.size := by
    obtain ⟨hlt, -⟩ := Array.getElem?_eq_some_iff.1 hb
    rwa [h.after_size, ← h.before_size]
  have hafter := getElem?_after_look hi queue (b.inter kept)
  refine
    { before_size := h.before_size
      after_size := (Array.size_setIfInBounds ..).trans h.after_size
      before_sized := h.before_sized
      queued_sized := h.queued_sized.erase i
      queued := ?_
      nodup := hnodup.2
      carries := h.carries
      settled := ?_
      first := h.first.look hi hqueue _
      taken := ?_
      count := ?_ }
  · intro j
    show (s.queued.erase i).contains j = true ↔ j ∈ queue
    rw [BitSet.contains_erase, Bool.and_eq_true, h.queued, hqueue, List.mem_cons]
    constructor
    · rintro ⟨hne, rfl | hj⟩
      · simp at hne
      · exact hj
    · intro hj
      refine ⟨?_, .inr hj⟩
      have hne : j ≠ i := by
        rintro rfl
        exact hnodup.1 hj
      simp [hne]
  -- The node that is taken waits no more, but what it leaves unset has just been computed.
  · intro j out b' kept' hout hnot hb' hkept'
    rw [hafter] at hout
    by_cases hij : i = j
    · subst hij
      rw [if_pos rfl] at hout
      cases hout
      obtain rfl : b = b' := Option.some.inj (hb.symm.trans hb')
      obtain rfl : kept = kept' := Option.some.inj (hkept.symm.trans hkept')
      rfl
    · rw [if_neg hij] at hout
      refine h.settled j out b' kept' hout ?_ hb' hkept'
      rw [hqueue, List.mem_cons, not_or]
      exact ⟨fun e => hij e.symm, hnot⟩
  · intro j hj
    rw [hafter]
    by_cases hij : i = j
    · exact ⟨_, if_pos hij⟩
    · rw [if_neg hij]
      rcases List.mem_cons.1 hj with rfl | hj
      · exact absurd rfl hij
      · exact h.taken j hj
  · intro j b' hb'
    have hbound := h.count j b' hb'
    show (i :: s.taken).count j + queue.count j ≤ _
    rw [hqueue, List.count_cons] at hbound
    rw [List.count_cons]
    omega

/-- One step of the solver. -/
theorem Solving.step (hg : g.WellFormed) (hsize : keep.size = g.size)
    (hkeep : ∀ (i : Nat) (kept : BitSet), keep[i]? = some kept → kept.Sized slots)
    (h : Solving g keep slots s) {i : Nat} {queue : List Nat} (hqueue : s.queue = i :: queue) :
    Solving g keep slots (s.step g keep) := by
  have hi : i < g.size := h.queued_sized.lt i ((h.queued i).2 (by simp [hqueue]))
  have hafter : i < s.after.size := h.after_size ▸ hi
  obtain ⟨b, hb⟩ : ∃ b, s.before[i]? = some b :=
    ⟨_, Array.getElem?_eq_getElem (by rw [h.before_size]; exact hi)⟩
  obtain ⟨kept, hkept⟩ : ∃ kept, keep[i]? = some kept :=
    ⟨_, Array.getElem?_eq_getElem (by rw [hsize]; exact hi)⟩
  have hbsized := h.before_sized i b hb
  have hksized := hkeep i kept hkept
  have hsound := h.toSound.look hqueue hb hkept
  have hget := getElem?_after_look hafter queue (b.inter kept)
  rw [UnsetState.step, hqueue]
  simp only [hb, hkept]
  split
  · next hsame =>
    -- The node leaves unset what it left before, so there is nothing to carry.
    have hlook : s.look i queue (b.inter kept) =
        { s with queue, queued := s.queued.erase i, taken := i :: s.taken } := by
      have hset : s.after.setIfInBounds i (some (b.inter kept)) = s.after := by
        apply Array.ext_getElem?
        intro j
        rw [Array.getElem?_setIfInBounds]
        by_cases hij : i = j
        · subst hij
          rw [if_pos rfl, if_pos hafter, hsame]
        · rw [if_neg hij]
      rw [look, hset]
    rw [← hlook]
    refine ⟨hsound, ?_⟩
    intro a out j hout haj
    rw [hget] at hout
    refine Carried.look hafter hqueue (h.carried a out j ?_ haj) _
    by_cases hia : i = a
    · subst hia
      rw [if_pos rfl] at hout
      rw [hsame, hout]
    · rwa [if_neg hia] at hout
  · have hedges : ∀ edge ∈ g.successors i, edge.target < g.size ∧
        ∀ v, (b.inter kept).contains v = true → g.Carries keep v edge.target := by
      intro edge hedge
      refine ⟨hg.target_lt edge hedge, ?_⟩
      intro v hv
      rw [BitSet.contains_inter (hbsized.words_eq hksized), Bool.and_eq_true] at hv
      exact (h.carries i b v hb hv.1).tail ⟨⟨kept, hkept, hv.2⟩, edge, hedge, rfl⟩
    obtain ⟨hall, hhere, hmore⟩ := hsound.flowAll (hbsized.inter hksized) hedges
    obtain ⟨-, hafter', -⟩ :=
      flowAll_frame (s.look i queue (b.inter kept)) (b.inter kept) (g.successors i)
    refine ⟨hall, ?_⟩
    intro a out j hout haj
    change ((g.successors i).foldl (fun s edge => s.flow (b.inter kept) edge.target)
      (s.look i queue (b.inter kept))).after[a]? = _ at hout
    rw [hafter', hget] at hout
    by_cases hia : i = a
    · subst hia
      rw [if_pos rfl] at hout
      cases hout
      obtain ⟨edge, hedge, rfl⟩ := haj
      exact hhere edge hedge
    · rw [if_neg hia] at hout
      exact hmore out j (Carried.look hafter hqueue (h.carried a out j hout haj) _)

/-! ### All steps -/

/-- Before the first step no node was looked at. -/
theorem after_initial_ne (nodes slots i : Nat) (out : BitSet) :
    (initial nodes slots).after[i]? ≠ some (some out) := by
  show (Array.replicate nodes none)[i]? ≠ _
  rw [Array.getElem?_replicate]
  split <;> simp

/-- The state before the first step. -/
theorem solving_initial (hsize : 0 < g.size) (keep : Array BitSet) (slots : Nat) :
    Solving g keep slots (initial g.size slots) := by
  -- All variables are unset in front of the first node, and no other node is reached yet.
  have hbefore (i : Nat) (b : BitSet) (hb : (initial g.size slots).before[i]? = some b) :
      (i = 0 ∧ b = .full slots) ∨ b = .empty slots := by
    change ((Array.replicate g.size (BitSet.empty slots)).setIfInBounds 0 (.full slots))[i]? =
      _ at hb
    rw [Array.getElem?_setIfInBounds] at hb
    split at hb
    · next hi => exact .inl ⟨hi.symm, by simpa [hsize, eq_comm] using hb⟩
    · rw [Array.getElem?_replicate] at hb
      split at hb
      · exact .inr (Option.some.inj hb).symm
      · cases hb
  have hqueue : (initial g.size slots).queue = [0] := if_neg (by omega)
  refine
    { before_size := by simp [initial]
      after_size := by simp [initial]
      before_sized := ?_
      queued_sized := (BitSet.sized_empty g.size).insert hsize
      queued := ?_
      nodup := by simp [hqueue]
      carries := ?_
      settled := fun i out _ _ hout => absurd hout (after_initial_ne g.size slots i out)
      first := ⟨.inl (by simp [hqueue]), .full slots, ?_, fun _ hv => hv⟩
      taken := by simp [initial]
      count := ?_
      carried := fun i out _ hout => absurd hout (after_initial_ne g.size slots i out) }
  · intro i b hb
    obtain ⟨-, rfl⟩ | rfl := hbefore i b hb
    · exact BitSet.sized_full slots
    · exact BitSet.sized_empty slots
  · intro i
    show ((BitSet.empty g.size).insert 0).contains i = true ↔ _
    rw [BitSet.contains_insert ((BitSet.sized_empty g.size).div_lt hsize), BitSet.contains_empty,
      hqueue]
    simp
  · intro i b v hb hv
    obtain ⟨rfl, -⟩ | rfl := hbefore i b hb
    · exact .refl
    · rw [BitSet.contains_empty] at hv
      cases hv
  · simp [initial, hsize]
  · intro i b _
    rw [hqueue]
    show ([] : List Nat).count i + [0].count i ≤ _
    have hone : [0].count i ≤ 1 := List.count_le_length
    rw [List.count_nil]
    omega

/-- Steps keep the invariant, and each takes a node while one waits. -/
theorem Solving.run (hg : g.WellFormed) (hsize : keep.size = g.size)
    (hkeep : ∀ (i : Nat) (kept : BitSet), keep[i]? = some kept → kept.Sized slots) (n : Nat)
    (h : Solving g keep slots s) :
    Solving g keep slots (s.run g keep n) ∧
      ((s.run g keep n).queue = [] ∨ (s.run g keep n).taken.length = s.taken.length + n) := by
  induction n generalizing s with
  | zero => exact ⟨h, .inr rfl⟩
  | succ n ih =>
    rw [UnsetState.run]
    cases hqueue : s.queue with
    | nil => exact ⟨h, .inl hqueue⟩
    | cons i queue =>
      obtain ⟨hrun, hend⟩ := ih (h.step hg hsize hkeep hqueue)
      refine ⟨hrun, hend.imp_right fun hlength => ?_⟩
      rw [(stepped hqueue).taken, List.length_cons] at hlength
      simp only [List.isEmpty_cons, Bool.false_eq_true, if_false]
      omega

/-- No node is taken, and waits, more than once more often than there are variables. -/
theorem Sound.count_le (h : Sound g keep slots s) (i : Nat) :
    s.taken.count i + s.queue.count i ≤ slots + 1 := by
  by_cases hi : i < s.before.size
  · have hbound := h.count i _ (Array.getElem?_eq_getElem hi)
    have hcard := BitSet.card_members_le slots s.before[i]
    omega
  · have hqueue : i ∉ s.queue := by
      intro hmem
      have hlt := h.queued_sized.lt i ((h.queued i).2 hmem)
      rw [h.before_size] at hi
      exact hi hlt
    have htaken : i ∉ s.taken := by
      intro hmem
      obtain ⟨out, hout⟩ := h.taken i hmem
      obtain ⟨hlt, -⟩ := Array.getElem?_eq_some_iff.1 hout
      rw [h.after_size, ← h.before_size] at hlt
      exact hi hlt
    rw [List.count_eq_zero.2 hqueue, List.count_eq_zero.2 htaken]
    omega

/-- So there are not many steps. -/
theorem Sound.length_le (h : Sound g keep slots s) :
    s.taken.length + s.queue.length ≤ g.size * (slots + 1) := by
  have hmem : ∀ i ∈ s.taken ++ s.queue, i ∈ Finset.range g.size := by
    intro i hi
    rw [Finset.mem_range]
    rcases List.mem_append.1 hi with hi | hi
    · obtain ⟨out, hout⟩ := h.taken i hi
      obtain ⟨hlt, -⟩ := Array.getElem?_eq_some_iff.1 hout
      rwa [h.after_size] at hlt
    · exact h.queued_sized.lt i ((h.queued i).2 hi)
  -- Count the nodes taken or waiting node by node, each at most `slots + 1` times.
  calc s.taken.length + s.queue.length
      = (s.taken ++ s.queue).length := List.length_append.symm
    _ = ∑ i ∈ Finset.range g.size, (s.taken ++ s.queue).count i := by
        have hsum := @Multiset.sum_count_eq_card _ _ (Finset.range g.size)
          (s.taken ++ s.queue : List Nat) (by simpa using hmem)
        simpa only [Multiset.coe_count, Multiset.coe_card] using hsum.symm
    _ ≤ (Finset.range g.size).card • (slots + 1) := by
        apply Finset.sum_le_card_nsmul
        intro i _
        rw [List.count_append]
        exact h.count_le i
    _ = g.size * (slots + 1) := by
        rw [Finset.card_range]
        rfl

/-- The steps that are allowed empty the queue. -/
theorem solving_run (hg : g.WellFormed) (hpos : 0 < g.size) (hsize : keep.size = g.size)
    (hkeep : ∀ (i : Nat) (kept : BitSet), keep[i]? = some kept → kept.Sized slots) :
    Solving g keep slots ((initial g.size slots).run g keep (g.size * (slots + 1))) ∧
      ((initial g.size slots).run g keep (g.size * (slots + 1))).queue = [] := by
  obtain ⟨hrun, hend⟩ := (solving_initial hpos keep slots).run hg hsize hkeep (g.size * (slots + 1))
  refine ⟨hrun, ?_⟩
  rcases hend with hempty | hlength
  · exact hempty
  · have hbound := hrun.length_le
    have hzero : (initial g.size slots).taken.length = 0 := rfl
    exact List.eq_nil_of_length_eq_zero (by omega)

/-- What was noted was looked at, once nothing waits. -/
theorem Noted.looked {i : Nat} (h : s.Noted i) (hempty : s.queue = []) :
    ∃ out, s.after[i]? = some (some out) := h.resolve_left (by simp [hempty])

/-- In the end a variable may be unset in front of a node if and only if a path carries it there. -/
theorem contains_before_run_iff (hg : g.WellFormed) (hsize : keep.size = g.size)
    (hkeep : ∀ (i : Nat) (kept : BitSet), keep[i]? = some kept → kept.Sized slots) {i : Nat}
    (hi : i < g.size) {v : Nat} (hv : v < slots) :
    (((initial g.size slots).run g keep (g.size * (slots + 1))).before[i]?.any
        fun unset => unset.contains v) = true ↔ g.Carries keep v i := by
  obtain ⟨hrun, hempty⟩ := solving_run hg (Nat.zero_lt_of_lt hi) hsize hkeep
  generalize (initial g.size slots).run g keep (g.size * (slots + 1)) = s at hrun hempty ⊢
  rw [Option.any_eq_true]
  constructor
  · rintro ⟨b, hb, hcontains⟩
    exact hrun.carries i b v hb hcontains
  · intro hcarries
    -- Every node of a path is noted.  Nothing waits in the end, so each was looked at, and what it
    -- leaves unset was carried on.
    suffices hsuff : s.Noted i ∧ ∃ b, s.before[i]? = some b ∧ b.contains v = true from hsuff.2
    clear hi
    induction hcarries with
    | refl =>
      obtain ⟨b, hb, hsub⟩ := hrun.first.sub
      refine ⟨hrun.first.noted, b, hb, hsub v ?_⟩
      simpa [BitSet.contains_full] using hv
    | @tail a j _ hstep ih =>
      obtain ⟨hnoted, b, hb, hcontains⟩ := ih
      obtain ⟨⟨kept, hkept, hkeeps⟩, hleads⟩ := hstep
      obtain ⟨out, hout⟩ := hnoted.looked hempty
      have hcarried := hrun.carried a out j hout hleads
      obtain ⟨b', hb', hsub⟩ := hcarried.sub
      refine ⟨hcarried.noted, b', hb', hsub v ?_⟩
      have hwords := (hrun.before_sized a b hb).words_eq (hkeep a kept hkept)
      rw [hrun.settled a out b kept hout (by simp [hempty]) hb hkept,
        BitSet.contains_inter hwords, hcontains, hkeeps]
      rfl

end UnsetState

end LogicAsm
