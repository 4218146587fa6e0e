import LogicAsm.Proofs.Flow.Reaching

/-!
# Reachability by instruction counters

A processor knows no labels and no comments: it counts instructions, and its program counter goes
from counter to counter (`CounterLeads`).  The flow graph goes from node to node, through labels and
comments, and a jump to a label leads to the label.  Both reach the same instructions
(`reaches_iff_counterReaches`).

The two are tied by the number of instructions in front of a node (`counterBefore`).  An edge that
leaves a label or a comment does not change it, and one that leaves an instruction is a step of the
counter; so what nodes reach, counters reach (`counterReaches_of_reaches`).  The other way round a
step of the counter leads to a node with that many instructions in front of it, and from there to
the next instruction (`Reaches.instruction`).

All of this rests on one list of what an edge can be (`leads_iff`).
-/

namespace LogicAsm

/-! ### Instructions in front of a node -/

/-- The number of instructions in front of a node. -/
def counterBefore (nodes : List Node) (i : Nat) : Nat := (nodes.take i).countP (·.isInstruction)

theorem counterBefore_succ {nodes : List Node} {i : Nat} {n : Node} (h : nodes[i]? = some n) :
    counterBefore nodes (i + 1) = counterBefore nodes i + if n.isInstruction then 1 else 0 := by
  rw [counterBefore, counterBefore, List.take_add_one, h, List.countP_append, Option.toList_some,
    List.countP_singleton]

theorem counterBefore_mono (nodes : List Node) {i j : Nat} (h : i ≤ j) :
    counterBefore nodes i ≤ counterBefore nodes j := by
  apply List.Sublist.countP_le
  exact List.take_sublist_take_left h

/-- The index with a counter is that of the instruction with so many in front. -/
theorem getElem?_instructionIndicesFrom_iff {nodes : List Node} {index c k : Nat} :
    (instructionIndicesFrom index nodes)[c]? = some (index + k) ↔
      (∃ n, nodes[k]? = some n ∧ n.isInstruction = true) ∧ counterBefore nodes k = c := by
  induction nodes generalizing index c k with
  | nil => simp [instructionIndicesFrom]
  | cons n ns ih =>
    -- The later nodes are numbered behind the first one.
    have hfirst (c : Nat) : (instructionIndicesFrom (index + 1) ns)[c]? ≠ some index := by
      intro hc
      obtain ⟨j, -, -, -, hj⟩ := mem_instructionIndicesFrom.1 (List.mem_of_getElem? hc)
      omega
    have hlater (c k : Nat) :
        (instructionIndicesFrom (index + 1) ns)[c]? = some (index + (k + 1)) ↔
          (∃ n, ns[k]? = some n ∧ n.isInstruction = true) ∧ counterBefore ns k = c := by
      rw [← @ih (index + 1) c k, Nat.add_right_comm, Nat.add_assoc]
    have hcount (k : Nat) : counterBefore (n :: ns) (k + 1) =
        counterBefore ns k + if n.isInstruction then 1 else 0 := by
      rw [counterBefore, List.take_succ_cons, List.countP_cons]
      rfl
    rw [instructionIndicesFrom]
    cases hn : n.isInstruction with
    | false =>
      show (instructionIndicesFrom (index + 1) ns)[c]? = _ ↔ _
      cases k with
      | zero =>
        refine iff_of_false (hfirst c) ?_
        rintro ⟨⟨m, hm, hinstr⟩, -⟩
        obtain rfl : n = m := Option.some.inj hm
        rw [hn] at hinstr
        cases hinstr
      | succ k =>
        rw [hcount, hn, hlater]
        rfl
    | true =>
      show (index :: instructionIndicesFrom (index + 1) ns)[c]? = _ ↔ _
      cases k with
      | zero =>
        cases c with
        | zero => exact iff_of_true rfl ⟨⟨n, rfl, hn⟩, rfl⟩
        | succ c => exact iff_of_false (hfirst c) (by rintro ⟨-, hzero⟩; cases hzero)
      | succ k =>
        rw [hcount, hn]
        cases c with
        | zero =>
          refine iff_of_false ?_ (by rintro ⟨-, hzero⟩; cases hzero)
          intro hindex
          have hself : index = index + (k + 1) := Option.some.inj hindex
          omega
        | succ c =>
          rw [List.getElem?_cons_succ, hlater, if_pos rfl, Nat.add_right_cancel_iff]
          rfl

theorem getElem?_instructionIndices_iff {nodes : List Node} {c i : Nat} :
    (instructionIndices nodes)[c]? = some i ↔
      (∃ n, nodes[i]? = some n ∧ n.isInstruction = true) ∧ counterBefore nodes i = c := by
  have h := @getElem?_instructionIndicesFrom_iff nodes 0 c i
  rwa [Nat.zero_add] at h

namespace FlowGraph

/-! ### The graph of the program counter -/

/-- A step of the program counter, among the counters of instructions. -/
inductive CounterLeads (g : FlowGraph) : Nat → Nat → Prop where
  /-- An instruction that writes the counter leads to every counter. -/
  | anywhere {c d i : Nat} {n : Node} : g.instructions[c]? = some i → g.nodes[i]? = some n →
      n.writesCounter = true → d < g.instructions.length → CounterLeads g c d
  /-- A jump leads to the number of instructions in front of the node that it is resolved to. -/
  | jump {c i target : Nat} : g.instructions[c]? = some i → g.jumpTarget? i = some target →
      counterBefore g.nodes target < g.instructions.length →
      CounterLeads g c (counterBefore g.nodes target)
  /-- All others lead to the next counter, and so does a jump that is not resolved or that does not
  always jump. -/
  | next {c i : Nat} {n : Node} : g.instructions[c]? = some i → g.nodes[i]? = some n →
      n.writesCounter = false → ¬ (n.alwaysJumps = true ∧ (g.jumpTarget? i).isSome = true) →
      c + 1 < g.instructions.length → CounterLeads g c (c + 1)

/-- Whether the program counter gets from zero to a counter. -/
def CounterReaches (g : FlowGraph) (c : Nat) : Prop := Relation.ReflTransGen g.CounterLeads 0 c

/-! ### What an edge can be -/

section

variable {uri : String} {nodes : List Node} {g : FlowGraph} (h : ofNodes uri nodes = .ok g)

include h

/-- A node that writes the counter may be left for anywhere; every other one goes on, or it is an
instruction and jumps, always if it says so. -/
theorem exit_cases {i : Nat} {n : Node} (hn : nodes[i]? = some n) :
    n.writesCounter = true ∧ g.exits[i]? = some .anywhere ∨
      n.writesCounter = false ∧ (g.exits[i]? = some .next ∨
        n.isInstruction = true ∧ ∃ target, g.exits[i]? = some (.jump target n.alwaysJumps)) := by
  obtain ⟨-, -, -, hexits⟩ := exits_of_ofNodes h
  obtain ⟨exit, hexit, problems, hof⟩ := exists_getElem?_of_forall₂ hexits hn
  rw [Array.getElem?_toList] at hexit
  rw [hexit]
  unfold exitOf at hof
  split at hof
  · next hwrites =>
    cases hof
    exact .inl ⟨hwrites, rfl⟩
  · next hwrites =>
    refine .inr ⟨Bool.eq_false_iff.2 hwrites, ?_⟩
    split at hof
    · cases hof
      exact .inl rfl
    · next destination hdestination =>
      obtain ⟨⟨target, found⟩, -, hof⟩ := bind_eq_ok.1 hof
      cases target with
      | none =>
        cases hof
        exact .inl rfl
      | some target =>
        cases hof
        exact .inr ⟨n.isInstruction_of_destination? hdestination, target, rfl⟩

/-- Where control can go from a node. -/
theorem leads_iff {i j : Nat} {n : Node} (hn : nodes[i]? = some n) :
    g.Leads i j ↔ j < g.size ∧
      (n.writesCounter = true ∨ g.jumpTarget? i = some j ∨
        n.writesCounter = false ∧ ¬ (n.alwaysJumps = true ∧ (g.jumpTarget? i).isSome = true) ∧
          j = i + 1) := by
  have hwf := wellFormed_of_ofNodes h
  have hfall : (∃ edge ∈ g.fallthroughFrom i, edge.target = j) ↔ j < g.size ∧ j = i + 1 := by
    unfold fallthroughFrom
    split
    · simp only [List.mem_singleton, exists_eq_left]
      omega
    · simp only [List.not_mem_nil, false_and, exists_false, false_iff]
      omega
  -- One case for each exit of a node: anywhere, the next node, a jump.
  rcases exit_cases h hn with ⟨hwrites, hexit⟩ | ⟨hwrites, hexit | ⟨-, target, hexit⟩⟩
  · rw [Leads, successors, jumpTarget?, hexit, hwrites]
    simp
  · rw [Leads, successors, jumpTarget?, hexit, hwrites]
    simp only [hfall]
    simp
  · have htarget := hwf.target i target _ hexit
    rw [Leads, successors, jumpTarget?, hexit, hwrites]
    simp only [List.mem_cons, exists_eq_or_imp]
    cases n.alwaysJumps with
    | true => grind
    | false =>
      simp only [Bool.false_eq_true, if_false, hfall]
      grind

/-- A label or a comment goes on to the next node, and nowhere else. -/
theorem leads_iff_of_not_isInstruction {i j : Nat} {n : Node} (hn : nodes[i]? = some n)
    (hinstr : n.isInstruction = false) : g.Leads i j ↔ j < g.size ∧ j = i + 1 := by
  have hwrites : n.writesCounter = false := by rw [Node.writesCounter, hinstr, Bool.false_and]
  have htarget : g.jumpTarget? i = none := by
    rcases exit_cases h hn with ⟨hwrites', -⟩ | ⟨-, hexit | ⟨hinstr', -⟩⟩
    · rw [hwrites] at hwrites'
      cases hwrites'
    · rw [jumpTarget?, hexit]
    · rw [hinstr] at hinstr'
      cases hinstr'
  rw [leads_iff h hn, hwrites, htarget]
  simp

/-! ### Both graphs reach the same instructions -/

/-- From a node that is reached, control gets to the next instruction. -/
theorem Reaches.instruction {c i j : Nat} (hi : g.instructions[c]? = some i) (hj : g.Reaches j)
    (hc : counterBefore nodes j = c) : g.Reaches i := by
  obtain ⟨hnodes, -, hinstructions, -⟩ := exits_of_ofNodes h
  have hsize : g.size = nodes.length := by rw [(wellFormed_of_ofNodes h).size, hnodes]
  rw [hinstructions] at hi
  obtain ⟨⟨n, hn, hinstr⟩, hcount⟩ := getElem?_instructionIndices_iff.1 hi
  have hlt := (List.getElem?_eq_some_iff.1 hn).1
  have hle : j ≤ i := by
    by_contra hgt
    have hmono := counterBefore_mono nodes (show i + 1 ≤ j by omega)
    rw [counterBefore_succ hn, if_pos hinstr] at hmono
    omega
  -- Between the node and the instruction there are labels and comments only.
  obtain ⟨k, rfl⟩ := Nat.exists_eq_add_of_le hle
  clear hle
  induction k generalizing j with
  | zero => exact hj
  | succ k ih =>
    have hnext : j + (k + 1) = j + 1 + k := by omega
    rw [hnext] at hi hn hcount hlt ⊢
    have hget := List.getElem?_eq_getElem (show j < nodes.length by omega)
    have hsucc := counterBefore_succ hget
    have hmono := counterBefore_mono nodes (Nat.le_add_right (j + 1) k)
    have hother : nodes[j].isInstruction = false := by
      by_contra hinstr
      rw [Bool.not_eq_false] at hinstr
      rw [if_pos hinstr] at hsucc
      omega
    apply ih ?_ ?_ hi hcount hn hlt
    · apply hj.tail
      rw [leads_iff_of_not_isInstruction h hget hother]
      omega
    · rw [hsucc, hother, hc]
      rfl

/-- What the program counter reaches is reached by control. -/
theorem reaches_of_counterReaches {c i : Nat} (hc : g.CounterReaches c)
    (hi : g.instructions[c]? = some i) : g.Reaches i := by
  obtain ⟨rfl, -, hinstructions, -⟩ := exits_of_ofNodes h
  have hwf := wellFormed_of_ofNodes h
  have hindex {c i : Nat} (hi : g.instructions[c]? = some i) :
      (∃ n, g.nodes[i]? = some n ∧ n.isInstruction = true) ∧ counterBefore g.nodes i = c := by
    rw [hinstructions] at hi
    exact getElem?_instructionIndices_iff.1 hi
  have hlt {c i : Nat} (hi : g.instructions[c]? = some i) : i < g.size := by
    obtain ⟨⟨n, hn, -⟩, -⟩ := hindex hi
    rw [hwf.size]
    exact (List.getElem?_eq_some_iff.1 hn).1
  induction hc generalizing i with
  | refl => exact Reaches.instruction h hi .refl rfl
  | tail _ hstep ih =>
    cases hstep with
    | anywhere hb hn hwrites hd =>
      apply (ih hb).tail
      rw [leads_iff h hn]
      exact ⟨hlt hi, .inl hwrites⟩
    | @jump k target hb htarget hd =>
      obtain ⟨⟨n, hn, -⟩, -⟩ := hindex hb
      have hreaches : g.Reaches target := by
        apply (ih hb).tail
        rw [leads_iff h hn]
        exact ⟨hwf.jumpTarget?_lt htarget, .inr (.inl htarget)⟩
      exact hreaches.instruction h hi rfl
    | @next k n hb hn hwrites hnext hd =>
      obtain ⟨⟨m, hm, hinstr⟩, hcount⟩ := hindex hb
      obtain rfl : n = m := Option.some.inj (hn.symm.trans hm)
      have hsucc := counterBefore_succ hn
      rw [if_pos hinstr, hcount] at hsucc
      -- The next instruction stands behind this one, so there is a next node.
      have hbehind : k < i := by
        by_contra hge
        have hmono := counterBefore_mono g.nodes (Nat.le_of_not_lt hge)
        rw [(hindex hi).2, hcount] at hmono
        omega
      have hreaches : g.Reaches (k + 1) := by
        apply (ih hb).tail
        rw [leads_iff h hn]
        exact ⟨Nat.lt_of_le_of_lt hbehind (hlt hi), .inr (.inr ⟨hwrites, hnext, rfl⟩)⟩
      exact hreaches.instruction h hi hsucc

/-- What control reaches is reached by the program counter, in the place of a label or of a comment
the next instruction. -/
theorem counterReaches_of_reaches {j : Nat} (hj : g.Reaches j)
    (hlt : counterBefore nodes j < g.instructions.length) :
    g.CounterReaches (counterBefore nodes j) := by
  obtain ⟨rfl, -, hinstructions, -⟩ := exits_of_ofNodes h
  have hwf := wellFormed_of_ofNodes h
  -- Along the path: a label or a comment keeps the counter, an instruction moves it by a step.
  induction hj with
  | refl => exact .refl
  | @tail i j _ hstep ih =>
    have hsize := hstep.lt_size
    rw [hwf.size] at hsize
    have hn := List.getElem?_eq_getElem hsize
    have hsucc := counterBefore_succ hn
    cases hinstr : g.nodes[i].isInstruction with
    | false =>
      rw [hinstr] at hsucc
      obtain ⟨-, rfl⟩ := (leads_iff_of_not_isInstruction h hn hinstr).1 hstep
      rw [hsucc] at hlt ⊢
      exact ih hlt
    | true =>
      rw [hinstr, if_pos rfl] at hsucc
      have hcounter : g.instructions[counterBefore g.nodes i]? = some i := by
        rw [hinstructions, getElem?_instructionIndices_iff]
        exact ⟨⟨_, hn, hinstr⟩, rfl⟩
      have hbefore := ih (List.getElem?_eq_some_iff.1 hcounter).1
      obtain ⟨-, hwrites | htarget | ⟨hwrites, hnext, rfl⟩⟩ := (leads_iff h hn).1 hstep
      · exact hbefore.tail (.anywhere hcounter hn hwrites hlt)
      · exact hbefore.tail (.jump hcounter htarget hlt)
      · rw [hsucc] at hlt ⊢
        exact hbefore.tail (.next hcounter hn hwrites hnext hlt)

/-- An instruction is reached by control if and only if its counter is reached. -/
theorem reaches_iff_counterReaches {c i : Nat} (hi : g.instructions[c]? = some i) :
    g.Reaches i ↔ g.CounterReaches c := by
  refine ⟨fun hreaches => ?_, fun hc => reaches_of_counterReaches h hc hi⟩
  obtain ⟨-, -, hinstructions, -⟩ := exits_of_ofNodes h
  have hlt := (List.getElem?_eq_some_iff.1 hi).1
  rw [hinstructions, getElem?_instructionIndices_iff] at hi
  have hcounter := counterReaches_of_reaches h hreaches
  rw [hi.2] at hcounter
  exact hcounter hlt

end

/-! ### Reports of what is not reached -/

/-- What is found of instructions by their indices is found of them by their counters. -/
theorem filterMap_zipIdx_instructions {α : Type} (f : Node → Nat → Option α)
    (before nodes : List Node) :
    (nodes.zipIdx before.length).filterMap (fun (n, i) =>
        if n.isInstruction then f n (counterBefore (before ++ nodes) i) else none) =
      ((nodes.filter (·.isInstruction)).zipIdx (before.countP (·.isInstruction))).filterMap
        fun (n, c) => f n c := by
  induction nodes generalizing before with
  | nil => rfl
  | cons n ns ih =>
    have hrest := ih (before ++ [n])
    rw [List.append_assoc, List.singleton_append, List.length_append, List.length_singleton,
      List.countP_append, List.countP_singleton] at hrest
    have hcount : counterBefore (before ++ n :: ns) before.length =
        before.countP (·.isInstruction) := by
      rw [counterBefore, List.take_left]
    rw [List.zipIdx_cons, List.filterMap_cons, hrest]
    cases hn : n.isInstruction with
    | false => simp [hn]
    | true => simp [hn, hcount, List.filterMap_cons]

open Classical in
/-- The reports of the instructions whose counter is not reached. -/
noncomputable def unreachedReports (g : FlowGraph) : List Diagnostic :=
  (g.nodes.filter (·.isInstruction)).zipIdx.filterMap fun (n, c) =>
    if g.CounterReaches c then none else some (unreachable n)

section

variable {uri : String} {nodes : List Node} {g : FlowGraph} (h : ofNodes uri nodes = .ok g)

include h

/-- The walk sees the nodes that edges lead to. -/
theorem contains_reachable_iff_of_ofNodes {i : Nat} (hi : i < nodes.length) :
    g.reachable.contains i = true ↔ g.Reaches i := by
  have hwf := wellFormed_of_ofNodes h
  apply contains_reachable_iff hwf
  rw [hwf.size, (exits_of_ofNodes h).1]
  omega

/-- Instructions are reported by their counters. -/
theorem unreachableProblems_eq : g.unreachableProblems = g.unreachedReports := by
  classical
  obtain ⟨rfl, -, hinstructions, -⟩ := exits_of_ofNodes h
  have hcounters := filterMap_zipIdx_instructions
    (fun n c => if g.CounterReaches c then none else some (unreachable n)) [] g.nodes
  rw [unreachedReports]
  refine Eq.trans ?_ hcounters
  apply List.filterMap_congr
  rintro ⟨n, i⟩ hmem
  have hn : g.nodes[i]? = some n := List.mem_zipIdx_iff_getElem?.1 hmem
  have hlt := (List.getElem?_eq_some_iff.1 hn).1
  show (if (n.isInstruction && !g.reachable.contains i) = true then _ else none) =
    if n.isInstruction = true then _ else none
  cases hinstr : n.isInstruction with
  | false => rfl
  | true =>
    have hcounter : g.instructions[counterBefore g.nodes i]? = some i := by
      rw [hinstructions, getElem?_instructionIndices_iff]
      exact ⟨⟨n, hn, hinstr⟩, rfl⟩
    have hreached := (contains_reachable_iff_of_ofNodes h hlt).trans
      (reaches_iff_counterReaches h hcounter)
    rw [List.nil_append]
    by_cases hseen : g.CounterReaches (counterBefore g.nodes i)
    · simp [hseen, hreached.2 hseen]
    · have hnot : g.reachable.contains i = false := Bool.eq_false_iff.2 (hseen ∘ hreached.1)
      simp [hseen, hnot]

/-- What a graph reports is not that code cannot be reached. -/
theorem code_of_mem_problems : ∀ p ∈ g.problems, p.code ≠ .unreachableCode := by
  intro p hp
  rcases exists_of_mem_problems h p hp with ⟨again, first, rfl⟩ | ⟨n, -, d, -, rfl | ⟨rfl, -⟩⟩
  · exact nofun
  · exact nofun
  · exact nofun

end

/-- Reachability is exact, and independent of comments and labels: a node is seen if and only if
edges lead to it from the first one, an instruction can be reached if and only if the program
counter gets to it from zero, and the instructions reported to be unreachable are those that it does
not get to. -/
theorem reachable_counters_exact {uri : String} {t : Text} {g : FlowGraph}
    (h : ofNodes uri (Node.ofText t) = .ok g) :
    g.nodes = Node.ofText t ∧ g.instructions = instructionIndices (Node.ofText t) ∧
    (∀ i < g.nodes.length, g.reachable.contains i = true ↔ g.Reaches i) ∧
    (∀ c i, g.instructions[c]? = some i → (g.reachable.contains i = true ↔ g.CounterReaches c)) ∧
    ∃ problems, analyze uri (Node.ofText t) =
        .ok ((List.range g.nodes.length).map g.reachable.contains, problems) ∧
      problems.filter (·.code == .unreachableCode) = g.unreachedReports := by
  obtain ⟨hnodes, -, hinstructions, -⟩ := exits_of_ofNodes h
  have hseen : ∀ i < g.nodes.length, g.reachable.contains i = true ↔ g.Reaches i := by
    intro i hi
    rw [hnodes] at hi
    exact contains_reachable_iff_of_ofNodes h hi
  refine ⟨hnodes, hinstructions, hseen, ?_, g.problems ++ g.unreachableProblems, ?_, ?_⟩
  · intro c i hi
    have hmem := List.mem_of_getElem? hi
    rw [hinstructions, mem_instructionIndices, ← hnodes] at hmem
    obtain ⟨n, hn, -⟩ := hmem
    rw [hseen i (List.getElem?_eq_some_iff.1 hn).1]
    exact reaches_iff_counterReaches h hi
  · rw [analyze, h, ← (wellFormed_of_ofNodes h).size]
    rfl
  -- Building the graph reports labels only, and reachability only what is not reached.
  · have hothers : g.problems.filter (·.code == .unreachableCode) = [] := by
      apply List.filter_eq_nil_iff.2
      intro p hp
      simpa using code_of_mem_problems h p hp
    have hall : g.unreachableProblems.filter (·.code == .unreachableCode) =
        g.unreachableProblems := by
      apply List.filter_eq_self.2
      intro p hp
      obtain ⟨⟨n, i⟩, -, hp⟩ := List.mem_filterMap.1 hp
      simp only [Option.ite_none_right_eq_some, Option.some.injEq] at hp
      rw [← hp.2]
      rfl
    rw [List.filter_append, hothers, hall, List.nil_append, unreachableProblems_eq h]

/-- A jump over an instruction to a label with a comment behind it: the instruction in between is
not reached, and the one behind the label is. -/
theorem reachable_counters_exact_skip : ∃ g,
    ofNodes "" (Node.ofText "jump end always\nprint x\nend: # here\nprint y".toList) = .ok g ∧
      ¬ g.CounterReaches 1 ∧ g.CounterReaches 2 := by
  have hcomputed : (ofNodes ""
      (Node.ofText "jump end always\nprint x\nend: # here\nprint y".toList)).toOption.map (fun g =>
        (g.instructions, [1, 3].map fun i : Nat => g.reachable.contains i)) =
      some ([0, 1, 3], [false, true]) := by
    decide +kernel
  cases hg : ofNodes "" (Node.ofText "jump end always\nprint x\nend: # here\nprint y".toList) with
  | error e =>
    rw [hg] at hcomputed
    cases hcomputed
  | ok g =>
    obtain ⟨-, -, -, hcounters, -⟩ := reachable_counters_exact hg
    rw [hg] at hcomputed
    obtain ⟨hinstructions, hbits⟩ : g.instructions = [0, 1, 3] ∧
        [1, 3].map (fun i : Nat => g.reachable.contains i) = [false, true] := by
      simpa only [Except.toOption, Option.map_some, Option.some.injEq, Prod.mk.injEq]
        using hcomputed
    rw [List.map_cons, List.map_cons, List.map_nil, List.cons.injEq, List.cons.injEq] at hbits
    have hskipped := hcounters 1 1 (by rw [hinstructions]; rfl)
    have hreached := hcounters 2 3 (by rw [hinstructions]; rfl)
    refine ⟨g, rfl, ?_, hreached.1 hbits.2.1⟩
    intro hcounter
    have htrue := hskipped.2 hcounter
    rw [hbits.1] at htrue
    cases htrue

end FlowGraph

end LogicAsm
