import LogicAsm.Flow.Graph
import LogicAsm.Proofs.Results
import Mathlib.Logic.Relation

/-!
# Edges of the flow graph

The labels of a program are found where they are declared first (`LabelTable.find?_ofNodes`), and
the indices of instructions are those of instructions (`mem_instructionIndices`).  So a destination
that is resolved is the index of a node, and all edges of a graph that was built lie between its
nodes (`FlowGraph.WellFormed`).  What the graph reports is a label that is declared again or a
destination that is not found (`FlowGraph.exists_of_mem_problems`).
-/

namespace LogicAsm

/-! ### Labels and instructions -/

/-- A label is no instruction. -/
theorem Node.isInstruction_of_isLabel {n : Node} (h : n.isLabel = true) :
    n.isInstruction = false := by
  rw [isInstruction, beq_iff_eq.1 h]
  rfl

/-- Only an instruction has a destination. -/
theorem Node.isInstruction_of_destination? {n : Node} {destination : Token}
    (h : n.destination? = some destination) : n.isInstruction = true := by
  rw [destination?] at h
  split at h
  · next hjump => exact (Bool.and_eq_true_iff.1 hjump).1
  · cases h

namespace LabelTable

/-- Whether a node declares a name. -/
def declares (name : Text) (n : Node) : Bool := n.isLabel && n.labelName == name

theorem find?_declare (table : LabelTable) (name other : Text) (index : Nat) :
    (table.declare name index).find? other =
      (table.find? other).or (if name = other then some index else none) := by
  rw [declare]
  cases hname : table.find? name with
  | none =>
    have hlookup : (table.labels ++ [(name, index)]).lookup other =
        (table.labels.lookup other).or ([(name, index)].lookup other) := List.lookup_append
    rw [find?, hlookup, List.lookup_cons, List.lookup_nil]
    congr 1
    by_cases h : other = name
    · simp [h]
    · have h' : ¬ name = other := fun e => h e.symm
      have hbeq : (other == name) = false := by simpa using h
      simp [h', hbeq]
  | some first =>
    by_cases h : name = other
    · subst h
      simp [find?] at hname ⊢
      simp [hname]
    · simp [find?, h]

theorem find?_declareAll (table : LabelTable) (index : Nat) (nodes : List Node) (name : Text) :
    (table.declareAll index nodes).find? name =
      (table.find? name).or ((nodes.findIdx? (declares name)).map (· + index)) := by
  induction nodes generalizing table index with
  | nil => simp [declareAll]
  | cons n ns ih =>
    rw [declareAll, ih, List.findIdx?_cons]
    have hshift : ((ns.findIdx? (declares name)).map (· + (index + 1))) =
        ((ns.findIdx? (declares name)).map (· + 1)).map (· + index) := by
      rw [Option.map_map]
      congr 1
      funext k
      simp only [Function.comp_apply]
      omega
    by_cases hl : n.isLabel = true
    · rw [if_pos hl, find?_declare]
      -- A name that the table has already keeps its first declaration.
      by_cases hname : n.labelName = name
      · have hd : declares name n = true := by simp [declares, hl, hname]
        cases table.find? name <;> simp [hname, hd]
      · have hd : declares name n = false := by simp [declares, hname]
        cases table.find? name <;> simp [hname, hd, hshift]
    · have hd : declares name n = false := by simp [declares, hl]
      rw [if_neg hl, hd, hshift]
      rfl

/-- A label is found where it is declared first. -/
theorem find?_ofNodes (nodes : List Node) (name : Text) :
    (ofNodes nodes).find? name = nodes.findIdx? (declares name) := by
  rw [ofNodes, find?_declareAll]
  simp [find?]

end LabelTable

theorem mem_instructionIndicesFrom {index i : Nat} {nodes : List Node} :
    i ∈ instructionIndicesFrom index nodes ↔
      ∃ k n, nodes[k]? = some n ∧ n.isInstruction = true ∧ i = index + k := by
  induction nodes generalizing index with
  | nil => simp [instructionIndicesFrom]
  | cons n ns ih =>
    rw [instructionIndicesFrom, List.mem_append, ih]
    constructor
    · rintro (hhere | ⟨k, m, hm, hinstr, rfl⟩)
      · by_cases hn : n.isInstruction = true
        · rw [if_pos hn] at hhere
          exact ⟨0, n, rfl, hn, List.mem_singleton.1 hhere⟩
        · rw [if_neg hn] at hhere
          cases hhere
      · exact ⟨k + 1, m, hm, hinstr, by omega⟩
    · rintro ⟨k, m, hm, hinstr, rfl⟩
      cases k with
      | zero =>
        obtain rfl : n = m := Option.some.inj hm
        left
        simp [hinstr]
      | succ k => exact .inr ⟨k, m, hm, hinstr, by omega⟩

/-- The indices of instructions are those of instructions. -/
theorem mem_instructionIndices {i : Nat} {nodes : List Node} :
    i ∈ instructionIndices nodes ↔ ∃ n, nodes[i]? = some n ∧ n.isInstruction = true := by
  rw [instructionIndices, mem_instructionIndicesFrom]
  constructor
  · rintro ⟨k, n, hn, hinstr, rfl⟩
    exact ⟨n, by rwa [Nat.zero_add], hinstr⟩
  · rintro ⟨n, hn, hinstr⟩
    exact ⟨i, n, hn, hinstr, (Nat.zero_add i).symm⟩

namespace FlowGraph

/-! ### Exits lead to nodes -/

/-- A destination that is resolved is the index of a node. -/
theorem lt_length_of_resolve {nodes : List Node} {n : Node} {destination : Token} {target : Nat}
    {problems : List Diagnostic}
    (h : resolve (LabelTable.ofNodes nodes) (instructionIndices nodes) n destination =
      .ok (some target, problems)) : target < nodes.length := by
  unfold resolve at h
  split at h
  · obtain ⟨counter, -, h⟩ := bind_eq_ok.1 h
    split at h
    · next found hfound =>
      cases h
      obtain ⟨c, -, hc⟩ := Option.bind_eq_some_iff.1 hfound
      obtain ⟨m, hm, -⟩ := mem_instructionIndices.1 (List.mem_of_getElem? hc)
      exact (List.getElem?_eq_some_iff.1 hm).1
    · cases h
  · split at h
    · next found hfound =>
      cases h
      rw [LabelTable.find?_ofNodes] at hfound
      exact (List.findIdx?_eq_some_iff_getElem.1 hfound).1
    · cases h

theorem lt_length_of_exitOf {nodes : List Node} {n : Node} {target : Nat} {always : Bool}
    {problems : List Diagnostic}
    (h : exitOf (LabelTable.ofNodes nodes) (instructionIndices nodes) n =
      .ok (.jump target always, problems)) : target < nodes.length := by
  unfold exitOf at h
  split at h
  · cases h
  split at h
  · cases h
  · obtain ⟨⟨found, more⟩, hresolve, h⟩ := bind_eq_ok.1 h
    cases found with
    | none => cases h
    | some target =>
      cases h
      exact lt_length_of_resolve hresolve

/-- A graph with one exit for each node, and jumps that lead to nodes. -/
structure WellFormed (g : FlowGraph) : Prop where
  size : g.size = g.nodes.length
  target : ∀ (i target : Nat) (always : Bool), g.exits[i]? = some (Exit.jump target always) →
    target < g.size

/-- What a graph that is built is made of. -/
theorem exits_of_ofNodes {uri : String} {nodes : List Node} {g : FlowGraph}
    (h : ofNodes uri nodes = .ok g) :
    g.nodes = nodes ∧ g.labels = LabelTable.ofNodes nodes ∧
      g.instructions = instructionIndices nodes ∧
      List.Forall₂ (fun n exit => ∃ problems,
          exitOf (LabelTable.ofNodes nodes) (instructionIndices nodes) n = .ok (exit, problems))
        nodes g.exits.toList := by
  obtain ⟨exits, hexits, ⟨⟩⟩ := bind_eq_ok.1 h
  refine ⟨rfl, rfl, rfl, ?_⟩
  rw [List.toList_toArray, List.forall₂_map_right_iff]
  exact (mapM_eq_ok_iff.1 hexits).imp fun n result hresult => ⟨result.2, hresult⟩

theorem wellFormed_of_ofNodes {uri : String} {nodes : List Node} {g : FlowGraph}
    (h : ofNodes uri nodes = .ok g) : g.WellFormed := by
  obtain ⟨hnodes, -, -, hexits⟩ := exits_of_ofNodes h
  have hsize : g.size = nodes.length := by
    rw [size, ← Array.length_toList, hexits.length_eq]
  refine ⟨by rw [hsize, hnodes], ?_⟩
  intro i target always hexit
  rw [← Array.getElem?_toList] at hexit
  obtain ⟨hi, hget⟩ := List.getElem?_eq_some_iff.1 hexit
  obtain ⟨problems, hof⟩ := hexits.get (hexits.length_eq ▸ hi) hi
  rw [show g.exits.toList.get ⟨i, hi⟩ = .jump target always from hget] at hof
  rw [hsize]
  exact lt_length_of_exitOf hof

theorem WellFormed.jumpTarget?_lt {g : FlowGraph} (h : g.WellFormed) {i target : Nat}
    (htarget : g.jumpTarget? i = some target) : target < g.size := by
  unfold jumpTarget? at htarget
  split at htarget
  · next hexit =>
    cases htarget
    exact h.target i _ _ hexit
  · cases htarget

/-! ### Edges lie between nodes -/

/-- Whether control can go from a node to another one in one step. -/
def Leads (g : FlowGraph) (i j : Nat) : Prop := ∃ edge ∈ g.successors i, edge.target = j

theorem Leads.lt_size {g : FlowGraph} {a b : Nat} (h : g.Leads a b) : a < g.size := by
  obtain ⟨edge, hedge, -⟩ := h
  rw [successors] at hedge
  cases hexit : g.exits[a]? with
  | none =>
    rw [hexit] at hedge
    cases hedge
  | some exit => exact (Array.getElem?_eq_some_iff.1 hexit).1

theorem WellFormed.target_lt {g : FlowGraph} (h : g.WellFormed) {i : Nat} :
    ∀ edge ∈ g.successors i, edge.target < g.size := by
  intro edge hedge
  have hfall : ∀ e ∈ g.fallthroughFrom i, e.target < g.size := by
    intro e he
    unfold fallthroughFrom at he
    split at he
    · obtain rfl := List.mem_singleton.1 he
      assumption
    · cases he
  unfold successors at hedge
  split at hedge
  · cases hedge
  · exact hfall edge hedge
  · obtain ⟨k, hk, rfl⟩ := List.mem_map.1 hedge
    exact List.mem_range.1 hk
  · next target always hexit =>
    rcases List.mem_cons.1 hedge with rfl | hedge
    · exact h.target i target always hexit
    · split at hedge
      · cases hedge
      · exact hfall edge hedge

/-! ### Reports -/

/-- A destination is reported if it is a number without an instruction or a name that is not
declared. -/
theorem problems_of_resolve {labels : LabelTable} {instructions : List Nat} {n : Node} {d : Token}
    {target : Option Nat} {problems : List Diagnostic}
    (h : resolve labels instructions n d = .ok (target, problems)) :
    ∀ p ∈ problems, p = outOfRange d instructions.length ∨
      p = undeclared n d ∧ labels.find? d.content = none := by
  intro p hp
  unfold resolve at h
  split at h
  · obtain ⟨counter, -, h⟩ := bind_eq_ok.1 h
    split at h
    · cases h
      cases hp
    · cases h
      exact .inl (List.mem_singleton.1 hp)
  · split at h
    · cases h
      cases hp
    · next hnone =>
      cases h
      exact .inr ⟨List.mem_singleton.1 hp, hnone⟩

theorem problems_of_exitOf {labels : LabelTable} {instructions : List Nat} {n : Node} {exit : Exit}
    {problems : List Diagnostic} (h : exitOf labels instructions n = .ok (exit, problems)) :
    ∀ p ∈ problems, ∃ d, n.destination? = some d ∧ (p = outOfRange d instructions.length ∨
      p = undeclared n d ∧ labels.find? d.content = none) := by
  intro p hp
  unfold exitOf at h
  split at h
  · cases h
    cases hp
  split at h
  · cases h
    cases hp
  · next d hd =>
    obtain ⟨⟨target, found⟩, hresolve, h⟩ := bind_eq_ok.1 h
    obtain rfl : found = problems := by
      cases target with
      | none =>
        cases h
        rfl
      | some target =>
        cases h
        rfl
    exact ⟨d, hd, problems_of_resolve hresolve p hp⟩

/-- What a graph reports is a label that is declared again, or the destination of a node. -/
theorem exists_of_mem_problems {uri : String} {nodes : List Node} {g : FlowGraph}
    (h : ofNodes uri nodes = .ok g) :
    ∀ p ∈ g.problems, (∃ again first, p = redeclaration uri again first) ∨
      ∃ n ∈ nodes, ∃ d, n.destination? = some d ∧ (p = outOfRange d g.instructions.length ∨
        p = undeclared n d ∧ g.labels.find? d.content = none) := by
  obtain ⟨exits, hexits, ⟨⟩⟩ := bind_eq_ok.1 h
  intro p hp
  rcases List.mem_append.1 hp with hp | hp
  · left
    obtain ⟨⟨again, first⟩, -, hp⟩ := List.mem_filterMap.1 hp
    obtain ⟨m, -, hp⟩ := Option.bind_eq_some_iff.1 hp
    obtain ⟨m', -, hp⟩ := Option.bind_eq_some_iff.1 hp
    exact ⟨m, m', (Option.some.inj hp).symm⟩
  · right
    obtain ⟨result, hresult, hp⟩ := List.mem_flatMap.1 hp
    obtain ⟨n, hn, hof⟩ := exists_mem_of_forall₂ (mapM_eq_ok_iff.1 hexits) hresult
    exact ⟨n, hn, problems_of_exitOf hof p hp⟩

end FlowGraph

end LogicAsm
