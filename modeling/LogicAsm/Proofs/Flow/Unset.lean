import LogicAsm.Proofs.Flow.Solver

/-!
# Variables by name

The analysis numbers the variables of a program in the order in which they are found.  Each name has
one number (`NodeAccesses.ofNodes_spec`), so that what it says about numbers is about names.

The main result is `unset_variables_exact`: a variable may be unset in front of a node if and only
if a path leads there on which it is not written, and what is reported of reads and writes is just
what follows from this.
-/

namespace LogicAsm

namespace Node

/-! ### Reads and writes of a node -/

/-- The variables among operands that have the given role. -/
def variablesIn (role : Role) (operands : List Operand) : List Token :=
  (operands.filter fun o => o.role == role && o.token.isVariable).map (·.token)

/-- The operands that the analysis looks at: those of an instruction. -/
def analyzedOperands (n : Node) : List Operand := if n.isInstruction then n.resolvedOperands else []

/-- The variables that a node reads, as they stand in it. -/
def reads (n : Node) : List Token := variablesIn .read n.analyzedOperands

/-- The variables that a node writes, as they stand in it. -/
def writes (n : Node) : List Token := variablesIn .write n.analyzedOperands

end Node

namespace NodeAccesses

/-! ### Numbers of names -/

/-- What numbering a name gives: its number, among the names so far and itself. -/
theorem number_spec {names : List Text} (hnames : names.Nodup) (name : Text) :
    (number names name).2.Nodup ∧ names <+: (number names name).2 ∧
      (number names name).2[(number names name).1]? = some name ∧
      ∀ v ∈ (number names name).2, v ∈ names ∨ v = name := by
  unfold number
  cases hidx : names.idxOf? name with
  | some i =>
    obtain ⟨hi, hget, -⟩ := List.findIdx?_eq_some_iff_getElem.1 hidx
    refine ⟨hnames, List.prefix_rfl, ?_, fun v hv => .inl hv⟩
    show names[i]? = some name
    rw [List.getElem?_eq_getElem hi]
    simpa using hget
  | none =>
    -- A name not met before gets the number behind all others.
    have hnew : name ∉ names := List.idxOf?_eq_none_iff.1 hidx
    refine ⟨?_, List.prefix_append _ _, ?_, ?_⟩
    · refine List.nodup_append.2 ⟨hnames, List.nodup_singleton name, ?_⟩
      rintro a ha b hb rfl
      exact hnew (List.mem_singleton.1 hb ▸ ha)
    · show (names ++ [name])[names.length]? = some name
      simp
    · intro v hv
      rcases List.mem_append.1 hv with hv | hv
      · exact .inl hv
      · exact .inr (List.mem_singleton.1 hv)

/-- Accesses that stand for tokens, by their numbers among names. -/
structure Names (names : List Text) (tokens : List Token) (accesses : List Access) : Prop where
  tokens : accesses.map Access.token = tokens
  slots : ∀ a ∈ accesses, names[a.slot]? = some a.token.content

theorem Names.mono {names more : List Text} {tokens : List Token} {accesses : List Access}
    (h : Names names tokens accesses) (hmore : names <+: more) : Names more tokens accesses := by
  refine ⟨h.tokens, fun a ha => ?_⟩
  obtain ⟨rest, rfl⟩ := hmore
  obtain ⟨hlt, -⟩ := List.getElem?_eq_some_iff.1 (h.slots a ha)
  rw [List.getElem?_append_left hlt, h.slots a ha]

theorem Names.append_singleton {names : List Text} {tokens : List Token} {accesses : List Access}
    (h : Names names tokens accesses) {t : Token} {slot : Nat}
    (hslot : names[slot]? = some t.content) :
    Names names (tokens ++ [t]) (accesses ++ [⟨t, slot⟩]) := by
  refine ⟨by rw [List.map_append, h.tokens]; rfl, fun a ha => ?_⟩
  rcases List.mem_append.1 ha with ha | ha
  · exact h.slots a ha
  · obtain rfl := List.mem_singleton.1 ha
    exact hslot

/-- What numbering operands gives: the accesses stand for their variables, among more names. -/
structure Numbered (names : List Text) (found more : List Token × List Token)
    (result : NodeAccesses × List Text) : Prop where
  nodup : result.2.Nodup
  grows : names <+: result.2
  reads : Names result.2 (found.1 ++ more.1) result.1.reads
  writes : Names result.2 (found.2 ++ more.2) result.1.writes
  known : ∀ v ∈ result.2, v ∈ names ∨ ∃ t ∈ more.1 ++ more.2, t.content = v

/-- The variables that operands read, and those that they write. -/
def variableTokens (os : List Operand) : List Token × List Token :=
  (Node.variablesIn .read os, Node.variablesIn .write os)

theorem ofOperands_spec {names : List Text} (hnames : names.Nodup) {found : NodeAccesses}
    {tokens : List Token × List Token} (hreads : Names names tokens.1 found.reads)
    (hwrites : Names names tokens.2 found.writes) (os : List Operand) :
    Numbered names tokens (variableTokens os) (ofOperands names found os) := by
  induction os generalizing names found tokens with
  | nil =>
    refine ⟨hnames, List.prefix_rfl, ?_, ?_, fun v hv => .inl hv⟩
    · simpa [variableTokens, Node.variablesIn, ofOperands] using hreads
    · simpa [variableTokens, Node.variablesIn, ofOperands] using hwrites
  | cons o os ih =>
    -- Operands that are no variables, or neither read nor written, are passed over.
    have hskip (hread : ¬ (o.role = .read ∧ o.token.isVariable = true))
        (hwrite : ¬ (o.role = .write ∧ o.token.isVariable = true)) :
        variableTokens (o :: os) = variableTokens os := by
      simp only [variableTokens, Node.variablesIn, List.filter_cons, Bool.and_eq_true, beq_iff_eq,
        hread, hwrite, if_false]
    obtain ⟨hmore, hprefix, hslot, hknown⟩ := number_spec hnames o.token.content
    by_cases hvar : o.token.isVariable = true
    · rw [ofOperands, if_pos hvar]
      simp only
      split
      · next hrole =>
        have hvars : variableTokens (o :: os) =
            (o.token :: (variableTokens os).1, (variableTokens os).2) := by
          simp [variableTokens, Node.variablesIn, hrole, hvar]
        have hrest := @ih _ hmore
          ⟨found.reads ++ [⟨o.token, (number names o.token.content).1⟩], found.writes⟩
          (tokens.1 ++ [o.token], tokens.2)
          ((hreads.mono hprefix).append_singleton hslot) (hwrites.mono hprefix)
        rw [hvars]
        refine ⟨hrest.nodup, hprefix.trans hrest.grows, ?_, hrest.writes, ?_⟩
        · simpa using hrest.reads
        · intro v hv
          rcases hrest.known v hv with hv | ⟨t, ht, rfl⟩
          · rcases hknown v hv with hv | rfl
            · exact .inl hv
            · exact .inr ⟨o.token, by simp, rfl⟩
          · exact .inr ⟨t, List.mem_cons_of_mem _ ht, rfl⟩
      · next hrole =>
        have hvars : variableTokens (o :: os) =
            ((variableTokens os).1, o.token :: (variableTokens os).2) := by
          simp [variableTokens, Node.variablesIn, hrole, hvar]
        have hrest := @ih _ hmore
          ⟨found.reads, found.writes ++ [⟨o.token, (number names o.token.content).1⟩]⟩
          (tokens.1, tokens.2 ++ [o.token])
          (hreads.mono hprefix) ((hwrites.mono hprefix).append_singleton hslot)
        rw [hvars]
        refine ⟨hrest.nodup, hprefix.trans hrest.grows, hrest.reads, ?_, ?_⟩
        · simpa using hrest.writes
        · intro v hv
          rcases hrest.known v hv with hv | ⟨t, ht, rfl⟩
          · rcases hknown v hv with hv | rfl
            · exact .inl hv
            · exact .inr ⟨o.token, by simp, rfl⟩
          · refine .inr ⟨t, ?_, rfl⟩
            rcases List.mem_append.1 ht with ht | ht
            · exact List.mem_append_left _ ht
            · exact List.mem_append_right _ (List.mem_cons_of_mem _ ht)
      · next hread hwrite =>
        rw [hskip (fun h => hread h.1) (fun h => hwrite h.1)]
        exact ih hnames hreads hwrites
    · rw [ofOperands, if_neg hvar, hskip (fun h => hvar h.2) (fun h => hvar h.2)]
      exact ih hnames hreads hwrites

/-- The accesses of nodes stand for their reads and writes, and the names are those that are read or
written. -/
theorem ofNodes_spec {names : List Text} (hnames : names.Nodup) (nodes : List Node) :
    (ofNodes names nodes).2.Nodup ∧ names <+: (ofNodes names nodes).2 ∧
      List.Forall₂ (fun n (accesses : NodeAccesses) =>
          Names (ofNodes names nodes).2 n.reads accesses.reads ∧
            Names (ofNodes names nodes).2 n.writes accesses.writes)
        nodes (ofNodes names nodes).1 ∧
      ∀ v ∈ (ofNodes names nodes).2, v ∈ names ∨
        ∃ n ∈ nodes, ∃ t ∈ n.reads ++ n.writes, t.content = v := by
  induction nodes generalizing names with
  | nil => exact ⟨hnames, List.prefix_rfl, .nil, fun v hv => .inl hv⟩
  | cons n ns ih =>
    -- The names only grow, so what holds of the names known here holds of all of them.
    have hhere := @ofOperands_spec names hnames ⟨[], []⟩ ([], []) ⟨rfl, by simp⟩ ⟨rfl, by simp⟩
      n.analyzedOperands
    obtain ⟨hnodup, hprefix, hrest, hknown⟩ := ih hhere.nodup
    have hresult : ofNodes names (n :: ns) =
        ((ofOperands names ⟨[], []⟩ n.analyzedOperands).1 ::
          (ofNodes (ofOperands names ⟨[], []⟩ n.analyzedOperands).2 ns).1,
        (ofNodes (ofOperands names ⟨[], []⟩ n.analyzedOperands).2 ns).2) := rfl
    rw [hresult]
    refine ⟨hnodup, hhere.grows.trans hprefix,
      .cons ⟨hhere.reads.mono hprefix, hhere.writes.mono hprefix⟩ hrest, ?_⟩
    intro v hv
    rcases hknown v hv with hv | ⟨m, hm, t, ht, rfl⟩
    · rcases hhere.known v hv with hv | ⟨t, ht, rfl⟩
      · exact .inl hv
      · exact .inr ⟨n, by simp, t, ht, rfl⟩
    · exact .inr ⟨m, by simp [hm], t, ht, rfl⟩

/-- A name has one number. -/
theorem Names.slot_eq_iff {names : List Text} (hnames : names.Nodup) {tokens : List Token}
    {accesses : List Access} (h : Names names tokens accesses) {a : Access} (ha : a ∈ accesses)
    (v : Text) : a.slot = names.idxOf v ↔ a.token.content = v := by
  obtain ⟨hlt, hget⟩ := List.getElem?_eq_some_iff.1 (h.slots a ha)
  constructor
  · intro hslot
    have hv : names.idxOf v < names.length := hslot ▸ hlt
    have hself := List.getElem_idxOf hv
    rw [← hget]
    simp only [hslot, hself]
  · rintro rfl
    rw [← hget, hnames.idxOf_getElem]

end NodeAccesses

/-! ### Sets of variables -/

namespace VariableAnalysis

theorem sized_foldl_erase {n : Nat} (accesses : List Access) {s : BitSet} (hs : s.Sized n) :
    (accesses.foldl (fun s access => s.erase access.slot) s).Sized n := by
  induction accesses generalizing s with
  | nil => exact hs
  | cons a as ih => exact ih (hs.erase a.slot)

theorem contains_foldl_erase (accesses : List Access) (s : BitSet) (v : Nat) :
    (accesses.foldl (fun s access => s.erase access.slot) s).contains v = true ↔
      s.contains v = true ∧ ∀ a ∈ accesses, a.slot ≠ v := by
  induction accesses generalizing s with
  | nil => simp
  | cons a as ih =>
    rw [List.foldl_cons, ih, BitSet.contains_erase, Bool.and_eq_true, List.forall_mem_cons,
      Bool.not_eq_true', decide_eq_false_iff_not]
    constructor
    · rintro ⟨⟨hne, hs⟩, has⟩
      exact ⟨hs, fun e => hne e.symm, has⟩
    · rintro ⟨hs, hne, has⟩
      exact ⟨⟨fun e => hne e.symm, hs⟩, has⟩

theorem contains_foldl_insert {n : Nat} {accesses : List Access} (h : ∀ a ∈ accesses, a.slot < n)
    {s : BitSet} (hs : s.Sized n) (v : Nat) :
    (accesses.foldl (fun s access => s.insert access.slot) s).contains v = true ↔
      s.contains v = true ∨ ∃ a ∈ accesses, a.slot = v := by
  induction accesses generalizing s with
  | nil => simp
  | cons a as ih =>
    have ha := h a (by simp)
    rw [List.foldl_cons, ih (fun b hb => h b (by simp [hb])) (hs.insert ha),
      BitSet.contains_insert (hs.div_lt ha), Bool.or_eq_true, decide_eq_true_iff,
      List.exists_mem_cons_iff]
    constructor
    · rintro ((rfl | hs) | has)
      · exact .inr (.inl rfl)
      · exact .inl hs
      · exact .inr (.inr has)
    · rintro (hs | rfl | has)
      · exact .inl (.inr hs)
      · exact .inl (.inl rfl)
      · exact .inr has

/-- The variables that a node does not write. -/
theorem contains_kept {slots v : Nat} (hv : v < slots) (accesses : NodeAccesses) :
    (kept slots accesses).contains v = true ↔ ∀ a ∈ accesses.writes, a.slot ≠ v := by
  rw [kept, contains_foldl_erase, BitSet.contains_full]
  simp [hv]

theorem sized_of_map_kept {slots i : Nat} {accesses : List NodeAccesses} {bits : BitSet}
    (h : (accesses.map (kept slots)).toArray[i]? = some bits) : bits.Sized slots := by
  rw [List.getElem?_toArray, List.getElem?_map, Option.map_eq_some_iff] at h
  obtain ⟨here, -, rfl⟩ := h
  exact sized_foldl_erase here.writes (BitSet.sized_full slots)

/-- The variables of accesses. -/
theorem contains_variablesOf {slots : Nat} {accesses : List Access}
    (h : ∀ a ∈ accesses, a.slot < slots) (v : Nat) :
    (variablesOf slots accesses).contains v = true ↔ ∃ a ∈ accesses, a.slot = v := by
  rw [variablesOf, contains_foldl_insert h (BitSet.sized_empty slots), BitSet.contains_empty]
  simp

end VariableAnalysis

/-! ### Paths by name -/

namespace FlowGraph

/-- Whether a node writes a variable. -/
def Writes (g : FlowGraph) (v : Text) (i : Nat) : Prop :=
  ∃ n, g.nodes[i]? = some n ∧ ∃ t ∈ n.writes, t.content = v

/-- Whether a path leads from the first node to another one on which no node in front of it writes a
variable. -/
def UnsetPath (g : FlowGraph) (v : Text) (i : Nat) : Prop :=
  Relation.ReflTransGen (fun a b => ¬ g.Writes v a ∧ g.Leads a b) 0 i

theorem UnsetPath.reaches {g : FlowGraph} {v : Text} {i : Nat} (h : g.UnsetPath v i) :
    g.Reaches i :=
  Relation.ReflTransGen.mono (fun _ _ hab => hab.2) _ _ h

end FlowGraph

theorem flatMap_congr_of_forall₂ {α β γ : Type} {r : α → β → Prop} {l : List α} {l' : List β}
    (h : List.Forall₂ r l l') {f : α → List γ} {f' : β → List γ} (hf : ∀ a b, r a b → f a = f' b) :
    l.flatMap f = l'.flatMap f' := by
  induction h with
  | nil => rfl
  | cons hab _ ih => rw [List.flatMap_cons, List.flatMap_cons, ih, hf _ _ hab]

/-- Reading two related lists index by index. -/
theorem flatMap_zipIdx_congr {α β γ : Type} {r : α → β → Prop} {l : List α} {l' : List β}
    (h : List.Forall₂ r l l') {f : α × Nat → List γ} {f' : β × Nat → List γ} (k : Nat)
    (hf : ∀ (i : Nat) (a : α) (b : β), l[i]? = some a → r a b → f (a, k + i) = f' (b, k + i)) :
    (l.zipIdx k).flatMap f = (l'.zipIdx k).flatMap f' := by
  induction h generalizing k with
  | nil => rfl
  | @cons a b l l' hab hrest ih =>
    have hfirst := hf 0 a b rfl hab
    have hnext := ih (k + 1) fun i a' b' ha' hab' => by
      have hi := hf (i + 1) a' b' ha' hab'
      rwa [show k + (i + 1) = k + 1 + i by omega] at hi
    rw [List.zipIdx_cons, List.zipIdx_cons, List.flatMap_cons, List.flatMap_cons, hnext]
    exact congrArg (· ++ _) hfirst

namespace VariableAnalysis

variable (g : FlowGraph)

/-- What the analysis of a graph numbers. -/
theorem ofGraph_spec :
    (ofGraph g).names.Nodup ∧
      List.Forall₂ (fun n (accesses : NodeAccesses) =>
          NodeAccesses.Names (ofGraph g).names n.reads accesses.reads ∧
            NodeAccesses.Names (ofGraph g).names n.writes accesses.writes)
        g.nodes (ofGraph g).accesses := by
  obtain ⟨hnodup, -, haccesses, -⟩ := NodeAccesses.ofNodes_spec List.nodup_nil g.nodes
  exact ⟨hnodup, haccesses⟩

theorem mem_names_of_mem {tokens : List Token} {accesses : List Access}
    (h : NodeAccesses.Names (ofGraph g).names tokens accesses) {t : Token} (ht : t ∈ tokens) :
    t.content ∈ (ofGraph g).names := by
  rw [← h.tokens] at ht
  obtain ⟨a, ha, rfl⟩ := List.mem_map.1 ht
  exact List.mem_of_getElem? (h.slots a ha)

/-- The names are those that are read or written. -/
theorem mem_names_iff (v : Text) :
    v ∈ (ofGraph g).names ↔ ∃ n ∈ g.nodes, ∃ t ∈ n.reads ++ n.writes, t.content = v := by
  obtain ⟨-, haccesses⟩ := ofGraph_spec g
  obtain ⟨-, -, -, hknown⟩ := NodeAccesses.ofNodes_spec List.nodup_nil g.nodes
  refine ⟨fun hv => (hknown v hv).resolve_left (by simp), ?_⟩
  rintro ⟨n, hn, t, ht, rfl⟩
  obtain ⟨i, hi⟩ := List.mem_iff_getElem?.1 hn
  obtain ⟨accesses, -, hreads, hwrites⟩ := exists_getElem?_of_forall₂ haccesses hi
  rcases List.mem_append.1 ht with ht | ht
  · exact mem_names_of_mem g hreads ht
  · exact mem_names_of_mem g hwrites ht

/-- What each node keeps, for the solver. -/
def keptSets : Array BitSet :=
  ((ofGraph g).accesses.map (kept (ofGraph g).names.length)).toArray

theorem size_keptSets {g : FlowGraph} (hg : g.WellFormed) : (keptSets g).size = g.size := by
  obtain ⟨-, haccesses⟩ := ofGraph_spec g
  rw [keptSets, List.size_toArray, List.length_map, ← haccesses.length_eq, hg.size]

theorem sized_of_keptSets {i : Nat} {bits : BitSet} (h : (keptSets g)[i]? = some bits) :
    bits.Sized (ofGraph g).names.length := sized_of_map_kept h

/-- A node keeps a variable if it does not write it. -/
theorem keeps_iff {g : FlowGraph} (hg : g.WellFormed) {v : Text} (hv : v ∈ (ofGraph g).names)
    {i : Nat} (hi : i < g.size) :
    Keeps (keptSets g) ((ofGraph g).names.idxOf v) i ↔ ¬ g.Writes v i := by
  obtain ⟨hnodup, haccesses⟩ := ofGraph_spec g
  have hslot : (ofGraph g).names.idxOf v < (ofGraph g).names.length :=
    List.idxOf_lt_length_of_mem hv
  have hnode : g.nodes[i]? = some (g.nodes.get ⟨i, hg.size ▸ hi⟩) :=
    List.getElem?_eq_getElem (hg.size ▸ hi)
  obtain ⟨accesses, haccess, -, hwrites⟩ := exists_getElem?_of_forall₂ haccesses hnode
  have hkept : (keptSets g)[i]? = some (kept (ofGraph g).names.length accesses) := by
    rw [keptSets, List.getElem?_toArray, List.getElem?_map, haccess]
    rfl
  -- A variable is written by name if and only if it is by number, as no name has two numbers.
  have hwritten : g.Writes v i ↔ ∃ a ∈ accesses.writes, a.slot = (ofGraph g).names.idxOf v := by
    constructor
    · rintro ⟨n, hn, t, ht, rfl⟩
      obtain rfl := Option.some.inj (hnode.symm.trans hn)
      rw [← hwrites.tokens] at ht
      obtain ⟨a, ha, rfl⟩ := List.mem_map.1 ht
      exact ⟨a, ha, (hwrites.slot_eq_iff hnodup ha _).2 rfl⟩
    · rintro ⟨a, ha, hslot⟩
      refine ⟨_, hnode, a.token, ?_, (hwrites.slot_eq_iff hnodup ha v).1 hslot⟩
      rw [← hwrites.tokens]
      exact List.mem_map_of_mem ha
  rw [hwritten]
  constructor
  · rintro ⟨bits, hbits, hcontains⟩ ⟨a, ha, heq⟩
    obtain rfl := Option.some.inj (hkept.symm.trans hbits)
    exact (contains_kept hslot accesses).1 hcontains a ha heq
  · intro hnone
    exact ⟨_, hkept, (contains_kept hslot accesses).2 fun a ha heq => hnone ⟨a, ha, heq⟩⟩

/-- The solver's paths are paths by name. -/
theorem carries_iff {g : FlowGraph} (hg : g.WellFormed) {v : Text} (hv : v ∈ (ofGraph g).names)
    (i : Nat) :
    g.Carries (keptSets g) ((ofGraph g).names.idxOf v) i ↔ g.UnsetPath v i := by
  constructor
  · exact Relation.ReflTransGen.mono
      (fun a b hab => ⟨(keeps_iff hg hv hab.2.lt_size).1 hab.1, hab.2⟩) _ _
  · exact Relation.ReflTransGen.mono
      (fun a b hab => ⟨(keeps_iff hg hv hab.2.lt_size).2 hab.1, hab.2⟩) _ _

/-- A variable may be unset in front of a node if and only if a path leads there on which it is not
written. -/
theorem contains_unsetBefore_iff {g : FlowGraph} (hg : g.WellFormed) {v : Text}
    (hv : v ∈ (ofGraph g).names) {i : Nat} (hi : i < g.size) :
    ((ofGraph g).unsetBefore[i]?.any fun unset => unset.contains ((ofGraph g).names.idxOf v)) =
      true ↔ g.UnsetPath v i := by
  rw [← carries_iff hg hv]
  exact @UnsetState.contains_before_run_iff g (keptSets g) (ofGraph g).names.length hg
    (size_keptSets hg) (fun _ _ hbits => sized_of_keptSets g hbits) i hi
    ((ofGraph g).names.idxOf v) (List.idxOf_lt_length_of_mem hv)

end VariableAnalysis

/-! ### What is reported -/

namespace FlowGraph

variable (g : FlowGraph)

/-- Whether a program writes a variable. -/
def Written (v : Text) : Prop := ∃ n ∈ g.nodes, ∃ t ∈ n.writes, t.content = v

/-- Whether a program reads a variable. -/
def Read (v : Text) : Prop := ∃ n ∈ g.nodes, ∃ t ∈ n.reads, t.content = v

open Classical in
/-- What is to be reported of a variable that a node reads, and where. -/
noncomputable def readReports (i : Nat) (t : Token) : List (Code × Range) :=
  if g.Written t.content then
    if g.UnsetPath t.content i then [(.possiblyUnsetVariable, t.range)] else []
  else if BuildingLink.isLink t.content = true then []
  else [(.undefinedVariable, t.range)]

open Classical in
/-- What is to be reported of a variable that a node writes, and where. -/
noncomputable def writeReports (t : Token) : List (Code × Range) :=
  if g.Read t.content ∨ t.content = ['_'] then [] else [(.unusedVariable, t.range)]

end FlowGraph

namespace VariableAnalysis

variable {g : FlowGraph}

theorem nameOf_slot {a : VariableAnalysis} {tokens : List Token} {accesses : List Access}
    (h : NodeAccesses.Names a.names tokens accesses) {access : Access} (ha : access ∈ accesses) :
    a.nameOf access.slot = access.token.content := by
  rw [nameOf, h.slots access ha]
  rfl

/-- The variables of all accesses of a kind are the names that stand there. -/
theorem contains_variablesOf_flatMap {names : List Text} (hnames : names.Nodup)
    {nodes : List Node} {all : List NodeAccesses} (tokens : Node → List Token)
    (accesses : NodeAccesses → List Access)
    (h : List.Forall₂ (fun n a => NodeAccesses.Names names (tokens n) (accesses a)) nodes all)
    {k : Nat} {v : Text} (hk : names[k]? = some v) :
    (variablesOf names.length (all.flatMap accesses)).contains k = true ↔
      ∃ n ∈ nodes, ∃ t ∈ tokens n, t.content = v := by
  have hslots : ∀ a ∈ all.flatMap accesses, a.slot < names.length := by
    intro a ha
    obtain ⟨here, hhere, ha⟩ := List.mem_flatMap.1 ha
    obtain ⟨i, hi⟩ := List.mem_iff_getElem?.1 hhere
    obtain ⟨n, -, hn⟩ := exists_getElem?_of_forall₂ h.flip hi
    exact (List.getElem?_eq_some_iff.1 (hn.slots a ha)).1
  obtain ⟨hlt, hget⟩ := List.getElem?_eq_some_iff.1 hk
  have hidx : names.idxOf v = k := by rw [← hget, hnames.idxOf_getElem]
  rw [contains_variablesOf hslots, ← hidx]
  constructor
  · rintro ⟨a, ha, hslot⟩
    obtain ⟨here, hhere, ha⟩ := List.mem_flatMap.1 ha
    obtain ⟨i, hi⟩ := List.mem_iff_getElem?.1 hhere
    obtain ⟨n, hn, hnames'⟩ := exists_getElem?_of_forall₂ h.flip hi
    refine ⟨n, List.mem_of_getElem? hn, a.token, ?_, (hnames'.slot_eq_iff hnames ha v).1 hslot⟩
    rw [← hnames'.tokens]
    exact List.mem_map_of_mem ha
  · rintro ⟨n, hn, t, ht, rfl⟩
    obtain ⟨i, hi⟩ := List.mem_iff_getElem?.1 hn
    obtain ⟨here, hhere, hnames'⟩ := exists_getElem?_of_forall₂ h hi
    rw [← hnames'.tokens] at ht
    obtain ⟨a, ha, rfl⟩ := List.mem_map.1 ht
    exact ⟨a, List.mem_flatMap.2 ⟨here, List.mem_of_getElem? hhere, ha⟩,
      (hnames'.slot_eq_iff hnames ha _).2 rfl⟩

/-- What is reported of a read. -/
theorem map_readProblem (hg : g.WellFormed) {i : Nat} (hi : i < g.size) {written : BitSet}
    {tokens : List Token} {accesses : List Access}
    (h : NodeAccesses.Names (ofGraph g).names tokens accesses) {a : Access} (ha : a ∈ accesses)
    (hwritten : written.contains a.slot = true ↔ g.Written a.token.content) :
    ((ofGraph g).readProblem written g.reachable i a).map (fun d => (d.code, d.range)) =
      g.readReports i a.token := by
  have hname := nameOf_slot h ha
  have hv : a.token.content ∈ (ofGraph g).names := List.mem_of_getElem? (h.slots a ha)
  have hslot : a.slot = (ofGraph g).names.idxOf a.token.content :=
    (h.slot_eq_iff (ofGraph_spec g).1 ha _).2 rfl
  have hunset := contains_unsetBefore_iff hg hv hi
  rw [← hslot] at hunset
  unfold readProblem FlowGraph.readReports
  simp only [hname]
  by_cases hw : g.Written a.token.content
  -- That the node can be reached is asked for too, but a path on which the variable is unset is
  -- one that reaches it.
  · have hreported : (g.reachable.contains i && ((ofGraph g).unsetBefore[i]?.any
        fun unset => unset.contains a.slot)) = true ↔ g.UnsetPath a.token.content i := by
      rw [Bool.and_eq_true, hunset, FlowGraph.contains_reachable_iff hg (Nat.zero_lt_of_lt hi)]
      exact ⟨And.right, fun hpath => ⟨hpath.reaches, hpath⟩⟩
    rw [if_pos hw, if_neg (by simp [hwritten.2 hw])]
    by_cases hpath : g.UnsetPath a.token.content i
    · rw [if_pos hpath, if_pos (hreported.2 hpath)]
      rfl
    · rw [if_neg hpath, if_neg (fun h => hpath (hreported.1 h))]
      rfl
  · have hnot : written.contains a.slot = false := by
      rw [← Bool.not_eq_true, hwritten]
      exact hw
    rw [if_neg hw, if_pos (by simp [hnot])]
    split <;> rfl

/-- What is reported of a write. -/
theorem map_writeProblem {read : BitSet} {tokens : List Token} {accesses : List Access}
    (h : NodeAccesses.Names (ofGraph g).names tokens accesses) {a : Access} (ha : a ∈ accesses)
    (hread : read.contains a.slot = true ↔ g.Read a.token.content) :
    ((ofGraph g).writeProblem read a).map (fun d => (d.code, d.range)) =
      g.writeReports a.token := by
  have hquiet : (ofGraph g).nameOf a.slot = ['_'] ∨ read.contains a.slot = true ↔
      g.Read a.token.content ∨ a.token.content = ['_'] := by
    rw [nameOf_slot h ha, hread, or_comm]
  unfold writeProblem FlowGraph.writeReports
  by_cases hnone : g.Read a.token.content ∨ a.token.content = ['_']
  · rw [if_pos hnone, if_pos (hquiet.2 hnone)]
    rfl
  · rw [if_neg hnone, if_neg (fun h => hnone (hquiet.1 h))]
    rfl

/-- What is reported of a program. -/
theorem map_problems (hg : g.WellFormed) :
    (ofGraph g).problems.map (fun d => (d.code, d.range)) =
      (g.nodes.zipIdx.flatMap fun (n, i) => n.reads.flatMap (g.readReports i)) ++
        g.nodes.flatMap fun n => n.writes.flatMap g.writeReports := by
  obtain ⟨hnodup, haccesses⟩ := ofGraph_spec g
  have hreads := haccesses.imp fun n a (h : _ ∧ _) => h.1
  have hwrites := haccesses.imp fun n a (h : _ ∧ _) => h.2
  rw [problems, List.map_append]
  congr 1
  -- Reads: their reports look at the node's place too, hence the numbered nodes.
  · rw [List.map_flatMap]
    refine (flatMap_zipIdx_congr haccesses 0 ?_).symm
    rintro i n here hn ⟨hnames, -⟩
    have hi : i < g.size := hg.size ▸ (List.getElem?_eq_some_iff.1 hn).1
    simp only [Nat.zero_add]
    rw [← hnames.tokens, List.flatMap_map, List.map_flatMap]
    refine List.flatMap_congr fun a ha => (map_readProblem hg hi hnames ha ?_).symm
    exact contains_variablesOf_flatMap hnodup Node.writes NodeAccesses.writes hwrites
      (hnames.slots a ha)
  · rw [List.map_flatMap]
    refine (flatMap_congr_of_forall₂ hwrites fun n here hnames => ?_).symm
    rw [← hnames.tokens, List.flatMap_map, List.map_flatMap]
    refine List.flatMap_congr fun a ha => (map_writeProblem hnames ha ?_).symm
    exact contains_variablesOf_flatMap hnodup Node.reads NodeAccesses.reads hreads
      (hnames.slots a ha)

/-- The analysis is exact: a variable that is read or written somewhere may be unset in front of a
node if and only if a path leads there on which it is not written.  So a read is reported where the
variable is written somewhere and such a path exists, or where it is written nowhere and names no
building, and a write where the variable is read nowhere and is not `_`; nothing else is. -/
theorem unset_variables_exact {uri : String} {t : Text} {g : FlowGraph}
    (h : FlowGraph.ofNodes uri (Node.ofText t) = .ok g) :
    g.nodes = Node.ofText t ∧
    (∀ v, v ∈ (ofGraph g).names ↔ ∃ n ∈ g.nodes, ∃ x ∈ n.reads ++ n.writes, x.content = v) ∧
    (∀ v ∈ (ofGraph g).names, ∀ i < g.nodes.length,
      ((ofGraph g).unsetBefore[i]?.any fun unset =>
        unset.contains ((ofGraph g).names.idxOf v)) = true ↔ g.UnsetPath v i) ∧
    (ofGraph g).problems.map (fun d => (d.code, d.range)) =
      (g.nodes.zipIdx.flatMap fun (n, i) => n.reads.flatMap (g.readReports i)) ++
        g.nodes.flatMap fun n => n.writes.flatMap g.writeReports := by
  have hg := FlowGraph.wellFormed_of_ofNodes h
  refine ⟨(FlowGraph.exits_of_ofNodes h).1, mem_names_iff g, ?_, map_problems hg⟩
  intro v hv i hi
  exact contains_unsetBefore_iff hg hv (hg.size ▸ hi)

/-- A loop that prints a variable and sets it then: on the way into the loop it is unset, and behind
the assignment it is not. -/
theorem unset_variables_exact_loop : ∃ g,
    FlowGraph.ofNodes "" (Node.ofText "loop: print x\nset x 1\njump loop always".toList) = .ok g ∧
      g.UnsetPath "x".toList 1 ∧ ¬ g.UnsetPath "x".toList 3 := by
  have hcomputed : (FlowGraph.ofNodes ""
      (Node.ofText "loop: print x\nset x 1\njump loop always".toList)).toOption.map (fun g =>
        ((ofGraph g).names, g.nodes.length,
          [1, 3].map fun i : Nat =>
            (ofGraph g).unsetBefore[i]?.any fun unset => unset.contains 0)) =
      some (["x".toList], 4, [true, false]) := by
    decide +kernel
  cases hg : FlowGraph.ofNodes ""
      (Node.ofText "loop: print x\nset x 1\njump loop always".toList) with
  | error e =>
    rw [hg] at hcomputed
    cases hcomputed
  | ok g =>
    obtain ⟨-, -, hpaths, -⟩ := unset_variables_exact hg
    rw [hg] at hcomputed
    obtain ⟨hnames, hlength, hbits⟩ : (ofGraph g).names = ["x".toList] ∧ g.nodes.length = 4 ∧
        [1, 3].map (fun i : Nat => (ofGraph g).unsetBefore[i]?.any fun unset => unset.contains 0) =
          [true, false] := by
      simpa only [Except.toOption, Option.map_some, Option.some.injEq, Prod.mk.injEq]
        using hcomputed
    rw [List.map_cons, List.map_cons, List.map_nil, List.cons.injEq, List.cons.injEq] at hbits
    have hfirst := hpaths "x".toList (by simp [hnames]) 1 (by omega)
    have hlast := hpaths "x".toList (by simp [hnames]) 3 (by omega)
    rw [hnames, List.idxOf_cons_self] at hfirst hlast
    refine ⟨g, rfl, hfirst.1 hbits.1, fun hpath => ?_⟩
    have htrue := hlast.2 hpath
    rw [hbits.2.1] at htrue
    cases htrue

end VariableAnalysis

end LogicAsm
