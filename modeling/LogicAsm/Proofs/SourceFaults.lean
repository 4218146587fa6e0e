import LogicAsm.Layout
import LogicAsm.Proofs.Jumps.LabelEdits
import LogicAsm.Proofs.Pointing
import LogicAsm.Proofs.Reach

/-!
# Where source text stops an analysis

Problems in a program are reported and stop nothing, with one exception: a jump to a number out of
reach (`JumpsOutOfReach`) stops everything that asks where the jump goes.  These are the flow of
control, the checks and the conversion to labels; each of them fails exactly then, and for that
cause (`FailsIff`).

Nothing else fails because of the text.  What could is a look-up by number, but everything that is
looked up is there: labels, instructions and lines in a document (`Document.Grounded`), nodes, names
and sets in an analysis (`VariableAnalysis.Grounded`).  The layout fails for its options alone.
-/

namespace LogicAsm

/-! ### What fails -/

/-- A computation that fails exactly if a condition holds, and then for the given cause. -/
def FailsIff {α : Type} (x : Except Fault α) (p : Prop) (cause : Fault) : Prop :=
  ∀ e, x = .error e ↔ p ∧ e = cause

theorem FailsIff.of_ok_iff {α : Type} {x : Except Fault α} {p : Prop} {cause : Fault}
    (hok : (∃ a, x = .ok a) ↔ ¬ p) (hcause : ∀ e, x = .error e → e = cause) :
    FailsIff x p cause := by
  intro e
  cases x with
  | ok a =>
    refine iff_of_false nofun ?_
    rintro ⟨hp, -⟩
    exact hok.1 ⟨a, rfl⟩ hp
  | error f =>
    have hp : p := by
      by_contra hp
      obtain ⟨a, ha⟩ := hok.2 hp
      cases ha
    obtain rfl := hcause f rfl
    constructor
    · rintro ⟨⟩
      exact ⟨hp, rfl⟩
    · rintro ⟨-, rfl⟩
      rfl

/-- A jump whose first operand is a hexadecimal or binary literal that writes a number out of
reach. -/
def Node.JumpsOutOfReach (n : Node) : Prop :=
  n.isInstruction = true ∧ n.opcode = "jump".toList ∧
    ∃ d value, n.operands[0]? = some d ∧ Literal.WritesExactly d.content value ∧
      Magnitude.overflow ≤ value

/-- A text with a jump to a number out of reach. -/
def JumpsOutOfReach (t : Text) : Prop := ∃ n ∈ Node.ofText t, n.JumpsOutOfReach

namespace Node

variable {t : Text} {n : Node}

theorem wellFormed_destination? (hn : n ∈ ofText t) {d : Token} (hd : n.destination? = some d) :
    d.lexeme.WellFormed := by
  apply (writable_ofText t n hn).1.wellFormed
  exact List.mem_map_of_mem (mem_tokens_of_destination? hd)

/-- Whether a jump is out of reach is seen when the address of its destination is taken. -/
theorem jumpsOutOfReach_iff (hn : n ∈ ofText t) :
    n.JumpsOutOfReach ↔ ∃ d, n.destination? = some d ∧ ∃ e, d.address = .error e := by
  constructor
  · rintro ⟨hinstruction, hopcode, d, value, hd, hvalue, hle⟩
    have hdestination : n.destination? = some d := by
      rw [destination?, isJump, hinstruction, hopcode]
      exact hd
    refine ⟨d, hdestination, .numberTooLarge, ?_⟩
    rw [Token.address_eq, Lexeme.address_eq_error_iff (wellFormed_destination? hn hdestination)]
    exact ⟨⟨value, hvalue, hle⟩, rfl⟩
  · rintro ⟨d, hd, e, he⟩
    rw [Token.address_eq, Lexeme.address_eq_error_iff (wellFormed_destination? hn hd)] at he
    obtain ⟨⟨value, hvalue, hle⟩, -⟩ := he
    rw [destination?] at hd
    split at hd
    · next hjump =>
      rw [isJump, Bool.and_eq_true, beq_iff_eq] at hjump
      exact ⟨hjump.1, hjump.2, d, value, hd, hvalue, hle⟩
    · cases hd

end Node

/-- All destinations can be read if and only if none is out of reach. -/
theorem forall_address_iff (t : Text) :
    (∀ n ∈ Node.ofText t, ∀ d ∈ n.destination?, ∃ a, d.address = .ok a) ↔
      ¬ JumpsOutOfReach t := by
  constructor
  · rintro h ⟨n, hn, hreach⟩
    obtain ⟨d, hd, e, he⟩ := (Node.jumpsOutOfReach_iff hn).1 hreach
    obtain ⟨a, ha⟩ := h n hn d hd
    rw [ha] at he
    cases he
  · intro h n hn d hd
    cases haddress : d.address with
    | ok a => exact ⟨a, rfl⟩
    | error e => exact absurd ⟨n, hn, (Node.jumpsOutOfReach_iff hn).2 ⟨d, hd, e, haddress⟩⟩ h

theorem Token.cause_of_counter {d : Token} (hd : d.lexeme.WellFormed) {count : Nat} {e : Fault}
    (h : d.counter count = .error e) : e = .numberTooLarge := by
  rcases bind_eq_error h with haddress | ⟨a, -, h⟩
  · rw [Token.address_eq, Lexeme.address_eq_error_iff hd] at haddress
    exact haddress.2
  · cases h

namespace FlowGraph

theorem cause_of_exitOf {t : Text} {labels : LabelTable} {instructions : List Nat} {n : Node}
    (hn : n ∈ Node.ofText t) {e : Fault} (h : exitOf labels instructions n = .error e) :
    e = .numberTooLarge := by
  unfold exitOf at h
  split at h
  · cases h
  split at h
  · cases h
  · next d hd =>
    rcases bind_eq_error h with hresolve | ⟨result, -, h⟩
    · unfold resolve at hresolve
      split at hresolve
      · rcases bind_eq_error hresolve with hcounter | ⟨counter, -, h⟩
        · exact Token.cause_of_counter (Node.wellFormed_destination? hn hd) hcounter
        · split at h <;> cases h
      · split at hresolve <;> cases hresolve
    · obtain ⟨target, problems⟩ := result
      cases target <;> cases h

/-- There is a graph unless a jump is out of reach. -/
theorem failsIff_ofNodes (uri : String) (t : Text) :
    FailsIff (ofNodes uri (Node.ofText t)) (JumpsOutOfReach t) .numberTooLarge := by
  refine .of_ok_iff ?_ fun e h => ?_
  · rw [← forall_address_iff]
    constructor
    · rintro ⟨g, hg⟩ n hn d hd
      rw [Token.address_eq]
      refine address_of_ofNodes hg n hn d.lexeme ?_
      rw [← n.map_lexeme_destination?, hd]
      rfl
    · intro h
      refine exists_ofNodes uri fun n hn x hx => ?_
      rw [← n.map_lexeme_destination?] at hx
      obtain ⟨d, hd, rfl⟩ := Option.map_eq_some_iff.1 hx
      exact h n hn d hd
  · rcases bind_eq_error h with hexits | ⟨exits, -, h⟩
    · obtain ⟨n, hn, hexit⟩ := exists_of_mapM_eq_error hexits
      exact cause_of_exitOf hn hexit
    · cases h

end FlowGraph

/-- What is computed from a result without failing fails as the result does. -/
theorem FailsIff.bind {α β : Type} {x : Except Fault α} {p : Prop} {cause : Fault}
    (h : FailsIff x p cause) {f : α → Except Fault β} (hf : ∀ a, x = .ok a → ∃ b, f a = .ok b) :
    FailsIff (x >>= f) p cause := by
  cases x with
  | error e =>
    intro e'
    rw [← h e', show (Except.error e >>= f) = .error e from rfl, Except.error.injEq,
      Except.error.injEq]
  | ok a =>
    obtain ⟨b, hb⟩ := hf a rfl
    intro e
    have hok : (Except.ok a >>= f) = .ok b := hb
    rw [hok, ← h e]
    exact iff_of_false nofun nofun

namespace Checks

/-- A limit of one token at least can be checked. -/
theorem exists_lineLength {maxTokens : Int} (h : 1 ≤ maxTokens) (nodes : List Node) :
    ∃ found, lineLength maxTokens nodes = .ok found := by
  have htooLong : ∀ n ∈ nodes, ∃ found, tooLong maxTokens n = .ok found := by
    intro n _
    unfold tooLong
    split
    · exact ⟨_, rfl⟩
    · next hlong =>
      have hlt : maxTokens.toNat < n.tokens.length := by omega
      have hresolve : Index.resolve? n.tokens.length maxTokens = some maxTokens.toNat := by
        rw [Index.resolve?, if_pos (by omega), if_pos (by omega)]
      have hget : Index.get .limitOutOfRange n.tokens maxTokens = .ok (n.tokens.get ⟨_, hlt⟩) := by
        rw [Index.get, Index.get?, hresolve, Option.bind_some, List.getElem?_eq_getElem hlt]
        rfl
      rw [hget]
      exact ⟨_, rfl⟩
  obtain ⟨each, heach⟩ := exists_mapM_eq_ok htooLong
  exact ⟨each.flatten, by rw [lineLength, heach]; rfl⟩

theorem failsIff_run {settings : Settings} (h : 1 ≤ settings.maxTokens) (uri : String) (t : Text) :
    FailsIff (run settings (.ofText uri t)) (JumpsOutOfReach t) .numberTooLarge := by
  refine (FlowGraph.failsIff_ofNodes uri t).bind fun g _ => ?_
  obtain ⟨found, hfound⟩ := exists_lineLength h (Node.ofText t)
  exact ⟨_, bind_eq_ok.2 ⟨found, hfound, rfl⟩⟩

end Checks

namespace Jumps

theorem failsIff_toLabels (uri : String) (t : Text) :
    FailsIff (toLabels (.ofText uri t)) (JumpsOutOfReach t) .numberTooLarge := by
  have hmem {d : Token} : d ∈ destinations (.ofText uri t) ↔
      ∃ n ∈ Node.ofText t, n.destination? = some d := List.mem_filterMap
  refine .of_ok_iff ?_ fun e h => ?_
  · rw [← forall_address_iff]
    constructor
    · rintro ⟨c, hc⟩ n hn d hd
      exact (toLabels_eq_ok_iff.1 hc).1 d (hmem.2 ⟨n, hn, hd⟩)
    · intro h
      refine ⟨_, toLabels_eq_ok_iff.2 ⟨fun d hd => ?_, rfl⟩⟩
      obtain ⟨n, hn, hd⟩ := hmem.1 hd
      exact h n hn d hd
  · rcases bind_eq_error h with hnumbered | ⟨found, -, h⟩
    · rcases bind_eq_error hnumbered with hcounters | ⟨counters, -, h⟩
      · obtain ⟨d, hd, hcounter⟩ := exists_of_mapM_eq_error hcounters
        obtain ⟨n, hn, hd⟩ := hmem.1 (List.mem_filter.1 hd).1
        exact Token.cause_of_counter (Node.wellFormed_destination? hn hd) hcounter
      · cases h
    · cases h

end Jumps

/-! ### What does not fail -/

/-- What is asked of settings that are accepted. -/
theorem Settings.bounds_of_validate {s s' : Settings} (h : s.validate = .ok s') :
    1 ≤ s.tabSize ∧ 1 ≤ s.maxTokens := by
  unfold validate at h
  split_ifs at h
  omega

/-- The layout fails for its options only: if there are to be more blanks in front of a line than 64
bits can count. -/
theorem Layout.failsIff_formatText {settings : Settings} (h : 1 ≤ settings.tabSize) (t : Text) :
    FailsIff (formatText (.ofSettings settings) t)
      (settings.insertSpaces = true ∧ Index.bound ≤ settings.tabSize) .countTooLarge := by
  refine .of_ok_iff ?_ fun e he => ?_
  · obtain ⟨size, hsize⟩ := Int.eq_ofNat_of_zero_le (show 0 ≤ settings.tabSize by omega)
    rw [formatText, Options.check]
    cases hspaces : settings.insertSpaces with
    | false => simp [Options.ofSettings, hspaces, Except.map]
    | true =>
      simp only [Options.ofSettings, hspaces, if_true, true_and]
      by_cases hlarge : Index.bound ≤ settings.tabSize
      · rw [Count.check_of_le hlarge]
        simp [Except.map, hlarge]
      · rw [hsize] at hlarge ⊢
        rw [Count.check_of_lt (Int.not_le.1 hlarge)]
        simp [Except.map, hlarge]
  · have hcheck := map_eq_error he
    unfold Options.check at hcheck
    split at hcheck
    · exact Count.eq_of_check_eq_error (map_eq_error hcheck)
    · cases hcheck

/-- Everything that a document refers to is there: the labels of its table, its instructions, and
the lines of its nodes. -/
structure Document.Grounded (doc : Document) : Prop where
  labels : doc.labels.PointsToLabels doc.nodes
  instructions : ∀ i ∈ doc.instructions, ∃ n, doc.nodes[i]? = some n ∧ n.isInstruction = true
  lines : ∀ n ∈ doc.nodes, n.range.InText doc.text

theorem Document.grounded_ofText (uri : String) (t : Text) : (ofText uri t).Grounded :=
  ⟨LabelTable.pointsToLabels_ofNodes _, fun _ hi => mem_instructionIndices.1 hi,
    fun n hn => (Node.inLine_of_mem_ofText n hn).range⟩

namespace VariableAnalysis

/-- Everything that an analysis refers to is there: each edge leads to a node, each node has its
accesses and its set, each access a name, and each set has room for all names. -/
structure Grounded (a : VariableAnalysis) : Prop where
  nodes : a.graph.nodes.length = a.graph.size
  edges : ∀ i, ∀ edge ∈ a.graph.successors i, edge.target < a.graph.size
  accesses : a.accesses.length = a.graph.size
  names : ∀ here ∈ a.accesses, ∀ access ∈ here.reads ++ here.writes,
    a.names[access.slot]? = some access.token.content
  unsetBefore : a.unsetBefore.size = a.graph.size
  sized : ∀ s ∈ a.unsetBefore, s.Sized a.names.length
  taken : ∀ i ∈ a.taken, i < a.graph.size

theorem grounded_ofGraph {g : FlowGraph} (hg : g.WellFormed) : (ofGraph g).Grounded := by
  obtain ⟨-, haccesses⟩ := ofGraph_spec g
  -- What the solver leaves is as large as the graph and the table of names.
  have hsolved : (ofGraph g).unsetBefore.size = g.size ∧
      (∀ s ∈ (ofGraph g).unsetBefore, s.Sized (ofGraph g).names.length) ∧
      ∀ i ∈ (ofGraph g).taken, i < g.size := by
    rcases Nat.eq_zero_or_pos g.size with hzero | hpos
    · -- Without nodes no step is made.
      have hrun : UnsetState.run g (keptSets g) (g.size * ((ofGraph g).names.length + 1))
          (.initial g.size (ofGraph g).names.length) = .initial 0 (ofGraph g).names.length := by
        rw [hzero, Nat.zero_mul]
        rfl
      have hbefore : (ofGraph g).unsetBefore = #[] := congrArg UnsetState.before hrun
      have htaken : (ofGraph g).taken = [] := congrArg UnsetState.taken hrun
      rw [hbefore, htaken, hzero]
      simp
    · obtain ⟨hrun, -⟩ := @UnsetState.solving_run g (keptSets g) (ofGraph g).names.length hg hpos
        (size_keptSets hg) fun _ _ hbits => sized_of_keptSets g hbits
      refine ⟨hrun.before_size, fun s hs => ?_, fun i hi => ?_⟩
      · obtain ⟨i, hi⟩ := Array.getElem?_of_mem hs
        exact hrun.before_sized i s hi
      · obtain ⟨out, hout⟩ := hrun.taken i hi
        obtain ⟨hlt, -⟩ := Array.getElem?_eq_some_iff.1 hout
        exact hrun.after_size ▸ hlt
  refine ⟨hg.size.symm, fun i edge hedge => hg.target_lt edge hedge, ?_, ?_, hsolved.1, hsolved.2.1,
    hsolved.2.2⟩
  · rw [← haccesses.length_eq]
    exact hg.size.symm
  · intro here hhere access haccess
    obtain ⟨n, -, hreads, hwrites⟩ := exists_mem_of_forall₂ haccesses hhere
    rcases List.mem_append.1 haccess with haccess | haccess
    · exact hreads.slots access haccess
    · exact hwrites.slots access haccess

end VariableAnalysis

/-- Source text stops an analysis in exactly one way: the checks, the flow of control and the
conversion to labels fail if and only if a jump has a first operand that is a hexadecimal or binary
literal out of the reach of binary64, and then for that cause.  The conversion to numbers never
fails.  Whether the layout fails is not a matter of the text: it does if it is to indent by 2⁶³
blanks or more, which settings that are accepted may ask for, and only then.  Everything that is
looked up by number on the way is there. -/
theorem source_faults_iff {settings : Settings} (h : settings.validate = .ok settings)
    (uri : String) (t : Text) :
    FailsIff (Checks.run settings (.ofText uri t)) (JumpsOutOfReach t) .numberTooLarge ∧
    FailsIff (FlowGraph.analyze uri (Node.ofText t)) (JumpsOutOfReach t) .numberTooLarge ∧
    FailsIff (Jumps.convert .labels (.ofText uri t)) (JumpsOutOfReach t) .numberTooLarge ∧
    (∃ c, Jumps.convert .numbers (.ofText uri t) = .ok c) ∧
    FailsIff (Layout.formatText (.ofSettings settings) t)
      (settings.insertSpaces = true ∧ Index.bound ≤ settings.tabSize) .countTooLarge ∧
    (Document.ofText uri t).Grounded ∧
    ∀ g, FlowGraph.ofNodes uri (Node.ofText t) = .ok g →
      (VariableAnalysis.ofGraph g).Grounded := by
  obtain ⟨htab, hmax⟩ := Settings.bounds_of_validate h
  refine ⟨Checks.failsIff_run hmax uri t,
    (FlowGraph.failsIff_ofNodes uri t).bind fun g _ => ⟨_, rfl⟩, Jumps.failsIff_toLabels uri t,
    ⟨_, rfl⟩, Layout.failsIff_formatText htab t, Document.grounded_ofText uri t,
    fun g hg => ?_⟩
  exact VariableAnalysis.grounded_ofGraph (FlowGraph.wellFormed_of_ofNodes hg)

/-- A jump to the number of 256 hexadecimal digits `f`, which is two to the power of 1024 less
one. -/
def farJump : Text := "jump 0x".toList ++ List.replicate 256 'f' ++ " always".toList

/-- A jump to a number that is rounded up to two to the power of 1024. -/
theorem source_faults_iff_farJump :
    Settings.validate {} = .ok {} ∧
      Checks.run {} (.ofText "" farJump) = .error .numberTooLarge ∧
      FlowGraph.analyze "" (Node.ofText farJump) = .error .numberTooLarge ∧
      Jumps.convert .labels (.ofText "" farJump) = .error .numberTooLarge ∧
      ¬ ∃ e, Layout.formatText (.ofSettings {}) farJump = .error e := by
  have hvalid : Settings.validate {} = .ok {} := rfl
  obtain ⟨hrun, hanalyze, hlabels, -, hformat, -⟩ := source_faults_iff hvalid "" farJump
  have hread : (Node.ofText farJump).map (fun n =>
      (n.isInstruction, n.opcode, n.operands[0]?.map (·.content))) =
        [(true, "jump".toList, some ('0' :: 'x' :: List.replicate 256 'f'))] := by
    decide +kernel
  have hvalue : Magnitude.overflow ≤ Text.digitsValue 16 (List.replicate 256 'f') := by
    decide +kernel
  -- The jump is read off the computed reading of the text.
  have hfar : JumpsOutOfReach farJump := by
    obtain ⟨n, ns, hnodes, hn, -⟩ := List.map_eq_cons_iff.1 hread
    simp only [Prod.mk.injEq, Option.map_eq_some_iff] at hn
    obtain ⟨hinstruction, hopcode, d, hd, hcontent⟩ := hn
    have hmem : n ∈ Node.ofText farJump := by
      rw [hnodes]
      exact List.mem_cons_self
    refine ⟨n, hmem, hinstruction, hopcode, d, _, hd, ?_, hvalue⟩
    exact ⟨_, List.cons_ne_nil _ _, .inl ⟨hcontent, by decide +kernel, rfl⟩⟩
  refine ⟨hvalid, (hrun _).2 ⟨hfar, rfl⟩, (hanalyze _).2 ⟨hfar, rfl⟩, (hlabels _).2 ⟨hfar, rfl⟩, ?_⟩
  rintro ⟨e, he⟩
  obtain ⟨⟨-, hlarge⟩, -⟩ := (hformat e).1 he
  exact absurd hlarge (by decide)

/-- Settings that are accepted may still ask for more blanks than can be counted, and then no text
can be laid out. -/
theorem not_exists_formatText :
    ¬ ∀ (settings : Settings) (t : Text), settings.validate = .ok settings →
      ∃ out, Layout.formatText (.ofSettings settings) t = .ok out := by
  intro h
  obtain ⟨out, hout⟩ := h { tabSize := Index.bound } [] rfl
  cases hout

end LogicAsm
