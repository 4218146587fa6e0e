import LogicAsm.Checks
import LogicAsm.Proofs.Extents
import LogicAsm.Proofs.Flow.Unset

/-!
# Diagnostics point into the text

Every check reports what it finds at a token, at a node, at the name of a label, at a colour name
inside a token or from one token of a node to its last.  All of these are runs of a line for a node
that lies in a line (`Node.InLine`), so there is one lemma for each kind of place and one for each
check, and all that `Checks.run` finds is in the text.

The label table gives nodes by their index.  That it only ever points to labels (`PointsToLabels`)
is an invariant of declaring one node after the other.
-/

namespace LogicAsm

/-- Operands with parameters are still those of the instruction. -/
theorem Operand.token_mem_of_mem_assign {ts : List Token} {params : List Parameter} :
    ∀ o ∈ assign ts params, o.token ∈ ts := by
  fun_induction assign ts params with
  | case1 => simp
  | case2 t ts ih =>
    exact List.forall_mem_cons.2 ⟨List.mem_cons_self, fun o ho => List.mem_cons_of_mem t (ih o ho)⟩
  | case3 t ts p ps ih =>
    exact List.forall_mem_cons.2 ⟨List.mem_cons_self, fun o ho => List.mem_cons_of_mem t (ih o ho)⟩

/-! ### Places in a node -/

namespace Node

variable {t : Text} {n : Node}

theorem InLine.token (h : n.InLine t) {x : Token} (hx : x ∈ n.tokens) : x.range.InText t :=
  h.range.of_within (h.within x hx)

/-- The name of a label is what stands in front of the colon. -/
theorem InLine.nameRange (h : n.InLine t) (hlabel : n.isLabel = true) : n.nameRange.InText t := by
  have hhead : n.head ∈ n.tokens := List.mem_cons_self
  have hroom := (h.roomy n.head hhead).label (h.label hlabel)
  refine (h.token hhead).of_within ⟨rfl, rfl, Int.le_refl _, ?_, ?_⟩
  · show n.head.start.character < n.head.stop.character - 1
    omega
  · show n.head.stop.character - 1 ≤ n.head.stop.character
    omega

/-- A colour name that is not empty is a part of its token. -/
theorem InLine.tagRange (h : n.InLine t) {x : Token} (hx : x ∈ n.tokens) {tag : ColorTag}
    (htag : tag ∈ x.tags) (hreset : tag.isReset = false) : (x.tagRange tag).InText t := by
  obtain ⟨hle, hstop⟩ := (h.roomy x hx).tags tag htag
  have hne : tag.nameStart ≠ tag.nameStop := by simpa [ColorTag.isReset] using hreset
  refine (h.token hx).of_within ⟨rfl, (h.token hx).stop_line.symm, ?_, ?_, hstop⟩
  · show x.start.character ≤ x.start.character + tag.nameStart
    omega
  · show x.start.character + tag.nameStart < x.start.character + (tag.nameStop : Int)
    omega

/-- No token of a node ends behind the last one. -/
theorem InLine.stop_le_last (h : n.InLine t) :
    ∀ x ∈ n.tokens, x.stop.character ≤ n.last.stop.character := by
  obtain ⟨front, hfront⟩ : ∃ front, n.tokens = front ++ [n.last] := by
    refine ⟨n.tokens.dropLast, ?_⟩
    have hlast : n.tokens.getLast? = some n.last := by
      rw [tokens, List.getLast?_cons]
      rfl
    obtain ⟨front, hfront⟩ := List.getLast?_eq_some_iff.1 hlast
    rw [hfront, List.dropLast_concat]
  intro x hx
  have hlast : n.last ∈ n.tokens := by rw [hfront]; simp
  have hxline := (h.within x hx).stop_line
  have hlastline := (h.within n.last hlast).start_line
  have hrange := h.range.stop_line
  have hlt := (h.within n.last hlast).start_lt_stop
  rw [hfront] at hx
  -- A token in front of the last ends where the last begins, or earlier.
  rcases List.mem_append.1 hx with hx | hx
  · have hpairwise := h.pairwise
    rw [hfront] at hpairwise
    have hle := (List.pairwise_append.1 hpairwise).2.2 x hx n.last (by simp)
    simp only [Position.le_iff] at hle
    simp only [Token.range] at hxline hlastline hlt
    omega
  · rw [List.mem_singleton.1 hx]

/-- From a token on, up to the end of the last one. -/
theorem InLine.fromToken (h : n.InLine t) {x : Token} (hx : x ∈ n.tokens) :
    Range.InText t ⟨x.start, n.last.stop⟩ := by
  have hlast : n.last ∈ n.tokens := by
    rw [last]
    cases htail : n.tail.getLast? with
    | none => exact List.mem_cons_self
    | some y => exact List.mem_cons_of_mem _ (List.mem_of_mem_getLast? htail)
  have hwithin := h.within x hx
  refine h.range.of_within ⟨hwithin.start_line, (h.within n.last hlast).stop_line,
    hwithin.start_le, ?_, (h.within n.last hlast).stop_le⟩
  exact Int.lt_of_lt_of_le hwithin.start_lt_stop (h.stop_le_last x hx)

/-! ### Tokens that are operands -/

theorem mem_tokens_of_mem_operands {x : Token} (h : x ∈ n.operands) : x ∈ n.tokens := by
  rw [operands] at h
  split at h
  · split at h
    · exact List.mem_cons_of_mem _ (List.mem_of_mem_dropLast h)
    · exact List.mem_cons_of_mem _ h
  · cases h

theorem mem_tokens_of_destination? {d : Token} (h : n.destination? = some d) : d ∈ n.tokens := by
  rw [destination?] at h
  split at h
  · exact mem_tokens_of_mem_operands (List.mem_of_getElem? h)
  · cases h

theorem mem_tokens_of_mem_variablesIn {role : Role} {x : Token}
    (h : x ∈ variablesIn role n.analyzedOperands) : x ∈ n.tokens := by
  obtain ⟨o, ho, rfl⟩ := List.mem_map.1 h
  have ho := (List.mem_filter.1 ho).1
  rw [analyzedOperands] at ho
  split at ho
  · rw [resolvedOperands] at ho
    split at ho
    · cases ho
    · exact mem_tokens_of_mem_operands (Operand.token_mem_of_mem_assign o ho)
  · cases ho

end Node

/-! ### The label table -/

namespace LabelTable

/-- Every index in the table is that of a label. -/
structure PointsToLabels (nodes : List Node) (table : LabelTable) : Prop where
  labels : ∀ e ∈ table.labels, IsLabelAt nodes e.2
  duplicates : ∀ e ∈ table.duplicates, IsLabelAt nodes e.1 ∧ IsLabelAt nodes e.2

theorem PointsToLabels.declare {nodes : List Node} {table : LabelTable}
    (h : table.PointsToLabels nodes) (name : Text) {i : Nat} (hi : IsLabelAt nodes i) :
    (table.declare name i).PointsToLabels nodes := by
  rw [LabelTable.declare]
  split
  · refine ⟨List.forall_mem_append.2 ⟨h.labels, ?_⟩, h.duplicates⟩
    exact List.forall_mem_singleton.2 hi
  · next first hfirst =>
    obtain ⟨front, back, hlabels, -⟩ := List.lookup_eq_some_iff.1 hfirst
    refine ⟨h.labels, List.forall_mem_append.2 ⟨h.duplicates, List.forall_mem_singleton.2 ⟨hi, ?_⟩⟩⟩
    exact h.labels (name, first) (by rw [hlabels]; simp)

theorem PointsToLabels.declareAll {nodes front back : List Node} (hnodes : nodes = front ++ back)
    {table : LabelTable} (h : table.PointsToLabels nodes) :
    (table.declareAll front.length back).PointsToLabels nodes := by
  induction back generalizing front table with
  | nil => exact h
  | cons n ns ih =>
    have hlength : front.length + 1 = (front ++ [n]).length := by simp
    rw [LabelTable.declareAll, hlength]
    refine ih (by rw [hnodes, List.append_assoc]; rfl) ?_
    split
    · next hlabel => exact h.declare _ ⟨n, by rw [hnodes]; simp, hlabel⟩
    · exact h

theorem pointsToLabels_ofNodes (nodes : List Node) : (ofNodes nodes).PointsToLabels nodes :=
  @PointsToLabels.declareAll nodes [] nodes rfl ⟨[], []⟩ ⟨by simp, by simp⟩

end LabelTable

/-! ### What each check reports -/

/-- A diagnostic that points into the text, with all places that it has to do with. -/
def Diagnostic.InText (t : Text) (d : Diagnostic) : Prop :=
  d.range.InText t ∧ ∀ place ∈ d.related, place.range.InText t

/-- A diagnostic without related places. -/
theorem Diagnostic.InText.of_range {t : Text} {d : Diagnostic} (hrange : d.range.InText t)
    (hrelated : d.related = []) : d.InText t :=
  ⟨hrange, by simp [hrelated]⟩

/-- A lexical problem is a string or a word as a whole. -/
theorem Piece.range_of_mem_problems {line : Int} {column : Nat} {glued : Bool} {p : Piece} :
    ∀ d ∈ problems line column glued p,
      d.range = .of line column line (column + p.text.length : Nat) ∧ d.related = [] ∧
        p.endsStatement = false := by
  intro d hd
  unfold problems at hd
  rcases List.mem_append.1 hd with hd | hd
  · split at hd
    · obtain rfl := List.mem_singleton.1 hd
      exact ⟨rfl, rfl, rfl⟩
    · cases hd
  · split at hd
    · split at hd
      · obtain rfl := List.mem_singleton.1 hd
        exact ⟨rfl, rfl, rfl⟩
      · cases hd
    · split at hd
      · obtain rfl := List.mem_singleton.1 hd
        exact ⟨rfl, rfl, rfl⟩
      · cases hd
    · cases hd

open Position in
/-- A lexical problem is in the text. -/
theorem Piece.inText_of_mem_problemsAt {a : Text} {glued : Bool} {ps : List Piece}
    (hwf : ∀ p ∈ ps, p.WellFormed) :
    ∀ d ∈ problemsAt (origin.advance a) glued ps, d.InText (a ++ ps.flatMap text) := by
  induction ps generalizing a glued with
  | nil => simp [problemsAt]
  | cons p ps ih =>
    have hp := hwf p List.mem_cons_self
    intro d hd
    rw [problemsAt] at hd
    rcases List.mem_append.1 hd with hd | hd
    · obtain ⟨hrange, hrelated, hstatement⟩ := range_of_mem_problems d hd
      refine Diagnostic.InText.of_range ?_ hrelated
      have hend := hp.endsLine_eq_false hstatement
      have hne : p.text ≠ [] := by
        obtain ⟨c, hc⟩ := hp.exists_head
        exact List.ne_nil_of_mem (List.mem_of_mem_head? hc)
      -- The problem covers the piece, which has a character and no line end.
      have hcut := Range.inText_of_cut a (ps.flatMap text) hne hend
      rw [advance_of_newline_not_mem _ fun h => absurd (hend _ h) (by decide)] at hcut
      have hnonneg := character_origin_advance a
      have hsame : d.range = ⟨origin.advance a, (origin.advance a).line,
          (origin.advance a).character + p.text.length⟩ := by
        rw [hrange, Range.of]
        have hcast : (((origin.advance a).character.toNat : Nat) : Int) =
          (origin.advance a).character := Int.toNat_of_nonneg hnonneg
        push_cast
        rw [hcast]
      rw [hsame]
      exact hcut
    · rw [← advance_append] at hd
      have hlater := ih (fun q hq => hwf q (List.mem_cons_of_mem p hq)) d hd
      rwa [List.append_assoc] at hlater

section checks

variable {t : Text} {nodes : List Node} (hnodes : ∀ n ∈ nodes, n.InLine t)

include hnodes

theorem IsLabelAt.nameRange {i : Nat} (h : IsLabelAt nodes i) {n : Node}
    (hn : nodes[i]? = some n) : n.nameRange.InText t := by
  obtain ⟨m, hm, hlabel⟩ := h
  obtain rfl : m = n := Option.some.inj (hm.symm.trans hn)
  exact (hnodes m (List.mem_of_getElem? hm)).nameRange hlabel

theorem FlowGraph.inText_of_mem_redeclarations {uri : String} :
    ∀ d ∈ redeclarations uri nodes (.ofNodes nodes), d.InText t := by
  have htable := LabelTable.pointsToLabels_ofNodes nodes
  intro d hd
  obtain ⟨⟨again, first⟩, hmem, hd⟩ := List.mem_filterMap.1 hd
  obtain ⟨hagain, hfirst⟩ := htable.duplicates _ hmem
  obtain ⟨m, hm, hd⟩ := Option.bind_eq_some_iff.1 hd
  obtain ⟨m', hm', hd⟩ := Option.bind_eq_some_iff.1 hd
  obtain rfl := Option.some.inj hd
  exact ⟨hagain.nameRange hnodes hm, List.forall_mem_singleton.2 (hfirst.nameRange hnodes hm')⟩

theorem FlowGraph.inText_of_mem_problems {uri : String} {g : FlowGraph}
    (h : ofNodes uri nodes = .ok g) : ∀ d ∈ g.problems, d.InText t := by
  obtain ⟨exits, hexits, ⟨⟩⟩ := bind_eq_ok.1 h
  refine List.forall_mem_append.2 ⟨inText_of_mem_redeclarations hnodes, fun d hd => ?_⟩
  obtain ⟨result, hresult, hd⟩ := List.mem_flatMap.1 hd
  obtain ⟨n, hn, hof⟩ := exists_mem_of_forall₂ (mapM_eq_ok_iff.1 hexits) hresult
  obtain ⟨x, hx, rfl | ⟨rfl, -⟩⟩ := problems_of_exitOf hof d hd
  · exact Diagnostic.InText.of_range ((hnodes n hn).token (n.mem_tokens_of_destination? hx)) rfl
  · exact Diagnostic.InText.of_range (hnodes n hn).range rfl

theorem FlowGraph.inText_of_mem_unreachableProblems {g : FlowGraph} (hg : g.nodes = nodes) :
    ∀ d ∈ g.unreachableProblems, d.InText t := by
  intro d hd
  obtain ⟨⟨n, i⟩, hmem, hd⟩ := List.mem_filterMap.1 hd
  have hn : n ∈ nodes := hg ▸ List.fst_mem_of_mem_zipIdx hmem
  simp only at hd
  split at hd
  · obtain rfl := Option.some.inj hd
    exact Diagnostic.InText.of_range (hnodes n hn).range rfl
  · cases hd

/-- What is reported of a variable is reported where it is read or written. -/
theorem VariableAnalysis.inText_of_mem_problems {g : FlowGraph} (hg : g.nodes = nodes) :
    ∀ d ∈ (ofGraph g).problems, d.InText t := by
  obtain ⟨-, haccesses⟩ := ofGraph_spec g
  -- An access holds a token of the node it belongs to.
  have htoken {tokens : Node → List Token} {accesses : NodeAccesses → List Access}
      (hnames : List.Forall₂ (fun n a => NodeAccesses.Names (ofGraph g).names (tokens n)
        (accesses a)) g.nodes (ofGraph g).accesses)
      (htokens : ∀ n, ∀ x ∈ tokens n, x ∈ n.tokens) :
      ∀ here ∈ (ofGraph g).accesses, ∀ a ∈ accesses here, a.token.range.InText t := by
    intro here hhere a ha
    obtain ⟨n, hn, hnamed⟩ := exists_mem_of_forall₂ hnames hhere
    refine (hnodes n (hg ▸ hn)).token (htokens n _ ?_)
    rw [← hnamed.tokens]
    exact List.mem_map_of_mem ha
  have hreads := htoken (haccesses.imp fun n a (h : _ ∧ _) => h.1) fun n x hx =>
    n.mem_tokens_of_mem_variablesIn hx
  have hwrites := htoken (haccesses.imp fun n a (h : _ ∧ _) => h.2) fun n x hx =>
    n.mem_tokens_of_mem_variablesIn hx
  refine List.forall_mem_append.2 ⟨fun d hd => ?_, fun d hd => ?_⟩
  · obtain ⟨⟨here, i⟩, hmem, hd⟩ := List.mem_flatMap.1 hd
    obtain ⟨a, ha, hd⟩ := List.mem_flatMap.1 hd
    have hrange := hreads here (List.fst_mem_of_mem_zipIdx hmem) a ha
    unfold readProblem at hd
    simp only at hd
    split at hd
    · split at hd
      · cases hd
      · obtain rfl := List.mem_singleton.1 hd
        exact Diagnostic.InText.of_range hrange rfl
    · split at hd
      · obtain rfl := List.mem_singleton.1 hd
        exact Diagnostic.InText.of_range hrange rfl
      · cases hd
  · obtain ⟨here, hhere, hd⟩ := List.mem_flatMap.1 hd
    obtain ⟨a, ha, hd⟩ := List.mem_flatMap.1 hd
    have hrange := hwrites here hhere a ha
    unfold writeProblem at hd
    simp only at hd
    split at hd
    · cases hd
    · obtain rfl := List.mem_singleton.1 hd
      exact Diagnostic.InText.of_range hrange rfl

namespace Checks

theorem inText_of_mem_opcodes : ∀ d ∈ opcodes nodes, d.InText t := by
  intro d hd
  obtain ⟨n, hn, hd⟩ := List.mem_filterMap.1 hd
  split at hd
  · obtain rfl := Option.some.inj hd
    exact Diagnostic.InText.of_range ((hnodes n hn).token List.mem_cons_self) rfl
  · cases hd

/-- A statement over the limit is reported from a token of it on. -/
theorem inText_of_mem_lineLength {maxTokens : Int} {found : List Diagnostic}
    (h : lineLength maxTokens nodes = .ok found) :
    ∀ d ∈ found, d.InText t := by
  obtain ⟨each, heach, rfl⟩ : ∃ each, nodes.mapM (tooLong maxTokens) = .ok each ∧
      each.flatten = found := by
    unfold lineLength at h
    cases heach : nodes.mapM (tooLong maxTokens) with
    | error e => rw [heach] at h; cases h
    | ok each => rw [heach] at h; cases h; exact ⟨each, rfl, rfl⟩
  intro d hd
  obtain ⟨here, hhere, hd⟩ := List.mem_flatten.1 hd
  obtain ⟨n, hn, hlong⟩ := exists_mem_of_forall₂ (mapM_eq_ok_iff.1 heach) hhere
  unfold tooLong at hlong
  split at hlong
  · cases hlong
    cases hd
  · obtain ⟨first, hfirst, hlong⟩ := bind_eq_ok.1 hlong
    cases hlong
    obtain rfl := List.mem_singleton.1 hd
    have hmem : first ∈ n.tokens := by
      unfold Index.get Index.get? at hfirst
      split at hfirst
      · next a hget =>
        cases hfirst
        obtain ⟨k, -, hk⟩ := Option.bind_eq_some_iff.1 hget
        exact List.mem_of_getElem? hk
      · cases hfirst
    exact Diagnostic.InText.of_range ((hnodes n hn).fromToken hmem) rfl

theorem inText_of_mem_labelUse : ∀ d ∈ labelUse nodes (.ofNodes nodes), d.InText t := by
  refine List.forall_mem_append.2 ⟨fun d hd => ?_, fun d hd => ?_⟩
  · obtain ⟨x, hx, rfl⟩ := List.mem_map.1 hd
    obtain ⟨n, hn, hx⟩ := List.mem_filterMap.1 (List.mem_filter.1 hx).1
    exact Diagnostic.InText.of_range ((hnodes n hn).token (n.mem_tokens_of_destination? hx)) rfl
  · obtain ⟨⟨name, index⟩, hmem, hd⟩ := List.mem_filterMap.1 hd
    simp only at hd
    split at hd
    · cases hd
    · obtain ⟨n, hn, rfl⟩ := Option.map_eq_some_iff.1 hd
      have hlabel := (LabelTable.pointsToLabels_ofNodes nodes).labels _ hmem
      exact Diagnostic.InText.of_range (hlabel.nameRange hnodes hn) rfl

theorem inText_of_mem_limitsFrom (settings : Settings) (labels instructions : Nat) :
    ∀ d ∈ limitsFrom settings labels instructions nodes, d.InText t := by
  induction nodes generalizing labels instructions with
  | nil => simp [limitsFrom]
  | cons n ns ih =>
    obtain ⟨hn, hns⟩ := List.forall_mem_cons.1 hnodes
    rw [limitsFrom.eq_def]
    simp only
    split
    · next hkind =>
      have hlabel : n.isLabel = true := by simp [Node.isLabel, hkind]
      refine List.forall_mem_append.2 ⟨fun d hd => ?_, ih hns _ _⟩
      split at hd
      · obtain rfl := List.mem_singleton.1 hd
        exact Diagnostic.InText.of_range (hn.nameRange hlabel) rfl
      · cases hd
    · refine List.forall_mem_append.2 ⟨fun d hd => ?_, ih hns _ _⟩
      split at hd
      · obtain rfl := List.mem_singleton.1 hd
        exact Diagnostic.InText.of_range hn.range rfl
      · cases hd
    · exact ih hns _ _

theorem inText_of_mem_colors : ∀ d ∈ colors nodes, d.InText t := by
  intro d hd
  obtain ⟨n, hn, hd⟩ := List.mem_flatMap.1 hd
  obtain ⟨x, hx, hd⟩ := List.mem_flatMap.1 hd
  obtain ⟨tag, htag, hd⟩ := List.mem_filterMap.1 hd
  simp only at hd
  split at hd
  · cases hd
  · next hunknown =>
    obtain rfl := Option.some.inj hd
    have hreset : tag.isReset = false := by
      cases hreset : tag.isReset with
      | false => rfl
      | true => simp [hreset] at hunknown
    have hline := hnodes n (List.mem_filter.1 hn).1
    exact Diagnostic.InText.of_range (hline.tagRange (List.mem_filter.1 hx).1 htag hreset) rfl

end Checks

end checks

/-! ### All checks -/

/-- What the checks of a document find is in its text. -/
theorem Checks.inText_of_mem_run {settings : Settings} {uri : String} {t : Text} {found : Findings}
    (h : run settings (.ofText uri t) = .ok found) : ∀ d ∈ found.diagnostics, d.InText t := by
  have hnodes : ∀ n ∈ Node.ofText t, n.InLine t := Node.inLine_of_mem_ofText
  have hlexical : ∀ d ∈ Statement.problemsOfText t, d.InText t := by
    have hproblems := @Piece.inText_of_mem_problemsAt [] false _ (Piece.row_ofText t).wellFormed
    rwa [List.nil_append, Piece.flatMap_text_ofText, Position.advance_nil,
      ← Statement.problemsOfText_eq] at hproblems
  obtain ⟨g, hg, h⟩ := bind_eq_ok.1 h
  obtain ⟨long, hlong, h⟩ := bind_eq_ok.1 h
  cases h
  have hsame : g.nodes = Node.ofText t := by
    obtain ⟨exits, -, ⟨⟩⟩ := bind_eq_ok.1 hg
    rfl
  intro d hd
  rw [Diagnostic.sort, Sorting.mem_sort] at hd
  simp only [List.mem_append] at hd
  -- One case for each check, in the order in which their findings are joined.
  rcases hd with (((((((hd | hd) | hd) | hd) | hd) | hd) | hd) | hd) | hd
  · exact hlexical d hd
  · exact FlowGraph.inText_of_mem_problems hnodes hg d hd
  · exact FlowGraph.inText_of_mem_unreachableProblems hnodes hsame d hd
  · exact VariableAnalysis.inText_of_mem_problems hnodes hsame d hd
  · exact inText_of_mem_opcodes hnodes d hd
  · exact inText_of_mem_lineLength hnodes hlong d hd
  · exact inText_of_mem_labelUse hnodes d hd
  · exact inText_of_mem_limitsFrom hnodes settings 0 0 d hd
  · exact inText_of_mem_colors hnodes d hd

end LogicAsm
