import LogicAsm.Proofs.Jumps.Arrangement
import LogicAsm.Proofs.Jumps.LabelEdits
import LogicAsm.Proofs.Overlaps

/-!
# Which conversions can be made

Every edit of a conversion lies in the margins of its node, and margins meet only between neighbours
of one statement.

* Putting a label in never goes beyond the end of a node, so labelling jumps gives edits that can
  all be made.
* Deleting a label takes the margins on both sides.  Where two labels that stand next to each other
  are both deleted, both deletions take the blanks between them, and the edits overlap; in all other
  cases they can be made (`exists_applyAll_iff`).
-/

namespace LogicAsm.Jumps

open Position

/-! ### Edits and their nodes -/

/-- Whether a node is deleted: the first declaration of a label that is numbered. -/
def isDeleted (doc : Document) (n : Node) : Bool :=
  n.isLabel && doc.labelDeclaration? n.labelName == some n && isNumbered doc n.labelName

/-- A destination stands behind the first token of its node. -/
theorem bounds_of_destination? {n : Node} (hn : n.Ordered) {d : Token}
    (hd : n.destination? = some d) : n.start < d.start ∧ d.start ≤ d.stop ∧ d.stop ≤ n.stop := by
  rw [Node.destination?] at hd
  split at hd
  · exact hn.tail d (List.mem_of_mem_head? (Node.head?_tail_of_operands hd))
  · cases hd

/-! ### Labelling -/

section labelling

variable {doc : Document}

/-- An edit of a node that does not go beyond its end. -/
structure Within (doc : Document) (n : Node) (e : Edit) : Prop where
  lineStart_le : lineStart doc n ≤ e.range.start
  start_le_stop : e.range.start ≤ e.range.stop
  stop_le : e.range.stop ≤ n.stop

theorem within_insertion? {n : Node} (hn : n.Ordered) {counter : Nat} :
    ∀ e ∈ insertion? doc n counter, Within doc n e ∧ e.range.stop ≤ n.start := by
  intro e he
  rw [insertion?] at he
  split at he
  · obtain ⟨label, -, rfl⟩ := Option.map_eq_some_iff.1 he
    have hle := lineStart_le doc n
    exact ⟨⟨le_refl _, le_refl _, le_trans hle (le_of_lt hn.start_lt_stop)⟩, hle⟩
  · cases he

theorem within_redirection? {n : Node} (hn : n.Ordered) {f : Lexeme → Option Text} :
    ∀ e ∈ redirection? f n, Within doc n e ∧ n.start < e.range.start := by
  intro e he
  obtain ⟨d, hd, he⟩ := Option.bind_eq_some_iff.1 he
  obtain ⟨v, -, rfl⟩ := Option.map_eq_some_iff.1 he
  obtain ⟨hstart, hle, hstop⟩ := bounds_of_destination? hn hd
  exact ⟨⟨le_trans (lineStart_le doc n) (le_of_lt hstart), hle, hstop⟩, hstart⟩

theorem exists_within {counter : Nat} {ns : List Node} (hns : ∀ n ∈ ns, n.Ordered) :
    ∀ e ∈ labelEditsFrom doc counter ns, ∃ n ∈ ns, Within doc n e := by
  induction ns generalizing counter with
  | nil => simp [labelEditsFrom]
  | cons n ns ih =>
    intro e he
    obtain ⟨hn, hns⟩ := List.forall_mem_cons.1 hns
    rw [labelEditsFrom, List.mem_append, List.mem_append, Option.mem_toList,
      Option.mem_toList] at he
    rcases he with (he | he) | he
    · exact ⟨n, List.mem_cons_self, (within_insertion? hn e he).1⟩
    · exact ⟨n, List.mem_cons_self, (within_redirection? hn e he).1⟩
    · obtain ⟨m, hm, he⟩ := ih hns e he
      exact ⟨m, List.mem_cons_of_mem n hm, he⟩

/-- Where each node ends before the margin of the next one starts, labelling is done in order. -/
theorem inOrder_labelEditsFrom {counter : Nat} {ns : List Node} (hns : ∀ n ∈ ns, n.Ordered)
    (h : ns.Pairwise fun n m => n.stop ≤ lineStart doc m) :
    Edit.InOrder (labelEditsFrom doc counter ns) := by
  have hwithin := @exists_within doc counter ns hns
  refine ⟨fun e he => ?_, fun e he => ?_, ?_⟩
  · obtain ⟨n, hn, he⟩ := hwithin e he
    exact line_nonneg_of_le (show 0 ≤ (lineStart doc n).line from (hns n hn).line) he.lineStart_le
  · obtain ⟨n, hn, he⟩ := hwithin e he
    exact he.start_le_stop
  -- By induction on the nodes: an edit stays in its own node and the margin in front of it.
  clear hwithin
  induction ns generalizing counter with
  | nil => exact .nil
  | cons n ns ih =>
    obtain ⟨hn, hns⟩ := List.forall_mem_cons.1 hns
    obtain ⟨hnext, h⟩ := List.pairwise_cons.1 h
    have hsingle {o : Option Edit} : o.toList.Pairwise fun e f => e.range.stop ≤ f.range.start := by
      cases o with
      | none => exact .nil
      | some e => exact List.pairwise_singleton _ _
    have hlater : ∀ e, Within doc n e → ∀ f ∈ labelEditsFrom doc
        (if n.isInstruction then counter + 1 else counter) ns, e.range.stop ≤ f.range.start := by
      intro e he f hf
      obtain ⟨m, hm, hf⟩ := exists_within hns f hf
      exact le_trans he.stop_le (le_trans (hnext m hm) hf.lineStart_le)
    rw [labelEditsFrom, List.append_assoc, List.pairwise_append, List.pairwise_append]
    refine ⟨hsingle, ⟨hsingle, ih hns h, ?_⟩, ?_⟩
    · intro e he
      exact hlater e (within_redirection? hn e (Option.mem_toList.1 he)).1
    · intro e he f hf
      obtain ⟨hwithin, hstop⟩ := within_insertion? hn e (Option.mem_toList.1 he)
      rcases List.mem_append.1 hf with hf | hf
      · obtain ⟨-, hstart⟩ := @within_redirection? doc n hn _ f (Option.mem_toList.1 hf)
        exact le_trans hstop (le_of_lt hstart)
      · exact hlater e hwithin f hf

end labelling

variable {uri : String} {t : Text}

/-- Labelling jumps gives edits that can be made. -/
theorem exists_applyAll_toLabels {c : Conversion} (h : toLabels (.ofText uri t) = .ok c) :
    ∃ out, Edit.applyAll (.ofText uri t) c.edits = .ok out := by
  have harranged := @arranged_ofText uri t
  refine Edit.exists_applyAll_of_perm uri t (inOrder_labelEditsFrom ordered_of_mem_ofText ?_)
    (edits_toLabels_perm uri t h)
  refine (harranged.pairwise harranged.chain).imp fun hnm => ?_
  rcases hnm with hle | ⟨htouches, -⟩
  · exact le_trans (le_lineEnd _ _) hle
  · exact htouches.lineStart_eq ▸ le_refl _

/-! ### Numbering -/

/-- A node that is dropped is deleted. -/
theorem isDeleted_of_isDropped {n : Node} {i : Nat} (hi : (Node.ofText t)[i]? = some n)
    (h : isDropped (.ofText uri t) n i = true) : isDeleted (.ofText uri t) n = true := by
  simp only [isDropped, Bool.and_eq_true, beq_iff_eq] at h
  obtain ⟨⟨hlabel, hfind⟩, hnumbered⟩ := h
  have hdeclaration : (Document.ofText uri t).labelDeclaration? n.labelName = some n := by
    rw [Document.labelDeclaration?, hfind]
    exact hi
  rw [isDeleted, hlabel, hnumbered, hdeclaration]
  simp

/-- The deletion of a node that is deleted is one of the edits. -/
theorem mem_edits_of_isDeleted {n : Node} (h : isDeleted (.ofText uri t) n = true) :
    .delete ⟨lineStart (.ofText uri t) n, lineEnd (.ofText uri t) n⟩ ∈
      (toNumbers (.ofText uri t)).edits := by
  simp only [isDeleted, Bool.and_eq_true, beq_iff_eq] at h
  obtain ⟨⟨hlabel, hdeclaration⟩, hnumbered⟩ := h
  obtain ⟨i, hfind, hi⟩ := Option.bind_eq_some_iff.1 hdeclaration
  have hdropped : isDropped (.ofText uri t) n i = true := by
    rw [isDropped, hlabel, hfind, hnumbered]
    simp
  rw [(edits_toNumbers_perm uri t).mem_iff, editsFrom_eq, List.mem_flatMap]
  refine ⟨(n, i), List.mk_mem_zipIdx_iff_getElem?.2 hi, ?_⟩
  show _ ∈ nodeEdits (.ofText uri t) n i
  rw [nodeEdits_of_label hlabel, if_pos hdropped]
  exact List.mem_singleton.2 rfl

/-- A node has one edit at most: its deletion, or that of its destination. -/
theorem mem_nodeEdits {doc : Document} {n : Node} (hn : n.Ordered) {i : Nat} :
    ∀ e ∈ nodeEdits doc n i, nodeEdits doc n i = [e] ∧
      (isDropped doc n i = true ∧ e.range = ⟨lineStart doc n, lineEnd doc n⟩ ∨
        n.start < e.range.start ∧ e.range.start ≤ e.range.stop ∧ e.range.stop ≤ n.stop) := by
  intro e he
  cases hlabel : n.isLabel with
  | true =>
    rw [nodeEdits_of_label hlabel] at he ⊢
    split at he
    · next hdropped =>
      obtain rfl := List.mem_singleton.1 he
      exact ⟨if_pos hdropped, .inl ⟨hdropped, rfl⟩⟩
    · cases he
  | false =>
    rw [nodeEdits_of_not_label hlabel] at he ⊢
    have he := Option.mem_toList.1 he
    refine ⟨by rw [he]; rfl, .inr ?_⟩
    obtain ⟨⟨d, counter⟩, hlabelled, rfl⟩ := Option.map_eq_some_iff.1 he
    exact bounds_of_destination? hn (labelled_of_eq_some hlabelled).destination

/-- An edit of a node lies in its margins. -/
theorem margins_of_mem_nodeEdits {doc : Document} {n : Node} (hn : n.Ordered) {i : Nat} {e : Edit}
    (he : e ∈ nodeEdits doc n i) :
    lineStart doc n ≤ e.range.start ∧ e.range.start ≤ e.range.stop ∧
      e.range.stop ≤ lineEnd doc n := by
  have hstart := lineStart_le doc n
  have hstop := le_lineEnd doc n
  rcases (mem_nodeEdits hn e he).2 with ⟨-, hrange⟩ | ⟨hlt, hle, hend⟩
  · rw [hrange]
    exact ⟨le_refl _, le_trans hstart (le_trans (le_of_lt hn.start_lt_stop) hstop), le_refl _⟩
  · exact ⟨le_trans hstart (le_of_lt hlt), hle, le_trans hend hstop⟩

theorem exists_of_mem_editsFrom {e : Edit}
    (he : e ∈ editsFrom (.ofText uri t) 0 (Node.ofText t)) :
    ∃ n i, (Node.ofText t)[i]? = some n ∧ n.Ordered ∧ e ∈ nodeEdits (.ofText uri t) n i := by
  rw [editsFrom_eq, List.mem_flatMap] at he
  obtain ⟨⟨n, i⟩, hni, he⟩ := he
  have hi := List.mk_mem_zipIdx_iff_getElem?.1 hni
  exact ⟨n, i, hi, ordered_of_mem_ofText n (List.mem_of_getElem? hi), he⟩

/-- The range of each edit is a range of the text. -/
theorem range_of_mem_editsFrom {e : Edit}
    (he : e ∈ editsFrom (.ofText uri t) 0 (Node.ofText t)) :
    0 ≤ e.range.start.line ∧ e.range.start ≤ e.range.stop := by
  obtain ⟨n, i, -, hn, he⟩ := exists_of_mem_editsFrom he
  obtain ⟨hstart, hle, -⟩ := margins_of_mem_nodeEdits hn he
  exact ⟨line_nonneg_of_le (show 0 ≤ (lineStart (.ofText uri t) n).line from hn.line) hstart, hle⟩

/-- Edits of two nodes come one behind the other, unless the nodes touch and are both deleted. -/
theorem stop_le_start_of_mem_nodeEdits {n m : Node} {i j : Nat}
    (hi : (Node.ofText t)[i]? = some n) (hj : (Node.ofText t)[j]? = some m)
    (h : lineEnd (.ofText uri t) n ≤ lineStart (.ofText uri t) m ∨ Touches (.ofText uri t) n m ∧
      ¬ (isDeleted (.ofText uri t) n = true ∧ isDeleted (.ofText uri t) m = true))
    {e f : Edit} (he : e ∈ nodeEdits (.ofText uri t) n i)
    (hf : f ∈ nodeEdits (.ofText uri t) m j) : e.range.stop ≤ f.range.start := by
  have hn := ordered_of_mem_ofText n (List.mem_of_getElem? hi)
  have hm := ordered_of_mem_ofText m (List.mem_of_getElem? hj)
  obtain ⟨-, -, hend⟩ := margins_of_mem_nodeEdits hn he
  obtain ⟨hstart, -, -⟩ := margins_of_mem_nodeEdits hm hf
  rcases h with hle | ⟨htouches, hnot⟩
  · exact le_trans hend (le_trans hle hstart)
  -- A deletion of the first node goes up to the second one, and a deletion of the second node
  -- starts at the end of the first one.
  rcases (mem_nodeEdits hn e he).2 with ⟨hdropped, hrange⟩ | ⟨-, -, hstop⟩
  · rcases (mem_nodeEdits hm f hf).2 with ⟨hdropped', -⟩ | ⟨hlt, -, -⟩
    · exact absurd ⟨isDeleted_of_isDropped hi hdropped, isDeleted_of_isDropped hj hdropped'⟩ hnot
    · rw [hrange, htouches.lineEnd_eq]
      exact le_of_lt hlt
  · exact le_trans hstop (htouches.lineStart_eq ▸ hstart)

/-- Where no two neighbours are both deleted, numbering is done in order. -/
theorem inOrder_editsFrom
    (h : ∀ s ∈ Statement.ofText t, (Node.ofStatement s).IsChain fun l m =>
      ¬ (isDeleted (.ofText uri t) l = true ∧ isDeleted (.ofText uri t) m = true)) :
    Edit.InOrder (editsFrom (.ofText uri t) 0 (Node.ofText t)) := by
  refine ⟨fun e he => (range_of_mem_editsFrom he).1, fun e he => (range_of_mem_editsFrom he).2, ?_⟩
  have hnodes := (@arranged_ofText uri t).pairwise h
  rw [show (Statement.ofText t).flatMap Node.ofStatement = (Node.ofText t).zipIdx.map Prod.fst
    from (List.zipIdx_map_fst 0 (Node.ofText t)).symm, List.pairwise_map] at hnodes
  rw [editsFrom_eq]
  refine List.pairwise_flatMap.2 ⟨?_, hnodes.imp_of_mem ?_⟩
  · rintro ⟨n, i⟩ hni
    have hn := ordered_of_mem_ofText n
      (List.mem_of_getElem? (List.mk_mem_zipIdx_iff_getElem?.1 hni))
    show (nodeEdits (.ofText uri t) n i).Pairwise _
    -- A node makes one edit at most, which stands for the whole list.
    cases hedits : nodeEdits (.ofText uri t) n i with
    | nil => exact .nil
    | cons e es =>
      rw [← hedits, (mem_nodeEdits hn e (hedits ▸ List.mem_cons_self)).1]
      exact List.pairwise_singleton _ _
  · rintro ⟨n, i⟩ ⟨m, j⟩ hni hmj hnm e he f hf
    exact stop_le_start_of_mem_nodeEdits (List.mk_mem_zipIdx_iff_getElem?.1 hni)
      (List.mk_mem_zipIdx_iff_getElem?.1 hmj) hnm he hf

/-- Where the edits can be made, no two neighbours are both deleted. -/
theorem isChain_of_applyAll
    (hmade : ∃ out, Edit.applyAll (.ofText uri t) (toNumbers (.ofText uri t)).edits = .ok out) :
    ∀ s ∈ Statement.ofText t, (Node.ofStatement s).IsChain fun l m =>
      ¬ (isDeleted (.ofText uri t) l = true ∧ isDeleted (.ofText uri t) m = true) := by
  intro s hs
  have harranged := @arranged_ofText uri t
  refine (harranged.chain s hs).imp_of_mem_imp fun l m hl _ htouches hdeleted => ?_
  -- The second deletion starts at the end of the first label, and so within the first deletion.
  have hordered := harranged.ordered s hs l hl
  refine Edit.not_exists_applyAll uri t ?_ (mem_edits_of_isDeleted hdeleted.1)
    (mem_edits_of_isDeleted hdeleted.2) ?_ ?_ hmade
  · intro e he
    exact range_of_mem_editsFrom ((edits_toNumbers_perm uri t).mem_iff.1 he)
  · show lineStart _ l < lineStart _ m
    rw [htouches.lineStart_eq]
    exact lt_of_le_of_lt (lineStart_le _ l) hordered.start_lt_stop
  · show Document.offsetAt _ (lineStart _ m) < Document.offsetAt _ (lineEnd _ l)
    rw [htouches.lineStart_eq, htouches.lineEnd_eq]
    exact htouches.offset_lt

/-- The edits of both conversions can be made, but for numbering where two labels that stand next to
each other are both deleted. -/
theorem exists_applyAll_iff (uri : String) (t : Text) :
    (∀ c, toLabels (.ofText uri t) = .ok c →
      ∃ out, Edit.applyAll (.ofText uri t) c.edits = .ok out) ∧
    ((∃ out, Edit.applyAll (.ofText uri t) (toNumbers (.ofText uri t)).edits = .ok out) ↔
      ∀ s ∈ Statement.ofText t, (Node.ofStatement s).IsChain fun l m =>
        ¬ (isDeleted (.ofText uri t) l = true ∧ isDeleted (.ofText uri t) m = true)) := by
  refine ⟨fun c hc => exists_applyAll_toLabels hc, isChain_of_applyAll, fun h => ?_⟩
  exact Edit.exists_applyAll_of_perm uri t (inOrder_editsFrom h) (edits_toNumbers_perm uri t)

/-- Two labels in front of a jump, both of which are jumped to. -/
def twoLabelsText : Text := "a: b: jump a always\njump b always".toList

/-- Both labels are deleted with the blank between them, so the edits cannot be made. -/
theorem not_exists_applyAll_twoLabels :
    ¬ ∃ out, Edit.applyAll (.ofText "" twoLabelsText)
      (toNumbers (.ofText "" twoLabelsText)).edits = .ok out := by
  have hoverlap : Edit.applyAll (.ofText "" twoLabelsText)
      (toNumbers (.ofText "" twoLabelsText)).edits =
        .error (.overlappingEdits (.of 0 0 0 3) (.of 0 2 0 6)) := by
    decide +kernel
  rintro ⟨out, hout⟩
  rw [hoverlap] at hout
  cases hout

end LogicAsm.Jumps
