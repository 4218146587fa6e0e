import LogicAsm.Layout
import Mathlib.Data.List.Forall2

/-!
# Blocks of nodes

The layout cuts the nodes into blocks and then places them block by block.  Here the blocks are
spread over the nodes: `marks` lists each node's index with the block it lies in, and placing blocks
is placing marked nodes (`placements_eq`).  The blocks cover the nodes, each once and in order
(`map_fst_marks_blocks`), so no node is lost (`map_node_placements`).

## Which comments matter

Where a block at the margin starts is decided by the comments in front of a label, or of the end.  A
comment at the margin that lies in no such block has no say in it, and may as well be indented: the
blocks of the nodes that the layout itself leaves behind are the same (`blocks_congr`).
-/

namespace LogicAsm.Layout

/-! ### Where a block at the margin starts -/

theorem runStart_le {index start : Nat} (h : index ≤ start) (before : List Node) :
    runStart index start before ≤ start := by
  induction before generalizing index start with
  | nil => exact Nat.le_refl _
  | cons n ns ih =>
    unfold runStart
    split
    · split
      · exact Nat.le_trans (ih (Nat.le_refl _)) (by omega)
      · exact ih (by omega)
    · exact Nat.le_refl _

/-- A block at the margin reaches back over comments only. -/
theorem le_runStart {index start : Nat} (h : index ≤ start) (before : List Node) :
    index - (before.takeWhile Node.isComment).length ≤ runStart index start before := by
  induction before generalizing index start with
  | nil => simpa [runStart] using h
  | cons n ns ih =>
    unfold runStart
    by_cases hn : n.isComment = true
    · rw [if_pos hn, List.takeWhile_cons_of_pos hn, List.length_cons]
      split
      · have := @ih (index - 1) (index - 1) (Nat.le_refl _)
        omega
      · have := @ih (index - 1) start (by omega)
        omega
    · rw [if_neg hn]
      omega

/-- Spans in order between two bounds, none of them empty. -/
def Spans (count : Nat) : Nat → List (Nat × Nat) → Prop
  | passed, [] => passed ≤ count
  | passed, (start, stop) :: rest => passed ≤ start ∧ start < stop ∧ Spans count stop rest

theorem Spans.le_count {count passed : Nat} {spans : List (Nat × Nat)}
    (h : Spans count passed spans) : passed ≤ count := by
  induction spans generalizing passed with
  | nil => exact h
  | cons span rest ih =>
    obtain ⟨hstart, hstop, hrest⟩ := h
    have := ih hrest
    omega

/-- The blocks at the margin do not overlap: a run of comments goes back to a node that is none, and
a label is none. -/
theorem spans_marginBlocksFrom {passed index : Nat} {before : List Node} (ns : List Node)
    (hle : passed ≤ index) (hrun : (before.takeWhile Node.isComment).length ≤ index - passed) :
    Spans (index + ns.length) passed (marginBlocksFrom before index ns) := by
  induction ns generalizing passed index before with
  | nil =>
    have hlow := le_runStart (Nat.le_refl index) before
    have hhigh := runStart_le (Nat.le_refl index) before
    unfold marginBlocksFrom
    simp only [List.length_nil, Nat.add_zero]
    split
    · exact hle
    · refine ⟨?_, ?_, Nat.le_refl _⟩ <;> omega
  | cons n ns ih =>
    have hlow := le_runStart (Nat.le_refl index) before
    have hhigh := runStart_le (Nat.le_refl index) before
    have hcount : index + (n :: ns).length = index + 1 + ns.length := by
      rw [List.length_cons]
      omega
    unfold marginBlocksFrom
    rw [hcount]
    by_cases hl : n.isLabel = true
    -- A block ends behind its label, and the next run starts anew there.
    · have hc : ¬ n.isComment = true := by
        simp only [Node.isLabel, beq_iff_eq] at hl
        simp [Node.isComment, hl]
      rw [if_pos hl]
      refine ⟨by omega, by omega, ih (Nat.le_refl _) ?_⟩
      rw [List.takeWhile_cons_of_neg hc]
      simp
    · rw [if_neg hl, List.nil_append]
      apply ih (by omega)
      by_cases hc : n.isComment = true
      · rw [List.takeWhile_cons_of_pos hc, List.length_cons]
        omega
      · rw [List.takeWhile_cons_of_neg hc]
        simp

theorem spans_marginBlocks (nodes : List Node) :
    Spans nodes.length 0 (marginBlocksFrom [] 0 nodes) := by
  have h := @spans_marginBlocksFrom 0 0 [] nodes (Nat.le_refl 0) (by simp)
  rwa [Nat.zero_add] at h

/-! ### Marked nodes -/

/-- The indices of a block, each with the block. -/
def Block.marks (b : Block) : List (Nat × Block) :=
  (List.range' b.start (b.stop - b.start)).map fun i => (i, b)

/-- The indices of all blocks, each with its block. -/
def marks (bs : List Block) : List (Nat × Block) := bs.flatMap Block.marks

theorem map_fst_marks_block (b : Block) :
    b.marks.map Prod.fst = List.range' b.start (b.stop - b.start) := by
  simp [Block.marks, Function.comp_def]

/-- Two rows of numbers, of which the second starts where the first one stops. -/
theorem range'_append_range' {first second last : Nat} (h₁ : first ≤ second) (h₂ : second ≤ last) :
    List.range' first (second - first) ++ List.range' second (last - second) =
      List.range' first (last - first) := by
  have h := @List.range'_append_1 first (second - first) (last - second)
  rw [show first + (second - first) = second by omega] at h
  rw [h]
  congr 1
  omega

/-- Filling the gaps between blocks covers all nodes from the given one on. -/
theorem map_fst_marks_fill {count passed : Nat} {spans : List (Nat × Nat)}
    (h : Spans count passed spans) :
    (marks (fill count passed spans)).map Prod.fst = List.range' passed (count - passed) := by
  induction spans generalizing passed with
  | nil =>
    unfold fill
    split
    · next heq => simp [marks, heq]
    · simp [marks, map_fst_marks_block]
  | cons span rest ih =>
    obtain ⟨start, stop⟩ := span
    obtain ⟨hstart, hstop, hrest⟩ := h
    have hcount := hrest.le_count
    -- The block itself and what is filled in behind it.
    have hblock : (marks (⟨start, stop, false⟩ :: fill count stop rest)).map Prod.fst =
        List.range' start (count - start) := by
      rw [marks, List.flatMap_cons, List.map_append, map_fst_marks_block]
      exact (congrArg _ (ih hrest)).trans (range'_append_range' (Nat.le_of_lt hstop) hcount)
    unfold fill
    split
    · rw [marks, List.flatMap_append, List.map_append, List.flatMap_singleton,
        map_fst_marks_block]
      exact (congrArg _ hblock).trans
        (range'_append_range' hstart (Nat.le_trans (Nat.le_of_lt hstop) hcount))
    · obtain rfl : passed = start := by omega
      exact hblock

/-- The blocks cover the nodes, each once and in order. -/
theorem map_fst_marks_blocks (nodes : List Node) :
    (marks (blocks nodes)).map Prod.fst = List.range nodes.length := by
  rw [blocks, map_fst_marks_fill (spans_marginBlocks nodes), List.range_eq_range', Nat.sub_zero]

theorem length_marks_blocks (nodes : List Node) :
    (marks (blocks nodes)).length = nodes.length := by
  rw [← List.length_map Prod.fst, map_fst_marks_blocks, List.length_range]

/-- A mark stands at its own index. -/
theorem getElem?_marks_of_mem {nodes : List Node} {i : Nat} {b : Block}
    (h : (i, b) ∈ marks (blocks nodes)) : (marks (blocks nodes))[i]? = some (i, b) := by
  obtain ⟨k, hk⟩ := List.mem_iff_getElem?.1 h
  have hfst : ((marks (blocks nodes)).map Prod.fst)[k]? = some i := by
    rw [List.getElem?_map, hk]
    rfl
  rw [map_fst_marks_blocks] at hfst
  have hki : k = i := by
    rw [List.getElem?_range] at hfst
    · exact Option.some.inj hfst
    · by_contra hlt
      rw [List.getElem?_eq_none (by simpa using hlt)] at hfst
      cases hfst
  rw [← hki, hk, hki]

/-- A block at the margin is one of the blocks. -/
theorem mem_fill {count passed start stop : Nat} {spans : List (Nat × Nat)}
    (h : (start, stop) ∈ spans) : ⟨start, stop, false⟩ ∈ fill count passed spans := by
  induction spans generalizing passed with
  | nil => cases h
  | cons span rest ih =>
    rcases List.mem_cons.1 h with rfl | h
    · simp [fill]
    · simp [fill, @ih span.2 h]

/-- The nodes of a block at the margin are marked so. -/
theorem getElem?_marks_of_span {nodes : List Node} {start stop i : Nat}
    (h : (start, stop) ∈ marginBlocksFrom [] 0 nodes) (hstart : start ≤ i) (hstop : i < stop) :
    (marks (blocks nodes))[i]? = some (i, ⟨start, stop, false⟩) := by
  apply getElem?_marks_of_mem
  refine List.mem_flatMap.2 ⟨⟨start, stop, false⟩, mem_fill h, ?_⟩
  refine List.mem_map.2 ⟨i, ?_, rfl⟩
  rw [List.mem_range'_1]
  show start ≤ i ∧ i < start + (stop - start)
  omega

/-- The places of nodes with their marks, where `line` is the line of the node before. -/
def placeMarked (line : Int) : List Node → List (Nat × Block) → List Placement
  | n :: ns, (i, b) :: ms => place b i line n :: placeMarked n.line ns ms
  | _, _ => []

theorem placeMarked_append_range' (b : Block) (index count : Nat) (line : Int) (nodes : List Node)
    (ms : List (Nat × Block)) :
    placeMarked line nodes ((List.range' index count).map (fun i => (i, b)) ++ ms) =
      placeNodes b index line (nodes.take count) ++
        placeMarked (((nodes.take count).getLast?.map Node.line).getD line)
          (nodes.drop count) ms := by
  induction count generalizing index line nodes with
  | zero => simp [placeNodes]
  | succ count ih =>
    cases nodes with
    | nil => simp [placeMarked, placeNodes]
    | cons n ns =>
      have hlast : ((n :: ns.take count).getLast?.map Node.line).getD line =
          ((ns.take count).getLast?.map Node.line).getD n.line := by
        rw [List.getLast?_cons]
        cases (ns.take count).getLast? <;> rfl
      rw [List.range'_succ, List.map_cons, List.cons_append, placeMarked, ih, List.take_succ_cons,
        List.drop_succ_cons, placeNodes, hlast, List.cons_append]

/-- Placing blocks is placing marked nodes. -/
theorem placeBlocks_eq (line : Int) (nodes : List Node) (bs : List Block) :
    placeBlocks line nodes bs = placeMarked line nodes (marks bs) := by
  induction bs generalizing line nodes with
  | nil => cases nodes <;> rfl
  | cons b bs ih =>
    rw [placeBlocks, marks, List.flatMap_cons, Block.marks, placeMarked_append_range', ih]
    rfl

theorem placements_eq (nodes : List Node) :
    placements nodes = placeMarked 0 nodes (marks (blocks nodes)) := placeBlocks_eq 0 nodes _

theorem map_node_placeMarked (line : Int) {nodes : List Node} {ms : List (Nat × Block)}
    (h : ms.length = nodes.length) : (placeMarked line nodes ms).map Placement.node = nodes := by
  induction nodes generalizing line ms with
  | nil =>
    obtain rfl : ms = [] := by simpa using h
    rfl
  | cons n ns ih =>
    obtain ⟨m, ms, rfl⟩ := List.exists_cons_of_length_eq_add_one h
    rw [placeMarked, List.map_cons, ih n.line (by simpa using h)]
    rfl

/-- Every node is placed once, and in order. -/
theorem map_node_placements (nodes : List Node) :
    (placements nodes).map Placement.node = nodes := by
  rw [placements_eq, map_node_placeMarked 0 (length_marks_blocks nodes)]

/-! ### Line breaks stay between their bounds -/

theorem gapBounds_le (index : Nat) (b : Block) :
    0 ≤ (gapBounds index b).1 ∧ (gapBounds index b).1 ≤ (gapBounds index b).2 := by
  unfold gapBounds
  split
  · decide
  · split <;> decide

/-- Only the first node may stand without a line break in front of it. -/
theorem gapBounds_pos {index : Nat} (h : index ≠ 0) (b : Block) : 1 ≤ (gapBounds index b).1 := by
  unfold gapBounds
  rw [if_neg h]
  split <;> decide

theorem clamp_mem {value minimum maximum : Int} (h : minimum ≤ maximum) :
    minimum ≤ clamp value minimum maximum ∧ clamp value minimum maximum ≤ maximum := by
  unfold clamp
  omega

/-- A value between the bounds stays. -/
theorem clamp_eq_self {value minimum maximum : Int} (h₁ : minimum ≤ value) (h₂ : value ≤ maximum) :
    clamp value minimum maximum = value := by
  unfold clamp
  omega

/-- The line breaks in front of a node are between their bounds. -/
theorem place_breaks (b : Block) (index : Nat) (line : Int) (n : Node) :
    (gapBounds index b).1 ≤ (place b index line n).breaks ∧
      (place b index line n).breaks ≤ (gapBounds index b).2 := by
  obtain ⟨hzero, hle⟩ := gapBounds_le index b
  obtain ⟨hlow, hhigh⟩ := @clamp_mem (n.line - line) _ _ hle
  have hcast : ((place b index line n).breaks : Int) =
      clamp (n.line - line) (gapBounds index b).1 (gapBounds index b).2 :=
    Int.toNat_of_nonneg (Int.le_trans hzero hlow)
  rw [hcast]
  exact ⟨hlow, hhigh⟩

/-! ### Which comments matter -/

/-- A node in the place of another one: of the same kind, and if it is a comment, then at the margin
only where the other one is. -/
structure Alike (n m : Node) : Prop where
  isComment : m.isComment = n.isComment
  isLabel : m.isLabel = n.isLabel
  atMargin : n.isComment = true → atMargin m = true → atMargin n = true

/-- A run starts at the same comment, if the comments from there on stay at the margin. -/
theorem runStart_congr {before other : List Node} (halike : List.Forall₂ Alike before other)
    {index start : Nat} (hindex : index = before.length) (hstart : index ≤ start)
    (hkeep : ∀ k n m, before[k]? = some n → other[k]? = some m →
      runStart index start before + k < index → n.isComment = true → atMargin n = true →
        atMargin m = true) :
    runStart index start other = runStart index start before := by
  induction halike generalizing index start with
  | nil => rfl
  | @cons n m ns ms hnm htail ih =>
    by_cases hn : n.isComment = true
    · have hm : m.isComment = true := hnm.isComment.trans hn
      have hback : index - 1 = ns.length := by simp [hindex]
      -- A comment at the margin is in the run, so that it counts for both.
      have hmargin : atMargin m = atMargin n := by
        rw [Bool.eq_iff_iff]
        refine ⟨hnm.atMargin hn, fun hat => hkeep 0 n m rfl rfl ?_ hn hat⟩
        have hle := runStart_le (Nat.le_refl (index - 1)) ns
        rw [runStart, if_pos hn, if_pos hat]
        rw [List.length_cons] at hindex
        omega
      have hstart' : index - 1 ≤ if atMargin n = true then index - 1 else start := by
        split <;> omega
      rw [runStart, runStart, if_pos hn, if_pos hm, hmargin]
      apply ih hback hstart'
      intro k p q hp hq hlt
      refine hkeep (k + 1) p q hp hq ?_
      rw [runStart, if_pos hn]
      omega
    · have hm : ¬ m.isComment = true := by rwa [hnm.isComment]
      rw [runStart, runStart, if_neg hn, if_neg hm]

/-- What stands in front of a place, read backwards. -/
theorem getElem?_reverse_append {before rest : List Node} {k : Nat} {n : Node}
    (h : before[k]? = some n) : (before.reverse ++ rest)[before.length - 1 - k]? = some n := by
  obtain ⟨hk, -⟩ := List.getElem?_eq_some_iff.1 h
  rw [List.getElem?_append_left (by rw [List.length_reverse]; omega),
    List.getElem?_reverse (by omega), ← h]
  congr 1
  omega

/-- The start of a block is kept, if its comments stay at the margin. -/
theorem runStart_congr_of_span {before other ns ms : List Node}
    (hbefore : List.Forall₂ Alike before other) {index stop : Nat} (hindex : index = before.length)
    (hstop : index ≤ stop)
    (hkeep : runStart index index before < index → ∀ i n m,
      runStart index index before ≤ i → i < stop →
      (before.reverse ++ ns)[i]? = some n → (other.reverse ++ ms)[i]? = some m →
        n.isComment = true → atMargin n = true → atMargin m = true) :
    runStart index index other = runStart index index before := by
  apply runStart_congr hbefore hindex (Nat.le_refl _)
  intro k n m hn hm hlt
  obtain ⟨hk, -⟩ := List.getElem?_eq_some_iff.1 hn
  refine hkeep (by omega) (index - 1 - k) n m (by omega) (by omega) ?_ ?_
  · rw [hindex]
    exact getElem?_reverse_append hn
  · rw [hindex, hbefore.length_eq]
    exact getElem?_reverse_append hm

/-- Blocks at the margin are the same, if their comments stay at the margin. -/
theorem marginBlocksFrom_congr {before other ns ms : List Node}
    (hbefore : List.Forall₂ Alike before other) (hns : List.Forall₂ Alike ns ms) {index : Nat}
    (hindex : index = before.length)
    (hkeep : ∀ span ∈ marginBlocksFrom before index ns, ∀ i n m, span.1 ≤ i → i < span.2 →
      (before.reverse ++ ns)[i]? = some n → (other.reverse ++ ms)[i]? = some m →
        n.isComment = true → atMargin n = true → atMargin m = true) :
    marginBlocksFrom other index ms = marginBlocksFrom before index ns := by
  -- Both lists are walked at once, the nodes passed kept for the run in front of a label.
  induction hns generalizing before other index with
  | nil =>
    have hsame : runStart index index other = runStart index index before := by
      refine runStart_congr_of_span hbefore hindex (Nat.le_refl index) fun hlt =>
        hkeep (runStart index index before, index) ?_
      rw [marginBlocksFrom, if_neg (by omega)]
      exact List.mem_singleton.2 rfl
    rw [marginBlocksFrom, marginBlocksFrom, hsame]
  | @cons n m ns ms hnm htail ih =>
    have hrest : marginBlocksFrom (m :: other) (index + 1) ms =
        marginBlocksFrom (n :: before) (index + 1) ns := by
      refine ih (.cons hnm hbefore) (by simp [hindex]) ?_
      intro span hspan i p q h₁ h₂ hp hq
      refine hkeep span ?_ i p q h₁ h₂ (by simpa using hp) (by simpa using hq)
      rw [marginBlocksFrom]
      exact List.mem_append_right _ hspan
    rw [marginBlocksFrom, marginBlocksFrom, hnm.isLabel, hrest]
    by_cases hl : n.isLabel = true
    · have hsame : runStart index index other = runStart index index before := by
        refine runStart_congr_of_span hbefore hindex (Nat.le_succ index) fun _ =>
          hkeep (runStart index index before, index + 1) ?_
        rw [marginBlocksFrom, if_pos hl]
        exact List.mem_append_left _ (List.mem_singleton.2 rfl)
      rw [hsame]
    · rw [if_neg hl, if_neg hl]

/-- Nodes that are alike have the same blocks, if the comments of blocks at the margin stay
there. -/
theorem blocks_congr {nodes others : List Node} (halike : List.Forall₂ Alike nodes others)
    (hkeep : ∀ (i : Nat) (n m : Node) (b : Block), nodes[i]? = some n → others[i]? = some m →
      (marks (blocks nodes))[i]? = some (i, b) → b.indented = false →
        n.isComment = true → atMargin n = true → atMargin m = true) :
    blocks others = blocks nodes := by
  have hmargin : marginBlocksFrom [] 0 others = marginBlocksFrom [] 0 nodes := by
    refine marginBlocksFrom_congr .nil halike rfl ?_
    intro span hspan i n m h₁ h₂ hn hm
    exact hkeep i n m _ hn hm (getElem?_marks_of_span hspan h₁ h₂) rfl
  rw [blocks, blocks, hmargin, halike.length_eq]

end LogicAsm.Layout
