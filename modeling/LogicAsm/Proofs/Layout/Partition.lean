import LogicAsm.Proofs.Layout.Blocks
import Mathlib.Order.Bounds.Basic

/-!
# Which nodes stand at the margin

A block at the margin ends behind a label, or at the end of the program, and the run of comments in
front of that place decides where it starts: at the first comment of the run that stands in column
zero (`MarginBlock`).  The scan from the label backwards finds that comment (`isLeast_runStart`), so
the blocks that are collected are just these (`mem_marginBlocksFrom_iff`).

Filling the gaps makes a row of blocks without gap or overlap (`consecutive_fill`), of which only
the first gap is at the margin (`exists_fill_iff`).  Together they say of each node whether it is
indented (`blocks_partition`).
-/

namespace LogicAsm.Layout

/-! ### Runs of comments -/

/-- Whether a node is in the run of comments directly in front of `stop`.  The run is as long as can
be: its nodes are those from which on all nodes up to `stop` are comments. -/
def InRun (nodes : List Node) (stop i : Nat) : Prop :=
  i < stop ∧ ∀ k, i ≤ k → k < stop → ∃ n, nodes[k]? = some n ∧ n.isComment = true

/-- Whether a node is a comment in column zero of the run directly in front of `stop`. -/
def InRunAtMargin (nodes : List Node) (stop i : Nat) : Prop :=
  InRun nodes stop i ∧ ∃ n, nodes[i]? = some n ∧ atMargin n = true

/-- The blocks of labels and of comments at the end: where they start, and where they stop. -/
inductive MarginBlock (nodes : List Node) : Nat → Nat → Prop where
  /-- A label, with the comments in front of it from the first one in column zero on. -/
  | label {start index : Nat} : IsLabelAt nodes index →
    IsLeast {c | c = index ∨ InRunAtMargin nodes index c} start →
    MarginBlock nodes start (index + 1)
  /-- The comments at the end, from the first one in column zero on. -/
  | comments {start : Nat} : IsLeast {c | InRunAtMargin nodes nodes.length c} start →
    MarginBlock nodes start nodes.length

theorem InRun.mono {nodes : List Node} {stop c i : Nat} (h : InRun nodes stop c) (hle : c ≤ i)
    (hlt : i < stop) : InRun nodes stop i :=
  ⟨hlt, fun k hik hk => h.2 k (Nat.le_trans hle hik) hk⟩

/-- The scan backwards finds the first comment in column zero of a run: `start` is the first one of
those behind the nodes that are left. -/
theorem isLeast_runStart {nodes before rest : List Node} (hnodes : nodes = before.reverse ++ rest)
    {stop start : Nat}
    (hrun : ∀ k, before.length ≤ k → k < stop → ∃ n, nodes[k]? = some n ∧ n.isComment = true)
    (hstop : before.length ≤ stop)
    (hstart : IsLeast {c | c = stop ∨ before.length ≤ c ∧ InRunAtMargin nodes stop c} start) :
    IsLeast {c | c = stop ∨ InRunAtMargin nodes stop c} (runStart before.length start before) := by
  -- Backwards over the nodes passed, with the least start found so far.
  induction before generalizing rest start with
  | nil => simpa [runStart] using hstart
  | cons n ns ih =>
    have hshorter : nodes = ns.reverse ++ n :: rest := by simp [hnodes]
    have hn : nodes[ns.length]? = some n := by simp [hnodes]
    rw [List.length_cons] at hrun hstop hstart ⊢
    rw [runStart, Nat.add_sub_cancel]
    by_cases hc : n.isComment = true
    · have hlonger : ∀ k, ns.length ≤ k → k < stop →
          ∃ m, nodes[k]? = some m ∧ m.isComment = true := by
        intro k hle hk
        rcases Nat.eq_or_lt_of_le hle with rfl | hlt
        · exact ⟨n, hn, hc⟩
        · exact hrun k hlt hk
      rw [if_pos hc]
      refine ih hshorter hlonger (by omega) ?_
      by_cases hat : atMargin n = true
      · rw [if_pos hat]
        refine ⟨.inr ⟨Nat.le_refl _, ⟨by omega, hlonger⟩, n, hn, hat⟩, ?_⟩
        rintro c (rfl | ⟨hle, -⟩)
        · omega
        · exact hle
      · rw [if_neg hat]
        refine ⟨hstart.1.imp_right fun h => ⟨by omega, h.2⟩, ?_⟩
        rintro c (rfl | ⟨hle, hlead⟩)
        · exact hstart.2 (.inl rfl)
        · refine hstart.2 (.inr ⟨?_, hlead⟩)
          obtain ⟨-, m, hm, hmargin⟩ := hlead
          rcases Nat.eq_or_lt_of_le hle with rfl | hlt
          · obtain rfl := Option.some.inj (hn.symm.trans hm)
            exact absurd hmargin hat
          · exact hlt
    · -- The run ends here, so all its comments were passed.
      rw [if_neg hc]
      refine ⟨hstart.1.imp_right And.right, ?_⟩
      rintro c (rfl | hlead)
      · exact hstart.2 (.inl rfl)
      · refine hstart.2 (.inr ⟨?_, hlead⟩)
        by_contra hlt
        obtain ⟨m, hm, hcomment⟩ := hlead.1.2 ns.length (by omega) (by omega)
        obtain rfl := Option.some.inj (hn.symm.trans hm)
        exact hc hcomment

/-- Where the scan from a place backwards ends. -/
theorem isLeast_iff_eq_runStart {nodes before rest : List Node}
    (hnodes : nodes = before.reverse ++ rest) {start : Nat} :
    IsLeast {c | c = before.length ∨ InRunAtMargin nodes before.length c} start ↔
      start = runStart before.length before.length before := by
  have hscan : IsLeast {c | c = before.length ∨ InRunAtMargin nodes before.length c}
      (runStart before.length before.length before) := by
    refine isLeast_runStart hnodes (fun k _ _ => by omega) (Nat.le_refl _) ⟨.inl rfl, ?_⟩
    rintro c (rfl | ⟨hle, -⟩)
    · exact Nat.le_refl _
    · exact hle
  constructor
  · intro h
    exact h.unique hscan
  · rintro rfl
    exact hscan

/-- A run with a comment in column zero starts in front of the place that it ends at. -/
theorem isLeast_inRunAtMargin_iff {nodes : List Node} {stop start : Nat} :
    IsLeast {c | InRunAtMargin nodes stop c} start ↔
      IsLeast {c | c = stop ∨ InRunAtMargin nodes stop c} start ∧ start ≠ stop := by
  constructor
  · intro h
    have hlt : start < stop := h.1.1.1
    refine ⟨⟨.inr h.1, ?_⟩, by omega⟩
    rintro c (rfl | hc)
    · omega
    · exact h.2 hc
  · rintro ⟨h, hne⟩
    exact ⟨h.1.resolve_left hne, fun c hc => h.2 (.inr hc)⟩

/-- The blocks at the margin that are collected from a place on. -/
theorem mem_marginBlocksFrom_iff {nodes before ns : List Node}
    (hnodes : nodes = before.reverse ++ ns) {start stop : Nat} :
    (start, stop) ∈ marginBlocksFrom before before.length ns ↔
      (∃ i, before.length ≤ i ∧ stop = i + 1 ∧ IsLabelAt nodes i ∧
        IsLeast {c | c = i ∨ InRunAtMargin nodes i c} start) ∨
      stop = nodes.length ∧ IsLeast {c | InRunAtMargin nodes nodes.length c} start := by
  induction ns generalizing before with
  | nil =>
    have hlength : nodes.length = before.length := by simp [hnodes]
    -- No node is left, so a block can only be the run of comments at the end.
    have hnone : ¬ ∃ i, before.length ≤ i ∧ stop = i + 1 ∧ IsLabelAt nodes i ∧
        IsLeast {c | c = i ∨ InRunAtMargin nodes i c} start := by
      rintro ⟨i, hi, -, ⟨n, hn, -⟩, -⟩
      have hlt := (List.getElem?_eq_some_iff.1 hn).1
      omega
    rw [or_iff_right hnone, isLeast_inRunAtMargin_iff, hlength, isLeast_iff_eq_runStart hnodes,
      marginBlocksFrom]
    split
    · next hnothing =>
      constructor
      · intro h
        cases h
      · rintro ⟨-, rfl, hne⟩
        exact absurd hnothing hne
    · next hsome =>
      rw [List.mem_singleton, Prod.mk.injEq]
      constructor
      · rintro ⟨rfl, rfl⟩
        exact ⟨rfl, rfl, hsome⟩
      · rintro ⟨rfl, rfl, -⟩
        exact ⟨rfl, rfl⟩
  | cons n ns ih =>
    have hlonger : nodes = (n :: before).reverse ++ ns := by simp [hnodes]
    have hn : nodes[before.length]? = some n := by simp [hnodes]
    rw [marginBlocksFrom, List.mem_append, ← List.length_cons (a := n), ih hlonger, ← or_assoc]
    refine or_congr_left ?_
    constructor
    · rintro (hhere | ⟨i, hi, hrest⟩)
      · by_cases hl : n.isLabel = true
        · rw [if_pos hl, List.mem_singleton, Prod.mk.injEq] at hhere
          obtain ⟨rfl, rfl⟩ := hhere
          exact ⟨before.length, Nat.le_refl _, rfl, ⟨n, hn, hl⟩,
            (isLeast_iff_eq_runStart hnodes).2 rfl⟩
        · rw [if_neg hl] at hhere
          cases hhere
      · rw [List.length_cons] at hi
        exact ⟨i, by omega, hrest⟩
    · rintro ⟨i, hi, hstop, ⟨m, hm, hl⟩, hstart⟩
      rcases Nat.eq_or_lt_of_le hi with rfl | hlt
      · left
        obtain rfl := Option.some.inj (hn.symm.trans hm)
        rw [if_pos hl, List.mem_singleton, Prod.mk.injEq]
        exact ⟨(isLeast_iff_eq_runStart hnodes).1 hstart, hstop⟩
      · exact .inr ⟨i, hlt, hstop, ⟨m, hm, hl⟩, hstart⟩

/-- The blocks that are collected are those of labels and of comments at the end. -/
theorem mem_marginBlocks_iff {nodes : List Node} {start stop : Nat} :
    (start, stop) ∈ marginBlocksFrom [] 0 nodes ↔ MarginBlock nodes start stop := by
  refine (@mem_marginBlocksFrom_iff nodes [] nodes rfl start stop).trans ?_
  constructor
  · rintro (⟨i, -, rfl, hl, hstart⟩ | ⟨rfl, hstart⟩)
    · exact .label hl hstart
    · exact .comments hstart
  · rintro (⟨hl, hstart⟩ | hstart)
    · exact .inl ⟨_, Nat.zero_le _, rfl, hl, hstart⟩
    · exact .inr ⟨rfl, hstart⟩

/-! ### Filling the gaps -/

/-- The indices of a block. -/
def Block.indices (b : Block) : List Nat := List.range' b.start (b.stop - b.start)

/-- A row of blocks from one place to another: none is empty, and each starts where the one in
front of it stops. -/
def Consecutive (last : Nat) : Nat → List Block → Prop
  | first, [] => first = last
  | first, b :: bs => b.start = first ∧ b.start < b.stop ∧ Consecutive last b.stop bs

theorem mem_indices {b : Block} {i : Nat} : i ∈ b.indices ↔ b.start ≤ i ∧ i < b.stop := by
  rw [Block.indices, List.mem_range'_1]
  omega

theorem map_fst_marks (bs : List Block) : (marks bs).map Prod.fst = bs.flatMap Block.indices := by
  rw [marks, List.map_flatMap]
  exact List.flatMap_congr fun b _ => map_fst_marks_block b

/-- Spans with the gaps between them filled are a row. -/
theorem consecutive_fill {count passed : Nat} {spans : List (Nat × Nat)}
    (h : Spans count passed spans) : Consecutive count passed (fill count passed spans) := by
  induction spans generalizing passed with
  | nil =>
    have hle : passed ≤ count := h
    unfold fill
    split
    · assumption
    · exact ⟨rfl, by show passed < count; omega, rfl⟩
  | cons span rest ih =>
    obtain ⟨start, stop⟩ := span
    obtain ⟨hstart, hstop, hrest⟩ := h
    unfold fill
    split
    · next hgap => exact ⟨rfl, hgap, rfl, hstop, ih hrest⟩
    · exact ⟨by show start = passed; omega, hstop, ih hrest⟩

theorem Spans.le_of_mem {count passed : Nat} {spans : List (Nat × Nat)}
    (h : Spans count passed spans) {span : Nat × Nat} (hspan : span ∈ spans) :
    passed ≤ span.1 := by
  induction spans generalizing passed with
  | nil => cases hspan
  | cons first rest ih =>
    obtain ⟨hstart, hstop, hrest⟩ := h
    rcases List.mem_cons.1 hspan with rfl | hspan
    · exact hstart
    · have hle := ih hrest hspan
      omega

theorem Consecutive.le_of_mem {first last : Nat} {bs : List Block} (h : Consecutive last first bs)
    {b : Block} (hb : b ∈ bs) : first ≤ b.start := by
  induction bs generalizing first with
  | nil => cases hb
  | cons c cs ih =>
    obtain ⟨hstart, hstop, hrest⟩ := h
    rcases List.mem_cons.1 hb with rfl | hb
    · omega
    · have hle := ih hrest hb
      omega

/-- A node is in a block at the margin if a span holds it, or if it stands in front of all spans
and nothing was passed. -/
theorem exists_fill_iff {count passed i : Nat} {spans : List (Nat × Nat)}
    (h : Spans count passed spans) (hle : passed ≤ i) (hlt : i < count) :
    (∃ b ∈ fill count passed spans, b.indented = false ∧ i ∈ b.indices) ↔
      (passed = 0 ∧ ∀ span ∈ spans, i < span.1) ∨ ∃ span ∈ spans, span.1 ≤ i ∧ i < span.2 := by
  induction spans generalizing passed with
  | nil =>
    rw [fill, if_neg (by omega)]
    simp [mem_indices, hle, hlt]
  | cons span rest ih =>
    obtain ⟨start, stop⟩ := span
    obtain ⟨hstart, hstop, hrest⟩ := h
    have hparts : (∃ b ∈ fill count passed ((start, stop) :: rest),
        b.indented = false ∧ i ∈ b.indices) ↔ (passed = 0 ∧ i < start) ∨ (start ≤ i ∧ i < stop) ∨
          ∃ b ∈ fill count stop rest, b.indented = false ∧ i ∈ b.indices := by
      rw [fill]
      split
      · simp [mem_indices, hle]
      · have hgap : ¬ (passed = 0 ∧ i < start) := by omega
        simp [mem_indices, hgap]
    rw [hparts, List.forall_mem_cons, List.exists_mem_cons_iff]
    by_cases hbehind : stop ≤ i
    · have hfront : ¬ i < start := by omega
      have hhere : ¬ i < stop := by omega
      have hpassed : stop ≠ 0 := by omega
      simp [ih hrest hbehind, hfront, hhere, hpassed]
    -- What comes behind this span starts behind the node.
    · have hblocks : ¬ ∃ b ∈ fill count stop rest, b.indented = false ∧ i ∈ b.indices := by
        rintro ⟨b, hb, -, hi⟩
        have hle := (consecutive_fill hrest).le_of_mem hb
        have hi := (mem_indices.1 hi).1
        omega
      have hrow : ∀ span ∈ rest, i < span.1 := fun span hspan => by
        have hle := hrest.le_of_mem hspan
        omega
      have hnone : ¬ ∃ span ∈ rest, span.1 ≤ i ∧ i < span.2 := by
        rintro ⟨span, hspan, hi, -⟩
        have hlt := hrow span hspan
        omega
      rw [or_iff_left hblocks, or_iff_left hnone, and_iff_left hrow]

/-! ### The partition -/

/-- The run in front of a place has a first comment in column zero, if the place itself counts. -/
theorem exists_isLeast {nodes : List Node} {stop : Nat} (h : stop ≤ nodes.length) :
    ∃ start, IsLeast {c | c = stop ∨ InRunAtMargin nodes stop c} start := by
  have hlength : (nodes.take stop).reverse.length = stop := by
    rw [List.length_reverse, List.length_take]
    omega
  have hnodes : nodes = (nodes.take stop).reverse.reverse ++ nodes.drop stop := by
    rw [List.reverse_reverse, List.take_append_drop]
  have hstart := (isLeast_iff_eq_runStart hnodes).2 rfl
  rw [hlength] at hstart
  exact ⟨_, hstart⟩

theorem le_length_of_isLabelAt {nodes : List Node} {i : Nat} (h : IsLabelAt nodes i) :
    i ≤ nodes.length := by
  obtain ⟨n, hn, -⟩ := h
  exact Nat.le_of_lt (List.getElem?_eq_some_iff.1 hn).1

/-- A label has a block that stops behind it. -/
theorem exists_marginBlock_of_isLabelAt {nodes : List Node} {i : Nat} (h : IsLabelAt nodes i) :
    ∃ start, MarginBlock nodes start (i + 1) ∧ start ≤ i := by
  obtain ⟨start, hstart⟩ := exists_isLeast (le_length_of_isLabelAt h)
  exact ⟨start, .label h hstart, hstart.2 (.inl rfl)⟩

/-- The nodes of the blocks of labels and of comments at the end are the labels, and in the run in
front of a label or of the end those from the first comment in column zero on. -/
theorem exists_marginBlock_iff {nodes : List Node} {i : Nat} :
    (∃ start stop, MarginBlock nodes start stop ∧ start ≤ i ∧ i < stop) ↔
      IsLabelAt nodes i ∨ ∃ stop, (IsLabelAt nodes stop ∨ stop = nodes.length) ∧
        InRun nodes stop i ∧ ∃ c ≤ i, InRunAtMargin nodes stop c := by
  constructor
  · rintro ⟨start, stop, hblock, hstart, hstop⟩
    cases hblock with
    | @label index hl hleast =>
      by_cases hi : i = index
      · exact .inl (hi ▸ hl)
      · have hlead := hleast.1.resolve_left (by omega)
        exact .inr ⟨index, .inl hl, hlead.1.mono hstart (by omega), start, hstart, hlead⟩
    | comments hleast =>
      exact .inr ⟨_, .inr rfl, hleast.1.1.mono hstart hstop, start, hstart, hleast.1⟩
  · rintro (hl | ⟨stop, hstop, hrun, c, hc, hlead⟩)
    · obtain ⟨start, hblock, hle⟩ := exists_marginBlock_of_isLabelAt hl
      exact ⟨start, i + 1, hblock, hle, Nat.lt_succ_self i⟩
    · have hlt : i < stop := hrun.1
      have hle : stop ≤ nodes.length := hstop.elim le_length_of_isLabelAt Nat.le_of_eq
      -- The block starts at the least comment of the run at the margin, hence not behind `c`.
      obtain ⟨start, hleast⟩ := exists_isLeast hle
      have hfirst : start ≤ c := hleast.2 (.inr hlead)
      rcases hstop with hl | rfl
      · exact ⟨start, stop + 1, .label hl hleast, by omega, by omega⟩
      · have hsome : start ≠ nodes.length := by omega
        exact ⟨start, _, .comments (isLeast_inRunAtMargin_iff.2 ⟨hleast, hsome⟩), by omega, hlt⟩

/-- The blocks are a partition of the nodes: intervals that are not empty, each starting where the
one in front of it stops, which list every index once and in order.  A label is the last node of a
block at the margin.  At the margin are the nodes in front of all blocks of labels and of comments
at the end, the labels, and of a run of comments directly in front of a label or of the end the
nodes from its first comment in column zero on; all others are indented. -/
theorem blocks_partition (nodes : List Node) :
    Consecutive nodes.length 0 (blocks nodes) ∧
    (blocks nodes).flatMap Block.indices = List.range nodes.length ∧
    (∀ start stop, MarginBlock nodes start stop → ⟨start, stop, false⟩ ∈ blocks nodes) ∧
    (∀ i, IsLabelAt nodes i →
      ∃ b ∈ blocks nodes, b.indented = false ∧ i ∈ b.indices ∧ b.stop = i + 1) ∧
    ∀ i < nodes.length, (∃ b ∈ blocks nodes, b.indented = false ∧ i ∈ b.indices) ↔
      (∀ start stop, MarginBlock nodes start stop → i < start) ∨ IsLabelAt nodes i ∨
        ∃ stop, (IsLabelAt nodes stop ∨ stop = nodes.length) ∧ InRun nodes stop i ∧
          ∃ c ≤ i, InRunAtMargin nodes stop c := by
  have hspans := spans_marginBlocks nodes
  have hblock {start stop : Nat} (h : MarginBlock nodes start stop) :
      ⟨start, stop, false⟩ ∈ blocks nodes := mem_fill (mem_marginBlocks_iff.2 h)
  refine ⟨consecutive_fill hspans, ?_, fun _ _ => hblock, ?_, ?_⟩
  · rw [← map_fst_marks, map_fst_marks_blocks]
  · intro i hi
    obtain ⟨start, hmargin, hstart⟩ := exists_marginBlock_of_isLabelAt hi
    exact ⟨_, hblock hmargin, rfl, mem_indices.2 ⟨hstart, Nat.lt_succ_self i⟩, rfl⟩
  · intro i hi
    rw [blocks, exists_fill_iff hspans (Nat.zero_le i) hi, ← exists_marginBlock_iff]
    simp only [Prod.forall, Prod.exists, mem_marginBlocks_iff, true_and]

/-- Of the comments above a label, an indented one in front of the first one in column zero is left
to the block above, and one behind it is not. -/
example :
    blocks (Node.ofText "set x 1\n  # a\n# b\n  # c\nloop:\nend".toList) =
      [⟨0, 2, false⟩, ⟨2, 5, false⟩, ⟨5, 6, true⟩] := by
  decide +kernel

end LogicAsm.Layout
