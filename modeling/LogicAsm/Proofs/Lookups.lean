import LogicAsm.Proofs.Extents
import LogicAsm.Proofs.Jumps.Targets

/-!
# Look-ups in a document

The nodes of a text lie one behind the other, each on one line, and between any two of them there is
at least one character: a blank behind a label of the same statement, a separator behind any other
statement (`pairwise_stop_lt_ofText`).  So no two of them hold one position, although a range holds
its end.

The look-ups of a document search in rows that are sorted, and stop where the search cannot go on
with success.  On sorted rows they are what a search of the whole row gives
(`takeWhile_dropWhile_eq_filter`, `counterOf?_eq_some_iff`).
-/

namespace LogicAsm

namespace Position

theorem lt_of_le_of_ne {a b : Position} (hle : a ≤ b) (hne : a ≠ b) : a < b := by
  obtain ⟨aline, acharacter⟩ := a
  obtain ⟨bline, bcharacter⟩ := b
  simp only [ne_eq, mk.injEq] at hne
  simp only [le_iff, lt_iff] at *
  omega

theorem lt_trans {a b c : Position} (hab : a < b) (hbc : b < c) : a < c :=
  lt_of_lt_of_le hab (le_of_lt hbc)

end Position

namespace Jumps

open Piece Position

/-! ### Between two nodes there is a character -/

theorem Touches.stop_lt_start {doc : Document} {n m : Node} (h : Touches doc n m) :
    n.stop < m.start := by
  refine lt_of_le_of_ne (h.lineStart_eq ▸ lineStart_le doc m) fun heq => ?_
  have hlt := h.offset_lt
  rw [heq] at hlt
  exact Nat.lt_irrefl _ hlt

/-- Nodes of which each touches the next one lie one behind the other. -/
theorem pairwise_stop_lt_of_touches {doc : Document} {ns : List Node}
    (hordered : ∀ n ∈ ns, n.Ordered) (hchain : ns.IsChain (Touches doc)) :
    ns.Pairwise fun n m => n.stop < m.start := by
  induction ns with
  | nil => exact .nil
  | cons n ns ih =>
    obtain ⟨hnext, hchain⟩ := List.isChain_cons.1 hchain
    obtain ⟨-, hns⟩ := List.forall_mem_cons.1 hordered
    have hlater := ih hns hchain
    refine List.pairwise_cons.2 ⟨fun m hm => ?_, hlater⟩
    cases ns with
    | nil => cases hm
    | cons next ns =>
      have hfirst := (hnext next rfl).stop_lt_start
      rcases List.mem_cons.1 hm with rfl | hm
      · exact hfirst
      · have hbehind := (List.pairwise_cons.1 hlater).1 m hm
        exact lt_trans hfirst (lt_trans (hns next List.mem_cons_self).start_lt_stop hbehind)

/-- The nodes in the rest of a text lie one behind the other. -/
theorem pairwise_stop_lt_nodesAt {a : Text} (ha : ∀ c ∈ a.getLast?, isBlank c = false)
    {ps : List Piece} (hrow : Row ps) :
    (nodesAt (origin.advance a) ps).Pairwise fun n m => n.stop < m.start := by
  have hstretch {a b : Text} (ha : ∀ c ∈ a.getLast?, isBlank c = false) {s : List Piece}
      (hs : Stretch s) (hrow : Row s) :
      (nodesAt (origin.advance a) s).Pairwise (fun n m => n.stop < m.start) ∧
        ∀ n ∈ nodesAt (origin.advance a) s,
          n.stop ≤ (origin.advance a).advance (s.flatMap text) := by
    have hjoined := @joined_of_stretch "" a b ha s hs hrow
    refine ⟨List.pairwise_flatMap.2 ⟨fun st hst => ?_, ?_⟩, fun n hn => ?_⟩
    · exact pairwise_stop_lt_of_touches (hjoined st hst).ordered (hjoined st hst).chain
    · rw [statementsAt_of_stretch _ _ hs, List.nil_append]
      cases tokensAt (origin.advance a) s with
      | nil => exact .nil
      | cons head tail => exact List.pairwise_singleton _ _
    · obtain ⟨st, hst, hn⟩ := List.mem_flatMap.1 hn
      rcases (hjoined st hst).last n hn with hend | hstop
      · exact le_trans (le_lineEnd _ n) hend
      · exact hstop ▸ le_refl _
  induction ps using stretchInduction generalizing a with
  | last s hs => exact (hstretch (b := []) ha hs hrow).1
  | more s c rest hs ih =>
    have hrest : Row ([.separator c] ++ rest) := hrow.right
    have hblank := isBlank_of_separator (hrow.wellFormed (.separator c) (by simp))
    have hlast : ∀ d ∈ (a ++ (s.flatMap text ++ [c])).getLast?, isBlank d = false := by
      simpa using hblank
    obtain ⟨hfirst, hend⟩ := hstretch (b := []) ha hs hrow.left
    have hlater := ih rest (Nat.le_refl _) hlast hrest.right
    have harranged := @arranged_statementsAt "" _ _ hlast _ hrest.right rfl
    rw [nodesAt_append_separator, ← advance_append]
    refine List.pairwise_append.2 ⟨hfirst, hlater, fun n hn m hm => ?_⟩
    -- The separator stands between the end of the one and the start of the other.
    obtain ⟨st, hst, hm⟩ := List.mem_flatMap.1 hm
    have hbehind := le_trans (harranged.le_lineStart st hst m hm) (lineStart_le _ m)
    refine lt_of_le_of_lt (hend n hn) (lt_of_lt_of_le ?_ hbehind)
    rw [← List.append_assoc, advance_append _ (a ++ _), advance_append]
    exact lt_advance _ (by simp)

theorem pairwise_stop_lt_ofText (t : Text) :
    (Node.ofText t).Pairwise fun n m => n.stop < m.start := by
  rw [Node.ofText_eq]
  exact @pairwise_stop_lt_nodesAt [] (by simp) _ (row_ofText t)

/-- A node starts and stops on one line. -/
theorem stop_line_of_mem_ofText {t : Text} {n : Node} (hn : n ∈ Node.ofText t) :
    n.stop.line = n.start.line :=
  (Node.inLine_of_mem_ofText n hn).range.stop_line

end Jumps

/-! ### Searching in sorted rows -/

/-- In a row that is sorted by a key, those with one key stand together. -/
theorem takeWhile_dropWhile_eq_filter {α : Type} {key : α → Int} {xs : List α}
    (h : xs.Pairwise fun x y => key x ≤ key y) (k : Int) :
    ((xs.dropWhile fun x => key x < k).takeWhile fun x => key x ≤ k) =
      xs.filter fun x => key x = k := by
  -- By where the key of the first element stands against the one searched.
  induction xs with
  | nil => rfl
  | cons x xs ih =>
    obtain ⟨hx, hxs⟩ := List.pairwise_cons.1 h
    rcases Int.lt_trichotomy (key x) k with hlt | heq | hgt
    · rw [List.dropWhile_cons_of_pos (by simpa using hlt), ih hxs,
        List.filter_cons_of_neg (by simpa using Int.ne_of_lt hlt)]
    · -- From the first one with the key on, nothing is dropped any more.
      have hnone : (xs.dropWhile fun y => key y < k) = xs := by
        cases xs with
        | nil => rfl
        | cons y ys =>
          have hle := hx y List.mem_cons_self
          exact List.dropWhile_cons_of_neg (by simp only [decide_eq_true_eq]; omega)
      rw [List.dropWhile_cons_of_neg (by simp [heq]), List.takeWhile_cons_of_pos (by simp [heq]),
        List.filter_cons_of_pos (by simpa using heq), ← ih hxs, hnone]
    · rw [List.dropWhile_cons_of_neg (by simp only [decide_eq_true_eq]; omega),
        List.takeWhile_cons_of_neg (by simp only [decide_eq_true_eq]; omega)]
      symm
      refine List.filter_eq_nil_iff.2 (List.forall_mem_cons.2 ⟨?_, fun y hy => ?_⟩)
      · simpa using Int.ne_of_gt hgt
      · have hle := hx y hy
        simp only [decide_eq_true_eq]
        omega

namespace Document

open Jumps Position

variable {uri : String} {t : Text}

/-- The nodes of a line are those that start on it. -/
theorem nodesOnLine_eq_filter (line : Int) :
    (ofText uri t).nodesOnLine line = (ofText uri t).nodes.filter fun n => n.line = line := by
  apply takeWhile_dropWhile_eq_filter
  apply (pairwise_start_ofText t).imp
  intro n m hlt
  rw [Node.line, Node.line]
  simp only [lt_iff] at hlt
  omega

/-- A position is in one node at most: of two that hold it, neither ends in front of the other. -/
theorem length_filter_contains_le (p : Position) :
    ((ofText uri t).nodes.filter fun n => n.range.contains p).length ≤ 1 := by
  have hpairwise : ((ofText uri t).nodes.filter fun n => n.range.contains p).Pairwise
      fun n m => n.stop < m.start := (pairwise_stop_lt_ofText t).filter _
  have hholds : ∀ n ∈ (ofText uri t).nodes.filter fun n => n.range.contains p,
      n.start ≤ p ∧ p ≤ n.stop :=
    fun n hn => Range.contains_iff.1 (List.mem_filter.1 hn).2
  rcases hns : (ofText uri t).nodes.filter fun n => n.range.contains p with _ | ⟨n, _ | ⟨m, ns⟩⟩
  · simp [hns]
  · simp [hns]
  · rw [hns] at hpairwise hholds
    have hapart := (List.pairwise_cons.1 hpairwise).1 m List.mem_cons_self
    have hle := le_trans (hholds m (by simp)).1 (hholds n (by simp)).2
    exact absurd hle (Position.not_le.2 hapart)

/-- A position is looked up among the nodes of its line, and no other node holds it. -/
theorem nodeAtPosition?_eq_find? (p : Position) :
    (ofText uri t).nodeAtPosition? p =
      (ofText uri t).nodes.find? fun n => n.range.contains p := by
  rw [nodeAtPosition?, nodesOnLine_eq_filter, ← List.head?_filter, List.filter_filter,
    ← List.head?_filter]
  refine congrArg List.head? (List.filter_congr fun n hn => ?_)
  rw [Bool.and_eq_left_iff_imp]
  intro hholds
  obtain ⟨hstart, hstop⟩ := Range.contains_iff.1 hholds
  have hline := stop_line_of_mem_ofText hn
  simp only [Node.range, le_iff] at hstart hstop
  rw [decide_eq_true_eq, Node.line]
  omega

theorem nodeAtPosition?_eq_some_iff (p : Position) (n : Node) :
    (ofText uri t).nodeAtPosition? p = some n ↔
      n ∈ (ofText uri t).nodes ∧ n.range.contains p = true := by
  rw [nodeAtPosition?_eq_find?, ← List.head?_filter]
  refine ⟨fun h => List.mem_filter.1 (List.mem_of_mem_head? h), fun h => ?_⟩
  have hfilter : n ∈ (ofText uri t).nodes.filter fun n => n.range.contains p :=
    List.mem_filter.2 h
  obtain ⟨m, hm⟩ := List.length_eq_one_iff.1
    (Nat.le_antisymm (length_filter_contains_le p) (List.length_pos_of_mem hfilter))
  rw [hm] at hfilter ⊢
  rw [List.mem_singleton.1 hfilter]
  rfl

/-- The counter of a node is its place among the instructions. -/
theorem counterOf?_eq_some_iff (i : Int) (c : Nat) :
    (ofText uri t).counterOf? i = some c ↔
      (ofText uri t).instructions[c]?.map Int.ofNat = some i := by
  simp only [counterOf?]
  constructor
  · intro h
    split at h
    · next hfound => exact Option.some.inj h ▸ hfound
    · cases h
  · intro h
    obtain ⟨k, hk, rfl⟩ := Option.map_eq_some_iff.1 h
    have hcounter := counterAt?_of_getElem? (pairwise_instructionIndicesFrom 0 (Node.ofText t)) hk
    have hlength : ((ofText uri t).instructions.takeWhile
        fun j : Nat => (j : Int) < (Int.ofNat k)).length = c := by
      -- The search compares integers here, and the bisect natural numbers.
      have hcast : (fun j : Nat => decide ((j : Int) < Int.ofNat k)) = fun j => decide (j < k) := by
        funext j
        exact decide_eq_decide.2 Int.ofNat_lt
      rw [hcast]
      simp only [counterAt?] at hcounter
      split at hcounter
      · exact Option.some.inj hcounter
      · cases hcounter
    rw [hlength, h, if_pos rfl]

/-- A label is looked up where it is declared first. -/
theorem labelDeclaration?_eq_find? (name : Text) :
    (ofText uri t).labelDeclaration? name =
      (ofText uri t).nodes.find? (LabelTable.declares name) := by
  rw [labelDeclaration?, show (ofText uri t).labels = LabelTable.ofNodes (ofText uri t).nodes from
    rfl, LabelTable.find?_ofNodes, List.find?_eq_bind_findIdx?_getElem?]

/-- The nodes of a text stand one behind the other, each on one line and with at least one character
to the next one, so that a position is in one of them at most.  Therefore the look-ups find what
they are asked for: all nodes that start on a line, in their order; the node that holds a position,
which is the only one; the place of a node among the instructions; and the first declaration of a
label. -/
theorem lookups_of_ordered_nodes (uri : String) (t : Text) :
    (∀ n ∈ (ofText uri t).nodes, n.start.line = n.stop.line ∧ n.start < n.stop) ∧
      (ofText uri t).nodes.Pairwise (fun n m => n.stop < m.start) ∧
      (∀ p : Position, ((ofText uri t).nodes.filter fun n => n.range.contains p).length ≤ 1) ∧
      (∀ line : Int, (ofText uri t).nodesOnLine line =
        (ofText uri t).nodes.filter fun n => n.start.line = line) ∧
      (∀ (p : Position) (n : Node), (ofText uri t).nodeAtPosition? p = some n ↔
        n ∈ (ofText uri t).nodes ∧ n.range.contains p = true) ∧
      (∀ i c : Int, ((ofText uri t).counterOf? i).map Int.ofNat = some c ↔
        0 ≤ c ∧ c < (ofText uri t).instructions.length ∧
          (ofText uri t).instructions[c.toNat]?.map Int.ofNat = some i) ∧
      ∀ name : Text, (ofText uri t).labelDeclaration? name =
        (ofText uri t).nodes.find? fun n => n.isLabel && n.labelName == name := by
  refine ⟨fun n hn => ⟨(stop_line_of_mem_ofText hn).symm, ?_⟩, pairwise_stop_lt_ofText t,
    length_filter_contains_le, nodesOnLine_eq_filter, nodeAtPosition?_eq_some_iff, fun i c => ?_,
    labelDeclaration?_eq_find?⟩
  · exact (ordered_of_mem_ofText n hn).start_lt_stop
  · rw [Option.map_eq_some_iff]
    constructor
    · rintro ⟨k, hk, rfl⟩
      have hcounter := (counterOf?_eq_some_iff i k).1 hk
      obtain ⟨j, hj, -⟩ := Option.map_eq_some_iff.1 hcounter
      have hlt := (List.getElem?_eq_some_iff.1 hj).1
      exact ⟨Int.natCast_nonneg k, Int.ofNat_lt.2 hlt, hcounter⟩
    · rintro ⟨hc, -, hcounter⟩
      exact ⟨c.toNat, (counterOf?_eq_some_iff i c.toNat).2 hcounter, Int.toNat_of_nonneg hc⟩

end Document

end LogicAsm
