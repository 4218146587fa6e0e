import LogicAsm.Proofs.Flow.Counters
import LogicAsm.Proofs.Jumps.References

/-!
# Conversions and the flow of control agree

Where a jump goes is found out three times: the flow graph resolves a destination to a node, and
each of the conversions finds the counter of an instruction in its own way.  They agree
(`conversions_agree_with_flow`): a conversion replaces the destinations that the graph resolves, by
a number or a name that leads to the same instruction.

What ties nodes to counters is the number of instructions in front of a node (`counterBefore`).  It
is the counter that a label is given, if an instruction follows (`counterAt?_eq_some_iff`), and the
node of an instruction is found by it.
-/

namespace LogicAsm

/-! ### Nodes and counters -/

/-- There is an instruction at a node or behind it. -/
def InstructionFrom (nodes : List Node) (i : Nat) : Prop :=
  ∃ (j : Nat) (n : Node), i ≤ j ∧ nodes[j]? = some n ∧ n.isInstruction = true

/-- The first instruction at a node or behind it. -/
structure NextInstruction (nodes : List Node) (i target : Nat) : Prop where
  le : i ≤ target
  isInstruction : ∃ n, nodes[target]? = some n ∧ n.isInstruction = true
  first : ∀ (j : Nat) (n : Node), i ≤ j → j < target → nodes[j]? = some n → n.isInstruction = false

theorem length_takeWhile_instructionIndicesFrom (index : Nat) (nodes : List Node) (i : Nat) :
    ((instructionIndicesFrom index nodes).takeWhile (· < index + i)).length =
      counterBefore nodes i := by
  induction nodes generalizing index i with
  | nil => simp [instructionIndicesFrom, counterBefore]
  | cons n ns ih =>
    cases i with
    | zero =>
      -- Every index of the list is `index` or above, so none is taken.
      have hnone : (instructionIndicesFrom index (n :: ns)).takeWhile (· < index + 0) = [] := by
        cases hindices : instructionIndicesFrom index (n :: ns) with
        | nil => rfl
        | cons k ks =>
          have hle := le_of_mem_instructionIndicesFrom (hindices ▸ List.mem_cons_self (a := k))
          exact List.takeWhile_cons_of_neg (by simpa using hle)
      rw [hnone]
      rfl
    | succ i =>
      have hrest := ih (index + 1) i
      rw [show index + 1 + i = index + (i + 1) by omega] at hrest
      rw [counterBefore, List.take_succ_cons, List.countP_cons, ← counterBefore, ← hrest,
        instructionIndicesFrom]
      cases n.isInstruction with
      | false => rfl
      | true =>
        rw [if_pos rfl, List.singleton_append, List.takeWhile_cons_of_pos (by simp),
          List.length_cons]
        rfl

/-- A node has the counter of the number of instructions in front of it, if there is one more. -/
theorem counterAt?_eq_some_iff {nodes : List Node} {i c : Nat} :
    counterAt? (instructionIndices nodes) i = some c ↔
      InstructionFrom nodes i ∧ counterBefore nodes i = c := by
  have hcounter := length_takeWhile_instructionIndicesFrom 0 nodes i
  rw [Nat.zero_add] at hcounter
  have hmore : counterBefore nodes i < (instructionIndices nodes).length ↔
      InstructionFrom nodes i := by
    rw [instructionIndices, length_instructionIndicesFrom]
    conv_lhs => rw [← List.take_append_drop i nodes, List.countP_append, List.take_append_drop]
    rw [← counterBefore, Nat.lt_add_right_iff_pos, List.countP_pos_iff]
    constructor
    · rintro ⟨n, hn, hinstr⟩
      obtain ⟨k, hk⟩ := List.getElem?_of_mem hn
      rw [List.getElem?_drop] at hk
      exact ⟨i + k, n, Nat.le_add_right i k, hk, hinstr⟩
    · rintro ⟨j, n, hle, hn, hinstr⟩
      refine ⟨n, List.mem_of_getElem? (i := j - i) ?_, hinstr⟩
      rw [List.getElem?_drop, Nat.add_sub_cancel' hle, hn]
  simp only [counterAt?, instructionIndices, hcounter]
  rw [← instructionIndices, ite_eq_iff, hmore]
  simp

/-- The instruction with the counter of a node is the next one. -/
theorem nextInstruction_of_counterAt? {nodes : List Node} {i c target : Nat}
    (hi : counterAt? (instructionIndices nodes) i = some c)
    (htarget : (instructionIndices nodes)[c]? = some target) : NextInstruction nodes i target := by
  obtain ⟨-, rfl⟩ := counterAt?_eq_some_iff.1 hi
  obtain ⟨⟨n, hn, hinstr⟩, hcounter⟩ := getElem?_instructionIndices_iff.1 htarget
  refine ⟨?_, ⟨n, hn, hinstr⟩, ?_⟩
  · by_contra hlt
    have hmono := counterBefore_mono nodes (Nat.succ_le_of_lt (Nat.not_le.1 hlt))
    rw [counterBefore_succ hn, if_pos hinstr] at hmono
    omega
  · intro j m hij hj hm
    have hmono := counterBefore_mono nodes (Nat.succ_le_of_lt hj)
    have hbefore := counterBefore_mono nodes hij
    rw [counterBefore_succ hm] at hmono
    by_contra hinstruction
    rw [if_pos (Bool.eq_true_of_not_eq_false hinstruction)] at hmono
    omega

namespace Jumps

variable {uri : String} {t : Text}

/-! ### Destinations that become numbers -/

/-- Of elements that are not repeated, one alone gives something. -/
theorem flatMap_eq_of_mem {α β : Type} {l : List α} (hnodup : l.Nodup) {a : α} (ha : a ∈ l)
    {f : α → List β} (h : ∀ b ∈ l, b ≠ a → f b = []) : l.flatMap f = f a := by
  obtain ⟨front, back, rfl⟩ := List.append_of_mem ha
  obtain ⟨-, hback, hapart⟩ := List.nodup_append.1 hnodup
  have hfront : front.flatMap f = [] := by
    refine List.flatMap_eq_nil_iff.2 fun b hb => h b (List.mem_append_left _ hb) ?_
    exact hapart b hb a List.mem_cons_self
  have hrest : back.flatMap f = [] := by
    refine List.flatMap_eq_nil_iff.2 fun b hb => h b (by simp [hb]) ?_
    rintro rfl
    exact (List.nodup_cons.1 hback).1 hb
  rw [List.flatMap_append, List.flatMap_cons, hfront, hrest, List.nil_append, List.append_nil]

/-- What deletes a label leaves destinations alone. -/
theorem range_ne_of_isLabel {n m : Node} (hn : n ∈ Node.ofText t) (hm : m ∈ Node.ofText t)
    {d : Token} (hd : n.destination? = some d) (hlabel : m.isLabel = true) :
    d.range ≠ ⟨lineStart (.ofText uri t) m, lineEnd (.ofText uri t) m⟩ := by
  obtain ⟨hstart, -, hstop⟩ := bounds_of_destination? (ordered_of_mem_ofText n hn) hd
  have hordered := (ordered_of_mem_ofText m hm).start_lt_stop
  have hne : n ≠ m := by
    rintro rfl
    have hinstr := n.isInstruction_of_destination? hd
    rw [Node.isInstruction_of_isLabel hlabel] at hinstr
    cases hinstr
  intro hrange
  rcases apart_of_ne hn hm hne with hle | hle
  · -- The destination ends in front of the label, but the blanks behind that are deleted too.
    have hend : d.stop = lineEnd (.ofText uri t) m := congrArg Range.stop hrange
    rw [hend] at hstop
    exact Position.not_le.2 hordered
      (Position.le_trans (le_lineEnd _ m) (Position.le_trans hstop hle))
  · have hbegin : d.start = lineStart (.ofText uri t) m := congrArg Range.start hrange
    rw [hbegin] at hstart
    have hlt := Position.lt_of_lt_of_le hstart (lineStart_le (.ofText uri t) m)
    exact Position.not_le.2 hlt (Position.le_trans (Position.le_of_lt hordered) hle)

/-- A destination is replaced by the counter of its label. -/
theorem replace_mem_toNumbers_iff {n : Node} (hn : n ∈ Node.ofText t) {d : Token}
    (hd : n.destination? = some d) {new : Text} :
    Edit.replace d.range new ∈ (toNumbers (.ofText uri t)).edits ↔
      d.isNumber = false ∧
        ∃ c, (labelCounters (.ofText uri t)).lookup d.content = some c ∧ new = Text.ofNat c := by
  have hlabelled : labelled? (.ofText uri t) n = if d.isNumber then none else
      ((labelCounters (.ofText uri t)).lookup d.content).map fun c => (d, c) := by
    rw [labelled?, hd]
    cases hnumber : d.isNumber <;> simp [Option.filter, hnumber]
  rw [(edits_toNumbers_perm uri t).mem_iff]
  constructor
  · intro hedit
    obtain ⟨m, i, hi, -, hedit⟩ := exists_of_mem_editsFrom hedit
    have hm := List.mem_of_getElem? hi
    -- A deletion covers a label and a replacement one destination, told apart by their ranges.
    rcases List.mem_append.1 hedit with hdelete | hreplace
    · rw [Option.mem_toList, deletion?] at hdelete
      split at hdelete
      · next hdropped =>
        simp only [isDropped, Bool.and_eq_true] at hdropped
        have hsame : d.range = _ := (congrArg Edit.range (Option.some.inj hdelete)).symm
        exact absurd hsame (range_ne_of_isLabel hn hm hd hdropped.1.1)
      · cases hdelete
    · rw [Option.mem_toList] at hreplace
      obtain ⟨⟨e, c⟩, he, hsame⟩ := Option.map_eq_some_iff.1 hreplace
      obtain ⟨hrange, rfl⟩ := Edit.mk.inj hsame
      obtain ⟨e', he', hlookup⟩ := Option.bind_eq_some_iff.1 he
      obtain ⟨he', -⟩ := Option.filter_eq_some_iff.1 he'
      obtain ⟨c', -, hpair⟩ := Option.map_eq_some_iff.1 hlookup
      obtain ⟨rfl, rfl⟩ := Prod.mk.inj hpair
      obtain rfl := eq_of_range_eq hm hn he' hd hrange
      rw [hlabelled] at he
      split at he
      · cases he
      · next hnumber =>
        obtain ⟨c, hc, hpair⟩ := Option.map_eq_some_iff.1 he
        obtain ⟨-, rfl⟩ := Prod.mk.inj hpair
        exact ⟨Bool.eq_false_iff.2 hnumber, c, hc, rfl⟩
  · rintro ⟨hnumber, c, hc, rfl⟩
    obtain ⟨i, hi⟩ := List.getElem?_of_mem hn
    rw [editsFrom_eq, List.mem_flatMap]
    refine ⟨(n, i), List.mk_mem_zipIdx_iff_getElem?.2 hi, List.mem_append_right _ ?_⟩
    rw [Option.mem_toList, replacement?, hlabelled, hnumber, if_neg Bool.false_ne_true, hc]
    rfl

/-- A destination becomes a number if the graph resolves it and an instruction follows. -/
theorem replace_mem_toNumbers_iff_jumpTarget? {g : FlowGraph}
    (hg : FlowGraph.ofNodes uri (Node.ofText t) = .ok g) {i : Nat} {n : Node}
    (hn : (Node.ofText t)[i]? = some n) {d : Token} (hd : n.destination? = some d) {new : Text} :
    Edit.replace d.range new ∈ (toNumbers (.ofText uri t)).edits ↔
      d.isNumber = false ∧ ∃ target, g.jumpTarget? i = some target ∧
        InstructionFrom (Node.ofText t) target ∧
        new = Text.ofNat (counterBefore (Node.ofText t) target) := by
  rw [replace_mem_toNumbers_iff (List.mem_of_getElem? hn) hd]
  refine and_congr_right fun hnumber => ?_
  rw [FlowGraph.jumpTarget?_eq hg hn hd, hnumber, if_neg Bool.false_ne_true, lookup_labelCounters]
  constructor
  · rintro ⟨c, hc, rfl⟩
    obtain ⟨target, htarget, hc⟩ := Option.bind_eq_some_iff.1 hc
    obtain ⟨hfrom, rfl⟩ := counterAt?_eq_some_iff.1 hc
    exact ⟨target, htarget, hfrom, rfl⟩
  · rintro ⟨target, htarget, hfrom, rfl⟩
    refine ⟨_, Option.bind_eq_some_iff.2 ⟨target, htarget, ?_⟩, rfl⟩
    exact counterAt?_eq_some_iff.2 ⟨hfrom, rfl⟩

/-! ### Destinations that become labels -/

section

variable {c : Conversion} (hc : toLabels (.ofText uri t) = .ok c)

include hc

/-- A destination is replaced by its label. -/
theorem replace_mem_toLabels_iff {n : Node} (hn : n ∈ Node.ofText t) {d : Token}
    (hd : n.destination? = some d) {name : Text} :
    Edit.replace d.range name ∈ c.edits ↔ label? (.ofText uri t) d.lexeme = some name := by
  refine ⟨label?_of_replace_mem hc hn hd, fun hlabel => ?_⟩
  have hperm := (edits_toLabels_perm uri t hc).trans (labelEditsFrom_perm _ 0 _)
  refine hperm.mem_iff.2 (List.mem_append_right _ (List.mem_filterMap.2 ⟨n, hn, ?_⟩))
  rw [redirection?, hd, Option.bind_some, hlabel]
  rfl

/-- A new label is declared once, in front of its instruction. -/
theorem filter_declares_of_freshAt? {k : Nat} {name : Text}
    (hfresh : freshAt? (.ofText uri t) k = some name) {n : Node}
    (hn : (Document.ofText uri t).instruction? k = some n) :
    c.edits.filter (fun e => e.newText = name ++ [':', '\n']) =
      [.insert (lineStart (.ofText uri t) n) (name ++ [':', '\n'])] := by
  obtain ⟨-, rfl⟩ := toLabels_eq_ok_iff.1 hc
  obtain ⟨target, hfind, rfl⟩ := Option.map_eq_some_iff.1 hfresh
  obtain ⟨hfind, hnew⟩ := Option.filter_eq_some_iff.1 hfind
  obtain rfl := counter_of_find? hfind
  have htarget := List.mem_of_find?_eq_some hfind
  have hlabel {b : TargetLabel} (hb : b ∈ targets (.ofText uri t)) :
      labelAt? (.ofText uri t) b.counter = some b.label := by
    rw [labelAt?, find?_targets hb]
    rfl
  -- What is put in the place of a destination is a word, and so it has no line feed.
  have hreferences : ∀ b ∈ targets (.ofText uri t), (references (numbered (.ofText uri t)) b).filter
      (fun e => e.newText = target.label ++ [':', '\n']) = [] := by
    intro b hb
    refine List.filter_eq_nil_iff.2 fun e he htext => ?_
    obtain ⟨d, -, rfl⟩ := List.mem_map.1 he
    have htext : b.label = target.label ++ [':', '\n'] := of_decide_eq_true htext
    have hword := (wellFormed_labelAt? (hlabel hb)).2.2 '\n' (by simp [htext])
    exact hword.2 rfl
  have hdeclaration : declaration (.ofText uri t) target =
      [.insert (lineStart (.ofText uri t) n) (target.label ++ [':', '\n'])] := by
    have hnode : (Document.ofText uri t).instructions[target.counter]?.bind
        ((Document.ofText uri t).nodes[·]?) = some n := hn
    rw [declaration, hnode]
    exact if_pos hnew
  have hothers : ∀ b ∈ targets (.ofText uri t), b ≠ target →
      (declaration (.ofText uri t) b).filter
        (fun e => e.newText = target.label ++ [':', '\n']) = [] := by
    intro b hb hne
    refine List.filter_eq_nil_iff.2 fun e he htext => hne ?_
    rw [declaration] at he
    split at he
    · split at he
      · obtain rfl := List.mem_singleton.1 he
        have hsame : b.label = target.label := List.append_cancel_right (of_decide_eq_true htext)
        have hcounter := labelAt?_injective (hsame ▸ hlabel hb) (hlabel htarget)
        have hfound := find?_targets hb
        rw [hcounter, find?_targets htarget] at hfound
        exact (Option.some.inj hfound).symm
      · cases he
    · cases he
  have hnodup := (nodup_counter_targets (.ofText uri t)).of_map
  rw [List.filter_flatMap, flatMap_eq_of_mem hnodup htarget fun b hb hne => ?_]
  · rw [List.filter_append, hreferences target htarget, hdeclaration]
    simp [Edit.insert]
  · rw [List.filter_append, hreferences b hb, hothers b hb hne]
    rfl

end

section

variable {g : FlowGraph} (hg : FlowGraph.ofNodes uri (Node.ofText t) = .ok g)

include hg

theorem exists_toLabels_of_ofNodes : ∃ c, toLabels (.ofText uri t) = .ok c := by
  refine ⟨_, toLabels_eq_ok_iff.2 ⟨fun d hd => ?_, rfl⟩⟩
  obtain ⟨n, hn, hd⟩ := List.mem_filterMap.1 hd
  rw [Token.address_eq]
  refine FlowGraph.address_of_ofNodes hg n hn d.lexeme ?_
  rw [← n.map_lexeme_destination?, hd]
  rfl

variable {c : Conversion} (hc : toLabels (.ofText uri t) = .ok c)

include hc

/-- A name is written for a number that the graph resolves, and it is the label of the counter. -/
theorem replace_mem_toLabels_iff_jumpTarget? {i : Nat} {n : Node}
    (hn : (Node.ofText t)[i]? = some n) {d : Token} (hd : n.destination? = some d) {name : Text} :
    Edit.replace d.range name ∈ c.edits ↔
      d.isNumber = true ∧ ∃ k target, labelAt? (.ofText uri t) k = some name ∧
        (instructionIndices (Node.ofText t))[k]? = some target ∧ g.jumpTarget? i = some target := by
  rw [replace_mem_toLabels_iff hc (List.mem_of_getElem? hn) hd, label?, Option.bind_eq_some_iff,
    FlowGraph.jumpTarget?_eq hg hn hd]
  constructor
  · rintro ⟨k, hk, hname⟩
    have hcounter : d.lexeme.counter? (instructionIndices (Node.ofText t)).length = some k := hk
    have hnumber : d.isNumber = true := by
      by_contra hnumber
      have hkind : d.lexeme.1 ≠ .number := fun hkind => hnumber (beq_iff_eq.2 hkind)
      rw [Lexeme.counter?_of_ne_number hkind] at hk
      cases hk
    obtain ⟨target, htarget, -⟩ := FlowGraph.getElem?_of_counter? hcounter
    refine ⟨hnumber, k, target, hname, htarget, ?_⟩
    rw [if_pos hnumber, hcounter, Option.bind_some, htarget]
  · rintro ⟨hnumber, k, target, hname, hk, htarget⟩
    rw [if_pos hnumber] at htarget
    -- Two counters of one instruction are equal, so the name found is the one asked for.
    obtain ⟨k', hk', htarget⟩ := Option.bind_eq_some_iff.1 htarget
    refine ⟨k', hk', ?_⟩
    rwa [← (getElem?_instructionIndices_iff.1 htarget).2,
      (getElem?_instructionIndices_iff.1 hk).2]

/-- A number that the graph resolves gets a name. -/
theorem exists_replace_mem_iff {i : Nat} {n : Node} (hn : (Node.ofText t)[i]? = some n) {d : Token}
    (hd : n.destination? = some d) :
    (∃ name, Edit.replace d.range name ∈ c.edits) ↔
      d.isNumber = true ∧ ∃ target, g.jumpTarget? i = some target := by
  constructor
  · rintro ⟨name, hedit⟩
    obtain ⟨hnumber, k, target, -, -, htarget⟩ :=
      (replace_mem_toLabels_iff_jumpTarget? hg hc hn hd).1 hedit
    exact ⟨hnumber, target, htarget⟩
  · rintro ⟨hnumber, target, htarget⟩
    rw [FlowGraph.jumpTarget?_eq hg hn hd, if_pos hnumber] at htarget
    obtain ⟨k, hk, -⟩ := Option.bind_eq_some_iff.1 htarget
    have hmem : d ∈ destinations (.ofText uri t) :=
      List.mem_filterMap.2 ⟨n, List.mem_of_getElem? hn, hd⟩
    obtain ⟨name, hname⟩ := exists_labelAt? hmem hk
    refine ⟨name, (replace_mem_toLabels_iff hc (List.mem_of_getElem? hn) hd).2 ?_⟩
    exact Option.bind_eq_some_iff.2 ⟨k, hk, hname⟩

end

/-! ### Names that lead to a node -/

/-- The start of a node, moved left over the blanks in front of it. -/
def IsMargin (doc : Document) (n : Node) (p : Position) : Prop :=
  ∃ (line : Nat) (before blanks rest : Text),
    doc.lines[line]? = some (before ++ blanks ++ rest) ∧
    n.start = ⟨line, (before ++ blanks).length⟩ ∧
    (∀ c ∈ blanks, Piece.isBlank c = true) ∧ (∀ c ∈ before.getLast?, Piece.isBlank c = false) ∧
    p = ⟨line, before.length⟩

/-- A text is cut behind its last character that is no blank. -/
theorem exists_blanks_at_end (w : Text) : ∃ before blanks, w = before ++ blanks ∧
    (∀ c ∈ blanks, Piece.isBlank c = true) ∧ ∀ c ∈ before.getLast?, Piece.isBlank c = false := by
  refine ⟨w.trimRight Piece.isBlank, (w.reverse.takeWhile Piece.isBlank).reverse, ?_, ?_, ?_⟩
  · rw [Text.trimRight, ← List.reverse_append, List.takeWhile_append_dropWhile,
      List.reverse_reverse]
  · intro c hc
    exact List.mem_takeWhile_imp (List.mem_reverse.1 hc)
  · intro c hc
    have hnot := List.head?_dropWhile_not Piece.isBlank w.reverse
    rw [Text.trimRight, List.getLast?_reverse] at hc
    rw [hc] at hnot
    simpa using hnot

theorem isMargin_lineStart {n : Node} (hn : n ∈ Node.ofText t) :
    IsMargin (.ofText uri t) n (lineStart (.ofText uri t) n) := by
  obtain ⟨line, l, hl, hline, -, hnonneg, hlt, hle⟩ := (Node.inLine_of_mem_ofText n hn).range
  obtain ⟨start, hstart⟩ := Int.eq_ofNat_of_zero_le hnonneg
  have hplace : n.start = ⟨line, start⟩ := congrArg₂ Position.mk hline hstart
  have hlength : start ≤ l.length := by
    have htrim := Text.length_trimRight_le (· == '\r') l
    have hchar : (start : Int) < n.range.stop.character := hstart ▸ hlt
    omega
  have htext : (Document.ofText uri t).lineText? n.start.line = some l := by
    rw [Document.lineText?, hplace, if_pos (Int.natCast_nonneg line)]
    exact hl
  -- The part in front of the node, cut at the last character that is not blank.
  obtain ⟨before, blanks, hcut, hblanks, hbefore⟩ := exists_blanks_at_end (l.take start)
  have hcount := congrArg List.length hcut
  rw [List.length_take, Nat.min_eq_left hlength, List.length_append] at hcount
  refine ⟨line, before, blanks, l.drop start, ?_, ?_, hblanks, hbefore, ?_⟩
  · rw [← hcut, List.take_append_drop]
    exact hl
  · rw [hplace, hcount, List.length_append]
  · rw [lineStart, htext, hplace]
    simp only [Option.getD_some, Int.toNat_natCast, hcut,
      length_takeWhile_reverse hbefore hblanks, Position.mk.injEq, true_and]
    omega

/-- A name leads to a node: it is that of a label whose next instruction the node is, or it is new
and declared by one edit in front of the node. -/
def NameLeadsTo (doc : Document) (edits : List Edit) (name : Text) (target : Nat) : Prop :=
  (∃ l, doc.labels.find? name = some l ∧ NextInstruction doc.nodes l target) ∨
    (∃ m, name = freshName m) ∧ (∀ n ∈ doc.nodes, n.isLabel = true → n.labelName ≠ name) ∧
      ∃ n p, doc.nodes[target]? = some n ∧ IsMargin doc n p ∧
        edits.filter (fun e => e.newText = name ++ [':', '\n']) =
          [.insert p (name ++ [':', '\n'])]

theorem nameLeadsTo_of_labelAt? {c : Conversion} (hc : toLabels (.ofText uri t) = .ok c) {k : Nat}
    {name : Text} (hname : labelAt? (.ofText uri t) k = some name) {target : Nat}
    (htarget : (instructionIndices (Node.ofText t))[k]? = some target) :
    NameLeadsTo (.ofText uri t) c.edits name target := by
  rcases labelAt?_cases hname with hfresh | hold
  · have hnew := newLabel_of_freshAt? hfresh
    obtain ⟨⟨n, hn, -⟩, -⟩ := getElem?_instructionIndices_iff.1 htarget
    have hnode : (Document.ofText uri t).instruction? k = some n :=
      Option.bind_eq_some_iff.2 ⟨target, htarget, hn⟩
    exact .inr ⟨hnew.name, hnew.undeclared, n, _, hn,
      isMargin_lineStart (List.mem_of_getElem? hn), filter_declares_of_freshAt? hc hfresh hnode⟩
  · rw [← bind_counterAt?_eq] at hold
    obtain ⟨l, hl, hk⟩ := Option.bind_eq_some_iff.1 hold
    refine .inl ⟨l, ?_, nextInstruction_of_counterAt? hk htarget⟩
    exact (LabelTable.find?_ofNodes (Node.ofText t) name).trans hl

/-- Where the flow graph is built, the conversions replace the destinations that it resolves and
lead them to the same place.

* To numbers: a name becomes the number of instructions in front of the node that it is resolved
  to, if an instruction stands at that node or behind it; nothing else is replaced.
* To labels: a number that is resolved becomes a name that leads to its node; nothing else is
  replaced, and two numbers become the same name if and only if they are resolved to the same
  node. -/
theorem conversions_agree_with_flow (uri : String) (t : Text) {g : FlowGraph}
    (hg : FlowGraph.ofNodes uri (Node.ofText t) = .ok g) :
    (∀ i n d, (Node.ofText t)[i]? = some n → n.destination? = some d → ∀ new,
      Edit.replace d.range new ∈ (toNumbers (.ofText uri t)).edits ↔
        d.isNumber = false ∧ ∃ target, g.jumpTarget? i = some target ∧
          InstructionFrom (Node.ofText t) target ∧
          new = Text.ofNat (counterBefore (Node.ofText t) target)) ∧
    ∃ c, toLabels (.ofText uri t) = .ok c ∧
      ∀ i n d, (Node.ofText t)[i]? = some n → n.destination? = some d →
        ((∃ name, Edit.replace d.range name ∈ c.edits) ↔
          d.isNumber = true ∧ ∃ target, g.jumpTarget? i = some target) ∧
        ∀ name, Edit.replace d.range name ∈ c.edits →
          (∀ target, g.jumpTarget? i = some target →
            NameLeadsTo (.ofText uri t) c.edits name target) ∧
          ∀ i' n' d' name', (Node.ofText t)[i']? = some n' → n'.destination? = some d' →
            Edit.replace d'.range name' ∈ c.edits →
            (name = name' ↔ g.jumpTarget? i = g.jumpTarget? i') := by
  obtain ⟨c, hc⟩ := exists_toLabels_of_ofNodes hg
  refine ⟨fun i n d hn hd new => replace_mem_toNumbers_iff_jumpTarget? hg hn hd, c, hc,
    fun i n d hn hd => ⟨exists_replace_mem_iff hg hc hn hd, fun name hedit => ?_⟩⟩
  obtain ⟨-, k, target, hname, hk, htarget⟩ :=
    (replace_mem_toLabels_iff_jumpTarget? hg hc hn hd).1 hedit
  constructor
  · intro target' htarget'
    obtain rfl := Option.some.inj (htarget.symm.trans htarget')
    exact nameLeadsTo_of_labelAt? hc hname hk
  · intro i' n' d' name' hn' hd' hedit'
    obtain ⟨-, k', target', hname', hk', htarget'⟩ :=
      (replace_mem_toLabels_iff_jumpTarget? hg hc hn' hd').1 hedit'
    rw [htarget, htarget']
    constructor
    · rintro rfl
      rw [← hk, ← hk', labelAt?_injective hname hname']
    · intro hsame
      rw [Option.some.inj hsame] at hk
      -- One node, one counter, and the label is looked up by the counter.
      have hcounter : k = k' := by
        rw [← (getElem?_instructionIndices_iff.1 hk).2, (getElem?_instructionIndices_iff.1 hk').2]
      rw [hcounter, hname'] at hname
      exact (Option.some.inj hname).symm

/-- A jump by a name, a jump to that one by its number, and a jump to a label that no instruction
follows. -/
def agreeingText : Text :=
  "a:\nb: print x\n# note\njump b always\n jump 1 always\njump z always\nz:".toList

/-- The first jump becomes one by number, and the second one becomes one by a name that leads to the
first. -/
theorem conversions_agree_with_flow_both_ways :
    ∃ g c, FlowGraph.ofNodes "" (Node.ofText agreeingText) = .ok g ∧
      toLabels (.ofText "" agreeingText) = .ok c ∧
      (∃ n d, (Node.ofText agreeingText)[4]? = some n ∧ n.destination? = some d ∧
        Edit.replace d.range "0".toList ∈ (toNumbers (.ofText "" agreeingText)).edits) ∧
      ∃ n d name, (Node.ofText agreeingText)[5]? = some n ∧ n.destination? = some d ∧
        Edit.replace d.range name ∈ c.edits ∧
        NameLeadsTo (.ofText "" agreeingText) c.edits name 4 := by
  have hbuilt : (FlowGraph.ofNodes "" (Node.ofText agreeingText)).toOption.map
      (fun g => (g.jumpTarget? 4, g.jumpTarget? 5)) = some (some 1, some 4) := by
    decide +kernel
  have hkinds : [4, 5].map (fun i => ((Node.ofText agreeingText)[i]?.bind Node.destination?).map
      Token.isNumber) = [some false, some true] := by
    decide +kernel
  have hinstr : (Node.ofText agreeingText)[2]?.map (·.isInstruction) = some true := by
    decide +kernel
  obtain ⟨g, hg, htargets⟩ := Option.map_eq_some_iff.1 hbuilt
  obtain ⟨hfirst, hsecond⟩ := Prod.mk.inj htargets
  simp only [List.map_cons, List.map_nil, List.cons.injEq, and_true] at hkinds
  obtain ⟨⟨d, hd, hname⟩, d', hd', hnumber⟩ :=
    hkinds.imp Option.map_eq_some_iff.1 Option.map_eq_some_iff.1
  obtain ⟨n, hn, hd⟩ := Option.bind_eq_some_iff.1 hd
  obtain ⟨n', hn', hd'⟩ := Option.bind_eq_some_iff.1 hd'
  obtain ⟨m, hm, hinstr⟩ := Option.map_eq_some_iff.1 hinstr
  obtain ⟨hnumbers, c, hc, hlabels⟩ :=
    conversions_agree_with_flow "" agreeingText (eq_ok_of_toOption hg)
  refine ⟨g, c, eq_ok_of_toOption hg, hc, ⟨n, d, hn, hd, ?_⟩, ?_⟩
  · refine (hnumbers 4 n d hn hd _).2 ⟨hname, 1, hfirst, ⟨2, m, by decide, hm, hinstr⟩, ?_⟩
    decide +kernel
  · obtain ⟨hiff, hnames⟩ := hlabels 5 n' d' hn' hd'
    obtain ⟨name, hedit⟩ := hiff.2 ⟨hnumber, 4, hsecond⟩
    exact ⟨n', d', name, hn', hd', hedit, (hnames name hedit).1 4 hsecond⟩

end Jumps

end LogicAsm
