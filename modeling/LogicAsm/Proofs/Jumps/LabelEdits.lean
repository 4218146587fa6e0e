import LogicAsm.Proofs.Jumps.FreshLabels
import LogicAsm.Proofs.Jumps.Redirecting

/-!
# Labelling node by node

`Jumps.toLabels` goes from target to target: it declares the label of each, if that is new, and then
puts it in all jumps to it.  In the order of the text (`labelEditsFrom`) each instruction has a new
label in front of it or none (`freshAt?`), and each destination that is the number of an instruction
is redirected to the label of that (`label?`).  Both are the same edits (`edits_toLabels_perm`), and
they are there exactly if all destinations can be read (`toLabels_eq_ok_iff`).
-/

namespace LogicAsm

namespace Jumps

variable (doc : Document)

/-- The destinations of a document. -/
def destinations : List Token := doc.nodes.filterMap Node.destination?

/-- The destinations that are numbers of instructions, each with the counter. -/
def numbered : List (Nat × Token) :=
  (destinations doc).filterMap fun d =>
    (d.lexeme.counter? doc.instructions.length).map fun c => (c, d)

/-- The instructions that are jumped to by their numbers, with their labels. -/
def targets : List TargetLabel :=
  targetLabels ((labelCounters doc).map fun (name, counter) => (counter, name))
    ((doc.nodes.filter (·.isLabel)).map (·.labelName)) 0
    ((List.range doc.instructions.length).filter ((numbered doc).map (·.1)).contains)

variable {doc}

theorem numberedDestinations_eq_ok_iff {found : List (Nat × Token)} :
    numberedDestinations doc = .ok found ↔
      (∀ d ∈ destinations doc, ∃ a, d.address = .ok a) ∧ found = numbered doc := by
  have hread {ts : List Token} (h : ∀ d ∈ ts, ∃ a, d.address = .ok a) :
      ts.mapM (Token.counter doc.instructions.length) =
        .ok (ts.map fun d => d.lexeme.counter? doc.instructions.length) := by
    rw [mapM_eq_ok_iff, List.forall₂_map_right_iff, List.forall₂_same]
    intro d hd
    obtain ⟨a, ha⟩ := h d hd
    exact Token.counter_eq ha _
  -- The zip pairs each destination with its own counter, so it is a map.
  have hnumbered : (((((destinations doc).filter (·.isNumber)).map fun d =>
      d.lexeme.counter? doc.instructions.length).zip
        ((destinations doc).filter (·.isNumber))).filterMap fun found =>
          found.1.map fun c => (c, found.2)) = numbered doc := by
    have hzip := List.zip_map' (f := fun d : Token => d.lexeme.counter? doc.instructions.length)
      (g := id) (l := (destinations doc).filter (·.isNumber))
    rw [List.map_id] at hzip
    rw [hzip, List.filterMap_map, List.filterMap_filter, numbered]
    refine List.filterMap_congr fun d _ => ?_
    cases hnumber : d.isNumber with
    | true => rfl
    | false =>
      have hkind : d.lexeme.1 ≠ .number := by
        rw [Token.isNumber, beq_eq_false_iff_ne] at hnumber
        exact hnumber
      rw [Lexeme.counter?_of_ne_number hkind]
      rfl
  rw [numberedDestinations, bind_eq_ok]
  constructor
  · rintro ⟨counters, hcounters, hfound⟩
    have haddress : ∀ d ∈ (destinations doc).filter (·.isNumber), ∃ a, d.address = .ok a := by
      intro d hd
      obtain ⟨i, hi⟩ := List.getElem?_of_mem hd
      obtain ⟨c, -, hc⟩ := exists_getElem?_of_forall₂ (mapM_eq_ok_iff.1 hcounters) hi
      exact (Token.counter_eq_ok hc).1
    obtain rfl := Except.ok.inj (hcounters.symm.trans (hread haddress))
    refine ⟨fun d hd => ?_, (Except.ok.inj hfound).symm.trans hnumbered⟩
    cases hnumber : d.isNumber with
    | true => exact haddress d (List.mem_filter.2 ⟨hd, hnumber⟩)
    | false => exact ⟨none, Token.address_of_not_isNumber hnumber⟩
  · rintro ⟨haddress, rfl⟩
    refine ⟨_, hread fun d hd => haddress d (List.mem_filter.1 hd).1, ?_⟩
    exact congrArg Except.ok hnumbered

/-- There are edits if all destinations can be read, and then the targets are known. -/
theorem toLabels_eq_ok_iff {c : Conversion} :
    toLabels doc = .ok c ↔ (∀ d ∈ destinations doc, ∃ a, d.address = .ok a) ∧
      c = ⟨(targets doc).length, (targets doc).flatMap fun target =>
        declaration doc target ++ references (numbered doc) target⟩ := by
  rw [toLabels, bind_eq_ok]
  constructor
  · rintro ⟨found, hfound, hc⟩
    obtain ⟨haddress, rfl⟩ := numberedDestinations_eq_ok_iff.1 hfound
    exact ⟨haddress, (Except.ok.inj hc).symm⟩
  · rintro ⟨haddress, rfl⟩
    exact ⟨_, numberedDestinations_eq_ok_iff.2 ⟨haddress, rfl⟩, rfl⟩

/-! ### Labels of instructions -/

variable (doc)

/-- The label of the instruction with a counter, if a number is redirected to it. -/
def labelAt? (counter : Nat) : Option Text :=
  ((targets doc).find? (·.counter == counter)).map (·.label)

/-- The label that is new in front of the instruction with a counter. -/
def freshAt? (counter : Nat) : Option Text :=
  (((targets doc).find? (·.counter == counter)).filter (·.fresh)).map (·.label)

/-- The label for the number of an instruction. -/
def label? (x : Lexeme) : Option Text :=
  (x.counter? doc.instructions.length).bind (labelAt? doc)

/-- The edit that declares a new label in front of a node, which has the given counter if it is an
instruction. -/
def insertion? (n : Node) (counter : Nat) : Option Edit :=
  if n.isInstruction then
    (freshAt? doc counter).map fun label => .insert (lineStart doc n) (label ++ [':', '\n'])
  else none

/-- The edits of nodes in the order of the text, where `counter` instructions stand in front. -/
def labelEditsFrom (counter : Nat) : List Node → List Edit
  | [] => []
  | n :: ns =>
    (insertion? doc n counter).toList ++ (redirection? (label? doc) n).toList ++
      labelEditsFrom (if n.isInstruction then counter + 1 else counter) ns

theorem labelEditsFrom_append (counter : Nat) (ns ms : List Node) :
    labelEditsFrom doc counter (ns ++ ms) = labelEditsFrom doc counter ns ++
      labelEditsFrom doc (counter + ns.countP (·.isInstruction)) ms := by
  induction ns generalizing counter with
  | nil => rfl
  | cons n ns ih =>
    rw [List.cons_append, labelEditsFrom, labelEditsFrom, List.countP_cons, ih, List.append_assoc]
    cases n.isInstruction <;> simp [Nat.add_comm, Nat.add_left_comm]

/-- Nodes without new labels are redirected only. -/
theorem labelEditsFrom_of_not_isInstruction {ns : List Node}
    (h : ∀ n ∈ ns, n.isInstruction = false) (counter : Nat) :
    labelEditsFrom doc counter ns = ns.filterMap (redirection? (label? doc)) := by
  rw [List.filterMap_eq_flatMap_toList]
  induction ns with
  | nil => rfl
  | cons n ns ih =>
    obtain ⟨hn, hns⟩ := List.forall_mem_cons.1 h
    rw [labelEditsFrom, insertion?, hn, if_neg (by simp), if_neg (by simp), Option.toList_none,
      List.nil_append, ih hns, List.flatMap_cons]

/-! ### The same edits in another order -/

section lists

variable {α κ : Type} [DecidableEq κ] (key : α → κ)

/-- What is listed key by key is all there. -/
theorem perm_flatMap_filter {keys : List κ} (hkeys : keys.Nodup) {l : List α}
    (h : ∀ a ∈ l, key a ∈ keys) : (keys.flatMap fun k => l.filter (key · == k)).Perm l := by
  induction keys generalizing l with
  | nil =>
    obtain rfl : l = [] := List.eq_nil_iff_forall_not_mem.2 fun a ha => by simpa using h a ha
    exact .refl _
  | cons k keys ih =>
    obtain ⟨hk, hkeys⟩ := List.nodup_cons.1 hkeys
    -- The other keys find nothing among the elements of the first one.
    have hothers : (keys.flatMap fun j => l.filter (key · == j)) =
        keys.flatMap fun j => (l.filter (key · != k)).filter (key · == j) := by
      refine List.flatMap_congr fun j hj => ?_
      rw [List.filter_filter]
      refine List.filter_congr fun a _ => ?_
      by_cases hkey : key a = j
      · have hne : j ≠ k := fun e => hk (e ▸ hj)
        simp [hkey, hne]
      · simp [hkey]
    have hrest := @ih hkeys (l.filter (key · != k)) (fun a ha => by
      obtain ⟨ha, hne⟩ := List.mem_filter.1 ha
      exact (List.mem_cons.1 (h a ha)).resolve_left (bne_iff_ne.1 hne))
    rw [List.flatMap_cons, hothers]
    exact (hrest.append_left _).trans (List.filter_append_perm _ l)

/-- Where no key is repeated, an element is found by its key. -/
theorem find?_of_mem {l : List α} (h : (l.map key).Nodup) {a : α} (ha : a ∈ l) :
    l.find? (key · == key a) = some a := by
  induction l with
  | nil => cases ha
  | cons b l ih =>
    obtain ⟨hb, hl⟩ := List.nodup_cons.1 h
    rcases List.mem_cons.1 ha with rfl | ha
    · simp
    · have hne : (key b == key a) = false :=
        beq_false_of_ne fun e => hb (e ▸ List.mem_map_of_mem ha)
      rw [List.find?_cons, hne, ih hl ha]

theorem filterMap_zipIdx {β : Type} (f : α → Nat → Option β) (l : List α) (k : Nat) :
    ((l.zipIdx k).filterMap fun (a, i) => f a i) =
      (List.range' k l.length).filterMap fun i => l[i - k]?.bind fun a => f a i := by
  induction l generalizing k with
  | nil => rfl
  | cons a l ih =>
    have hlater : (List.range' (k + 1) l.length).filterMap
        (fun i => (a :: l)[i - k]?.bind fun a => f a i) =
        (List.range' (k + 1) l.length).filterMap fun i => l[i - (k + 1)]?.bind fun a => f a i := by
      refine List.filterMap_congr fun i hi => ?_
      have hle := (List.mem_range'_1.1 hi).1
      rw [show i - k = i - (k + 1) + 1 by omega, List.getElem?_cons_succ]
    rw [List.zipIdx_cons, List.length_cons, List.range'_succ, List.filterMap_cons,
      List.filterMap_cons, hlater, ih, Nat.sub_self, List.getElem?_cons_zero, Option.bind_some]

end lists

theorem nodup_counter_targets (doc : Document) : ((targets doc).map (·.counter)).Nodup := by
  rw [targets, map_counter_targetLabels]
  exact List.nodup_range.filter _

theorem mem_counter_targets {doc : Document} {c : Nat} :
    c ∈ (targets doc).map (·.counter) ↔
      c < doc.instructions.length ∧ ∃ d, (c, d) ∈ numbered doc := by
  rw [targets, map_counter_targetLabels, List.mem_filter, List.mem_range]
  simp

/-- A target is found by its counter. -/
theorem find?_targets {doc : Document} {target : TargetLabel} (h : target ∈ targets doc) :
    (targets doc).find? (·.counter == target.counter) = some target :=
  find?_of_mem _ (nodup_counter_targets doc) h

theorem counter_of_find? {doc : Document} {c : Nat} {target : TargetLabel}
    (h : (targets doc).find? (·.counter == c) = some target) : target.counter = c := by
  simpa using List.find?_some h

/-- The targets are found counter by counter. -/
theorem targets_eq (doc : Document) :
    targets doc = (List.range doc.instructions.length).filterMap fun c =>
      (targets doc).find? (·.counter == c) := by
  have hself : ((targets doc).map (·.counter)).filterMap (fun c =>
      (targets doc).find? (·.counter == c)) = targets doc := by
    rw [List.filterMap_map]
    exact (List.filterMap_congr fun target h => find?_targets h).trans List.filterMap_some
  have hcounters : (targets doc).map (·.counter) =
      (List.range doc.instructions.length).filter ((targets doc).map (·.counter)).contains := by
    rw [targets, map_counter_targetLabels]
    refine List.filter_congr fun c hc => ?_
    rw [Bool.eq_iff_iff, List.contains_iff_mem, List.contains_iff_mem, List.mem_filter]
    simp [List.mem_range.1 hc]
  conv_lhs => rw [← hself, hcounters, List.filterMap_filter]
  refine List.filterMap_congr fun c _ => ?_
  split
  · rfl
  · next hnone =>
    refine (List.find?_eq_none.2 fun target htarget hcounter => hnone ?_).symm
    rw [List.contains_iff_mem, ← beq_iff_eq.1 hcounter]
    exact List.mem_map_of_mem htarget

variable (uri : String) (t : Text)

/-- The new labels are declared in the order of the text. -/
theorem declarations_eq :
    (targets (.ofText uri t)).flatMap (declaration (.ofText uri t)) =
      ((Node.ofText t).filter (·.isInstruction)).zipIdx.filterMap fun (n, c) =>
        insertion? (.ofText uri t) n c := by
  obtain ⟨doc, hdoc⟩ : ∃ doc, doc = Document.ofText uri t := ⟨_, rfl⟩
  have hinstruction (c : Nat) : doc.instructions[c]?.bind (doc.nodes[·]?) =
      ((Node.ofText t).filter (·.isInstruction))[c]? := by
    rw [hdoc, ← Document.instruction?_ofText uri]
    rfl
  have hlength : doc.instructions.length = ((Node.ofText t).filter (·.isInstruction)).length := by
    rw [hdoc, ← List.countP_eq_length_filter]
    exact length_instructionIndicesFrom 0 _
  rw [← hdoc, filterMap_zipIdx, List.range_eq_range'.symm, ← hlength, targets_eq,
    List.filterMap_eq_flatMap_toList, List.filterMap_eq_flatMap_toList, List.flatMap_assoc]
  -- Counter by counter: each has at most one target and one instruction.
  refine List.flatMap_congr fun c _ => ?_
  rw [Nat.sub_zero]
  cases hfound : (targets doc).find? (·.counter == c) with
  | none =>
    have hnone : ∀ n, insertion? doc n c = none := by
      intro n
      rw [insertion?, freshAt?, hfound]
      split <;> rfl
    simp [hnone]
  | some target =>
    rw [Option.toList_some, List.flatMap_singleton, declaration, counter_of_find? hfound,
      hinstruction]
    cases hn : ((Node.ofText t).filter (·.isInstruction))[c]? with
    | none => rfl
    | some n =>
      have hkind : n.isInstruction = true := (List.mem_filter.1 (List.mem_of_getElem? hn)).2
      rw [Option.bind_some, insertion?, if_pos hkind, freshAt?, hfound]
      cases hfresh : target.fresh <;> simp [hfresh, Option.filter]

/-- The destinations are redirected node by node. -/
theorem references_perm (doc : Document) :
    ((targets doc).flatMap (references (numbered doc))).Perm
      (doc.nodes.filterMap (redirection? (label? doc))) := by
  -- Both are the destinations with the labels of their counters, once listed target by target.
  let edit (d : Nat × Token) : Option Edit := (labelAt? doc d.1).map (.replace d.2.range)
  have htargets : (targets doc).flatMap (references (numbered doc)) =
      (((targets doc).map (·.counter)).flatMap fun c =>
        (numbered doc).filter (·.1 == c)).filterMap edit := by
    rw [List.filterMap_flatMap, List.flatMap_map]
    refine List.flatMap_congr fun target htarget => ?_
    rw [references, ← List.filterMap_eq_map]
    refine List.filterMap_congr fun d hd => ?_
    have hcounter : d.1 = target.counter := by simpa using (List.mem_filter.1 hd).2
    simp [edit, labelAt?, hcounter, find?_targets htarget]
  have hnodes : doc.nodes.filterMap (redirection? (label? doc)) =
      (numbered doc).filterMap edit := by
    rw [numbered, destinations, List.filterMap_filterMap, List.filterMap_filterMap]
    refine List.filterMap_congr fun n _ => ?_
    rw [redirection?]
    cases n.destination? with
    | none => rfl
    | some d =>
      rw [Option.bind_some, Option.bind_some, label?]
      cases d.lexeme.counter? doc.instructions.length <;> rfl
  rw [htargets, hnodes]
  refine (perm_flatMap_filter Prod.fst (nodup_counter_targets doc) fun d hd => ?_).filterMap _
  refine mem_counter_targets.2 ⟨?_, d.2, hd⟩
  obtain ⟨d, -, hd⟩ := List.mem_filterMap.1 hd
  obtain ⟨c, hc, rfl⟩ := Option.map_eq_some_iff.1 hd
  exact Lexeme.lt_of_counter? hc

theorem labelEditsFrom_perm (doc : Document) (counter : Nat) (ns : List Node) :
    (labelEditsFrom doc counter ns).Perm
      ((((ns.filter (·.isInstruction)).zipIdx counter).filterMap fun (n, c) =>
        insertion? doc n c) ++ ns.filterMap (redirection? (label? doc))) := by
  induction ns generalizing counter with
  | nil => exact .refl _
  | cons n ns ih =>
    simp only [List.filterMap_eq_flatMap_toList] at ih ⊢
    rw [labelEditsFrom, List.flatMap_cons (x := n), List.append_assoc]
    cases hn : n.isInstruction with
    | false =>
      rw [insertion?, hn, List.filter_cons_of_neg (by simp [hn])]
      exact ((ih counter).append_left _).trans (List.perm_append_comm_assoc _ _ _)
    | true =>
      rw [List.filter_cons_of_pos hn, List.zipIdx_cons, List.flatMap_cons, List.append_assoc]
      refine .append_left _ (((ih (counter + 1)).append_left _).trans ?_)
      exact List.perm_append_comm_assoc _ _ _

/-- The edits of a document are those of its nodes. -/
theorem edits_toLabels_perm {c : Conversion} (h : toLabels (.ofText uri t) = .ok c) :
    c.edits.Perm (labelEditsFrom (.ofText uri t) 0 (Node.ofText t)) := by
  obtain ⟨-, rfl⟩ := toLabels_eq_ok_iff.1 h
  refine (List.flatMap_append_perm _ _ _).symm.trans ?_
  rw [declarations_eq]
  exact ((references_perm _).append_left _).trans (labelEditsFrom_perm _ _ _).symm

end Jumps

end LogicAsm
