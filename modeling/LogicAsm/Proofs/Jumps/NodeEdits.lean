import LogicAsm.Jumps
import LogicAsm.Proofs.Jumps.Targets
import Mathlib.Data.List.Nodup
import Mathlib.Data.List.Perm.Basic

/-!
# Edits node by node

`Jumps.toNumbers` lists the numbers that it puts in first and the declarations that it deletes
behind them.  In the order of the text each node has its own edits (`nodeEdits`): a jump to a label
that is numbered has that of its destination (`labelled?`), and the first declaration of such a
label, which is dropped (`isDropped`), has that of itself.  Both lists are the same but for the
order (`edits_toNumbers_perm`).
-/

namespace LogicAsm

/-! ### Labels in the order of their nodes -/

namespace LabelTable

/-- The labels of a program are listed as their first declarations stand in it. -/
theorem labels_declareAll {table : LabelTable} {index : Nat}
    (htable : ∀ name i, table.find? name = some i → i < index) (nodes : List Node) :
    (table.declareAll index nodes).labels = table.labels ++
      (nodes.zipIdx index).filterMap fun (n, i) =>
        if n.isLabel && (table.declareAll index nodes).find? n.labelName == some i then
          some (n.labelName, i)
        else none := by
  induction nodes generalizing table index with
  | nil => simp [declareAll]
  | cons n ns ih =>
    have hlater : ∀ name i, table.find? name = some i → i < index + 1 :=
      fun name i h => Nat.lt_succ_of_lt (htable name i h)
    rw [List.zipIdx_cons, List.filterMap_cons, declareAll]
    by_cases hl : n.isLabel = true
    · rw [if_pos hl]
      have hfind : (table.declare n.labelName index).find? n.labelName =
          (table.find? n.labelName).or (some index) := by
        rw [find?_declare, if_pos rfl]
      have hdeclared : ∀ name i, (table.declare n.labelName index).find? name = some i →
          i < index + 1 := by
        intro name i h
        rw [find?_declare] at h
        rcases Option.or_eq_some_iff.1 h with h | ⟨-, h⟩
        · exact hlater name i h
        · split at h
          · exact Option.some.inj h ▸ Nat.lt_succ_self _
          · cases h
      rw [ih hdeclared]
      -- The declaration is listed if and only if it is the first one.
      cases hknown : table.find? n.labelName with
      | none =>
        have hfirst : ((table.declare n.labelName index).declareAll (index + 1) ns).find?
            n.labelName = some index := by
          rw [find?_declareAll, hfind, hknown]
          rfl
        have hlabels : (table.declare n.labelName index).labels =
            table.labels ++ [(n.labelName, index)] := by
          rw [declare, hknown]
        simp only [hlabels, hl, hfirst, Bool.true_and, BEq.rfl, if_true, List.append_assoc,
          List.singleton_append]
      | some first =>
        have hfirst : ((table.declare n.labelName index).declareAll (index + 1) ns).find?
            n.labelName = some first := by
          rw [find?_declareAll, hfind, hknown]
          rfl
        have hne : (some first == some index) = false := by
          have := htable _ _ hknown
          simp only [beq_eq_false_iff_ne, ne_eq, Option.some.injEq]
          omega
        have hlabels : (table.declare n.labelName index).labels = table.labels := by
          rw [declare, hknown]
        simp only [hlabels, hfirst, hne, Bool.and_false, Bool.false_eq_true, if_false]
    · simp only [hl, if_false, Bool.false_and, Bool.false_eq_true, ih hlater]

theorem labels_ofNodes (nodes : List Node) :
    (ofNodes nodes).labels = nodes.zipIdx.filterMap fun (n, i) =>
      if n.isLabel && (ofNodes nodes).find? n.labelName == some i then some (n.labelName, i)
      else none := by
  have h := @labels_declareAll ⟨[], []⟩ 0 (by simp [find?]) nodes
  rwa [List.nil_append] at h

/-- No name is listed twice. -/
theorem nodup_declareAll {table : LabelTable} (h : (table.labels.map Prod.fst).Nodup)
    (index : Nat) (nodes : List Node) :
    ((table.declareAll index nodes).labels.map Prod.fst).Nodup := by
  -- A name that the table has is not declared again.
  have hdeclare {table : LabelTable} (h : (table.labels.map Prod.fst).Nodup) (name : Text)
      (index : Nat) : ((table.declare name index).labels.map Prod.fst).Nodup := by
    unfold declare
    split
    · next hnone =>
      rw [List.map_append, List.map_singleton]
      refine List.Nodup.append h (List.nodup_singleton _) (List.disjoint_singleton.2 ?_)
      intro hmem
      obtain ⟨⟨other, i⟩, hpair, rfl⟩ := List.mem_map.1 hmem
      have hother := List.lookup_eq_none_iff.1 hnone _ hpair
      simp at hother
    · exact h
  induction nodes generalizing table index with
  | nil => exact h
  | cons n ns ih =>
    rw [declareAll]
    split
    · exact ih (hdeclare h _ _) _
    · exact ih h _

end LabelTable

namespace Jumps

/-! ### Counters of labels -/

/-- Where no key is listed twice, a key is looked up in the list or in what is made of it. -/
theorem lookup_filterMap {α β : Type} {l : List (Text × α)} (h : (l.map Prod.fst).Nodup)
    (f : α → Option β) (key : Text) :
    (l.filterMap fun (k, a) => (f a).map fun b => (k, b)).lookup key = (l.lookup key).bind f := by
  induction l with
  | nil => rfl
  | cons p ps ih =>
    obtain ⟨k, a⟩ := p
    obtain ⟨hk, hps⟩ := List.nodup_cons.1 h
    rw [List.filterMap_cons, List.lookup_cons]
    by_cases hkey : key = k
    · subst hkey
      -- The key may be dropped here, so no later entry must have it.
      have hnone : ps.lookup key = none := by
        rw [List.lookup_eq_none_iff]
        intro p hp
        refine bne_iff_ne.2 ?_
        intro heq
        exact hk (List.mem_map.2 ⟨p, hp, heq.symm⟩)
      cases ha : f a <;> simp [ha, ih hps, hnone]
    · have hbeq : (key == k) = false := beq_false_of_ne hkey
      rw [hbeq, ← ih hps]
      cases ha : f a with
      | none => simp only [ha, Option.map_none]
      | some b => simp only [ha, Option.map_some, List.lookup_cons, hbeq]

/-- A label has the counter of the first instruction behind its first declaration. -/
theorem lookup_labelCounters (uri : String) (t : Text) (name : Text) :
    (labelCounters (.ofText uri t)).lookup name =
      ((Node.ofText t).findIdx? (LabelTable.declares name)).bind
        (counterAt? (instructionIndices (Node.ofText t))) := by
  have hnodup := @LabelTable.nodup_declareAll ⟨[], []⟩ .nil 0 (Node.ofText t)
  have hlookup := lookup_filterMap hnodup (counterAt? (instructionIndices (Node.ofText t))) name
  rw [← LabelTable.find?_ofNodes]
  exact hlookup

/-- The counter of a label is said by the outlines. -/
theorem lookup_labelCounters_eq (uri : String) (t name : Text) :
    (labelCounters (.ofText uri t)).lookup name =
      Outline.counterFrom name 0 ((Node.ofText t).map Node.outline) := by
  rw [lookup_labelCounters, bind_counterAt?_eq]

/-- Where no key is listed twice, what is listed is looked up. -/
theorem lookup_of_mem {α : Type} {l : List (Text × α)} (h : (l.map Prod.fst).Nodup) {key : Text}
    {a : α} (hmem : (key, a) ∈ l) : l.lookup key = some a := by
  obtain ⟨front, back, rfl⟩ := List.append_of_mem hmem
  refine List.lookup_eq_some_iff.2 ⟨front, back, rfl, fun p hp => bne_iff_ne.2 fun heq => ?_⟩
  rw [List.map_append, List.map_cons] at h
  exact (List.nodup_append.1 h).2.2 p.1 (List.mem_map_of_mem hp) key List.mem_cons_self heq.symm

/-- The labels that are listed are those with an instruction behind their first declaration. -/
theorem mem_labelCounters {uri : String} {t name : Text} {c : Nat} :
    (name, c) ∈ labelCounters (.ofText uri t) ↔
      Outline.counterFrom name 0 ((Node.ofText t).map Node.outline) = some c := by
  have hnodup := @LabelTable.nodup_declareAll ⟨[], []⟩ .nil 0 (Node.ofText t)
  rw [← lookup_labelCounters_eq uri]
  constructor
  · intro h
    obtain ⟨⟨_, index⟩, hindex, h⟩ := List.mem_filterMap.1 h
    obtain ⟨counter, hcounter, ⟨⟩⟩ := Option.map_eq_some_iff.1 h
    have hlookup := lookup_filterMap hnodup (counterAt? (instructionIndices (Node.ofText t))) name
    rw [lookup_of_mem hnodup hindex] at hlookup
    exact hlookup.trans hcounter
  · intro h
    obtain ⟨front, back, hsplit, -⟩ := List.lookup_eq_some_iff.1 h
    rw [hsplit]
    simp

/-! ### The edits of a node -/

/-- The destinations of a document that are no numbers. -/
def namedDestinations (doc : Document) : List Token :=
  (doc.nodes.filterMap Node.destination?).filter fun t => !t.isNumber

/-- The destination of a node that is a label with an instruction behind it, and the counter of the
instruction. -/
def labelled? (doc : Document) (n : Node) : Option (Token × Nat) :=
  (n.destination?.filter fun t => !t.isNumber).bind fun t =>
    ((labelCounters doc).lookup t.content).map fun counter => (t, counter)

/-- Whether a label has an instruction behind it and a jump to it. -/
def isNumbered (doc : Document) (name : Text) : Bool :=
  ((labelCounters doc).lookup name).isSome &&
    (namedDestinations doc).any fun t => t.content == name

/-- Whether a node, which has the given index, is deleted: the first declaration of a label that is
numbered. -/
def isDropped (doc : Document) (n : Node) (index : Nat) : Bool :=
  n.isLabel && doc.labels.find? n.labelName == some index && isNumbered doc n.labelName

/-- The edit that puts a number in the place of a label. -/
def replacement? (doc : Document) (n : Node) : Option Edit :=
  (labelled? doc n).map fun (t, counter) => .replace t.range (Text.ofNat counter)

/-- The edit that deletes a node, which has the given index. -/
def deletion? (doc : Document) (n : Node) (index : Nat) : Option Edit :=
  if isDropped doc n index then some (.delete ⟨lineStart doc n, lineEnd doc n⟩) else none

/-- The edits of a node that has the given index. -/
def nodeEdits (doc : Document) (n : Node) (index : Nat) : List Edit :=
  (deletion? doc n index).toList ++ (replacement? doc n).toList

/-- The edits of nodes, the first of which has the given index. -/
def editsFrom (doc : Document) (index : Nat) : List Node → List Edit
  | [] => []
  | n :: ns => nodeEdits doc n index ++ editsFrom doc (index + 1) ns

theorem editsFrom_append (doc : Document) (index : Nat) (ns ms : List Node) :
    editsFrom doc index (ns ++ ms) =
      editsFrom doc index ns ++ editsFrom doc (index + ns.length) ms := by
  induction ns generalizing index with
  | nil => rfl
  | cons n ns ih =>
    rw [List.cons_append, editsFrom, editsFrom, ih, List.append_assoc, List.length_cons,
      Nat.add_right_comm, Nat.add_assoc]

theorem editsFrom_eq (doc : Document) (index : Nat) (ns : List Node) :
    editsFrom doc index ns = (ns.zipIdx index).flatMap fun (n, i) => nodeEdits doc n i := by
  induction ns generalizing index with
  | nil => rfl
  | cons n ns ih => rw [editsFrom, ih, List.zipIdx_cons, List.flatMap_cons]

/-- The numbers are put in node by node. -/
theorem replacements_eq (doc : Document) :
    ((namedDestinations doc).filterMap fun t =>
        ((labelCounters doc).lookup t.content).map fun counter =>
          Edit.replace t.range (Text.ofNat counter)) =
      doc.nodes.filterMap (replacement? doc) := by
  rw [namedDestinations, ← List.filterMap_eq_filter, List.filterMap_filterMap,
    List.filterMap_filterMap]
  congr 1
  funext n
  unfold replacement? labelled?
  cases n.destination? with
  | none => rfl
  | some t =>
    cases ht : t.isNumber with
    | true => simp [Option.guard, Option.filter, ht]
    | false => simp [Option.guard, Option.filter, ht, Function.comp_def]

/-- The declarations are deleted node by node. -/
theorem deletions_eq (uri : String) (t : Text) :
    (((Document.ofText uri t).labels.labels.filter fun (name, _) =>
        isNumbered (.ofText uri t) name).filterMap fun (_, index) =>
          (Node.ofText t)[index]?.map fun n =>
            Edit.delete ⟨lineStart (.ofText uri t) n, lineEnd (.ofText uri t) n⟩) =
      (Node.ofText t).zipIdx.filterMap fun (n, i) => deletion? (.ofText uri t) n i := by
  have hlabels : (Document.ofText uri t).labels.labels = _ :=
    LabelTable.labels_ofNodes (Node.ofText t)
  rw [hlabels, ← List.filterMap_eq_filter, List.filterMap_filterMap, List.filterMap_filterMap]
  apply List.filterMap_congr
  rintro ⟨n, i⟩ hmem
  have hn : (Node.ofText t)[i]? = some n := List.mk_mem_zipIdx_iff_getElem?.1 hmem
  have htable : (Document.ofText uri t).labels = LabelTable.ofNodes (Node.ofText t) := rfl
  simp only [deletion?, isDropped, htable]
  cases hfirst : n.isLabel && (LabelTable.ofNodes (Node.ofText t)).find? n.labelName == some i with
  | false => simp
  | true =>
    cases hnumbered : isNumbered (.ofText uri t) n.labelName with
    | false => simp [Option.guard, hnumbered]
    | true => simp [Option.guard, hnumbered, hn]

/-- The edits of a document are those of its nodes. -/
theorem edits_toNumbers_perm (uri : String) (t : Text) :
    (toNumbers (.ofText uri t)).edits.Perm
      (editsFrom (.ofText uri t) 0 (Node.ofText t)) := by
  have hedits : (toNumbers (.ofText uri t)).edits = _ ++ _ :=
    congrArg₂ _ (replacements_eq (.ofText uri t)) (deletions_eq uri t)
  have hreplacements : (Node.ofText t).filterMap (replacement? (.ofText uri t)) =
      (Node.ofText t).zipIdx.filterMap fun (n, _) => replacement? (.ofText uri t) n := by
    conv_lhs => rw [← List.zipIdx_map_fst 0 (Node.ofText t), List.filterMap_map]
    rfl
  rw [hedits]
  refine List.perm_append_comm.trans ?_
  show List.Perm (_ ++ (Node.ofText t).filterMap _) _
  rw [hreplacements, editsFrom_eq, List.filterMap_eq_flatMap_toList,
    List.filterMap_eq_flatMap_toList]
  exact List.flatMap_append_perm _ _ _

end Jumps

end LogicAsm
