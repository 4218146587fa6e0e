import LogicAsm.Proofs.Jumps.Redirecting

/-!
# Numbering as redirecting

Numbering jumps puts other words in the place of destinations, as labelling them does: the number of
a label in the place of its name (`numeral?`, `replacement?_eq`).  A destination that is a string
could be looked up as well, but no label has such a name.

Where no label is declared twice, which labels are deleted can be told without their indices
(`editsFrom_of_distinct`).
-/

namespace LogicAsm.Jumps

open Piece

/-- The number for a word that is the name of a label with an instruction behind it. -/
def numeral? (doc : Document) (x : Lexeme) : Option Text :=
  if x.1 = .identifier ∨ x.1 = .color then ((labelCounters doc).lookup x.2).map Text.ofNat
  else none

/-- Numbers can be put in the place of words. -/
theorem substitutes_numeral? (doc : Document) : Substitutes (numeral? doc) := by
  have hcases {x : Lexeme} {v : Text} (h : numeral? doc x = some v) :
      (x.1 = .identifier ∨ x.1 = .color) ∧ ∃ counter, v = Text.ofNat counter := by
    unfold numeral? at h
    split at h
    · next hkind =>
      obtain ⟨counter, -, rfl⟩ := Option.map_eq_some_iff.1 h
      exact ⟨hkind, counter, rfl⟩
    · cases h
  refine ⟨fun x v h => ?_, fun x v h => ?_, fun x v h => ?_⟩
  · rcases (hcases h).1 with hkind | hkind <;> simp [hkind]
  · obtain ⟨-, counter, rfl⟩ := hcases h
    exact wellFormed_word_ofNat counter
  · obtain ⟨-, counter, rfl⟩ := hcases h
    exact renamedOperand_ofNat counter

section

variable {uri : String} {t : Text}

/-- A destination that is the name of a label is a word. -/
theorem kind_of_lookup {n : Node} (hn : n ∈ Node.ofText t) {d : Token}
    (hd : n.destination? = some d) {counter : Nat}
    (h : (labelCounters (.ofText uri t)).lookup d.content = some counter) :
    d.kind ≠ .string ∧ d.kind ≠ .comment := by
  rw [lookup_labelCounters_eq] at h
  obtain ⟨m, hm, hl, hname⟩ := exists_label_of_counterFrom h
  have hhead := Node.head?_labelName hm hl
  rw [hname] at hhead
  have hmem : d ∈ n.tail := by
    unfold Node.destination? at hd
    split at hd
    · exact List.mem_of_mem_head? (Node.head?_tail_of_operands hd)
    · cases hd
  obtain ⟨p, -, hlexeme⟩ := (Node.writable_ofText t n hn).1.wellFormed d.lexeme
    (List.mem_map_of_mem (List.mem_cons_of_mem n.head hmem))
  -- A string or a comment starts with a character that no label starts with.
  cases p with
  | blank c => cases hlexeme
  | separator c => cases hlexeme
  | comment body =>
    obtain ⟨-, hcontent⟩ := Prod.mk.inj (Option.some.inj hlexeme)
    rw [← hcontent] at hhead
    exact absurd rfl (hhead '#' rfl).2
  | quoted body closed =>
    obtain ⟨-, hcontent⟩ := Prod.mk.inj (Option.some.inj hlexeme)
    rw [← hcontent] at hhead
    exact absurd rfl (hhead '"' rfl).1
  | word w =>
    obtain ⟨hkind, -⟩ := Prod.mk.inj (Option.some.inj hlexeme)
    rw [← hkind]
    rcases classifyWord_kind w with h | h | h <;> simp [h]

/-- A number is put in the place of a destination by redirecting it. -/
theorem replacement?_eq {n : Node} (hn : n ∈ Node.ofText t) :
    replacement? (.ofText uri t) n = redirection? (numeral? (.ofText uri t)) n := by
  rw [replacement?, labelled?, redirection?]
  cases hd : n.destination? with
  | none => rfl
  | some d =>
    have hlookup := @kind_of_lookup uri t n hn d hd
    have hlexeme : d.lexeme = (d.kind, d.content) := rfl
    cases hfound : (labelCounters (.ofText uri t)).lookup d.content with
    | none =>
      cases hnumber : d.isNumber <;> simp [Option.filter, hnumber, hfound, numeral?, hlexeme]
    | some counter =>
      obtain ⟨hstring, hcomment⟩ := hlookup hfound
      cases hkind : d.kind with
      | number => simp [Option.filter, Token.isNumber, numeral?, hlexeme, hkind]
      | string => exact absurd hkind hstring
      | comment => exact absurd hkind hcomment
      | color => simp [Option.filter, Token.isNumber, numeral?, hlexeme, hkind, hfound]
      | identifier => simp [Option.filter, Token.isNumber, numeral?, hlexeme, hkind, hfound]

/-- Nodes of which none is dropped are redirected only. -/
theorem editsFrom_of_not_dropped {k : Nat} {ns : List Node}
    (h : ∀ i n, ns[i]? = some n →
      n ∈ Node.ofText t ∧ isDropped (.ofText uri t) n (k + i) = false) :
    editsFrom (.ofText uri t) k ns =
      ns.filterMap (redirection? (numeral? (.ofText uri t))) := by
  rw [List.filterMap_eq_flatMap_toList]
  induction ns generalizing k with
  | nil => rfl
  | cons n ns ih =>
    obtain ⟨hn, hdropped⟩ := h 0 n rfl
    have hlater := @ih (k + 1) fun i m hm => by
      obtain ⟨hm, hdropped⟩ := h (i + 1) m hm
      rw [Nat.add_right_comm]
      exact ⟨hm, hdropped⟩
    rw [editsFrom, hlater, nodeEdits, deletion?, show isDropped _ n k = false from hdropped,
      replacement?_eq hn, List.flatMap_cons]
    rfl

/-- The edits of a text, if those of a node can be told without its index. -/
theorem editsFrom_eq_flatMap_of {edits : Node → List Edit}
    (h : ∀ n i, (Node.ofText t)[i]? = some n → nodeEdits (.ofText uri t) n i = edits n) :
    editsFrom (.ofText uri t) 0 (Node.ofText t) = (Node.ofText t).flatMap edits := by
  have hedits : ∀ p ∈ (Node.ofText t).zipIdx, nodeEdits (.ofText uri t) p.1 p.2 = edits p.1 :=
    fun p hp => h p.1 p.2 (List.mk_mem_zipIdx_iff_getElem?.1 hp)
  rw [editsFrom_eq]
  conv_rhs => rw [← List.zipIdx_map_fst 0 (Node.ofText t), List.flatMap_map]
  exact List.flatMap_congr hedits

/-- The edits of a node whose label, if it declares one, is declared nowhere else. -/
def distinctEdits (doc : Document) (n : Node) : List Edit :=
  (if n.isLabel && isNumbered doc n.labelName then
    [.delete ⟨lineStart doc n, lineEnd doc n⟩] else []) ++ (redirection? (numeral? doc) n).toList

/-- Where no label is declared twice, every declaration is the first one. -/
theorem editsFrom_of_distinct
    (h : (Node.ofText t).Pairwise fun m n => ∀ name,
      LabelTable.declares name n = true → LabelTable.declares name m = false) :
    editsFrom (.ofText uri t) 0 (Node.ofText t) =
      (Node.ofText t).flatMap (distinctEdits (.ofText uri t)) := by
  -- No two nodes declare one name, so each label is its own first declaration.
  have hfirst {n : Node} {i : Nat} (hi : (Node.ofText t)[i]? = some n) (hl : n.isLabel = true) :
      (Document.ofText uri t).labels.find? n.labelName = some i := by
    obtain ⟨hlt, rfl⟩ := List.getElem?_eq_some_iff.1 hi
    have hdeclares :
        LabelTable.declares (Node.ofText t)[i].labelName (Node.ofText t)[i] = true := by
      rw [LabelTable.declares, hl, BEq.rfl]
      rfl
    rw [show (Document.ofText uri t).labels = LabelTable.ofNodes (Node.ofText t) from rfl,
      LabelTable.find?_ofNodes, List.findIdx?_eq_some_iff_getElem]
    refine ⟨hlt, hdeclares, fun j hj => ?_⟩
    rw [List.pairwise_iff_getElem.1 h j i (Nat.lt_trans hj hlt) hlt hj _ hdeclares]
    decide
  refine editsFrom_eq_flatMap_of fun n i hi => ?_
  rw [nodeEdits, deletion?, distinctEdits, isDropped, replacement?_eq (List.mem_of_getElem? hi)]
  cases hl : n.isLabel with
  | false => rfl
  | true =>
    rw [hfirst hi hl, BEq.rfl]
    cases isNumbered (.ofText uri t) n.labelName <;> rfl

end

end LogicAsm.Jumps
