import LogicAsm.Proofs.Jumps.Applicable
import LogicAsm.Proofs.Jumps.Captures
import LogicAsm.Proofs.Pointing
import LogicAsm.Proofs.Reach

/-!
# Labels that jumps are given

Labelling writes a label in every jump by the number of an instruction.  There it is to be read as
the name of a label that is declared (`IsReference`), and this goes wrong in two ways:

* The label stood in front of the instruction before, but an operand of that name is a number, as
  `5` is, or it is read as another name, as `configure` is.
* The label is new, but the instruction has a label in front of it in its statement.  That one is
  declared further up as well, or it would have been used; the new label is glued to it, so that
  neither of the two is declared there.

In all other cases the jump names a label of the new text (`labelled_reference_iff`).
-/

namespace LogicAsm.Jumps

variable {uri : String} {t : Text}

/-- A destination that is the name of a label of the document. -/
def IsReference (doc : Document) (d : Token) : Prop :=
  d.isNumber = false ∧ (doc.labels.find? d.content).isSome = true

/-! ### Which destination an edit is about -/

/-- No two nodes have their destinations at one place. -/
theorem eq_of_range_eq {n m : Node} (hn : n ∈ Node.ofText t) (hm : m ∈ Node.ofText t)
    {d e : Token} (hd : n.destination? = some d) (he : m.destination? = some e)
    (hrange : d.range = e.range) : n = m := by
  have hstart : d.start = e.start := congrArg Range.start hrange
  obtain ⟨hdstart, hdle, hdstop⟩ := bounds_of_destination? (ordered_of_mem_ofText n hn) hd
  obtain ⟨hestart, hele, hestop⟩ := bounds_of_destination? (ordered_of_mem_ofText m hm) he
  by_contra hne
  rcases apart_of_ne hn hm hne with hle | hle
  · have hbefore := Position.le_trans hdle (Position.le_trans hdstop hle)
    rw [hstart] at hbefore
    exact Position.not_le.2 hestart hbefore
  · have hbefore := Position.le_trans hele (Position.le_trans hestop hle)
    rw [← hstart] at hbefore
    exact Position.not_le.2 hdstart hbefore

/-- A destination is not where nothing is replaced. -/
theorem range_ne_of_destination? {n : Node} (hn : n ∈ Node.ofText t) {d : Token}
    (hd : n.destination? = some d) (p : Position) : d.range ≠ ⟨p, p⟩ := by
  have hwithin := (Node.inLine_of_mem_ofText n hn).within d (n.mem_tokens_of_destination? hd)
  intro hrange
  have hlt := hwithin.start_lt_stop
  rw [hrange] at hlt
  exact Int.lt_irrefl _ hlt

/-- What a destination is replaced by is its label. -/
theorem label?_of_replace_mem {c : Conversion} (hc : toLabels (.ofText uri t) = .ok c) {n : Node}
    (hn : n ∈ Node.ofText t) {d : Token} (hd : n.destination? = some d) {label : Text}
    (hedit : Edit.replace d.range label ∈ c.edits) :
    label? (.ofText uri t) d.lexeme = some label := by
  have hperm := (edits_toLabels_perm uri t hc).trans (labelEditsFrom_perm _ 0 _)
  rcases List.mem_append.1 (hperm.mem_iff.1 hedit) with hinsert | hredirect
  · obtain ⟨⟨m, k⟩, -, hinsert⟩ := List.mem_filterMap.1 hinsert
    simp only [insertion?] at hinsert
    split at hinsert
    · obtain ⟨_, -, hsame⟩ := Option.map_eq_some_iff.1 hinsert
      exact absurd (congrArg Edit.range hsame).symm (range_ne_of_destination? hn hd _)
    · cases hinsert
  · obtain ⟨m, hm, hredirect⟩ := List.mem_filterMap.1 hredirect
    obtain ⟨e, he, hredirect⟩ := Option.bind_eq_some_iff.1 hredirect
    obtain ⟨label', hlabel, hsame⟩ := Option.map_eq_some_iff.1 hredirect
    obtain ⟨hrange, rfl⟩ := Edit.mk.inj hsame
    obtain rfl := eq_of_range_eq hm hn he hd hrange
    obtain rfl : e = d := Option.some.inj (he.symm.trans hd)
    exact hlabel

/-! ### How a label is read -/

/-- What a destination with a given word is a reference to. -/
theorem isReference_iff {doc : Document} {d : Token} {label : Text}
    (hd : d.lexeme = .ofOperand label) :
    IsReference doc d ↔ Number.isLiteral label = false ∧
      (doc.labels.find? (renamedOperand label)).isSome = true := by
  have hkind : d.kind = (classifyWord label).1 := congrArg Prod.fst hd
  have hcontent : d.content = renamedOperand label := congrArg Prod.snd hd
  rw [IsReference, hcontent, Token.isNumber, beq_eq_false_iff_ne, hkind, isLiteral_eq_false_iff]

theorem colon_not_mem_freshName (m : Nat) : ':' ∉ freshName m := by
  refine fun hmem => (List.mem_append.1 hmem).elim (by decide) fun hmem => ?_
  have hdigit : Text.isDigit ':' = true := Text.isDigit_of_mem_ofNat ':' hmem
  cases hdigit

/-- A new label declares its own name where no other label stands in front of it, and otherwise a
name with a colon. -/
theorem newName?_cases {c : Nat} {name : Text} (h : newName? uri t c = some name) :
    ':' ∈ name ∨ frontName? t c = none ∧ freshAt? (.ofText uri t) c = some name := by
  obtain ⟨label, hfresh, rfl⟩ := Option.map_eq_some_iff.1 h
  cases frontName? t c with
  | none => exact .inr ⟨rfl, hfresh⟩
  | some front => exact .inl (by simp [Landmarks.glued])

/-- A new label is declared if no other label stands in front of its instruction. -/
theorem exists_newName?_iff {c : Nat} {label : Text}
    (hfresh : freshAt? (.ofText uri t) c = some label) :
    (∃ k, newName? uri t k = some label) ↔ frontName? t c = none := by
  constructor
  · rintro ⟨k, hk⟩
    rcases newName?_cases hk with hcolon | ⟨hfront, hk⟩
    · obtain ⟨m, rfl⟩ := (newLabel_of_freshAt? hfresh).name
      exact absurd hcolon (colon_not_mem_freshName m)
    · rw [freshAt?_injective hfresh hk, hfront]
  · intro hfront
    refine ⟨c, ?_⟩
    rw [newName?, hfresh, hfront]
    rfl

/-- No new label declares what an old name is read as. -/
theorem newName?_ne_of_newNames {w new : Text} (h : (w, new) ∈ Lexeme.newNames) (c : Nat) :
    newName? uri t c ≠ some new := by
  have hwords : ∀ r ∈ Lexeme.newNames, ':' ∉ r.2 ∧ '_' ∉ r.2 := by decide
  obtain ⟨hplain, hwhole⟩ := hwords _ h
  intro hname
  rcases newName?_cases hname with hcolon | ⟨-, hfresh⟩
  · exact hplain hcolon
  · obtain ⟨m, rfl⟩ := (newLabel_of_freshAt? hfresh).name
    exact hwhole (List.mem_append_left _ (by decide))

/-- What a label of the text is read as is a label of the labelled text only if it was one
before. -/
theorem LabelledText.declared_renamedOperand {out : Text} (h : LabelledText uri t out)
    {label : Text} (hlabel : ((Document.ofText uri t).labels.find? label).isSome = true) :
    ((Document.ofText uri out).labels.find? (renamedOperand label)).isSome = true ↔
      ((Document.ofText uri t).labels.find? (renamedOperand label)).isSome = true := by
  rw [h.declared, or_iff_left_iff_imp]
  rintro ⟨c, hc⟩
  rcases Lexeme.renamedOperand_eq_or label with hself | hnew
  · rwa [hself]
  · exact absurd hc (newName?_ne_of_newNames hnew c)

/-- Labelling jumps writes a label in each jump by the number of an instruction.  In the new text
this is the name of a label that is declared if and only if

* for a label of the text, it is read as the name of one where a jump names it, and
* for a new label, no other label stands in front of the instruction in its statement. -/
theorem labelled_reference_iff (uri : String) (t : Text) {c : Conversion}
    (hc : toLabels (.ofText uri t) = .ok c) :
    ∃ out, Edit.applyAll (.ofText uri t) c.edits = .ok out ∧
      ∀ k n d label, (Document.ofText uri t).instruction? k = some n → n.destination? = some d →
        Edit.replace d.range label ∈ c.edits →
        ∃ n' d' target, (Document.ofText uri out).instruction? k = some n' ∧
          n'.destination? = some d' ∧
          d.counter (Document.ofText uri t).instructions.length = .ok (some target) ∧
          (IsReference (.ofText uri out) d' ↔
            if ((Document.ofText uri t).labels.find? label).isSome then
              Number.isLiteral label = false ∧
                ((Document.ofText uri t).labels.find? (renamedOperand label)).isSome = true
            else frontName? t target = none) := by
  obtain ⟨haddress, -⟩ := toLabels_eq_ok_iff.1 hc
  obtain ⟨out, hout, hlabelled⟩ := exists_labelledText hc
  refine ⟨out, hout, fun k n d label hn hd hedit => ?_⟩
  have hmem : n ∈ Node.ofText t := by
    rw [Document.instruction?_ofText] at hn
    exact (List.mem_filter.1 (List.mem_of_getElem? hn)).1
  have hlabel := label?_of_replace_mem hc hmem hd hedit
  -- The label is that of the destination's counter, which gives the target.
  obtain ⟨target, hcounter, htarget⟩ := Option.bind_eq_some_iff.1 hlabel
  obtain ⟨a, ha⟩ := haddress d (List.mem_filterMap.2 ⟨n, hmem, hd⟩)
  obtain ⟨n', d', hn', hd', hlexeme⟩ := hlabelled.exists_destination hn hd
  rw [Lexeme.redirect, hlabel, Option.elim_some] at hlexeme
  refine ⟨n', d', target, hn', hd', ?_, ?_⟩
  · rw [Token.counter_eq ha, hcounter]
  rw [isReference_iff hlexeme]
  rcases labelAt?_cases htarget with hfresh | hold
  · -- A new label is read as it is, so what counts is where it is declared.
    have hnone := find?_of_freshAt? hfresh
    obtain ⟨m, rfl⟩ := (newLabel_of_freshAt? hfresh).name
    have hliteral : Number.isLiteral (freshName m) = false := by
      have hkind := classifyWord_freshName m []
      rw [List.append_nil] at hkind
      rw [isLiteral_eq_false_iff, hkind]
      simp
    rw [renamedOperand_freshName, hlabelled.declared, hnone, ← exists_newName?_iff hfresh]
    simp [hliteral]
  · obtain ⟨l, hl, hkind, rfl⟩ := exists_label_of_counterFrom hold
    have hdeclared : ((Document.ofText uri t).labels.find? l.labelName).isSome = true := by
      rw [Landmarks.isSome_find?_iff]
      exact List.mem_map_of_mem (List.mem_filter.2 ⟨hl, hkind⟩)
    rw [hlabelled.declared_renamedOperand hdeclared, if_pos hdeclared]

/-- The second instruction is behind a label that is declared again. -/
def redeclaredText : Text := "a:\nend\na: print x\njump 1 always\njump 0 always".toList

theorem toLabels_redeclaredText : toLabels (.ofText "" redeclaredText) =
    .ok ⟨2, [.replace (.of 4 5 4 6) "a".toList, .insert ⟨2, 2⟩ "label_0:\n".toList,
      .replace (.of 3 5 3 6) "label_0".toList]⟩ := by
  decide +kernel

/-- The jump to the label that stood in front of its target names a label, but that to the new label
does not. -/
theorem labelled_reference_iff_redeclared :
    ∃ c out, toLabels (.ofText "" redeclaredText) = .ok c ∧
      Edit.applyAll (.ofText "" redeclaredText) c.edits = .ok out ∧
      (∃ n d, (Document.ofText "" out).instruction? 2 = some n ∧ n.destination? = some d ∧
        ¬ IsReference (.ofText "" out) d) ∧
      ∃ n d, (Document.ofText "" out).instruction? 3 = some n ∧ n.destination? = some d ∧
        IsReference (.ofText "" out) d := by
  obtain ⟨out, hout, hreference⟩ := labelled_reference_iff "" redeclaredText toLabels_redeclaredText
  refine ⟨_, out, toLabels_redeclaredText, hout, ?_, ?_⟩
  · have hplace : (((Document.ofText "" redeclaredText).instruction? 2).bind
        Node.destination?).map (fun d =>
          (d.range, d.counter (Document.ofText "" redeclaredText).instructions.length)) =
          some (.of 3 5 3 6, .ok (some 1)) := by
      decide +kernel
    obtain ⟨n, d, hn, hd, hsame⟩ := exists_destination_of_map_eq_some hplace
    obtain ⟨hrange, hcounter⟩ := Prod.mk.inj hsame
    obtain ⟨n', d', target, hn', hd', htarget, hiff⟩ :=
      hreference 2 n d "label_0".toList hn hd (by rw [hrange]; decide)
    obtain rfl : 1 = target := Option.some.inj (Except.ok.inj (hcounter.symm.trans htarget))
    refine ⟨n', d', hn', hd', fun h => ?_⟩
    have hfront := hiff.1 h
    revert hfront
    decide +kernel
  · have hplace : (((Document.ofText "" redeclaredText).instruction? 3).bind
        Node.destination?).map Token.range = some (.of 4 5 4 6) := by
      decide +kernel
    obtain ⟨n, d, hn, hd, hrange⟩ := exists_destination_of_map_eq_some hplace
    obtain ⟨n', d', target, hn', hd', -, hiff⟩ :=
      hreference 3 n d "a".toList hn hd (by rw [hrange]; decide)
    refine ⟨n', d', hn', hd', hiff.2 ?_⟩
    rw [if_pos (by decide +kernel)]
    decide +kernel

/-- The text once it is labelled. -/
def relabelledText : Text :=
  "a:\nend\na:label_0:\n print x\njump label_0 always\njump a always".toList

/-- The new label is glued to `a:`, so the jump to it names no label. -/
theorem not_labelled_reference :
    ¬ ∀ c out, toLabels (.ofText "" redeclaredText) = .ok c →
      Edit.applyAll (.ofText "" redeclaredText) c.edits = .ok out →
      ∀ k n d label, (Document.ofText "" redeclaredText).instruction? k = some n →
        n.destination? = some d → Edit.replace d.range label ∈ c.edits →
        ∃ n' d', (Document.ofText "" out).instruction? k = some n' ∧ n'.destination? = some d' ∧
          IsReference (.ofText "" out) d' := by
  have happlied : Edit.applyAll (.ofText "" redeclaredText)
      [.replace (.of 4 5 4 6) "a".toList, .insert ⟨2, 2⟩ "label_0:\n".toList,
        .replace (.of 3 5 3 6) "label_0".toList] = .ok relabelledText := by
    decide +kernel
  have hplace : (((Document.ofText "" redeclaredText).instruction? 2).bind
      Node.destination?).map Token.range = some (.of 3 5 3 6) := by
    decide +kernel
  have hundeclared : (((Document.ofText "" relabelledText).instruction? 2).bind
      Node.destination?).map (fun d => (Document.ofText "" relabelledText).labels.find? d.content) =
        some none := by
    decide +kernel
  obtain ⟨n, d, hn, hd, hrange⟩ := exists_destination_of_map_eq_some hplace
  intro h
  obtain ⟨n', d', hn', hd', -, hdeclared⟩ :=
    h _ _ toLabels_redeclaredText happlied 2 n d "label_0".toList hn hd (by rw [hrange]; decide)
  rw [hn', Option.bind_some, hd', Option.map_some] at hundeclared
  rw [Option.some.inj hundeclared] at hdeclared
  cases hdeclared

end LogicAsm.Jumps
