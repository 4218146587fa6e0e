import LogicAsm.Proofs.Jumps.NewNames

/-!
# Names that new labels capture

A jump whose destination is not found does nothing.  Labelling the other jumps leaves it as it is,
unless its destination is a name that a new label declares: new labels avoid the names of other
labels, but not those that jumps use.  Then it leads to the new label, and what was reported as a
mistake is one no more (`unresolved_stays_iff`).

The name that is declared is that of the new label, or both names with a colon between them where it
is glued to another label (`newName?`).
-/

namespace LogicAsm.Jumps

variable {uri : String} {t : Text}

variable (uri t) in
/-- A destination that is a name which a new label declares. -/
def Captured (d : Token) : Prop :=
  d.isNumber = false ∧ ∃ counter, newName? uri t counter = some d.content

/-- An instruction with a destination of which something is known. -/
theorem exists_destination_of_map_eq_some {doc : Document} {k : Nat} {α : Type} {f : Token → α}
    {a : α} (h : ((doc.instruction? k).bind Node.destination?).map f = some a) :
    ∃ n d, doc.instruction? k = some n ∧ n.destination? = some d ∧ f d = a := by
  obtain ⟨d, hd, ha⟩ := Option.map_eq_some_iff.1 h
  obtain ⟨n, hn, hd⟩ := Option.bind_eq_some_iff.1 hd
  exact ⟨n, d, hn, hd, ha⟩

/-- A text that can be labelled has a graph. -/
theorem exists_ofNodes_of_toLabels {c : Conversion} (h : toLabels (.ofText uri t) = .ok c) :
    ∃ g, FlowGraph.ofNodes uri (Node.ofText t) = .ok g := by
  obtain ⟨haddress, -⟩ := toLabels_eq_ok_iff.1 h
  apply FlowGraph.exists_ofNodes
  intro n hn x hx
  rw [← n.map_lexeme_destination?] at hx
  obtain ⟨d, hd, rfl⟩ := Option.map_eq_some_iff.1 hx
  exact haddress d (List.mem_filterMap.2 ⟨n, hn, hd⟩)

/-- An instruction of the labelled text has the destination of that of the text, redirected. -/
theorem LabelledText.exists_destination {out : Text} (h : LabelledText uri t out) {k : Nat}
    {n : Node} (hn : (Document.ofText uri t).instruction? k = some n) {d : Token}
    (hd : n.destination? = some d) :
    ∃ n' d', (Document.ofText uri out).instruction? k = some n' ∧ n'.destination? = some d' ∧
      d'.lexeme = Lexeme.redirect (label? (.ofText uri t)) d.lexeme := by
  have hold := Landmarks.getElem?_destinations uri t k
  have hnew := Landmarks.getElem?_destinations uri out k
  rw [hn, Option.map_some, hd, Option.map_some] at hold
  rw [h.destinations, List.getElem?_map, hold, Option.map_some, Option.map_some] at hnew
  obtain ⟨n', hn', hdestination⟩ := Option.map_eq_some_iff.1 hnew.symm
  obtain ⟨d', hd', hlexeme⟩ := Option.map_eq_some_iff.1 hdestination
  exact ⟨n', d', hn', hd', hlexeme⟩

theorem LabelledText.length_instructions {out : Text} (h : LabelledText uri t out) :
    (instructionIndices (Node.ofText out)).length =
      (instructionIndices (Node.ofText t)).length := by
  rw [← Landmarks.length_destinations_ofText, h.destinations, List.length_map,
    Landmarks.length_destinations_ofText]

/-- A destination that is not found is left alone, and then it is found if it is captured. -/
theorem LabelledText.resolves_iff {out : Text} (h : LabelledText uri t out) {n n' : Node}
    {d : Token} (hd : n.outline.destination? = some d.lexeme)
    (hd' : n'.outline.destination? = some d.lexeme)
    (hnone : Outline.resolves ((Node.ofText t).map Node.outline) n.outline = false) :
    Outline.resolves ((Node.ofText out).map Node.outline) n'.outline = true ↔ Captured uri t d := by
  by_cases hnumber : d.lexeme.1 = .number
  · have hcaptured : d.isNumber = true := beq_iff_eq.2 hnumber
    rw [Outline.resolves_of_number hd hnumber, countP_outline] at hnone
    rw [Outline.resolves_of_number hd' hnumber, countP_outline, h.length_instructions, hnone,
      Captured, hcaptured]
    simp
  · have hcaptured : d.isNumber = false := beq_false_of_ne hnumber
    rw [Outline.resolves_of_ne_number hd hnumber, ← LabelTable.isSome_find?_ofText uri] at hnone
    rw [Outline.resolves_of_ne_number hd' hnumber, ← LabelTable.isSome_find?_ofText uri,
      h.declared, hnone, Captured, hcaptured]
    simp [Token.lexeme]

/-- A destination that is not found has no label. -/
theorem label?_of_not_resolves {n : Node} {d : Token}
    (hd : n.outline.destination? = some d.lexeme)
    (hnone : Outline.resolves ((Node.ofText t).map Node.outline) n.outline = false) :
    label? (.ofText uri t) d.lexeme = none := by
  rw [label?, Option.bind_eq_none_iff]
  intro c hcounter
  by_cases hnumber : d.lexeme.1 = .number
  · have hcounter : d.lexeme.counter? (instructionIndices (Node.ofText t)).length = some c :=
      hcounter
    rw [Outline.resolves_of_number hd hnumber, countP_outline, hcounter] at hnone
    cases hnone
  · rw [Lexeme.counter?_of_ne_number hnumber] at hcounter
    cases hcounter

/-- Labelling jumps leaves a destination that is not found as it is.  It is not found in the new
text either, unless it is captured by a new label: then it is. -/
theorem unresolved_stays_iff (uri : String) (t : Text) {c : Conversion}
    (hc : toLabels (.ofText uri t) = .ok c) :
    ∃ g out, FlowGraph.ofNodes uri (Document.ofText uri t).nodes = .ok g ∧
      Edit.applyAll (.ofText uri t) c.edits = .ok out ∧
      ∀ k n d, (Document.ofText uri t).instruction? k = some n → n.destination? = some d →
        g.resolves k = false →
        ∃ n' d', (Document.ofText uri out).instruction? k = some n' ∧
          n'.destination? = some d' ∧ d'.lexeme = d.lexeme ∧
          (∃ target problems, FlowGraph.resolve (Document.ofText uri out).labels
              (Document.ofText uri out).instructions n' d' = .ok (target, problems) ∧
            (target = none ↔ ¬ Captured uri t d)) ∧
          ∀ g', FlowGraph.ofNodes uri (Document.ofText uri out).nodes = .ok g' →
            (g'.resolves k = false ↔ ¬ Captured uri t d) := by
  obtain ⟨haddress, -⟩ := toLabels_eq_ok_iff.1 hc
  obtain ⟨g, hg⟩ := exists_ofNodes_of_toLabels hc
  obtain ⟨out, hout, hlabelled⟩ := exists_labelledText hc
  refine ⟨g, out, hg, hout, fun k n d hn hd hresolves => ?_⟩
  have hk : ((Node.ofText t).filter (·.isInstruction))[k]? = some n := by
    rw [← Document.instruction?_ofText uri, hn]
  have houtline : n.outline.destination? = some d.lexeme := by
    rw [← n.map_lexeme_destination?, hd]
    rfl
  have hnone : Outline.resolves ((Node.ofText t).map Node.outline) n.outline = false := by
    have hsame := FlowGraph.resolves_eq hg k
    rw [hk, hresolves] at hsame
    exact hsame.symm
  -- What is not found has no label, so it is left alone.
  obtain ⟨n', d', hn', hd', hlexeme⟩ := hlabelled.exists_destination hn hd
  rw [Lexeme.redirect, label?_of_not_resolves houtline hnone, Option.elim_none] at hlexeme
  have houtline' : n'.outline.destination? = some d'.lexeme := by
    rw [← n'.map_lexeme_destination?, hd']
    rfl
  have hiff := hlabelled.resolves_iff houtline (hlexeme ▸ houtline') hnone
  refine ⟨n', d', hn', hd', hlexeme, ?_, fun g' hg' => ?_⟩
  · have hread : ∃ a, d'.address = .ok a := by
      rw [Token.address_eq, hlexeme, ← Token.address_eq]
      have hmem := List.mem_of_getElem? hk
      exact haddress d (List.mem_filterMap.2 ⟨n, (List.mem_filter.1 hmem).1, hd⟩)
    obtain ⟨target, problems, hresolve⟩ := FlowGraph.exists_resolve
      (Document.ofText uri out).labels (Document.ofText uri out).instructions n' hread
    refine ⟨target, problems, hresolve, ?_⟩
    rw [← hiff, ← FlowGraph.isSome_of_resolve houtline' hresolve, Bool.not_eq_true,
      Option.isSome_eq_false_iff, Option.isNone_iff_eq_none]
  · have hk' : ((Node.ofText out).filter (·.isInstruction))[k]? = some n' := by
      rw [← Document.instruction?_ofText uri, hn']
    have hsame := FlowGraph.resolves_eq hg' k
    rw [show (Document.ofText uri out).nodes = Node.ofText out from rfl, hk'] at hsame
    rw [hsame, ← hiff, Bool.not_eq_true]
    exact Iff.rfl

/-- A jump to a name that the new label declares since it is glued to the label `a`, and one to a
number without an instruction. -/
def capturedText : Text :=
  "a:\nend\na: print x\njump 1 always\njump a:label_0 always\njump 9 always".toList

/-- The first of the two jumps is captured, and the second one goes nowhere, as before. -/
theorem unresolved_stays_iff_glued :
    ∃ c out g', toLabels (.ofText "" capturedText) = .ok c ∧
      Edit.applyAll (.ofText "" capturedText) c.edits = .ok out ∧
      FlowGraph.ofNodes "" (Document.ofText "" out).nodes = .ok g' ∧
      g'.resolves 3 = true ∧ g'.resolves 4 = false := by
  have hbuilt : ((toLabels (.ofText "" capturedText)).bind fun c =>
      (Edit.applyAll (.ofText "" capturedText) c.edits).bind fun out =>
        FlowGraph.ofNodes "" (Document.ofText "" out).nodes).toOption.isSome = true := by
    decide +kernel
  obtain ⟨g', hg'⟩ := Option.isSome_iff_exists.1 hbuilt
  obtain ⟨c, hc, hg'⟩ := bind_eq_ok.1 (eq_ok_of_toOption hg')
  obtain ⟨out, hout, hg'⟩ := bind_eq_ok.1 hg'
  have hunresolved : (FlowGraph.ofNodes "" (Document.ofText "" capturedText).nodes).toOption.map
      (fun g => (g.resolves 3, g.resolves 4)) = some (false, false) := by
    decide +kernel
  have hname : (((Document.ofText "" capturedText).instruction? 3).bind Node.destination?).map
      (fun d => (d.isNumber, some d.content)) = some (false, newName? "" capturedText 1) := by
    decide +kernel
  have hnumber : (((Document.ofText "" capturedText).instruction? 4).bind Node.destination?).map
      Token.isNumber = some true := by
    decide +kernel
  obtain ⟨g, out', hg, hout', hstays⟩ := unresolved_stays_iff "" capturedText hc
  obtain rfl : out' = out := Except.ok.inj (hout'.symm.trans hout)
  rw [hg] at hunresolved
  obtain ⟨hfirst, hsecond⟩ := Prod.mk.inj (Option.some.inj hunresolved)
  refine ⟨c, out', g', hc, hout, hg', ?_, ?_⟩
  · obtain ⟨n, d, hn, hd, hsame⟩ := exists_destination_of_map_eq_some hname
    obtain ⟨-, -, -, -, -, -, hgraph⟩ := hstays 3 n d hn hd hfirst
    by_contra hstill
    apply (hgraph g' hg').1 (Bool.eq_false_of_not_eq_true hstill)
    exact ⟨(Prod.mk.inj hsame).1, 1, (Prod.mk.inj hsame).2.symm⟩
  · obtain ⟨n, d, hn, hd, hkind⟩ := exists_destination_of_map_eq_some hnumber
    obtain ⟨-, -, -, -, -, -, hgraph⟩ := hstays 4 n d hn hd hsecond
    apply (hgraph g' hg').2
    rintro ⟨hname, -⟩
    rw [hkind] at hname
    cases hname

/-- A jump to a name that no label has, and one by a number. -/
def uncapturedText : Text := "jump label_0 always\njump 0 always".toList

/-- The first jump goes nowhere, and then to itself. -/
theorem not_unresolved_stays :
    (FlowGraph.ofNodes "" (Node.ofText uncapturedText)).toOption.map (·.resolves 0) = some false ∧
      ((toLabels (.ofText "" uncapturedText)).bind fun c =>
        (Edit.applyAll (.ofText "" uncapturedText) c.edits).bind fun out =>
          FlowGraph.ofNodes "" (Node.ofText out)).toOption.map (·.resolves 0) = some true := by
  decide +kernel

end LogicAsm.Jumps
