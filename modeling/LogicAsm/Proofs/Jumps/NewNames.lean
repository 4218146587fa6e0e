import LogicAsm.Proofs.Jumps.Inserting
import LogicAsm.Proofs.Jumps.LabelledProgram

/-!
# Names of a labelled text

Labelling a text keeps all its names and declares new ones (`LabelledText.declared`).  The new ones
are those of the new labels, each alone or glued to the name of the label in front of it in its
statement (`newName?`).

That a name is kept is not plain, for a name to which a new label is glued is declared there no
more.  But the first declaration of a name is never touched: in front of an instruction it leads to
that, so the instruction needs no new label (`spares_freshAt?`).  Only a label that is declared
again is lost.
-/

namespace LogicAsm

namespace Landmarks

variable {fresh : Nat → Option Text} {f : Lexeme → Option Text}

/-- The landmarks of the statements that hold an instruction. -/
def withInstruction (ms : List Landmarks) : List Landmarks :=
  ms.filter fun m => !m.destinations.isEmpty

theorem withInstruction_cons_of_nil {m : Landmarks} (h : m.destinations = [])
    (ms : List Landmarks) :
    withInstruction (m :: ms) = withInstruction ms :=
  List.filter_cons_of_neg (by simp [h])

theorem withInstruction_cons_of_ne_nil {m : Landmarks} (h : m.destinations ≠ [])
    (ms : List Landmarks) : withInstruction (m :: ms) = m :: withInstruction ms :=
  List.filter_cons_of_pos (by simp [h])

/-- All destinations are redirected. -/
theorem destinations_labelledFrom (counter : Nat) (ms : List Landmarks) :
    (labelledFrom fresh f counter ms).destinations =
      (ms.flatMap destinations).map (Option.map (Lexeme.redirect f)) := by
  induction ms generalizing counter with
  | nil => rfl
  | cons m ms ih =>
    rw [labelledFrom, destinations_append, ih, List.flatMap_cons, List.map_append]
    rfl

/-- A name of a labelled statement is one that it had, or that of the new label. -/
theorem mem_names_labelled {new : Option Text} {m : Landmarks} {name : Text}
    (h : name ∈ (m.labelled new f).names) : name ∈ m.names ∨
      m.destinations ≠ [] ∧ ∃ label, new = some label ∧ name = glued m.names.getLast? label := by
  simp only [labelled] at h
  split at h
  · exact .inl h
  · next hsome =>
    cases new with
    | none => exact .inl h
    | some label =>
      rcases List.mem_append.1 h with h | h
      · exact .inl (List.dropLast_subset _ h)
      · exact .inr ⟨hsome, label, rfl, List.mem_singleton.1 h⟩

theorem names_labelled_of_ne_nil {m : Landmarks} (h : m.destinations ≠ []) (label : Text) :
    (m.labelled (some label) f).names = attach label m.names := if_neg h

/-- A name of labelled statements is one that they had, or that of a new label. -/
theorem mem_names_labelledFrom {counter : Nat} {ms : List Landmarks}
    (hms : ∀ m ∈ ms, m.destinations.length ≤ 1) {name : Text}
    (h : name ∈ (labelledFrom fresh f counter ms).names) :
    (∃ m ∈ ms, name ∈ m.names) ∨ ∃ c m label, (withInstruction ms)[c]? = some m ∧
      fresh (counter + c) = some label ∧ name = glued m.names.getLast? label := by
  induction ms generalizing counter with
  | nil => cases h
  | cons m ms ih =>
    obtain ⟨hm, hms⟩ := List.forall_mem_cons.1 hms
    rcases List.mem_append.1 h with h | h
    · rcases mem_names_labelled h with h | ⟨hsome, label, hnew, rfl⟩
      · exact .inl ⟨m, List.mem_cons_self, h⟩
      · rw [withInstruction_cons_of_ne_nil hsome]
        exact .inr ⟨0, m, label, rfl, hnew, rfl⟩
    · rcases ih hms h with ⟨m', hm', hname⟩ | ⟨c, m', label, hc, hnew, hname⟩
      · exact .inl ⟨m', List.mem_cons_of_mem m hm', hname⟩
      -- A statement without a destination holds no instruction, and the counter stays.
      · by_cases hnone : m.destinations = []
        · rw [hnone, List.length_nil, Nat.add_zero] at hnew
          rw [withInstruction_cons_of_nil hnone]
          exact .inr ⟨c, m', label, hc, hnew, hname⟩
        · have hone : m.destinations.length = 1 :=
            Nat.le_antisymm hm (List.length_pos_iff.2 hnone)
          rw [hone, Nat.add_right_comm, Nat.add_assoc] at hnew
          rw [withInstruction_cons_of_ne_nil hnone]
          exact .inr ⟨c + 1, m', label, hc, hnew, hname⟩

/-- A new label gives its statement a name. -/
theorem glued_mem_names_labelledFrom {counter : Nat} {ms : List Landmarks}
    (hms : ∀ m ∈ ms, m.destinations.length ≤ 1) {c : Nat} {m : Landmarks}
    (hm : (withInstruction ms)[c]? = some m) {label : Text}
    (hnew : fresh (counter + c) = some label) :
    glued m.names.getLast? label ∈ (labelledFrom fresh f counter ms).names := by
  induction ms generalizing counter c with
  | nil => cases hm
  | cons m' ms ih =>
    obtain ⟨hm', hms⟩ := List.forall_mem_cons.1 hms
    rw [labelledFrom, names_append]
    by_cases hnone : m'.destinations = []
    · rw [withInstruction_cons_of_nil hnone] at hm
      rw [hnone, List.length_nil, Nat.add_zero]
      exact List.mem_append_right _ (ih hms hm hnew)
    · rw [withInstruction_cons_of_ne_nil hnone] at hm
      cases c with
      | zero =>
        obtain rfl : m' = m := Option.some.inj hm
        rw [Nat.add_zero] at hnew
        rw [hnew, names_labelled_of_ne_nil hnone]
        exact List.mem_append_left _ (by simp [attach])
      | succ c =>
        have hone : m'.destinations.length = 1 :=
          Nat.le_antisymm hm' (List.length_pos_iff.2 hnone)
        rw [hone]
        rw [Nat.add_comm c 1, ← Nat.add_assoc] at hnew
        exact List.mem_append_right _ (ih hms hm hnew)

/-- A statement with a new label declares no name for the first time, where `counter` instructions
stand in front. -/
def Spares (fresh : Nat → Option Text) (counter : Nat) (ms : List Landmarks) (name : Text) : Prop :=
  ∀ before m after, ms = before ++ m :: after → name ∈ m.names → m.destinations ≠ [] →
    (fresh (counter + (before.flatMap destinations).length)).isSome = true →
    ∃ m' ∈ before, name ∈ m'.names

/-- A name is not lost if it is glued to a new label only where it was declared before. -/
theorem mem_names_labelledFrom_of_spares {counter : Nat} {ms : List Landmarks} {name : Text}
    (hspares : Spares fresh counter ms name) (h : ∃ m ∈ ms, name ∈ m.names) :
    name ∈ (labelledFrom fresh f counter ms).names := by
  induction ms generalizing counter with
  | nil => simp at h
  | cons m ms ih =>
    rw [labelledFrom, names_append]
    by_cases hname : name ∈ m.names
    · refine List.mem_append_left _ ?_
      simp only [labelled]
      -- A name is lost only where it stands last and is glued to the new one.
      split
      · exact hname
      · next hsome =>
        cases hnew : fresh counter with
        | none => exact hname
        | some label =>
          obtain ⟨m', hm', -⟩ := hspares [] m ms rfl hname hsome (by simp [hnew])
          cases hm'
    · refine List.mem_append_right _ (ih ?_ ?_)
      · intro before m' after hsplit hname' hsome hnew
        obtain ⟨m'', hm'', hdeclared⟩ := hspares (m :: before) m' after (by rw [hsplit]; rfl)
          hname' hsome (by rwa [List.flatMap_cons, List.length_append, ← Nat.add_assoc])
        rcases List.mem_cons.1 hm'' with rfl | hm''
        · exact absurd hdeclared hname
        · exact ⟨m'', hm'', hdeclared⟩
      · obtain ⟨m', hm', hname'⟩ := h
        rcases List.mem_cons.1 hm' with rfl | hm'
        · exact absurd hname' hname
        · exact ⟨m', hm', hname'⟩

/-- The landmarks of a program are those of its statements. -/
theorem ofNodes_flatMap (sts : List Statement) :
    ofNodes (sts.flatMap Node.ofStatement) =
      ⟨(ofStatements sts).flatMap names, (ofStatements sts).flatMap destinations⟩ := by
  induction sts with
  | nil => rfl
  | cons st sts ih =>
    rw [List.flatMap_cons, ofNodes_append, ih]
    rfl

end Landmarks

/-! ### Statements of a text -/

/-- A statement without an instruction has no destination; otherwise it is labels and an
instruction. -/
theorem Node.ofStatement_cases (st : Statement) :
    (Landmarks.ofNodes (ofStatement st)).destinations = [] ∨
      ∃ labels n, ofStatement st = labels ++ [n] ∧ n.isInstruction = true ∧
        ∀ l ∈ labels, l.isInstruction = false := by
  have houtlines : (ofStatement st).map outline = Outline.ofLexemes (st.tokens.map Token.lexeme) :=
    map_outline_ofTokens st.stop st.tokens
  rcases Outline.ofLexemes_cases (st.tokens.map Token.lexeme) with
    hnone | ⟨labels, o, hsplit, ho, hlabels⟩
  · left
    rw [← Landmarks.ofOutlines_map_outline, houtlines]
    exact List.map_eq_nil_iff.2 (List.filter_eq_nil_iff.2 fun o ho => by simp [hnone o ho])
  · obtain ⟨ns, ms, hnodes, hns, hms⟩ := List.map_eq_append_iff.1 (houtlines.trans hsplit)
    obtain ⟨n, rfl, rfl⟩ := List.map_eq_singleton_iff.1 hms
    refine .inr ⟨ns, n, hnodes, ho, fun l hl => ?_⟩
    have hkind : l.kind = .label := hlabels l.outline (hns ▸ List.mem_map_of_mem hl)
    rw [isInstruction, hkind]
    rfl

/-- A statement has one instruction at most. -/
theorem Landmarks.length_destinations_le_one (sts : List Statement) :
    ∀ m ∈ ofStatements sts, m.destinations.length ≤ 1 := by
  intro m hm
  obtain ⟨st, -, rfl⟩ := List.mem_map.1 hm
  rcases Node.ofStatement_cases st with hnone | ⟨labels, n, hnodes, -, hlabels⟩
  · rw [hnone]
    exact Nat.zero_le 1
  · have hcount : labels.countP (·.isInstruction) = 0 :=
      List.countP_eq_zero.2 fun l hl => by simp [hlabels l hl]
    rw [length_destinations, hnodes, List.countP_append, hcount, Nat.zero_add]
    exact List.countP_le_length

namespace Jumps

variable {uri : String} {t : Text}

theorem declares_iff_mem_names {ns : List Node} {name : Text} :
    (ns.map Node.outline).any (Outline.declares name) = true ↔
      name ∈ (Landmarks.ofNodes ns).names := by
  rw [List.any_map, List.any_eq_true]
  simp [Landmarks.ofNodes, Node.declares_outline, LabelTable.declares, and_assoc]

/-- A statement with a new label declares no name for the first time, for such a name leads to its
instruction, which needs no new label then. -/
theorem spares_freshAt? (name : Text) :
    Landmarks.Spares (freshAt? (.ofText uri t)) 0
      (Landmarks.ofStatements (Statement.ofText t)) name := by
  intro before m after hsplit hname hsome hnew
  obtain ⟨sts, more, hsts, rfl, hmore⟩ := List.map_eq_append_iff.1 hsplit
  obtain ⟨st, sts', rfl, rfl, rfl⟩ := List.map_eq_cons_iff.1 hmore
  by_contra hfirst
  obtain ⟨label, hlabel⟩ := Option.isSome_iff_exists.1 hnew
  apply (newLabel_of_freshAt? hlabel).alone name
  obtain ⟨labels, n, hnodes, hn, hlabels⟩ := (Node.ofStatement_cases st).resolve_left hsome
  -- Were there no earlier declaration, the name would lead here and serve as the label.
  have hbefore : ∀ o ∈ (sts.flatMap Node.ofStatement).map Node.outline,
      o.declares name = false := by
    intro o ho
    refine Bool.eq_false_iff.2 fun hdeclares => hfirst ?_
    have hmem := declares_iff_mem_names.1 (List.any_eq_true.2 ⟨o, ho, hdeclares⟩)
    rw [Landmarks.ofNodes_flatMap] at hmem
    exact List.mem_flatMap.1 hmem
  have hcount : ((Landmarks.ofStatements sts).flatMap Landmarks.destinations).length =
      ((sts.flatMap Node.ofStatement).map Node.outline).countP Outline.isInstruction := by
    rw [List.countP_map]
    exact (congrArg (·.destinations.length) (Landmarks.ofNodes_flatMap sts)).symm.trans
      (Landmarks.length_destinations _)
  have hdeclares : (labels.map Node.outline).any (Outline.declares name) = true := by
    have hnot : n.isLabel = false := Node.isLabel_of_isInstruction hn
    rw [declares_iff_mem_names]
    rw [hnodes, Landmarks.ofNodes_append] at hname
    simpa [Landmarks.ofNodes, hnot] using hname
  rw [Node.ofText, hsts, List.flatMap_append, List.flatMap_cons, List.map_append,
    Outline.counterFrom_append_of_not_declares hbefore, hnodes, List.append_assoc, List.map_append]
  exact (Outline.counterFrom_of_labels (List.forall_mem_map.2 hlabels) hdeclares _
    (by simp [Node.isInstruction_outline, hn])).trans (congrArg _ (congrArg _ hcount.symm))

/-! ### Names of the labelled text -/

/-- The name of the label that stands in front of an instruction in its statement; the last of them,
if there are more. -/
def frontName? (t : Text) (counter : Nat) : Option Text :=
  (Landmarks.withInstruction (Landmarks.ofStatements (Statement.ofText t)))[counter]?.bind
    (·.names.getLast?)

/-- The name that is declared by the new label of an instruction. -/
def newName? (uri : String) (t : Text) (counter : Nat) : Option Text :=
  (freshAt? (.ofText uri t) counter).map (Landmarks.glued (frontName? t counter))

/-- Every instruction stands in a statement. -/
theorem length_withInstruction {ms : List Landmarks} (hms : ∀ m ∈ ms, m.destinations.length ≤ 1) :
    (Landmarks.withInstruction ms).length = (ms.flatMap Landmarks.destinations).length := by
  induction ms with
  | nil => rfl
  | cons m ms ih =>
    obtain ⟨hm, hms⟩ := List.forall_mem_cons.1 hms
    rw [List.flatMap_cons, List.length_append, ← ih hms]
    by_cases hnone : m.destinations = []
    · rw [Landmarks.withInstruction_cons_of_nil hnone, hnone, List.length_nil, Nat.zero_add]
    · have hone : m.destinations.length = 1 := Nat.le_antisymm hm (List.length_pos_iff.2 hnone)
      rw [Landmarks.withInstruction_cons_of_ne_nil hnone, hone, List.length_cons, Nat.add_comm]

/-- What is left of a text once it is labelled: which names it declares, and the destination of each
of its instructions. -/
structure LabelledText (uri : String) (t out : Text) : Prop where
  declared : ∀ name, ((Document.ofText uri out).labels.find? name).isSome = true ↔
    ((Document.ofText uri t).labels.find? name).isSome = true ∨ ∃ c, newName? uri t c = some name
  destinations : (Landmarks.ofNodes (Node.ofText out)).destinations =
    (Landmarks.ofNodes (Node.ofText t)).destinations.map
      (Option.map (Lexeme.redirect (label? (.ofText uri t))))

/-- The edits that label a text can be made, and then all its names are declared, and the new ones,
and all destinations are redirected. -/
theorem exists_labelledText {c : Conversion} (h : toLabels (.ofText uri t) = .ok c) :
    ∃ out, Edit.applyAll (.ofText uri t) c.edits = .ok out ∧ LabelledText uri t out := by
  obtain ⟨out, hout, hlandmarks⟩ := exists_applyAll_landmarks h
  have hms := Landmarks.length_destinations_le_one (Statement.ofText t)
  have hold : Landmarks.ofNodes (Node.ofText t) = _ :=
    Landmarks.ofNodes_flatMap (Statement.ofText t)
  refine ⟨out, hout, fun name => ?_, ?_⟩
  · rw [Landmarks.isSome_find?_iff, Landmarks.isSome_find?_iff, hlandmarks, hold, List.mem_flatMap]
    -- Left to right: a name read back is old or glued; right to left: it was not glued away.
    constructor
    · intro hmem
      rcases Landmarks.mem_names_labelledFrom hms hmem with hname | ⟨k, m, label, hm, hnew, rfl⟩
      · exact .inl hname
      · refine .inr ⟨k, ?_⟩
        rw [Nat.zero_add] at hnew
        rw [newName?, hnew, frontName?, hm]
        rfl
    · rintro (hname | ⟨k, hname⟩)
      · exact Landmarks.mem_names_labelledFrom_of_spares (spares_freshAt? name) hname
      · obtain ⟨label, hnew, rfl⟩ := Option.map_eq_some_iff.1 hname
        have hlt : k < (Landmarks.withInstruction
            (Landmarks.ofStatements (Statement.ofText t))).length := by
          have hcount := Landmarks.length_destinations_ofText t
          rw [hold] at hcount
          rw [length_withInstruction hms, hcount]
          exact (newLabel_of_freshAt? hnew).lt
        have hm := List.getElem?_eq_getElem hlt
        rw [frontName?, hm]
        rw [← Nat.zero_add k] at hnew
        exact Landmarks.glued_mem_names_labelledFrom hms hm hnew
  · rw [hlandmarks, Landmarks.destinations_labelledFrom, hold]

end Jumps

end LogicAsm
