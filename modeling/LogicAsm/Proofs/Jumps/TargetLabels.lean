import LogicAsm.Proofs.Jumps.Labelling

/-!
# The labels of targets

Which label `Jumps.toLabels` gives an instruction that is jumped to by its number, as far as a text
is concerned:

* one that stands in front of the instruction already (`labelAt?_cases`), or
* a new one, if there is none (`newLabel_of_freshAt?`); no two instructions have the same
  (`freshAt?_injective`).

Both are words that can be put in the place of a number (`rewords_label?`), and a new one can
also be put on a line of its own (`declarable_freshAt?`).  If no name is declared twice, an
instruction with a label right in front of it needs no new one (`sparing_freshAt?`).  So the text
can be labelled stretch by stretch, and that is what making the edits gives
(`exists_relabels_applyAll`).
-/

namespace LogicAsm

open Piece

namespace Jumps

/-! ### New names -/

theorem mem_freshName (m : Nat) : ∀ c ∈ freshName m ++ [':'], inWord c = true ∧ c ≠ '\n' := by
  intro c hc
  rcases List.mem_append.1 hc with hc | hc
  · rcases List.mem_append.1 hc with hc | hc
    · have hletters : ("label_".toList.all fun c => inWord c && c != '\n') = true := by decide
      simpa using List.all_eq_true.1 hletters c hc
    · exact (wellFormed_word_ofNat m).2.2 c hc
  · obtain rfl := List.mem_singleton.1 hc
    decide

theorem head?_freshName (m : Nat) (cs : Text) : (freshName m ++ cs).head? ≠ some '"' := by
  show some 'l' ≠ some '"'
  decide

theorem wellFormed_word_freshName (m : Nat) : (word (freshName m)).WellFormed :=
  ⟨List.cons_ne_nil _ _, head?_freshName m [], fun c hc =>
    mem_freshName m c (List.mem_append_left _ hc)⟩

theorem classifyWord_freshName (m : Nat) (cs : Text) :
    classifyWord (freshName m ++ cs) = (.identifier, []) := rfl

theorem renamedOperand_freshName (m : Nat) : renamedOperand (freshName m) = freshName m := rfl

/-- A new name says the same wherever it stands. -/
theorem ofWord_freshName (m : Nat) :
    Lexeme.ofWord (freshName m) = (.identifier, freshName m) ∧
      Lexeme.ofOperand (freshName m) = (.identifier, freshName m) := by
  have hkind := classifyWord_freshName m []
  rw [List.append_nil] at hkind
  rw [Lexeme.ofWord, Lexeme.ofOperand, hkind, renamedOperand_freshName]
  exact ⟨rfl, rfl⟩

/-- A new name can be declared. -/
theorem declarable_freshName (m : Nat) : Declarable (freshName m) := by
  refine ⟨⟨List.cons_ne_nil _ _, head?_freshName m _, mem_freshName m⟩, ?_⟩
  have hends : (freshName m ++ [':']).endsWith ':' = true := by
    rw [Text.endsWith, List.getLast?_concat, BEq.rfl]
  rw [Lexeme.isLabel, Lexeme.ofWord, classifyWord_freshName, hends]
  rfl

/-! ### The label of a counter -/

section

variable {uri : String} {t : Text}

/-- A target has a label in front of it, or a new one if there is none. -/
theorem spec_of_find? {c : Nat} {target : TargetLabel}
    (h : (targets (.ofText uri t)).find? (·.counter == c) = some target) :
    if target.fresh then
      (∀ name, Outline.counterFrom name 0 ((Node.ofText t).map Node.outline) ≠ some c) ∧
        (∀ n ∈ Node.ofText t, n.isLabel = true → n.labelName ≠ target.label) ∧
        ∃ m, target.label = freshName m
    else Outline.counterFrom target.label 0 ((Node.ofText t).map Node.outline) = some c := by
  obtain rfl := counter_of_find? h
  have hspec := mem_targetLabels target (List.mem_of_find?_eq_some h)
  split
  · next hfresh =>
    rw [if_pos hfresh] at hspec
    obtain ⟨hnone, hfree, m, -, hname⟩ := hspec
    refine ⟨fun name hcounter => ?_, fun n hn hl heq => hfree ?_, m, hname⟩
    · have hne := List.lookup_eq_none_iff.1 hnone (target.counter, name)
        (List.mem_map.2 ⟨_, mem_labelCounters.2 hcounter, rfl⟩)
      simp at hne
    · rw [← heq]
      exact List.mem_map_of_mem (List.mem_filter.2 ⟨hn, hl⟩)
  · next hfresh =>
    rw [if_neg hfresh] at hspec
    -- A label that is reused comes from the table of counters, turned around.
    obtain ⟨front, back, hsplit, -⟩ := List.lookup_eq_some_iff.1 hspec
    have hlisted : (target.counter, target.label) ∈
        front ++ (target.counter, target.label) :: back := by simp
    rw [← hsplit] at hlisted
    obtain ⟨⟨name, counter⟩, hmem, ⟨⟩⟩ := List.mem_map.1 hlisted
    exact mem_labelCounters.1 hmem

/-- A label that is used is new, or it stands in front of the instruction already. -/
theorem labelAt?_cases {c : Nat} {label : Text} (h : labelAt? (.ofText uri t) c = some label) :
    freshAt? (.ofText uri t) c = some label ∨
      Outline.counterFrom label 0 ((Node.ofText t).map Node.outline) = some c := by
  obtain ⟨target, hfind, rfl⟩ := Option.map_eq_some_iff.1 h
  have hspec := spec_of_find? hfind
  cases hfresh : target.fresh with
  | true => exact .inl (by simp [freshAt?, hfind, hfresh])
  | false => exact .inr (by simpa [hfresh] using hspec)

theorem labelAt?_of_freshAt? {doc : Document} {c : Nat} {label : Text}
    (h : freshAt? doc c = some label) : labelAt? doc c = some label := by
  obtain ⟨target, hfind, rfl⟩ := Option.map_eq_some_iff.1 h
  rw [labelAt?, (Option.filter_eq_some_iff.1 hfind).1]
  rfl

/-- What is known of a new label. -/
structure NewLabel (t : Text) (c : Nat) (label : Text) : Prop where
  alone : ∀ name, Outline.counterFrom name 0 ((Node.ofText t).map Node.outline) ≠ some c
  undeclared : ∀ n ∈ Node.ofText t, n.isLabel = true → n.labelName ≠ label
  name : ∃ m, label = freshName m
  lt : c < (instructionIndices (Node.ofText t)).length

theorem newLabel_of_freshAt? {c : Nat} {label : Text}
    (h : freshAt? (.ofText uri t) c = some label) : NewLabel t c label := by
  obtain ⟨target, hfind, rfl⟩ := Option.map_eq_some_iff.1 h
  obtain ⟨hfind, hfresh⟩ := Option.filter_eq_some_iff.1 hfind
  have hspec := spec_of_find? hfind
  rw [if_pos hfresh] at hspec
  have hcounter : c ∈ (targets (.ofText uri t)).map (·.counter) := by
    rw [← counter_of_find? hfind]
    exact List.mem_map_of_mem (List.mem_of_find?_eq_some hfind)
  exact ⟨hspec.1, hspec.2.1, hspec.2.2, (mem_counter_targets.1 hcounter).1⟩

/-- No new label is that of two instructions. -/
theorem freshAt?_injective {doc : Document} {c c' : Nat} {label : Text}
    (h : freshAt? doc c = some label) (h' : freshAt? doc c' = some label) : c = c' := by
  obtain ⟨target, hfind, rfl⟩ := Option.map_eq_some_iff.1 h
  obtain ⟨target', hfind', hlabel⟩ := Option.map_eq_some_iff.1 h'
  obtain ⟨hfind, hfresh⟩ := Option.filter_eq_some_iff.1 hfind
  obtain ⟨hfind', hfresh'⟩ := Option.filter_eq_some_iff.1 hfind'
  have hsame : target = target' := by
    have hsymm : Std.Symm fun a b : TargetLabel =>
        a.fresh = true → b.fresh = true → a.label ≠ b.label :=
      ⟨fun a b h hb ha heq => h ha hb heq.symm⟩
    by_contra hne
    exact (pairwise_targetLabels _ _ _ _).forall (List.mem_of_find?_eq_some hfind)
      (List.mem_of_find?_eq_some hfind') hne hfresh hfresh' hlabel.symm
  rw [← counter_of_find? hfind, ← counter_of_find? hfind', hsame]

/-- No label is that of two instructions. -/
theorem labelAt?_injective {c c' : Nat} {label : Text}
    (h : labelAt? (.ofText uri t) c = some label) (h' : labelAt? (.ofText uri t) c' = some label) :
    c = c' := by
  -- A new label is declared nowhere, so it is none that stands in front of an instruction.
  have hapart {c c' : Nat} (hfresh : freshAt? (.ofText uri t) c = some label)
      (hold : Outline.counterFrom label 0 ((Node.ofText t).map Node.outline) = some c') :
      False := by
    obtain ⟨n, hn, hl, hname⟩ := exists_label_of_counterFrom hold
    exact (newLabel_of_freshAt? hfresh).undeclared n hn hl hname
  rcases labelAt?_cases h with hfresh | hold
  · rcases labelAt?_cases h' with hfresh' | hold'
    · exact freshAt?_injective hfresh hfresh'
    · exact (hapart hfresh hold').elim
  · rcases labelAt?_cases h' with hfresh' | hold'
    · exact (hapart hfresh' hold).elim
    · exact Option.some.inj (hold.symm.trans hold')

/-- A destination that is the number of an instruction has a label. -/
theorem exists_labelAt? {doc : Document} {d : Token} (hd : d ∈ destinations doc) {c : Nat}
    (hc : d.lexeme.counter? doc.instructions.length = some c) :
    ∃ label, labelAt? doc c = some label := by
  have hnumbered : (c, d) ∈ numbered doc := by
    refine List.mem_filterMap.2 ⟨d, hd, ?_⟩
    rw [hc]
    rfl
  have hcounter := mem_counter_targets.2 ⟨Lexeme.lt_of_counter? hc, d, hnumbered⟩
  obtain ⟨target, htarget, rfl⟩ := List.mem_map.1 hcounter
  exact ⟨target.label, by rw [labelAt?, find?_targets htarget]; rfl⟩

/-- An instruction has a label since its number is a destination. -/
theorem exists_destination_of_labelAt? {doc : Document} {c : Nat} {label : Text}
    (h : labelAt? doc c = some label) : ∃ n ∈ doc.nodes, ∃ d, n.destination? = some d ∧
      d.lexeme.counter? doc.instructions.length = some c := by
  obtain ⟨target, hfind, -⟩ := Option.map_eq_some_iff.1 h
  obtain rfl := counter_of_find? hfind
  obtain ⟨-, d, hd⟩ :=
    mem_counter_targets.1 (List.mem_map_of_mem (List.mem_of_find?_eq_some hfind))
  obtain ⟨e, he, hcounter⟩ := List.mem_filterMap.1 hd
  obtain ⟨c, hc, heq⟩ := Option.map_eq_some_iff.1 hcounter
  obtain ⟨n, hn, hdestination⟩ := List.mem_filterMap.1 he
  obtain ⟨rfl, rfl⟩ := Prod.mk.inj heq
  exact ⟨n, hn, e, hdestination, hc⟩

/-! ### Labelling a text -/

theorem declarable_freshAt? :
    ∀ c, ∀ label ∈ freshAt? (.ofText uri t) c, Declarable label := by
  intro c label h
  obtain ⟨m, rfl⟩ := (newLabel_of_freshAt? h).name
  exact declarable_freshName m

/-- The label of an instruction is a word. -/
theorem wellFormed_labelAt? {c : Nat} {label : Text}
    (h : labelAt? (.ofText uri t) c = some label) : (word label).WellFormed := by
  rcases labelAt?_cases h with hfresh | hcounter
  · obtain ⟨m, rfl⟩ := (newLabel_of_freshAt? hfresh).name
    exact wellFormed_word_freshName m
  · obtain ⟨n, hn, hl, rfl⟩ := exists_label_of_counterFrom hcounter
    exact Node.wellFormed_labelName hn hl

/-- Labels can be put in the place of numbers. -/
theorem rewords_label? : Rewords (label? (.ofText uri t)) := by
  refine ⟨fun x v h => ?_, fun x v h => ?_⟩
  · have hnumber : x.1 = .number := by
      by_contra hne
      rw [label?, Lexeme.counter?_of_ne_number hne] at h
      cases h
    rw [hnumber]
    decide
  · obtain ⟨c, -, hc⟩ := Option.bind_eq_some_iff.1 h
    exact wellFormed_labelAt? hc

/-- Labels can be put in the place of numbers under their own names, if none of them is a name of
old. -/
theorem substitutes_label?
    (hnames : ∀ n ∈ Node.ofText t, n.isLabel = true → renamedOperand n.labelName = n.labelName) :
    Substitutes (label? (.ofText uri t)) := by
  have hf := @rewords_label? uri t
  refine ⟨hf.source, hf.word, fun x v h => ?_⟩
  obtain ⟨c, -, hc⟩ := Option.bind_eq_some_iff.1 h
  rcases labelAt?_cases hc with hfresh | hcounter
  · obtain ⟨m, rfl⟩ := (newLabel_of_freshAt? hfresh).name
    exact renamedOperand_freshName m
  · obtain ⟨n, hn, hl, rfl⟩ := exists_label_of_counterFrom hcounter
    exact hnames n hn hl

/-- If no name is declared twice, a label right in front of an instruction is a label of that. -/
theorem counterFrom_labelName {before after : List Node} {l n : Node}
    (hnodup : (((before ++ l :: n :: after).filter (·.isLabel)).map (·.labelName)).Nodup)
    (hl : l.isLabel = true) (hn : n.isInstruction = true) (count : Nat) :
    Outline.counterFrom l.labelName count ((before ++ l :: n :: after).map Node.outline) =
      some (count + before.countP (·.isInstruction)) := by
  have hbefore : ∀ o ∈ before.map Node.outline, o.declares l.labelName = false := by
    intro o ho
    obtain ⟨m, hm, rfl⟩ := List.mem_map.1 ho
    rw [Node.declares_outline, LabelTable.declares, Bool.and_eq_false_imp, beq_eq_false_iff_ne]
    intro hlabel
    rw [List.filter_append, List.map_append] at hnodup
    apply (List.nodup_append.1 hnodup).2.2
    · exact List.mem_map_of_mem (List.mem_filter.2 ⟨hm, hlabel⟩)
    · exact List.mem_map_of_mem (List.mem_filter.2 ⟨List.mem_cons_self, hl⟩)
  have hdeclares : [l.outline].any (Outline.declares l.labelName) = true := by
    simp [Node.declares_outline, LabelTable.declares, hl]
  have hnot : ∀ o ∈ [l.outline], o.isInstruction = false :=
    List.forall_mem_singleton.2 (Node.isInstruction_of_isLabel hl)
  rw [List.map_append, Outline.counterFrom_append_of_not_declares hbefore, List.countP_map]
  exact Outline.counterFrom_of_labels hnot hdeclares _ (by simp [Node.isInstruction_outline, hn])

/-- If no name is declared twice, an instruction with a label right in front of it has no new
one. -/
theorem sparing_freshAt?
    (hnodup : (((Node.ofText t).filter (·.isLabel)).map (·.labelName)).Nodup) :
    Outline.Sparing (freshAt? (.ofText uri t)) 0 ((Node.ofText t).map Node.outline) := by
  intro before l o after hsplit hl ho
  obtain ⟨ns, ms, hnodes, rfl, hms⟩ := List.map_eq_append_iff.1 hsplit
  obtain ⟨m, rest, rfl, rfl, hrest⟩ := List.map_eq_cons_iff.1 hms
  obtain ⟨n, ms, rfl, rfl, rfl⟩ := List.map_eq_cons_iff.1 hrest
  rw [hnodes] at hnodup
  have hcounter := counterFrom_labelName hnodup (beq_iff_eq.2 hl) ho 0
  rw [← hnodes] at hcounter
  rw [List.countP_map]
  cases hfresh : freshAt? (.ofText uri t)
      (0 + ns.countP (Outline.isInstruction ∘ Node.outline)) with
  | none => rfl
  | some label => exact absurd hcounter ((newLabel_of_freshAt? hfresh).alone _)

/-- A text in which no name is declared twice and no label has a name of old is labelled stretch by
stretch, and this is what making the edits gives. -/
theorem exists_relabels_applyAll
    (hnodup : (((Node.ofText t).filter (·.isLabel)).map (·.labelName)).Nodup)
    (hnames : ∀ n ∈ Node.ofText t, n.isLabel = true → renamedOperand n.labelName = n.labelName)
    {c : Conversion} (h : toLabels (.ofText uri t) = .ok c) :
    ∃ qs, Relabels (freshAt? (.ofText uri t)) (label? (.ofText uri t)) 0 (ofText t) qs ∧
      Row qs ∧ Edit.applyAll (.ofText uri t) c.edits = .ok (qs.flatMap text) := by
  have hf := @substitutes_label? uri t hnames
  have hsparing := @sparing_freshAt? uri t hnodup
  rw [Node.ofText_eq] at hsparing
  obtain ⟨qs, hqs⟩ := exists_relabels (label? (.ofText uri t)) 0 .origin hsparing
  have hrewrites := hqs.rewrites hf.rewords (a := []) (by simp) (row_ofText t)
    (flatMap_text_ofText t).symm
  rw [flatMap_text_ofText] at hrewrites
  refine ⟨qs, hqs, hqs.row hf.rewords declarable_freshAt? (row_ofText t),
    Edit.applyAll_of_rewrites uri hrewrites ?_⟩
  have hperm := edits_toLabels_perm uri t h
  rwa [Node.ofText_eq] at hperm

/-- What is said once a text is labelled. -/
theorem map_outline_of_relabels
    (hnames : ∀ n ∈ Node.ofText t, n.isLabel = true → renamedOperand n.labelName = n.labelName)
    {qs : List Piece}
    (h : Relabels (freshAt? (.ofText uri t)) (label? (.ofText uri t)) 0 (ofText t) qs)
    (hrow : Row qs) :
    (Node.ofText (qs.flatMap text)).map Node.outline =
      Outline.labelledFrom (freshAt? (.ofText uri t)) (label? (.ofText uri t)) 0
        ((Node.ofText t).map Node.outline) := by
  rw [Node.ofText_eq, Node.ofText_eq, ofText_flatMap_text hrow]
  exact h.outlines (substitutes_label? hnames) declarable_freshAt? (row_ofText t).wellFormed
    .origin (Int.le_refl 0)

end

end Jumps

end LogicAsm
