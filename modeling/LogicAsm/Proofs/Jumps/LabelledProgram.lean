import LogicAsm.Proofs.Jumps.Numbering
import LogicAsm.Proofs.Jumps.TargetLabels

/-!
# Labelling jumps keeps the program

Once jumps are labelled, the program has the same instructions but for the destinations, all labels
are where they were, and every jump leads to the same instruction (`toLabels_keeps_program`).

What is read off a labelled program is compared with the program itself, one thing at a time: its
instructions (`filter_isInstruction_labelledFrom`), the labels it had before
(`counterFrom_labelledFrom`), and the new ones (`counterFrom_labelledFrom_of_fresh`).  A number that
was replaced leads to the label it was replaced by; a name that was left alone leads to where it
led, since new labels have other names.
-/

namespace LogicAsm

namespace Outline

/-! ### What labelling leaves alone -/

variable {fresh : Nat → Option Text} {f : Lexeme → Option Text}

theorem declares_ofLabel (label name : Text) : (ofLabel label).declares name = (label == name) := by
  simp [ofLabel, declares, Lexeme.ofWord]

/-- The instructions are all there, and redirected. -/
theorem filter_isInstruction_labelledFrom (counter : Nat) (os : List Outline) :
    (labelledFrom fresh f counter os).filter isInstruction =
      (os.filter isInstruction).map (redirect f) := by
  induction os generalizing counter with
  | nil => rfl
  | cons o os ih =>
    rw [labelledFrom]
    cases ho : o.isInstruction with
    | false =>
      rw [if_neg (by simp), List.filter_cons_of_neg (by simp [isInstruction_redirect, ho]), ih,
        List.filter_cons_of_neg (by simp [ho])]
    | true =>
      have hlabels : ((fresh counter).toList.map ofLabel).filter isInstruction = [] := by
        cases fresh counter <;> rfl
      rw [if_pos rfl, List.filter_append, hlabels, List.nil_append,
        List.filter_cons_of_pos (by rw [isInstruction_redirect, ho]), ih,
        List.filter_cons_of_pos ho, List.map_cons]

theorem countP_isInstruction_labelledFrom (counter : Nat) (os : List Outline) :
    (labelledFrom fresh f counter os).countP isInstruction = os.countP isInstruction := by
  rw [List.countP_eq_length_filter, filter_isInstruction_labelledFrom, List.length_map,
    List.countP_eq_length_filter]

theorem any_isInstruction_labelledFrom (counter : Nat) (os : List Outline) :
    (labelledFrom fresh f counter os).any isInstruction = os.any isInstruction := by
  rw [Bool.eq_iff_iff, List.any_eq_true, List.any_eq_true, ← List.countP_pos_iff,
    ← List.countP_pos_iff, countP_isInstruction_labelledFrom]

/-- What is said is a new label, or it was said before. -/
theorem exists_of_mem_labelledFrom {counter : Nat} {os : List Outline} :
    ∀ o ∈ labelledFrom fresh f counter os,
      (∃ c ≥ counter, ∃ label, fresh c = some label ∧ o = ofLabel label) ∨
        ∃ p ∈ os, o = p.redirect f := by
  induction os generalizing counter with
  | nil => simp [labelledFrom]
  | cons p os ih =>
    -- What the later outlines give, whether the counter moved on or not.
    have hlater {later : Nat} (hle : counter ≤ later) {o : Outline}
        (ho : o ∈ labelledFrom fresh f later os) :
        (∃ c ≥ counter, ∃ label, fresh c = some label ∧ o = ofLabel label) ∨
          ∃ q ∈ p :: os, o = q.redirect f := by
      rcases ih o ho with ⟨c, hc, label⟩ | ⟨q, hq, rfl⟩
      · exact .inl ⟨c, Nat.le_trans hle hc, label⟩
      · exact .inr ⟨q, List.mem_cons_of_mem p hq, rfl⟩
    intro o ho
    rw [labelledFrom] at ho
    split at ho
    · rcases List.mem_append.1 ho with ho | ho
      · obtain ⟨label, hlabel, rfl⟩ := List.mem_map.1 ho
        exact .inl ⟨counter, Nat.le_refl _, label, Option.mem_toList.1 hlabel, rfl⟩
      · rcases List.mem_cons.1 ho with rfl | ho
        · exact .inr ⟨p, List.mem_cons_self, rfl⟩
        · exact hlater (Nat.le_succ counter) ho
    · rcases List.mem_cons.1 ho with rfl | ho
      · exact .inr ⟨p, List.mem_cons_self, rfl⟩
      · exact hlater (Nat.le_refl counter) ho

/-- Whatever is said of the program is said of the labelled one. -/
theorem redirect_mem_labelledFrom {counter : Nat} {os : List Outline} :
    ∀ o ∈ os, o.redirect f ∈ labelledFrom fresh f counter os := by
  induction os generalizing counter with
  | nil => simp
  | cons p os ih =>
    intro o ho
    rw [labelledFrom]
    rcases List.mem_cons.1 ho with rfl | ho
    · split <;> simp
    · split <;> simp [ih o ho]

/-- A name that is not new is declared if it was. -/
theorem any_declares_labelledFrom {name : Text} (hname : ∀ c, fresh c ≠ some name) (counter : Nat)
    (os : List Outline) :
    (labelledFrom fresh f counter os).any (declares name) = os.any (declares name) := by
  rw [Bool.eq_iff_iff, List.any_eq_true, List.any_eq_true]
  constructor
  · rintro ⟨o, ho, hdeclares⟩
    rcases exists_of_mem_labelledFrom o ho with ⟨c, -, label, hlabel, rfl⟩ | ⟨p, hp, rfl⟩
    · rw [declares_ofLabel, beq_iff_eq] at hdeclares
      exact absurd (hdeclares ▸ hlabel) (hname c)
    · exact ⟨p, hp, by rwa [declares_redirect] at hdeclares⟩
  · rintro ⟨o, ho, hdeclares⟩
    exact ⟨_, redirect_mem_labelledFrom o ho, by rwa [declares_redirect]⟩

/-- A new label is passed over by other names. -/
theorem counterFrom_append_of_ne {name : Text} {count : Nat} (h : fresh count ≠ some name)
    (os : List Outline) :
    counterFrom name count ((fresh count).toList.map ofLabel ++ os) =
      counterFrom name count os := by
  cases hlabel : fresh count with
  | none => rfl
  | some label =>
    have hother : ∀ o ∈ [ofLabel label], o.declares name = false := by
      rw [List.forall_mem_singleton, declares_ofLabel, beq_eq_false_iff_ne]
      rintro rfl
      exact h hlabel
    exact counterFrom_append_of_not_declares hother count os

/-- A label that is not new stays where it is. -/
theorem counterFrom_labelledFrom {name : Text} (hname : ∀ c, fresh c ≠ some name) (count : Nat)
    (os : List Outline) :
    counterFrom name count (labelledFrom fresh f count os) = counterFrom name count os := by
  induction os generalizing count with
  | nil => rfl
  | cons o os ih =>
    have hrest (counter : Nat) : counterFrom name count
        (o.redirect f :: labelledFrom fresh f counter os) =
        if o.declares name then if os.any isInstruction then some count else none
        else counterFrom name (if o.isInstruction then count + 1 else count)
          (labelledFrom fresh f counter os) := by
      rw [counterFrom, declares_redirect, isInstruction_redirect, any_isInstruction_labelledFrom]
    rw [labelledFrom, counterFrom]
    cases ho : o.isInstruction with
    | false =>
      rw [if_neg (by simp), hrest, ho]
      simp only [ih, Bool.false_eq_true, if_false]
    | true =>
      rw [if_pos rfl, counterFrom_append_of_ne (hname count), hrest, ho]
      simp only [ih, if_true]

/-- A new label leads to the instruction that it was made for. -/
theorem counterFrom_labelledFrom_of_fresh {name : Text} {c : Nat} (hc : fresh c = some name)
    (honly : ∀ c', fresh c' = some name → c' = c) {count : Nat} {os : List Outline}
    (hos : ∀ o ∈ os, o.declares name = false) (hle : count ≤ c)
    (hlt : c < count + os.countP isInstruction) :
    counterFrom name count (labelledFrom fresh f count os) = some c := by
  induction os generalizing count with
  | nil =>
    rw [List.countP_nil] at hlt
    omega
  | cons o os ih =>
    obtain ⟨ho, hos⟩ := List.forall_mem_cons.1 hos
    -- An old outline does not declare the name, so counting goes on behind it.
    have hstep (counter : Nat) : counterFrom name count
        (o.redirect f :: labelledFrom fresh f counter os) =
        counterFrom name (if o.isInstruction then count + 1 else count)
          (labelledFrom fresh f counter os) := by
      rw [counterFrom, declares_redirect, ho, isInstruction_redirect]
      rfl
    rw [List.countP_cons] at hlt
    rw [labelledFrom]
    cases hinstruction : o.isInstruction with
    | false =>
      rw [hinstruction] at hlt
      rw [if_neg (by simp), hstep, hinstruction]
      exact ih hos hle (by simpa using hlt)
    | true =>
      rw [hinstruction, if_pos rfl] at hlt
      rw [if_pos rfl]
      by_cases hhere : count = c
      · -- The label stands right in front of its instruction.
        have hdeclares : (ofLabel name).declares name = true := by
          rw [declares_ofLabel, BEq.rfl]
        have hany : (o.redirect f :: labelledFrom fresh f (count + 1) os).any isInstruction =
            true := by
          rw [List.any_cons, isInstruction_redirect, hinstruction, Bool.true_or]
        rw [hhere, hc, Option.toList_some, List.map_singleton, List.singleton_append, counterFrom,
          if_pos hdeclares, ← hhere, if_pos hany]
      · have hother : fresh count ≠ some name := fun h => hhere (honly count h)
        rw [counterFrom_append_of_ne hother, hstep, hinstruction, if_pos rfl]
        exact ih hos (by omega) (by omega)

/-! ### Destinations -/

/-- A label with a counter is declared. -/
theorem any_declares_of_counterFrom {name : Text} {count c : Nat} {os : List Outline}
    (h : counterFrom name count os = some c) : os.any (declares name) = true := by
  induction os generalizing count with
  | nil => cases h
  | cons o os ih =>
    rw [counterFrom] at h
    rw [List.any_cons]
    split at h
    · next hdeclares => rw [hdeclares, Bool.true_or]
    · rw [ih h, Bool.or_true]

/-- A destination that is redirected is the word that it is redirected to. -/
theorem destination?_redirect {o : Outline} {x : Lexeme} (hx : o.destination? = some x) {v : Text}
    (hv : f x = some v) : (o.redirect f).destination? = some (.ofWord v) := by
  have hcomment : (Lexeme.ofWord v).isComment = false := by
    rcases classifyWord_kind v with h | h | h <;> simp [Lexeme.isComment, Lexeme.ofWord, h]
  have hfirst (rest : List Lexeme) : firstOperand? (.ofWord v :: rest) = some (.ofWord v) := by
    cases rest with
    | nil => rw [firstOperand?, hcomment, if_neg (by simp)]
    | cons => rfl
  have hself : o.redirect f = { o with lexemes := o.lexemes.set 1 (.ofWord v) } := by
    rw [redirect, hx, Option.bind_some, hv]
  rw [hself]
  unfold destination? at hx
  split at hx
  · cases hx
  · next head tail hlexemes =>
    split at hx
    · next hjump =>
      obtain ⟨rest, rfl⟩ := exists_of_firstOperand? hx
      rw [hlexemes]
      exact (if_pos hjump).trans (hfirst rest)
    · cases hx

end Outline

namespace Jumps

/-- A document in which numbers can be replaced by labels: each of its labels has a name of its own,
which is neither a number nor a name of old, and no destination that names no label could be taken
for a new one. -/
structure Labellable (doc : Document) : Prop where
  distinct : ((doc.nodes.filter (·.isLabel)).map (·.labelName)).Nodup
  notLiteral : ∀ n ∈ doc.nodes, n.isLabel = true → Number.isLiteral n.labelName = false
  notOld : ∀ n ∈ doc.nodes, n.isLabel = true →
    n.labelName ≠ "configure".toList ∧ n.labelName ≠ "@configure".toList
  notNew : ∀ d ∈ destinations doc, d.isNumber = false → doc.labels.find? d.content = none →
    ∀ k, d.content ≠ freshName k

section

variable {uri : String} {t : Text}

theorem Labellable.renamedOperand (h : Labellable (.ofText uri t)) :
    ∀ n ∈ Node.ofText t, n.isLabel = true → renamedOperand n.labelName = n.labelName := by
  intro n hn hl
  obtain ⟨hconfigure, hatConfigure⟩ := h.notOld n hn hl
  rw [LogicAsm.renamedOperand, if_neg hconfigure, if_neg hatConfigure]

variable (uri t) in
/-- What a text says once it is labelled. -/
def labelledOutlines : List Outline :=
  Outline.labelledFrom (freshAt? (.ofText uri t)) (label? (.ofText uri t)) 0
    ((Node.ofText t).map Node.outline)

theorem countP_labelledOutlines :
    (labelledOutlines uri t).countP Outline.isInstruction =
      (instructionIndices (Node.ofText t)).length := by
  rw [labelledOutlines, Outline.countP_isInstruction_labelledFrom, countP_outline]

/-- A new label is not declared. -/
theorem find?_of_freshAt? {c : Nat} {label : Text} (h : freshAt? (.ofText uri t) c = some label) :
    (Document.ofText uri t).labels.find? label = none := by
  rw [← Option.not_isSome_iff_eq_none, LabelTable.isSome_find?_ofText, List.any_map,
    List.any_eq_true]
  rintro ⟨n, hn, hdeclares⟩
  rw [Function.comp_apply, Node.declares_outline] at hdeclares
  simp only [LabelTable.declares, Bool.and_eq_true, beq_iff_eq] at hdeclares
  exact (newLabel_of_freshAt? h).undeclared n hn hdeclares.1 hdeclares.2

/-- The label of an instruction leads to it. -/
theorem counterFrom_of_labelAt? {c : Nat} {label : Text}
    (h : labelAt? (.ofText uri t) c = some label) :
    Outline.counterFrom label 0 (labelledOutlines uri t) = some c := by
  rcases labelAt?_cases h with hfresh | hcounter
  · have hnew := newLabel_of_freshAt? hfresh
    refine Outline.counterFrom_labelledFrom_of_fresh hfresh
      (fun c' h' => freshAt?_injective h' hfresh) (fun o ho => ?_) (Nat.zero_le c) ?_
    · obtain ⟨n, hn, rfl⟩ := List.mem_map.1 ho
      rw [Node.declares_outline, LabelTable.declares]
      cases hl : n.isLabel with
      | false => rfl
      | true => exact beq_false_of_ne (hnew.undeclared n hn hl)
    · rw [Nat.zero_add, countP_outline]
      exact hnew.lt
  · obtain ⟨n, hn, hl, rfl⟩ := exists_label_of_counterFrom hcounter
    rw [labelledOutlines, Outline.counterFrom_labelledFrom, hcounter]
    intro c' h'
    exact (newLabel_of_freshAt? h').undeclared n hn hl rfl

/-- A label that is used is no number. -/
theorem Labellable.kind_ne_number (h : Labellable (.ofText uri t)) {c : Nat} {label : Text}
    (hlabel : labelAt? (.ofText uri t) c = some label) : (Lexeme.ofWord label).1 ≠ .number := by
  rcases labelAt?_cases hlabel with hfresh | hcounter
  · obtain ⟨m, rfl⟩ := (newLabel_of_freshAt? hfresh).name
    rw [(ofWord_freshName m).1]
    nofun
  · obtain ⟨n, hn, hl, rfl⟩ := exists_label_of_counterFrom hcounter
    exact classifyWord_of_not_isLiteral (h.notLiteral n hn hl)

/-- A destination is the number of an instruction and becomes the label of that, or it is left
alone: then it is the number of no instruction, or a name that is not new. -/
theorem Labellable.destination_cases (h : Labellable (.ofText uri t)) {n : Node}
    (hn : n ∈ Node.ofText t) {d : Token} (hd : n.destination? = some d) :
    (∃ c label, d.lexeme.counter? (instructionIndices (Node.ofText t)).length = some c ∧
        labelAt? (.ofText uri t) c = some label ∧
        (n.outline.redirect (label? (.ofText uri t))).destination? = some (.ofWord label)) ∨
      (n.outline.redirect (label? (.ofText uri t)) = n.outline ∧
        d.lexeme.counter? (instructionIndices (Node.ofText t)).length = none ∧
        (d.isNumber = false → ∀ c, freshAt? (.ofText uri t) c ≠ some d.content)) := by
  have hmem : d ∈ destinations (.ofText uri t) := List.mem_filterMap.2 ⟨n, hn, hd⟩
  have hlexeme : n.outline.destination? = some d.lexeme := by
    rw [← n.map_lexeme_destination?, hd]
    rfl
  cases hc : d.lexeme.counter? (instructionIndices (Node.ofText t)).length with
  | some c =>
    obtain ⟨label, hlabel⟩ := exists_labelAt? hmem hc
    refine .inl ⟨c, label, rfl, hlabel, Outline.destination?_redirect hlexeme ?_⟩
    exact Option.bind_eq_some_iff.2 ⟨c, hc, hlabel⟩
  | none =>
    refine .inr ⟨Outline.redirect_of_none ?_, rfl, fun hnumber c hfresh => ?_⟩
    · rw [hlexeme, Option.bind_some]
      exact congrArg (Option.bind · (labelAt? (.ofText uri t))) hc
    · -- A new label is declared nowhere, so the destination would be one that names no label.
      obtain ⟨k, hk⟩ := (newLabel_of_freshAt? hfresh).name
      exact h.notNew d hmem hnumber (find?_of_freshAt? hfresh) k hk

/-- A jump leads to the same instruction once it is labelled, and it leads anywhere if it did. -/
theorem Labellable.target?_redirect (h : Labellable (.ofText uri t)) {n : Node}
    (hn : n ∈ Node.ofText t) :
    Outline.target? (labelledOutlines uri t) (n.outline.redirect (label? (.ofText uri t))) =
        Outline.target? ((Node.ofText t).map Node.outline) n.outline ∧
      Outline.resolves (labelledOutlines uri t) (n.outline.redirect (label? (.ofText uri t))) =
        Outline.resolves ((Node.ofText t).map Node.outline) n.outline := by
  have houtline := n.map_lexeme_destination?
  cases hd : n.destination? with
  | none =>
    rw [hd, Option.map_none] at houtline
    rw [Outline.redirect_of_none (by rw [← houtline]; rfl), Outline.target?, Outline.target?,
      Outline.resolves, Outline.resolves, ← houtline]
    exact ⟨rfl, rfl⟩
  | some d =>
    rw [hd, Option.map_some] at houtline
    -- A destination turned into a name, or one left as it was.
    rcases h.destination_cases hn hd with
      ⟨c, label, hc, hlabel, hdestination⟩ | ⟨hself, -, hname⟩
    · have hnumber : d.lexeme.1 = .number := by
        by_contra hne
        rw [Lexeme.counter?_of_ne_number hne] at hc
        cases hc
      have hname := h.kind_ne_number hlabel
      have hcounter := counterFrom_of_labelAt? hlabel
      rw [Outline.target?_of_ne_number hdestination hname,
        Outline.resolves_of_ne_number hdestination hname,
        Outline.target?_of_number houtline.symm hnumber,
        Outline.resolves_of_number houtline.symm hnumber, countP_outline, hc]
      exact ⟨hcounter, Outline.any_declares_of_counterFrom hcounter⟩
    · rw [hself]
      by_cases hnumber : d.lexeme.1 = .number
      · simp only [Outline.target?_of_number houtline.symm hnumber,
          Outline.resolves_of_number houtline.symm hnumber, countP_labelledOutlines, countP_outline,
          and_self]
      · have hnotNew := hname (beq_false_of_ne hnumber)
        simp only [Outline.target?_of_ne_number houtline.symm hnumber,
          Outline.resolves_of_ne_number houtline.symm hnumber, labelledOutlines]
        exact ⟨Outline.counterFrom_labelledFrom hnotNew 0 _,
          Outline.any_declares_labelledFrom hnotNew 0 _⟩

/-- Once a text is labelled, all destinations can be read, and none is the number of an
instruction. -/
theorem Labellable.destination_labelled (h : Labellable (.ofText uri t))
    (haddress : ∀ d ∈ destinations (.ofText uri t), ∃ a, d.address = .ok a) :
    ∀ o ∈ labelledOutlines uri t, ∀ x ∈ o.destination?,
      x.counter? (instructionIndices (Node.ofText t)).length = none ∧ ∃ a, x.address = .ok a := by
  intro o ho x hx
  rcases Outline.exists_of_mem_labelledFrom o ho with ⟨c, -, label, -, rfl⟩ | ⟨p, hp, rfl⟩
  · cases hx
  · obtain ⟨n, hn, rfl⟩ := List.mem_map.1 hp
    have houtline := n.map_lexeme_destination?
    cases hd : n.destination? with
    | none =>
      rw [hd, Option.map_none] at houtline
      rw [Outline.redirect_of_none (by rw [← houtline]; rfl), ← houtline] at hx
      cases hx
    | some d =>
      rcases h.destination_cases hn hd with ⟨c, label, -, hlabel, hdestination⟩ | ⟨hself, hc, -⟩
      · rw [hdestination] at hx
        obtain rfl := Option.some.inj hx
        have hkind := h.kind_ne_number hlabel
        exact ⟨Lexeme.counter?_of_ne_number hkind _, none, by simp [Lexeme.address, hkind]⟩
      · rw [hself, ← houtline, hd] at hx
        obtain rfl := Option.some.inj hx
        exact ⟨hc, haddress d (List.mem_filterMap.2 ⟨n, hn, hd⟩)⟩

/-- Where no destination is the number of an instruction, there is nothing to label. -/
theorem toLabels_of_counter?_eq_none
    (haddress : ∀ d ∈ destinations (.ofText uri t), ∃ a, d.address = .ok a)
    (hnone : ∀ d ∈ destinations (.ofText uri t),
      d.lexeme.counter? (instructionIndices (Node.ofText t)).length = none) :
    toLabels (.ofText uri t) = .ok ⟨0, []⟩ := by
  have hnumbered : numbered (.ofText uri t) = [] := by
    refine List.filterMap_eq_nil_iff.2 fun d hd => ?_
    exact congrArg (Option.map _) (hnone d hd)
  have htargets : targets (.ofText uri t) = [] := by
    refine List.eq_nil_iff_forall_not_mem.2 fun target htarget => ?_
    obtain ⟨-, d, hd⟩ := mem_counter_targets.1 (List.mem_map_of_mem htarget)
    rw [hnumbered] at hd
    cases hd
  refine toLabels_eq_ok_iff.2 ⟨haddress, ?_⟩
  rw [htargets]
  rfl

end

/-! ### The program is kept -/

/-- What the tokens of a node hold once it is labelled: a jump to the number of an instruction has
the label of the instruction as its destination, and all else is the same. -/
def labelledContents (doc : Document) (n : Node) : List Text :=
  match n.destination?.bind fun d => label? doc d.lexeme with
  | none => contents n
  | some label => (contents n).set 1 label

theorem labelledContents_eq (doc : Document) (n : Node) :
    labelledContents doc n = (n.outline.redirect (label? doc)).lexemes.map Prod.snd := by
  have hsame : n.outline.destination?.bind (label? doc) =
      n.destination?.bind fun d => label? doc d.lexeme := by
    rw [← n.map_lexeme_destination?, Option.bind_map]
    rfl
  rw [labelledContents, Outline.redirect, hsame]
  cases n.destination?.bind fun d => label? doc d.lexeme with
  | none => exact contents_eq n
  | some label =>
    simp only [List.map_set, contents_eq]
    rfl

section

variable {uri : String} {t out : Text}
  (hout : (Node.ofText out).map Node.outline = labelledOutlines uri t)

include hout

theorem filter_isInstruction_of_labelled :
    ((Node.ofText out).filter (·.isInstruction)).map Node.outline =
      ((Node.ofText t).filter (·.isInstruction)).map fun n =>
        n.outline.redirect (label? (.ofText uri t)) := by
  have hinstructions := congrArg (List.filter Outline.isInstruction) hout
  rw [labelledOutlines, Outline.filter_isInstruction_labelledFrom, List.filter_map,
    List.filter_map, List.map_map] at hinstructions
  exact hinstructions

theorem length_of_labelled : (instructionIndices (Node.ofText out)).length =
    (instructionIndices (Node.ofText t)).length := by
  rw [← countP_outline, hout, countP_labelledOutlines]

theorem map_contents_of_labelled :
    ((Node.ofText out).filter (·.isInstruction)).map contents =
      ((Node.ofText t).filter (·.isInstruction)).map (labelledContents (.ofText uri t)) := by
  have hlexemes := congrArg (List.map fun o => o.lexemes.map Prod.snd)
    (filter_isInstruction_of_labelled hout)
  rw [List.map_map, List.map_map] at hlexemes
  rw [funext contents_eq, funext (labelledContents_eq _)]
  exact hlexemes

/-- A label that was there before is still in front of the same instruction. -/
theorem labels_of_labelled {name : Text}
    (hname : ((Document.ofText uri t).labels.find? name).isSome = true) :
    ((Document.ofText uri out).labels.find? name).isSome = true ∧
      (labelCounters (.ofText uri out)).lookup name =
        (labelCounters (.ofText uri t)).lookup name := by
  have hnotNew : ∀ c, freshAt? (.ofText uri t) c ≠ some name := by
    intro c hfresh
    rw [find?_of_freshAt? hfresh] at hname
    cases hname
  rw [LabelTable.isSome_find?_ofText] at hname ⊢
  rw [lookup_labelCounters_eq, lookup_labelCounters_eq, hout, labelledOutlines,
    Outline.any_declares_labelledFrom hnotNew, Outline.counterFrom_labelledFrom hnotNew]
  exact ⟨hname, rfl⟩

end

/-- Labelling jumps keeps the program.  If each label has a name of its own, which is neither a
number nor a name of old, if no undefined destination could be taken for a new label and if all
destinations can be read, then the edits can be made.  The new text has as many instructions, they
hold the same but for the destinations that are labelled, every jump leads to the same instruction
as before, or nowhere if it did, every label is declared in front of the same instruction, and
labelling jumps once more changes nothing. -/
theorem toLabels_keeps_program (uri : String) (t : Text) {c : Conversion}
    (hconversion : toLabels (.ofText uri t) = .ok c) (h : Labellable (.ofText uri t)) :
    ∃ out, Edit.applyAll (.ofText uri t) c.edits = .ok out ∧
      (Document.ofText uri out).instructions.length =
        (Document.ofText uri t).instructions.length ∧
      (∀ k, ((Document.ofText uri out).instruction? k).map contents =
        ((Document.ofText uri t).instruction? k).map (labelledContents (.ofText uri t))) ∧
      (∃ g g', FlowGraph.ofNodes uri (Document.ofText uri t).nodes = .ok g ∧
        FlowGraph.ofNodes uri (Document.ofText uri out).nodes = .ok g' ∧
        ∀ k, g'.targetCounter? k = g.targetCounter? k ∧ g'.resolves k = g.resolves k) ∧
      (∀ name, ((Document.ofText uri t).labels.find? name).isSome = true →
        ((Document.ofText uri out).labels.find? name).isSome = true ∧
        (labelCounters (.ofText uri out)).lookup name =
          (labelCounters (.ofText uri t)).lookup name) ∧
      ∃ c', toLabels (.ofText uri out) = .ok c' ∧ c'.edits = [] := by
  obtain ⟨haddress, -⟩ := toLabels_eq_ok_iff.1 hconversion
  obtain ⟨qs, hqs, hrow, hout⟩ := exists_relabels_applyAll h.distinct h.renamedOperand hconversion
  have hnodes := map_outline_of_relabels h.renamedOperand hqs hrow
  -- Name the text written: what follows only looks at the nodes read from it.
  obtain ⟨out, hout'⟩ : ∃ out, out = qs.flatMap Piece.text := ⟨_, rfl⟩
  rw [← hout'] at hout hnodes
  have hlabelled : (Node.ofText out).map Node.outline = labelledOutlines uri t := hnodes
  have hlength := length_of_labelled hlabelled
  have hdestinations : ∀ n ∈ Node.ofText out, ∀ x ∈ n.outline.destination?,
      x.counter? (instructionIndices (Node.ofText t)).length = none ∧ ∃ a, x.address = .ok a := by
    intro n hn
    refine h.destination_labelled haddress n.outline ?_
    rw [← hlabelled]
    exact List.mem_map_of_mem hn
  refine ⟨out, hout, hlength, fun k => ?_, ?_, fun name => labels_of_labelled hlabelled, ?_⟩
  · rw [Document.instruction?_ofText, Document.instruction?_ofText, ← List.getElem?_map,
      ← List.getElem?_map, map_contents_of_labelled hlabelled]
  · obtain ⟨g, hg⟩ := @FlowGraph.exists_ofNodes uri (Node.ofText t) (by
      intro n hn x hx
      rw [← n.map_lexeme_destination?] at hx
      obtain ⟨d, hd, rfl⟩ := Option.map_eq_some_iff.1 hx
      exact haddress d (List.mem_filterMap.2 ⟨n, hn, hd⟩))
    obtain ⟨g', hg'⟩ := @FlowGraph.exists_ofNodes uri (Node.ofText out) fun n hn x hx =>
      (hdestinations n hn x hx).2
    refine ⟨g, g', hg, hg', fun k => ?_⟩
    rw [FlowGraph.targetCounter?_eq hg, FlowGraph.targetCounter?_eq hg', FlowGraph.resolves_eq hg,
      FlowGraph.resolves_eq hg', hlabelled, ← List.getElem?_map,
      filter_isInstruction_of_labelled hlabelled, List.getElem?_map]
    cases hk : ((Node.ofText t).filter (·.isInstruction))[k]? with
    | none => exact ⟨rfl, rfl⟩
    | some n => exact h.target?_redirect (List.mem_filter.1 (List.mem_of_getElem? hk)).1
  -- A second run finds no destination left that is a counter.
  · refine ⟨_, toLabels_of_counter?_eq_none (fun d hd => ?_) fun d hd => ?_, rfl⟩
    all_goals
      obtain ⟨n, hn, hd⟩ := List.mem_filterMap.1 hd
      have hread := hdestinations n hn d.lexeme (by rw [← n.map_lexeme_destination?, hd]; rfl)
    · exact hread.2
    · rw [hlength]
      exact hread.1

/-- A program with a label, numbers of instructions with and without one, and other destinations. -/
def countedText : Text :=
  "start: print x; jump 2 always\r\n\tjump 0x0 equal x 1\njump 9 always; jump out always".toList

/-- The first instruction has a label already, and the third one gets a new one. -/
theorem toLabels_keeps_program_counted :
    ∃ c out, toLabels (.ofText "" countedText) = .ok c ∧
      Edit.applyAll (.ofText "" countedText) c.edits = .ok out ∧
      out = ("start: print x; jump label_0 always\r\nlabel_0:\n\tjump start equal x 1\n" ++
        "jump 9 always; jump out always").toList ∧
      ∃ c', toLabels (.ofText "" out) = .ok c' ∧ c'.edits = [] := by
  have happlied : (toLabels (.ofText "" countedText)).bind (fun c =>
      Edit.applyAll (.ofText "" countedText) c.edits) =
        .ok ("start: print x; jump label_0 always\r\nlabel_0:\n\tjump start equal x 1\n" ++
          "jump 9 always; jump out always").toList := by decide +kernel
  have hlabellable : Labellable (.ofText "" countedText) := by
    have hlabels : (((Node.ofText countedText).filter (·.isLabel)).map (·.labelName)).Nodup ∧
        ∀ n ∈ Node.ofText countedText, n.isLabel = true → Number.isLiteral n.labelName = false ∧
          n.labelName ≠ "configure".toList ∧ n.labelName ≠ "@configure".toList := by
      decide +kernel
    have hnames : ∀ d ∈ destinations (.ofText "" countedText),
        d.isNumber = true ∨ d.content.head? ≠ some 'l' := by
      decide +kernel
    refine ⟨hlabels.1, fun n hn hl => (hlabels.2 n hn hl).1, fun n hn hl => (hlabels.2 n hn hl).2,
      fun d hd hnumber _ k hk => ?_⟩
    rcases hnames d hd with h | h
    · rw [hnumber] at h
      cases h
    · rw [hk] at h
      exact h rfl
  obtain ⟨c, hc, happly⟩ := bind_eq_ok.1 happlied
  obtain ⟨out, hout, -, -, -, -, hagain⟩ :=
    toLabels_keeps_program "" countedText hc hlabellable
  rw [happly] at hout
  exact ⟨c, out, hc, hout ▸ happly, (Except.ok.inj hout).symm, hagain⟩

end Jumps

end LogicAsm
