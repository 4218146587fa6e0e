import LogicAsm.Proofs.Jumps.LabelEdits
import LogicAsm.Proofs.Jumps.Margins

/-!
# Labelling jumps, stretch by stretch

What `Jumps.toLabels` makes of a text is again a row of pieces: each stretch has its destination
redirected, and in front of some stretches a label is declared on a line of its own (`Relabels`).
The label is put in front of the blanks that the stretch starts with, and it ends with the line, so
nothing is glued to it on either side (`Relabels.row`).

A new label stands in front of the whole statement and not of its instruction, which is the same
unless there are labels in the statement already.  Then the instruction has a label, and needs no
other one; this is said stretch by stretch too (`Fits`).

So the edits can be made (`Relabels.rewrites`), and the new text is read as the nodes of the old one
with their destinations redirected and with the new labels between them (`Relabels.outlines`).
-/

namespace LogicAsm

namespace Outline

/-! ### What is said with new labels -/

variable (fresh : Nat → Option Text) (f : Lexeme → Option Text)

/-- What a declaration of a label on a line of its own says. -/
def ofLabel (label : Text) : Outline := ⟨.label, [.ofWord (label ++ [':'])]⟩

/-- What nodes say once they are labelled, where `counter` instructions stand in front: some
instructions have a new label in front of them, and some destinations are other words. -/
def labelledFrom (counter : Nat) : List Outline → List Outline
  | [] => []
  | o :: os =>
    if o.isInstruction then
      (fresh counter).toList.map ofLabel ++ o.redirect f :: labelledFrom (counter + 1) os
    else o.redirect f :: labelledFrom counter os

theorem labelledFrom_append (counter : Nat) (os os' : List Outline) :
    labelledFrom fresh f counter (os ++ os') = labelledFrom fresh f counter os ++
      labelledFrom fresh f (counter + os.countP isInstruction) os' := by
  induction os generalizing counter with
  | nil => rfl
  | cons o os ih =>
    rw [List.cons_append, labelledFrom, labelledFrom, List.countP_cons]
    cases ho : o.isInstruction with
    | false => simp [ih]
    | true => simp [ih, Nat.add_comm, Nat.add_left_comm]

/-- Without an instruction there is no new label. -/
theorem labelledFrom_of_not_isInstruction {os : List Outline}
    (h : ∀ o ∈ os, o.isInstruction = false) (counter : Nat) :
    labelledFrom fresh f counter os = os.map (redirect f) := by
  induction os generalizing counter with
  | nil => rfl
  | cons o os ih =>
    obtain ⟨ho, hos⟩ := List.forall_mem_cons.1 h
    rw [labelledFrom, if_neg (by simp [ho]), ih hos, List.map_cons]

/-- An instruction with a label right in front of it has no new one, where `counter` instructions
stand in front. -/
def Sparing (counter : Nat) (os : List Outline) : Prop :=
  ∀ before l o after, os = before ++ l :: o :: after → l.kind = .label → o.isInstruction = true →
    fresh (counter + before.countP isInstruction) = none

section

variable {fresh} {counter : Nat} {os os' : List Outline}

theorem Sparing.left (h : Sparing fresh counter (os ++ os')) : Sparing fresh counter os := by
  intro before l o after hos
  exact h before l o (after ++ os') (by rw [hos]; simp)

theorem Sparing.right (h : Sparing fresh counter (os ++ os')) :
    Sparing fresh (counter + os.countP isInstruction) os' := by
  intro before l o after hos hl ho
  have hnone := h (os ++ before) l o after (by rw [hos]; simp) hl ho
  rwa [List.countP_append, ← Nat.add_assoc] at hnone

end

/-- Only the last node of a statement is an instruction, and there are labels in front of it. -/
theorem ofLexemes_cases (xs : List Lexeme) :
    (∀ o ∈ ofLexemes xs, o.isInstruction = false) ∨
      ∃ labels o, ofLexemes xs = labels ++ [o] ∧ o.isInstruction = true ∧
        ∀ l ∈ labels, l.kind = .label := by
  fun_induction ofLexemes xs with
  | case1 => exact .inl (by simp)
  | case2 head tail => exact .inl (by simp [isInstruction])
  | case3 head => exact .inl (by simp [isInstruction])
  | case4 head _ _ second rest => exact .inl (by simp [isInstruction])
  | case5 head _ _ second rest _ ih =>
    rcases ih with h | ⟨labels, o, hos, ho, hlabels⟩
    · exact .inl (List.forall_mem_cons.2 ⟨rfl, h⟩)
    · exact .inr ⟨_ :: labels, o, by rw [hos, List.cons_append], ho,
        List.forall_mem_cons.2 ⟨rfl, hlabels⟩⟩
  | case6 head tail => exact .inr ⟨[], _, rfl, rfl, by simp⟩

end Outline

namespace Piece

/-- What the nodes of a stretch say. -/
def outlines (s : List Piece) : List Outline :=
  Outline.ofLexemes (Lexeme.rename (s.filterMap lexeme?))

/-- A label on a line of its own. -/
def declaration (label : Text) : List Piece := [.word (label ++ [':']), .separator '\n']

/-- A label that can be put on a line of its own. -/
structure Declarable (label : Text) : Prop where
  wellFormed : (word (label ++ [':'])).WellFormed
  isLabel : (Lexeme.ofWord (label ++ [':'])).isLabel = true

variable (fresh : Nat → Option Text) (f : Lexeme → Option Text)

/-- A stretch with a new label above it, if it holds an instruction, and with its destination
redirected; `counter` instructions stand in front. -/
def relabel (counter : Nat) (s : List Piece) : List Piece :=
  (if (outlines s).any Outline.isInstruction then (fresh counter).toList.flatMap declaration
    else []) ++ redirect f s

/-- A stretch with a new label has no other one. -/
def Fits (counter : Nat) (s : List Piece) : Prop :=
  (fresh counter).isSome = true → (outlines s).any Outline.isInstruction = true →
    ∀ o ∈ outlines s, o.kind ≠ .label

/-- Pieces, and what becomes of them stretch by stretch, where `counter` instructions stand in
front. -/
inductive Relabels : Nat → List Piece → List Piece → Prop where
  | last (counter : Nat) {s : List Piece} (stretch : Stretch s) (fits : Fits fresh counter s) :
      Relabels counter s (relabel fresh f counter s)
  | more (counter : Nat) {s : List Piece} (c : Char) {rest qs : List Piece} (stretch : Stretch s)
      (fits : Fits fresh counter s)
      (later : Relabels (counter + (outlines s).countP Outline.isInstruction) rest qs) :
      Relabels counter (s ++ .separator c :: rest) (relabel fresh f counter s ++ .separator c :: qs)

variable {fresh f}

/-- There is no new label, or there is one and the stretch is one instruction. -/
theorem relabel_cases {counter : Nat} {s : List Piece} (h : Fits fresh counter s) :
    (relabel fresh f counter s = redirect f s ∧
        (∀ o ∈ outlines s, o.isInstruction = true → fresh counter = none) ∧
        Outline.labelledFrom fresh f counter (outlines s) =
          (outlines s).map (Outline.redirect f)) ∨
      ∃ label o, fresh counter = some label ∧ outlines s = [o] ∧ o.isInstruction = true ∧
        relabel fresh f counter s = declaration label ++ redirect f s := by
  rcases Outline.ofLexemes_cases (Lexeme.rename (s.filterMap lexeme?)) with
    hnone | ⟨labels, o, houtlines, ho, hlabels⟩
  · have hany : ¬ (outlines s).any Outline.isInstruction = true := by
      simpa [outlines] using hnone
    refine .inl ⟨by rw [relabel, if_neg hany, List.nil_append], fun o ho hinstruction => ?_,
      Outline.labelledFrom_of_not_isInstruction fresh f hnone counter⟩
    rw [hnone o ho] at hinstruction
    cases hinstruction
  · have houtlines : outlines s = labels ++ [o] := houtlines
    have hany : (outlines s).any Outline.isInstruction = true := by simp [houtlines, ho]
    rw [relabel, if_pos hany]
    cases hfresh : fresh counter with
    | some label =>
      -- There is no label in the statement, so it is nothing but the instruction.
      obtain rfl : labels = [] := by
        refine List.eq_nil_iff_forall_not_mem.2 fun l hl => ?_
        exact h (by simp [hfresh]) hany l (by simp [houtlines, hl]) (hlabels l hl)
      exact .inr ⟨label, o, rfl, houtlines, ho, by simp⟩
    | none =>
      have hnot : ∀ l ∈ labels, l.isInstruction = false := by
        intro l hl
        rw [Outline.isInstruction, hlabels l hl]
        rfl
      have hcount : labels.countP Outline.isInstruction = 0 :=
        List.countP_eq_zero.2 fun l hl => by simp [hnot l hl]
      refine .inl ⟨rfl, fun _ _ _ => rfl, ?_⟩
      rw [houtlines, Outline.labelledFrom_append,
        Outline.labelledFrom_of_not_isInstruction fresh f hnot, hcount, List.map_append]
      simp [Outline.labelledFrom, ho, hfresh]

/-! ### Reading what becomes of pieces -/

/-- A label on a line of its own is one node in front of all others. -/
theorem exists_nodesAt_declaration {here : Position} (hpos : 0 ≤ here.character) {label : Text}
    (h : Declarable label) : ∃ n : Node, n.outline = .ofLabel label ∧ n.isLabel = true ∧
      n.labelName = label ∧ n.start = here ∧ n.stop = here.advance (label ++ [':']) ∧
      ∀ ps, nodesAt here (declaration label ++ ps) =
        n :: nodesAt (here.advance (label ++ [':'] ++ ['\n'])) ps := by
  obtain ⟨first, htoken⟩ : ∃ first, (word (label ++ [':'])).tokenAt? here = some first := ⟨_, rfl⟩
  have htokens : tokensAt here [.word (label ++ [':'])] = [first] := by
    rw [tokensAt, htoken]
    rfl
  have hlexeme : first.lexeme = .ofWord (label ++ [':']) :=
    (Option.some.inj ((lexeme_of_tokenAt? htoken).symm.trans (lexeme?_word _)))
  have hlabel : first.isLabel = true := by
    have hisLabel := h.isLabel
    rwa [← hlexeme] at hisLabel
  have hnodes : nodesAt here [.word (label ++ [':'])] =
      [⟨.label, first, [], here.advance (label ++ [':'])⟩] := by
    rw [nodesAt_of_tokensAt hpos (by simp [Stretch, endsStatement]) htokens, renameTail]
    simp [Node.ofTokens, Token.isComment_of_isLabel hlabel, hlabel, text]
  refine ⟨⟨.label, first, [], here.advance (label ++ [':'])⟩, ?_, rfl, ?_,
    start_of_tokenAt? hpos htoken, rfl, fun ps => ?_⟩
  · rw [Node.outline, Outline.ofLabel, ← hlexeme]
    rfl
  · have hcontent : first.content = label ++ [':'] := congrArg Prod.snd hlexeme
    rw [Node.labelName, hcontent, List.dropLast_concat]
  · have happend := nodesAt_append_separator here [.word (label ++ [':'])] '\n' ps
    rw [List.flatMap_singleton, hnodes] at happend
    exact happend

section

variable (hf : Rewords f) (hfresh : ∀ counter, ∀ label ∈ fresh counter, Declarable label)

include hf hfresh

theorem row_relabel {counter : Nat} {s tail : List Piece} (hs : Stretch s)
    (hfits : Fits fresh counter s) (h : Row (s ++ tail)) :
    Row (relabel fresh f counter s ++ tail) := by
  have hrow : Row (redirect f s ++ tail) := @row_redirect f hf [] s tail hs h
  rcases @relabel_cases fresh f counter s hfits with ⟨hsame, -, -⟩ | ⟨label, o, hlabel, -, -, hnew⟩
  · rwa [hsame]
  · have hseparator : Row (.separator '\n' :: (redirect f s ++ tail)) :=
      hrow.cons (.inr rfl) fun q _ => by cases q <;> rfl
    rw [hnew]
    refine hseparator.cons (hfresh counter label hlabel).wellFormed ?_
    rintro q ⟨⟩
    rfl

/-- What becomes of a row is a row. -/
theorem Relabels.row {counter : Nat} {ps qs : List Piece} (h : Relabels fresh f counter ps qs)
    (hrow : Row ps) : Row qs := by
  induction h with
  | last counter hs hfits =>
    have hlast := @row_relabel fresh f hf hfresh counter _ [] hs hfits (by rwa [List.append_nil])
    rwa [List.append_nil] at hlast
  | @more counter s c rest qs hs hfits _ ih =>
    have hrest : Row ([.separator c] ++ rest) := hrow.right
    have hseparator : Row (.separator c :: qs) :=
      (ih hrest.right).cons (hrow.wellFormed _ (by simp)) fun q _ => by cases q <;> rfl
    refine row_relabel hf hfresh hs hfits (hrow.left.append hseparator ?_)
    rintro p hp q ⟨⟩
    exact (List.isChain_append.1 hrow.chain).2.2 p hp _ rfl

end

section

variable (hf : Substitutes f) (hfresh : ∀ counter, ∀ label ∈ fresh counter, Declarable label)

include hf hfresh

theorem outlines_relabel {there : Position} (hpos : 0 ≤ there.character) {counter : Nat}
    {s : List Piece} (hs : Stretch s) (hwf : ∀ p ∈ s, p.WellFormed)
    (hfits : Fits fresh counter s) :
    (nodesAt there (relabel fresh f counter s)).map Node.outline =
      Outline.labelledFrom fresh f counter (outlines s) := by
  have hredirect (there : Position) : (nodesAt there (redirect f s)).map Node.outline =
      (outlines s).map (Outline.redirect f) := by
    rw [map_outline_redirect hf .origin there hs hwf, outlines,
      ← map_outline_nodesAt_of_stretch .origin hs, List.map_map]
    rfl
  rcases @relabel_cases fresh f counter s hfits with
    ⟨hsame, -, hlabelled⟩ | ⟨label, o, hlabel, houtlines, ho, hnew⟩
  · rw [hsame, hlabelled, hredirect]
  · obtain ⟨n, hn, -, -, -, -, hnodes⟩ :=
      exists_nodesAt_declaration hpos (hfresh counter label hlabel)
    rw [hnew, hnodes, List.map_cons, hn, hredirect, houtlines, Outline.labelledFrom, if_pos ho,
      hlabel]
    rfl

/-- What becomes of pieces says what the pieces say once they are labelled. -/
theorem Relabels.outlines {counter : Nat} {ps qs : List Piece}
    (h : Relabels fresh f counter ps qs) (hwf : ∀ p ∈ ps, p.WellFormed) (here : Position)
    {there : Position} (hpos : 0 ≤ there.character) :
    (nodesAt there qs).map Node.outline =
      Outline.labelledFrom fresh f counter ((nodesAt here ps).map Node.outline) := by
  induction h generalizing here there with
  | last counter hs hfits =>
    rw [outlines_relabel hf hfresh hpos hs hwf hfits, map_outline_nodesAt_of_stretch here hs]
    rfl
  | @more counter s c rest qs hs hfits _ ih =>
    have hsame : (nodesAt here s).map Node.outline = Piece.outlines s :=
      map_outline_nodesAt_of_stretch here hs
    rw [nodesAt_append_separator, nodesAt_append_separator, List.map_append, List.map_append,
      outlines_relabel hf hfresh hpos hs (fun p hp => hwf p (by simp [hp])) hfits, hsame,
      Outline.labelledFrom_append, ih (fun p hp => hwf p (by simp [hp])) _
        (there.character_advance_nonneg hpos _)]

end

/-! ### Which pieces can be labelled -/

/-- The labels of a stretch with an instruction stand right in front of it. -/
theorem fits_of_sparing {counter : Nat} {s : List Piece}
    (h : Outline.Sparing fresh counter (outlines s)) : Fits fresh counter s := by
  intro hfresh hany o ho hkind
  rcases Outline.ofLexemes_cases (Lexeme.rename (s.filterMap lexeme?)) with
    hnone | ⟨labels, last, houtlines, hlast, hlabels⟩
  · obtain ⟨o, ho, hinstruction⟩ := List.any_eq_true.1 hany
    rw [hnone o ho] at hinstruction
    cases hinstruction
  · have houtlines : outlines s = labels ++ [last] := houtlines
    rcases List.eq_nil_or_concat labels with rfl | ⟨front, l, rfl⟩
    · rw [houtlines, List.nil_append, List.mem_singleton] at ho
      rw [← ho, Outline.isInstruction, hkind] at hlast
      cases hlast
    · have hnot : ∀ l ∈ front, ¬ l.isInstruction = true := by
        intro l hl
        rw [Outline.isInstruction, hlabels l (by simp [hl])]
        decide
      have hnone := h front l last [] (by simp [houtlines]) (hlabels l (by simp)) hlast
      rw [List.countP_eq_zero.2 hnot, Nat.add_zero] at hnone
      rw [hnone] at hfresh
      cases hfresh

theorem countP_nodesAt (here : Position) {s : List Piece} (hs : Stretch s) :
    (nodesAt here s).countP (·.isInstruction) = (outlines s).countP Outline.isInstruction := by
  rw [outlines, ← map_outline_nodesAt_of_stretch here hs, List.countP_map]
  rfl

variable (f) in
theorem exists_relabels (counter : Nat) (here : Position) {ps : List Piece}
    (h : Outline.Sparing fresh counter ((nodesAt here ps).map Node.outline)) :
    ∃ qs, Relabels fresh f counter ps qs := by
  induction ps using stretchInduction generalizing counter here with
  | last s hs =>
    rw [map_outline_nodesAt_of_stretch here hs] at h
    exact ⟨_, .last counter hs (fits_of_sparing h)⟩
  | more s c rest hs ih =>
    rw [nodesAt_append_separator, List.map_append, map_outline_nodesAt_of_stretch here hs] at h
    obtain ⟨qs, hqs⟩ := ih rest (Nat.le_refl _) _ _ h.right
    exact ⟨_, .more counter c hs (fits_of_sparing h.left) hqs⟩

/-! ### The edits -/

open Edit Jumps

variable {uri : String} {t : Text}

/-- A stretch without new labels is redirected only. -/
theorem labelEditsFrom_of_stretch (doc : Document) {counter : Nat} (here : Position)
    {s : List Piece} (hs : Stretch s)
    (h : ∀ o ∈ outlines s, o.isInstruction = true → freshAt? doc counter = none) :
    labelEditsFrom doc counter (nodesAt here s) =
      (nodesAt here s).filterMap (redirection? (label? doc)) := by
  have hsame : (nodesAt here s).map Node.outline = outlines s :=
    map_outline_nodesAt_of_stretch here hs
  -- A statement is labels and at most one instruction, the only node that a label goes above.
  rcases Outline.ofLexemes_cases (Lexeme.rename (s.filterMap lexeme?)) with
    hnone | ⟨labels, o, houtlines, ho, hlabels⟩
  · refine labelEditsFrom_of_not_isInstruction doc (fun n hn => hnone n.outline ?_) counter
    exact (hsame ▸ List.mem_map_of_mem hn : n.outline ∈ outlines s)
  · obtain ⟨ns, ms, hnodes, hns, hms⟩ := List.map_eq_append_iff.1 (hsame.trans houtlines)
    obtain ⟨n, rfl, hn⟩ := List.map_eq_singleton_iff.1 hms
    have hnot : ∀ m ∈ ns, m.isInstruction = false := by
      intro m hm
      have hkind : m.kind = .label := hlabels m.outline (hns ▸ List.mem_map_of_mem hm)
      rw [Node.isInstruction, hkind]
      rfl
    have hfresh : freshAt? doc counter = none := by
      refine h o ?_ ho
      rw [show outlines s = labels ++ [o] from houtlines]
      simp
    have hinsertion : insertion? doc n counter = none := by
      rw [insertion?, hfresh]
      split <;> rfl
    have hcount : ns.countP (·.isInstruction) = 0 :=
      List.countP_eq_zero.2 fun m hm => by simp [hnot m hm]
    rw [hnodes, labelEditsFrom_append, labelEditsFrom_of_not_isInstruction doc hnot, hcount,
      List.filterMap_append, labelEditsFrom, Nat.add_zero, hinsertion,
      List.filterMap_eq_flatMap_toList (l := [n])]
    simp [labelEditsFrom]

/-- A stretch is labelled by the edits of its nodes. -/
theorem rewrites_relabel (hf : Rewords (label? (.ofText uri t))) {a b : Text}
    (ha : ∀ c ∈ a.getLast?, isBlank c = false) {s : List Piece} (hs : Stretch s)
    (hwf : ∀ p ∈ s, p.WellFormed) (ht : t = a ++ (s.flatMap text ++ b)) {counter : Nat}
    (hfits : Fits (freshAt? (.ofText uri t)) counter s) :
    Rewrites (Position.origin.advance a) (s.flatMap text)
      ((relabel (freshAt? (.ofText uri t)) (label? (.ofText uri t)) counter s).flatMap text)
      (labelEditsFrom (.ofText uri t) counter (nodesAt (Position.origin.advance a) s)) := by
  have hpos := Position.character_origin_advance a
  have hredirect := rewrites_redirect hf hpos hs hwf
  rcases @relabel_cases _ (label? (.ofText uri t)) counter s hfits with
    ⟨hsame, hnone, -⟩ | ⟨label, o, hlabel, houtlines, ho, hnew⟩
  · rw [hsame, labelEditsFrom_of_stretch _ _ hs hnone]
    exact hredirect
  · have hmap := (map_outline_nodesAt_of_stretch (Position.origin.advance a) hs).trans houtlines
    obtain ⟨n, hnodes, rfl⟩ := List.map_eq_singleton_iff.1 hmap
    -- The instruction stands first in its row, so its row starts where the stretch does.
    obtain ⟨first, rest, htokens, hstart⟩ : ∃ first rest,
        tokensAt (Position.origin.advance a) s = first :: rest ∧ n.start = first.start := by
      cases htokens : tokensAt (Position.origin.advance a) s with
      | nil =>
        rw [nodesAt_of_stretch _ hs, htokens] at hnodes
        cases hnodes
      | cons first rest =>
        have hhead := Node.head?_ofTokens
          ((Position.origin.advance a).advance (s.flatMap text)) first (renameTail first rest)
        rw [← nodesAt_of_tokensAt hpos hs htokens, hnodes] at hhead
        exact ⟨first, rest, rfl, congrArg Token.start (hhead n rfl)⟩
    have hline := @lineStart_of_stretch uri a ha s hs hwf _ _ htokens n hstart b
    rw [← ht] at hline
    have hedits : labelEditsFrom (.ofText uri t) counter [n] =
        .insert (Position.origin.advance a) (label ++ [':', '\n']) ::
          [n].filterMap (redirection? (label? (.ofText uri t))) := by
      have hinstruction : n.isInstruction = true := ho
      rw [labelEditsFrom, labelEditsFrom, insertion?, if_pos hinstruction, hlabel, hline,
        List.filterMap_eq_flatMap_toList]
      simp
    have htext : (declaration label ++ redirect (label? (.ofText uri t)) s).flatMap text =
        (label ++ [':', '\n']) ++ (redirect (label? (.ofText uri t)) s).flatMap text := by
      simp [declaration, text]
    have hlater := lt_start_of_redirections hf hpos hs hwf
    rw [hnodes] at hredirect hlater
    rw [hnew, hnodes, hedits, htext]
    exact .insert _ (text_ne_nil_of_tokensAt hpos hs hwf htokens) hlater hredirect

/-- The pieces behind `a` are labelled by the edits of their nodes. -/
theorem Relabels.rewrites (hf : Rewords (label? (.ofText uri t))) {counter : Nat}
    {ps qs : List Piece}
    (h : Relabels (freshAt? (.ofText uri t)) (label? (.ofText uri t)) counter ps qs) {a : Text}
    (ha : ∀ c ∈ a.getLast?, isBlank c = false) (hrow : Row ps) (ht : t = a ++ ps.flatMap text) :
    Rewrites (Position.origin.advance a) (ps.flatMap text) (qs.flatMap text)
      (labelEditsFrom (.ofText uri t) counter (nodesAt (Position.origin.advance a) ps)) := by
  induction h generalizing a with
  | last counter hs hfits =>
    exact @rewrites_relabel uri t hf a [] ha _ hs hrow.wellFormed (by rwa [List.append_nil]) counter
      hfits
  | @more counter s c rest qs hs hfits _ ih =>
    have hrest : Row ([.separator c] ++ rest) := hrow.right
    have htext : t = a ++ (s.flatMap text ++ c :: rest.flatMap text) := by
      rw [ht, List.flatMap_append, List.flatMap_cons]
      rfl
    -- A statement ends in front of a separator, hence no blank ends the text before the next.
    have hblank := isBlank_of_separator (hrow.wellFormed (.separator c) (by simp))
    have hfirst := rewrites_relabel hf ha hs hrow.left.wellFormed htext hfits
    have hlater := ih (a := a ++ (s.flatMap text ++ [c])) (by simpa using hblank) hrest.right
      (by rw [htext]; simp)
    rw [Position.advance_append, Position.advance_append _ (s.flatMap text)] at hlater
    rw [nodesAt_append_separator, labelEditsFrom_append, List.flatMap_append, List.flatMap_append,
      Position.advance_append _ (s.flatMap text), countP_nodesAt _ hs]
    exact hfirst.append (.keep [c] hlater)

end Piece

end LogicAsm
