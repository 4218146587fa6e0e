import LogicAsm.Proofs.Jumps.LabelledProgram
import LogicAsm.Proofs.Jumps.NumberEdits

/-!
# Labelling jumps and numbering them again

In a text without labels, numbering the jumps that were labelled gives the text back, character by
character (`toNumbers_toLabels`).  Stretch by stretch (`Relabels.rewrites_back`):

* a destination that was redirected to a label is redirected to its number
  (`redirect_redirect_of_givenBack`), which is how it was written;
* a new label stands on a line of its own, without blanks in front of it, and it is deleted with the
  line break, so that nothing is left of it and nothing else is taken.

All new labels are deleted, since each of them was made for a jump to it (`isNumbered_of_freshAt?`).
-/

namespace LogicAsm

/-- What a destination says is given back by `g` once `f` has put another word in its place: a
number was written as numbers are, and what `f` leaves alone `g` leaves alone. -/
structure Lexeme.GivenBack (f g : Lexeme → Option Text) (x : Lexeme) : Prop where
  kept : f x = none → g x = none
  undone : ∀ v, f x = some v → ∃ n, g (.ofOperand v) = some (Text.ofNat n) ∧ x.2 = Text.ofNat n

theorem eq_ofNat_of_renamedOperand {w : Text} {n : Nat} (h : renamedOperand w = Text.ofNat n) :
    w = Text.ofNat n := by
  refine eq_of_renamedOperand h (fun heq => ?_) fun heq => ?_
  · exact (Jumps.not_mem_ofNat n).1 (heq ▸ by decide)
  · exact (Jumps.not_mem_ofNat n).2 (heq ▸ by decide)

namespace Piece

open Edit Jumps

variable {fresh : Nat → Option Text} {f g : Lexeme → Option Text}

/-- A stretch is given back if its destination is. -/
theorem redirect_redirect_of_givenBack {s : List Piece} (hs : Stretch s)
    (hwf : ∀ p ∈ s, p.WellFormed)
    (h : ∀ o ∈ outlines s, ∀ x ∈ o.destination?, x.GivenBack f g) :
    redirect g (redirect f s) = s := by
  refine redirect_redirect fun front w back hcut => ?_
  obtain ⟨rfl, hfront⟩ := cutJump_eq_some_iff.1 hcut
  obtain ⟨labels, n, d, hnodes, -, -, hd, hlexeme, -⟩ :=
    @exists_nodesAt_of_leadsJump .origin (Int.le_refl 0) front hfront w (hwf (.word w) (by simp))
      back hs.right.tail
  have hx : (Lexeme.ofOperand w).GivenBack f g := by
    refine h n.outline ?_ _ ?_
    · rw [outlines, ← map_outline_nodesAt_of_stretch .origin hs, hnodes]
      simp
    · rw [← n.map_lexeme_destination?, hd, ← hlexeme]
      rfl
  cases hv : f (.ofOperand w) with
  | none => rw [Option.getD_none, hx.kept hv, Option.getD_none]
  | some v =>
    obtain ⟨m, hm, hname⟩ := hx.undone v hv
    rw [Option.getD_some, hm, Option.getD_some]
    exact (eq_ofNat_of_renamedOperand hname).symm

section

variable {uri : String} {out : Text} (hf : Substitutes f)

include hf

/-- A stretch without labels is given back by the edits of its nodes. -/
theorem rewrites_redirect_back {here : Position} (hpos : 0 ≤ here.character) {s : List Piece}
    (hs : Stretch s) (hwf : ∀ p ∈ s, p.WellFormed) (hwf' : ∀ p ∈ redirect f s, p.WellFormed)
    (hlabels : ∀ o ∈ outlines s, o.kind ≠ .label)
    (hback : ∀ o ∈ outlines s, ∀ x ∈ o.destination?,
      x.GivenBack f (numeral? (.ofText uri out))) :
    Rewrites here ((redirect f s).flatMap text) (s.flatMap text)
      ((nodesAt here (redirect f s)).flatMap (distinctEdits (.ofText uri out))) := by
  have hrewrites := rewrites_redirect (substitutes_numeral? (.ofText uri out)).rewords hpos
    (stretch_redirect hs) hwf'
  rw [redirect_redirect_of_givenBack hs hwf hback] at hrewrites
  have hedits : (nodesAt here (redirect f s)).flatMap (distinctEdits (.ofText uri out)) =
      (nodesAt here (redirect f s)).filterMap (redirection? (numeral? (.ofText uri out))) := by
    rw [List.filterMap_eq_flatMap_toList]
    refine List.flatMap_congr fun n hn => ?_
    -- Redirecting keeps the kinds, and the statement had no label before.
    have hlabel : n.isLabel = false := by
      have houtline : n.outline ∈ (nodesAt here (redirect f s)).map Node.outline :=
        List.mem_map_of_mem hn
      rw [map_outline_redirect hf .origin here hs hwf] at houtline
      obtain ⟨m, hm, hmn⟩ := List.mem_map.1 houtline
      have hkind : n.kind = m.kind := by
        rw [show n.kind = n.outline.kind from rfl, ← hmn, Outline.kind_redirect]
        rfl
      have hm : m.outline ∈ outlines s := by
        rw [outlines, ← map_outline_nodesAt_of_stretch .origin hs]
        exact List.mem_map_of_mem hm
      rw [Node.isLabel, hkind]
      exact beq_false_of_ne (hlabels m.outline hm)
    rw [distinctEdits, hlabel]
    rfl
  rw [hedits]
  exact hrewrites

/-- A stretch that was labelled is given back: a new label is deleted with its line. -/
theorem rewrites_relabel_back {a b : Text} (ha : ∀ c ∈ a.getLast?, isBlank c = false)
    {s : List Piece} (hs : Stretch s) (hwf : ∀ p ∈ s, p.WellFormed) {counter : Nat}
    (hwf' : ∀ p ∈ relabel fresh f counter s, p.WellFormed)
    (hout : out = a ++ ((relabel fresh f counter s).flatMap text ++ b))
    (hfresh : ∀ label ∈ fresh counter,
      Declarable label ∧ isNumbered (.ofText uri out) label = true)
    (hlabels : ∀ o ∈ outlines s, o.kind ≠ .label)
    (hback : ∀ o ∈ outlines s, ∀ x ∈ o.destination?,
      x.GivenBack f (numeral? (.ofText uri out))) :
    Rewrites (Position.origin.advance a) ((relabel fresh f counter s).flatMap text)
      (s.flatMap text) ((nodesAt (Position.origin.advance a) (relabel fresh f counter s)).flatMap
        (distinctEdits (.ofText uri out))) := by
  have hpos := Position.character_origin_advance a
  rcases @relabel_cases fresh f counter s (fun _ _ => hlabels) with
    ⟨hsame, -, -⟩ | ⟨label, o, hlabel, -, -, hnew⟩
  · rw [hsame] at hwf' ⊢
    exact rewrites_redirect_back hf hpos hs hwf hwf' hlabels hback
  · obtain ⟨hdeclarable, hnumbered⟩ := hfresh label hlabel
    obtain ⟨n, -, hl, hname, hstart, hstop, hnodes⟩ := exists_nodesAt_declaration hpos hdeclarable
    have htext : (declaration label ++ redirect f s).flatMap text =
        label ++ [':'] ++ ['\n'] ++ (redirect f s).flatMap text := by
      simp [declaration, text]
    rw [hnew] at hwf' hout ⊢
    rw [htext] at hout
    -- The declaration has a line of its own, which the deletion covers with its line break.
    have hlineStart : lineStart (.ofText uri out) n = Position.origin.advance a := by
      have hline := @lineStart_eq uri a []
        (label ++ [':'] ++ ['\n'] ++ (redirect f s).flatMap text ++ b) ha (by simp) n
        (by rw [hstart, List.append_nil])
      rwa [List.append_nil, ← hout] at hline
    have hlineEnd : lineEnd (.ofText uri out) n =
        (Position.origin.advance a).advance (label ++ [':'] ++ ['\n']) := by
      have hline := @lineEnd_of_newline uri (a ++ (label ++ [':'])) n
        (by rw [hstop, ← Position.advance_append]) ((redirect f s).flatMap text ++ b)
      have hsplit : a ++ (label ++ [':']) ++ '\n' :: ((redirect f s).flatMap text ++ b) = out := by
        rw [hout]
        simp
      rwa [hsplit, List.append_assoc, Position.advance_append] at hline
    have hedits : distinctEdits (.ofText uri out) n = [.delete ⟨Position.origin.advance a,
        (Position.origin.advance a).advance (label ++ [':'] ++ ['\n'])⟩] := by
      have hnone : n.destination? = none := by
        rw [Node.destination?, if_neg]
        simp [Node.isJump, Node.isInstruction_of_isLabel hl]
      rw [distinctEdits, hl, hname, hnumbered, hlineStart, hlineEnd, redirection?, hnone]
      rfl
    rw [hnodes, List.flatMap_cons, hedits, htext]
    refine .change (by simp) [] (rewrites_redirect_back hf
      (Position.character_advance_nonneg hpos _) hs hwf (fun p hp => hwf' p (by simp [hp])) hlabels
      hback)

/-- Pieces that were labelled are given back. -/
theorem Relabels.rewrites_back {counter : Nat} {ps qs : List Piece}
    (h : Relabels fresh f counter ps qs) {a : Text} (ha : ∀ c ∈ a.getLast?, isBlank c = false)
    (hrow : Row ps) (hrow' : Row qs) (hout : out = a ++ qs.flatMap text)
    (hfresh : ∀ c, ∀ label ∈ fresh c, Declarable label ∧ isNumbered (.ofText uri out) label = true)
    (here : Position)
    (hlabels : ∀ o ∈ (nodesAt here ps).map Node.outline, o.kind ≠ .label)
    (hback : ∀ o ∈ (nodesAt here ps).map Node.outline, ∀ x ∈ o.destination?,
      x.GivenBack f (numeral? (.ofText uri out))) :
    Rewrites (Position.origin.advance a) (qs.flatMap text) (ps.flatMap text)
      ((nodesAt (Position.origin.advance a) qs).flatMap (distinctEdits (.ofText uri out))) := by
  induction h generalizing a here with
  | last counter hs hfits =>
    rw [map_outline_nodesAt_of_stretch here hs] at hlabels hback
    exact @rewrites_relabel_back fresh f uri out hf a [] ha _ hs hrow.wellFormed counter
      hrow'.wellFormed (by rwa [List.append_nil]) (hfresh counter) hlabels hback
  | @more counter s c rest qs hs hfits _ ih =>
    rw [nodesAt_append_separator, List.map_append, List.forall_mem_append,
      map_outline_nodesAt_of_stretch here hs] at hlabels hback
    have hrest : Row ([.separator c] ++ rest) := hrow.right
    have hrest' : Row ([.separator c] ++ qs) := hrow'.right
    have htext : out = a ++ ((relabel fresh f counter s).flatMap text ++ c :: qs.flatMap text) := by
      rw [hout, List.flatMap_append, List.flatMap_cons]
      rfl
    have hblank := isBlank_of_separator (hrow.wellFormed (.separator c) (by simp))
    have hfirst := rewrites_relabel_back hf ha hs hrow.left.wellFormed hrow'.left.wellFormed htext
      (hfresh counter) hlabels.1 hback.1
    have hlater := ih (a := a ++ ((relabel fresh f counter s).flatMap text ++ [c]))
      (by simpa using hblank) hrest.right hrest'.right (by rw [htext]; simp) _ hlabels.2 hback.2
    rw [Position.advance_append,
      Position.advance_append _ ((relabel fresh f counter s).flatMap text)] at hlater
    rw [nodesAt_append_separator, List.flatMap_append, List.flatMap_append, List.flatMap_append,
      Position.advance_append _ ((relabel fresh f counter s).flatMap text)]
    exact hfirst.append (.keep [c] hlater)

end

end Piece

/-- No new label is declared twice. -/
theorem Outline.pairwise_labelledFrom {fresh : Nat → Option Text} {f : Lexeme → Option Text}
    (hfresh : ∀ c c' label, fresh c = some label → fresh c' = some label → c = c')
    {os : List Outline} (hos : ∀ o ∈ os, o.kind ≠ .label) (counter : Nat) :
    (labelledFrom fresh f counter os).Pairwise fun o p =>
      ∀ name, p.declares name = true → o.declares name = false := by
  have hnot {o : Outline} (ho : o.kind ≠ .label) (name : Text) :
      (o.redirect f).declares name = false := by
    rw [declares_redirect, declares, beq_false_of_ne ho, Bool.false_and]
  induction os generalizing counter with
  | nil => exact .nil
  | cons o os ih =>
    obtain ⟨ho, hos⟩ := List.forall_mem_cons.1 hos
    have hhere (later : Nat) : (o.redirect f :: labelledFrom fresh f later os).Pairwise fun o p =>
        ∀ name, p.declares name = true → o.declares name = false :=
      List.pairwise_cons.2 ⟨fun _ _ name _ => hnot ho name, ih hos later⟩
    rw [labelledFrom]
    split
    · refine List.pairwise_append.2 ⟨?_, hhere _, fun l hl p hp name hdeclares => ?_⟩
      · cases fresh counter with
        | none => exact .nil
        | some label => exact List.pairwise_singleton _ _
      · obtain ⟨label, hlabel, rfl⟩ := List.mem_map.1 hl
        rw [declares_ofLabel, beq_eq_false_iff_ne]
        rintro rfl
        -- What declares the name would have to be a new label for a later instruction.
        rcases List.mem_cons.1 hp with rfl | hp
        · rw [hnot ho] at hdeclares
          cases hdeclares
        · rcases exists_of_mem_labelledFrom p hp with ⟨c, hc, other, hother, rfl⟩ | ⟨q, hq, rfl⟩
          · rw [declares_ofLabel, beq_iff_eq] at hdeclares
            have hsame := hfresh counter c label (Option.mem_toList.1 hlabel) (hdeclares ▸ hother)
            omega
          · rw [hnot (hos q hq)] at hdeclares
            cases hdeclares
    · exact hhere _

namespace Jumps

section

variable {uri : String} {t out : Text}

/-- Every new label is deleted when jumps are numbered again: it has a jump to it. -/
theorem Labellable.isNumbered_of_freshAt? (h : Labellable (.ofText uri t))
    (hout : (Node.ofText out).map Node.outline = labelledOutlines uri t) {c : Nat} {label : Text}
    (hlabel : freshAt? (.ofText uri t) c = some label) :
    isNumbered (.ofText uri out) label = true := by
  have hlabelAt := labelAt?_of_freshAt? hlabel
  have hcounter : (labelCounters (.ofText uri out)).lookup label = some c := by
    rw [lookup_labelCounters_eq, hout]
    exact counterFrom_of_labelAt? hlabelAt
  obtain ⟨n, hn, d, hd, hc⟩ := exists_destination_of_labelAt? hlabelAt
  have hlength : (Document.ofText uri t).instructions.length =
      (instructionIndices (Node.ofText t)).length := rfl
  rw [hlength] at hc
  rcases h.destination_cases hn hd with ⟨c', other, hc', hother, hredirected⟩ | ⟨-, hnone, -⟩
  · -- The destination that is its number is the label now.
    obtain rfl : c = c' := Option.some.inj (hc.symm.trans hc')
    obtain rfl : label = other := Option.some.inj (hlabelAt.symm.trans hother)
    have hmem : n.outline.redirect (label? (.ofText uri t)) ∈
        (Node.ofText out).map Node.outline := by
      rw [hout]
      exact Outline.redirect_mem_labelledFrom _ (List.mem_map_of_mem hn)
    obtain ⟨m, hm, houtline⟩ := List.mem_map.1 hmem
    rw [← houtline, ← m.map_lexeme_destination?] at hredirected
    obtain ⟨e, he, hlexeme⟩ := Option.map_eq_some_iff.1 hredirected
    have hnumber : e.isNumber = false := by
      refine beq_false_of_ne ?_
      rw [show e.kind = (Lexeme.ofWord label).1 from congrArg Prod.fst hlexeme]
      exact h.kind_ne_number hlabelAt
    have hcontent : e.content = label := congrArg Prod.snd hlexeme
    rw [isNumbered, hcounter, Option.isSome_some, Bool.true_and, List.any_eq_true]
    refine ⟨e, List.mem_filter.2 ⟨List.mem_filterMap.2 ⟨m, hm, he⟩, ?_⟩, ?_⟩
    · rw [hnumber, Bool.not_false]
    · rw [hcontent, BEq.rfl]
  · rw [hnone] at hc
    cases hc

/-- A text without labels in which no destination could be taken for a new label. -/
theorem labellable_of_no_labels (hlabels : ∀ n ∈ Node.ofText t, n.isLabel = false)
    (hnew : ∀ d ∈ destinations (.ofText uri t), ∀ k, d.content ≠ freshName k) :
    Labellable (.ofText uri t) := by
  have hnone {n : Node} (hn : n ∈ Node.ofText t) (hl : n.isLabel = true) : False := by
    rw [hlabels n hn] at hl
    cases hl
  refine ⟨?_, fun n hn hl => (hnone hn hl).elim, fun n hn hl => (hnone hn hl).elim,
    fun d hd _ _ => hnew d hd⟩
  have hfilter : (Node.ofText t).filter (·.isLabel) = [] :=
    List.filter_eq_nil_iff.2 fun n hn hl => hnone hn hl
  rw [show (Document.ofText uri t).nodes = Node.ofText t from rfl, hfilter]
  exact .nil

/-- In a text without labels, every destination is given back. -/
theorem givenBack_of_no_labels
    (hlabels : ∀ n ∈ Node.ofText t, n.isLabel = false)
    (hnew : ∀ d ∈ destinations (.ofText uri t), ∀ k, d.content ≠ freshName k)
    (hplain : ∀ d ∈ destinations (.ofText uri t), ∀ k,
      d.counter (Document.ofText uri t).instructions.length = .ok (some k) →
        d.content = Text.ofNat k)
    (haddress : ∀ d ∈ destinations (.ofText uri t), ∃ a, d.address = .ok a)
    (hout : (Node.ofText out).map Node.outline = labelledOutlines uri t) {n : Node}
    (hn : n ∈ Node.ofText t) : ∀ x ∈ n.outline.destination?,
      x.GivenBack (label? (.ofText uri t)) (numeral? (.ofText uri out)) := by
  intro x hx
  rw [← n.map_lexeme_destination?] at hx
  obtain ⟨d, hd, rfl⟩ := Option.map_eq_some_iff.1 hx
  have hmem : d ∈ destinations (.ofText uri t) := List.mem_filterMap.2 ⟨n, hn, hd⟩
  have hnoLabel {name : Text} {c : Nat} :
      Outline.counterFrom name 0 ((Node.ofText t).map Node.outline) ≠ some c := by
    intro hcounter
    obtain ⟨m, hm, hl, -⟩ := exists_label_of_counterFrom hcounter
    rw [hlabels m hm] at hl
    cases hl
  refine ⟨fun hnone => ?_, fun label hlabel => ?_⟩
  · -- All labels are new, and the destination is none of them.
    have hnotNew : ∀ c, freshAt? (.ofText uri t) c ≠ some d.content := by
      intro c hfresh
      obtain ⟨k, hk⟩ := (newLabel_of_freshAt? hfresh).name
      exact hnew d hmem k hk
    have hlookup : (labelCounters (.ofText uri out)).lookup d.content = none := by
      rw [lookup_labelCounters_eq, hout, labelledOutlines,
        Outline.counterFrom_labelledFrom hnotNew, Option.eq_none_iff_forall_ne_some]
      exact fun c => hnoLabel
    rw [numeral?, show d.lexeme.2 = d.content from rfl, hlookup]
    split <;> rfl
  · obtain ⟨c, hc, hlabelAt⟩ := Option.bind_eq_some_iff.1 hlabel
    have hfresh := (labelAt?_cases hlabelAt).resolve_right hnoLabel
    obtain ⟨m, rfl⟩ := (newLabel_of_freshAt? hfresh).name
    obtain ⟨a, ha⟩ := haddress d hmem
    have hlookup : (labelCounters (.ofText uri out)).lookup (freshName m) = some c := by
      rw [lookup_labelCounters_eq, hout]
      exact counterFrom_of_labelAt? hlabelAt
    refine ⟨c, ?_, hplain d hmem c (by rw [Token.counter_eq ha, hc])⟩
    rw [(ofWord_freshName m).2, numeral?, if_pos (.inl rfl), hlookup]
    rfl

end

/-- Labelling jumps and numbering them again gives the text back.  If a text declares no labels, if
the numbers of instructions that it jumps to are written as plain numerals, if no destination could
be taken for a new label and if all destinations can be read, then making the edits of the first
conversion, and those of the second one in what this gives, leads to the same text. -/
theorem toNumbers_toLabels (uri : String) (t : Text) {c : Conversion}
    (hconversion : toLabels (.ofText uri t) = .ok c)
    (hlabels : ∀ n ∈ (Document.ofText uri t).nodes, n.isLabel = false)
    (hplain : ∀ d ∈ destinations (.ofText uri t), ∀ k,
      d.counter (Document.ofText uri t).instructions.length = .ok (some k) →
        d.content = Text.ofNat k)
    (hnew : ∀ d ∈ destinations (.ofText uri t), ∀ k, d.content ≠ freshName k) :
    ∃ out, Edit.applyAll (.ofText uri t) c.edits = .ok out ∧
      Edit.applyAll (.ofText uri out) (toNumbers (.ofText uri out)).edits = .ok t := by
  have h : Labellable (.ofText uri t) := labellable_of_no_labels hlabels hnew
  obtain ⟨haddress, -⟩ := toLabels_eq_ok_iff.1 hconversion
  obtain ⟨qs, hqs, hrow, hout⟩ := exists_relabels_applyAll h.distinct h.renamedOperand hconversion
  have hnodes : (Node.ofText (qs.flatMap Piece.text)).map Node.outline = labelledOutlines uri t :=
    map_outline_of_relabels h.renamedOperand hqs hrow
  have hkinds : ∀ o ∈ (Node.ofText t).map Node.outline, o.kind ≠ .label := by
    intro o ho
    obtain ⟨n, hn, rfl⟩ := List.mem_map.1 ho
    exact beq_eq_false_iff_ne.1 (hlabels n hn)
  have hback : ∀ o ∈ (Node.ofText t).map Node.outline, ∀ x ∈ o.destination?, x.GivenBack
      (label? (.ofText uri t)) (numeral? (.ofText uri (qs.flatMap Piece.text))) := by
    intro o ho
    obtain ⟨n, hn, rfl⟩ := List.mem_map.1 ho
    exact givenBack_of_no_labels hlabels hnew hplain haddress hnodes hn
  -- No label before, and the new ones are told apart by their counters.
  have hdistinct : (Node.ofText (qs.flatMap Piece.text)).Pairwise fun m n => ∀ name,
      LabelTable.declares name n = true → LabelTable.declares name m = false := by
    have hpairwise := @Outline.pairwise_labelledFrom (freshAt? (.ofText uri t))
      (label? (.ofText uri t)) (fun c c' label hc hc' => freshAt?_injective hc hc') _ hkinds 0
    rw [← labelledOutlines, ← hnodes, List.pairwise_map] at hpairwise
    exact hpairwise
  have hedits := edits_toNumbers_perm uri (qs.flatMap Piece.text)
  rw [editsFrom_of_distinct hdistinct, Node.ofText_eq, Piece.ofText_flatMap_text hrow] at hedits
  rw [Node.ofText_eq] at hkinds hback
  have hrewrites := hqs.rewrites_back (substitutes_label? h.renamedOperand) (a := []) (by simp)
    (Piece.row_ofText t) hrow rfl
    (fun c label hlabel =>
      ⟨declarable_freshAt? c label hlabel, h.isNumbered_of_freshAt? hnodes hlabel⟩)
    .origin hkinds hback
  rw [Piece.flatMap_text_ofText] at hrewrites
  exact ⟨_, hout, Edit.applyAll_of_rewrites uri hrewrites hedits⟩

/-- A program without labels that jumps to two instructions by their numbers. -/
def unlabelledText : Text :=
  "jump 2 always; print x\r\n\tjump 0 equal x 1\njump 9 always; jump out always".toList

/-- Both instructions get a label, one of them in the middle of the text, and lose it again. -/
theorem toNumbers_toLabels_unlabelled :
    ∃ c out, toLabels (.ofText "" unlabelledText) = .ok c ∧
      Edit.applyAll (.ofText "" unlabelledText) c.edits = .ok out ∧
      out = ("label_0:\njump label_1 always; print x\r\nlabel_1:\n\tjump label_0 equal x 1\n" ++
        "jump 9 always; jump out always").toList ∧
      Edit.applyAll (.ofText "" out) (toNumbers (.ofText "" out)).edits = .ok unlabelledText := by
  have happlied : (toLabels (.ofText "" unlabelledText)).bind (fun c =>
      Edit.applyAll (.ofText "" unlabelledText) c.edits) =
        .ok ("label_0:\njump label_1 always; print x\r\nlabel_1:\n\tjump label_0 equal x 1\n" ++
          "jump 9 always; jump out always").toList := by decide +kernel
  have hlabels : ∀ n ∈ (Document.ofText "" unlabelledText).nodes, n.isLabel = false := by
    decide +kernel
  have hdestinations : ∀ d ∈ destinations (.ofText "" unlabelledText),
      d.content.head? ≠ some 'l' ∧
        (((d.counter (Document.ofText "" unlabelledText).instructions.length).toOption.bind id).all
          fun k => d.content == Text.ofNat k) = true := by
    decide +kernel
  obtain ⟨c, hc, happly⟩ := bind_eq_ok.1 happlied
  obtain ⟨out, hout, hagain⟩ := toNumbers_toLabels "" unlabelledText hc hlabels
    (fun d hd k hk => by
      have hplain := (hdestinations d hd).2
      rw [hk] at hplain
      exact beq_iff_eq.1 hplain)
    (fun d hd k hk => (hdestinations d hd).1 (by rw [hk]; rfl))
  rw [happly] at hout
  exact ⟨c, out, hc, hout ▸ happly, (Except.ok.inj hout).symm, hagain⟩

end Jumps

end LogicAsm
