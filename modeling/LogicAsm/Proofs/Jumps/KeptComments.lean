import LogicAsm.Proofs.Jumps.Agreement
import LogicAsm.Proofs.Jumps.Inserting
import LogicAsm.Proofs.Jumps.Trimming

/-!
# Comments and conversions of jumps

Putting labels in changes no comment.  Numbering deletes labels, and a comment behind a label is a
part of its node: `a: # c` is deleted with its line, and the comment is lost.  All other comments
stay as they are (`comments_of_conversions`).

That no comment is made up takes an argument, since pieces meet where a label is deleted.  Within a
statement this is `loose_trimmed`.  At its end, the line break may be deleted together with a label,
and then the next line goes on right behind the label in front of that one.  In both places the only
piece that would be read in another way is a string, and then the label that is deleted stands for
the instruction that starts with it (`leadsToString`): a `#` in the string would start a comment.
-/

namespace LogicAsm.Jumps

open Piece Edit Segment

variable {uri : String} {t : Text} {doc : Document} {here : Position} {g : Segment}
  {gs : List Segment}

/-! ### Labels in front of strings -/

/-- Whether the instruction that a label stands for starts with a string. -/
def leadsToString (doc : Document) (n : Node) : Bool :=
  (((labelCounters doc).lookup n.labelName).bind doc.instruction?).any fun m =>
    m.head.kind == .string

/-- A label that is deleted stands for the first instruction behind it. -/
theorem leadsToString_eq {before later : List Node} {n : Node}
    (ht : Node.ofText t = before ++ n :: later) (hn : isDeleted (.ofText uri t) n = true) :
    leadsToString (.ofText uri t) n = startsString (n :: later) := by
  have hi : (Node.ofText t)[before.length]? = some n := by
    rw [ht]
    simp
  have hdropped : isDropped (.ofText uri t) n before.length = true :=
    (isDropped_eq_isDeleted hi).trans hn
  simp only [isDropped, isNumbered, Bool.and_eq_true, beq_iff_eq] at hdropped
  obtain ⟨⟨-, hfind⟩, hsome, -⟩ := hdropped
  obtain ⟨c, hc⟩ := Option.isSome_iff_exists.1 hsome
  have hcounter : counterBefore (Node.ofText t) before.length = c := by
    have hfirst := (LabelTable.find?_ofNodes (Node.ofText t) n.labelName).symm.trans hfind
    rw [lookup_labelCounters, hfirst, Option.bind_some] at hc
    exact (counterAt?_eq_some_iff.1 hc).2
  -- The instructions in front of the label are left out by its counter.
  have hfilter : ((Node.ofText t).filter (·.isInstruction))[c]? =
      (n :: later).find? (·.isInstruction) := by
    rw [← hcounter, counterBefore, ht, List.take_left, List.filter_append,
      List.countP_eq_length_filter, List.getElem?_append_right (Nat.le_refl _), Nat.sub_self,
      ← List.head?_eq_getElem?, List.head?_filter]
  rw [leadsToString, hc, Option.bind_some, Document.instruction?_ofText, hfilter, startsString]

/-! ### The whole text -/

/-- A stretch with what is taken of the text behind it, the nodes that come later, and what is left
of the stretch. -/
structure Trimmed (doc : Document) (here : Position) (s : List Piece) (later : List Node)
    (eaten : Text) (qs : List Piece) : Prop where
  loose : Loose qs
  rewrites : Rewrites here (s.flatMap Piece.text ++ eaten) (qs.flatMap Piece.text)
    ((nodesAt here s).flatMap (numberEdits doc))
  comments : comments qs = ((nodesAt here s).filter (!isDeleted doc ·)).flatMap Node.comments
  head : ∀ body closed, qs.head? = some (.quoted body closed) →
    startsString (nodesAt here s) = true
  nil : qs = [] → ∀ n ∈ nodesAt here s, n.isInstruction = false
  last : ∀ p ∈ qs.getLast?, (∃ w, p = .word w) ∨ eaten = [] ∧ p ∈ s.getLast?
  glue : eaten ≠ [] → qs ≠ [] → startsString later = false

/-- Nodes of which no two neighbours are deleted, and none but the first in front of a string. -/
structure Separable (doc : Document) (ns later : List Node) : Prop where
  apart : ns.IsChain fun l m => ¬ (isDeleted doc l = true ∧ isDeleted doc m = true)
  clear : ∀ n back, n :: back <:+ ns.tail → isDeleted doc n = true →
    startsString (n :: back ++ later) = false

/-- What is taken behind a stretch, if its last node is deleted: nothing, or a line break. -/
theorem exists_eaten {a b : Text} (hb : ∀ c ∈ b.head?, isBlank c = false) {s : List Piece}
    (ht : t = a ++ (s.flatMap Piece.text ++ b)) {n : Node}
    (hstop : n.stop = Position.origin.advance (a ++ s.flatMap Piece.text)) :
    ∃ eaten, (if isDeleted (.ofText uri t) n then lineEnd (.ofText uri t) n =
        (Position.origin.advance a).advance (s.flatMap Piece.text ++ eaten) else eaten = []) ∧
      (eaten = [] ∨ ∃ returns more, b = returns ++ '\n' :: more ∧ (∀ c ∈ returns, c = '\r') ∧
        eaten = returns ++ ['\n']) := by
  have hline := @lineEnd_eq_or uri (a ++ s.flatMap Piece.text) [] b (by simp) hb n hstop
  simp only [List.nil_append, List.append_nil, List.append_assoc, ← ht] at hline
  cases isDeleted (.ofText uri t) n with
  | false => exact ⟨[], rfl, .inl rfl⟩
  | true =>
    rcases hline with hend | ⟨returns, more, hmore, hreturns, hend⟩
    · refine ⟨[], ?_, .inl rfl⟩
      rw [if_pos rfl, hend, List.append_nil, Position.advance_append]
    · refine ⟨returns ++ ['\n'], ?_, .inr ⟨returns, more, hmore, hreturns, rfl⟩⟩
      rw [if_pos rfl, hend, Position.advance_append]

/-- Segments without those that are deleted are what is left of a stretch. -/
theorem trimmed_of_laid {s : List Piece} (hlaid : Laid here (g :: gs))
    (hall : (g :: gs).flatMap all = s) (hnodes : (g :: gs).map node = nodesAt here s)
    (hrow : Row s) {there : Position} (hjoined : Joined doc here there ((g :: gs).map node))
    {later : List Node} (h : Separable doc (nodesAt here s) later) {eaten : Text}
    (hend : ∀ n ∈ (nodesAt here s).getLast?, if isDeleted doc n then
      lineEnd doc n = here.advance (s.flatMap Piece.text ++ eaten) else eaten = []) :
    Trimmed doc here s later eaten (trimmed doc false (g :: gs)) := by
  have hat := hlaid.exists_at
  have htext : (g :: gs).flatMap Segment.text = s.flatMap Piece.text := by
    rw [← flatMap_text_flatMap_all, hall]
  have hwf : ∀ k ∈ g :: gs, ∀ p ∈ k.pieces, p.WellFormed := by
    intro k hk p hp
    refine hrow.wellFormed p ?_
    rw [← hall]
    exact List.mem_flatMap.2 ⟨k, hk, List.mem_append_right _ hp⟩
  rw [← hnodes] at h hend
  -- What is left at the end hangs on the last node alone.
  obtain ⟨n, hn⟩ : ∃ n, ((g :: gs).map node).getLast? = some n :=
    ⟨_, List.getLast?_eq_some_getLast (List.cons_ne_nil _ _)⟩
  refine ⟨?_, ?_, ?_, fun body closed hhead => ?_, fun hnil => ?_, fun p hp => ?_,
    fun heaten hqs => ?_⟩
  · refine loose_trimmed hlaid (hall ▸ hrow) hjoined.chain (fun n back hback hdeleted => ?_) false
    have hclear := h.clear n back hback hdeleted
    refine eq_false_of_ne_true fun hstring => ?_
    rw [startsString_append later hstring] at hclear
    cases hclear
  · rw [← htext] at hend ⊢
    rw [← hnodes, List.flatMap_map]
    exact (rewrites_trimmed hlaid hwf (hjoined.head _ rfl) hjoined.chain h.apart hend).1
  · rw [comments_trimmed hat, hnodes]
  · rw [← hnodes]
    exact startsString_of_trimmed hat hhead
  · rw [← hnodes]
    exact not_isInstruction_of_trimmed hat hnil
  · rcases getLast?_of_trimmed hlaid false p hp with hword | ⟨hlast, hkept⟩
    · exact .inl hword
    · have hend := hend n hn
      rw [hkept n hn] at hend
      exact .inr ⟨hend, hall ▸ hlast⟩
  · -- The last node is deleted, and it is not the only one.
    have hdeleted : isDeleted doc n = true := by
      have hend := hend n hn
      by_contra hkept
      rw [if_neg hkept] at hend
      exact heaten hend
    have hlast : [n] <:+ (gs.map node) := by
      cases gs with
      | nil =>
        obtain rfl : g.node = n := Option.some.inj hn
        exact absurd (trimmed_of_isDeleted false hdeleted) hqs
      | cons next gs =>
        have hn : ((next :: gs).map node).getLast? = some n := hn
        obtain ⟨front, hfront⟩ := List.getLast?_eq_some_iff.1 hn
        exact ⟨front, hfront.symm⟩
    have hclear := h.clear n [] hlast hdeleted
    have hlabel := Node.isInstruction_of_isLabel (isLabel_of_isDeleted hdeleted)
    rwa [startsString_append_of_none _ (List.forall_mem_singleton.2 hlabel)] at hclear

/-- A stretch is trimmed, with the line break behind it or without. -/
theorem exists_trimmed {a b : Text} (ha : ∀ c ∈ a.getLast?, isBlank c = false)
    (hb : ∀ c ∈ b.head?, isBlank c = false) {s : List Piece} (hs : Stretch s) (hrow : Row s)
    (ht : t = a ++ (s.flatMap Piece.text ++ b)) {later : List Node}
    (h : Separable (.ofText uri t) (nodesAt (Position.origin.advance a) s) later) :
    ∃ eaten qs, Trimmed (.ofText uri t) (Position.origin.advance a) s later eaten qs ∧
      (eaten = [] ∨ ∃ returns more, b = returns ++ '\n' :: more ∧ (∀ c ∈ returns, c = '\r') ∧
        eaten = returns ++ ['\n']) := by
  have hpos := Position.character_origin_advance a
  cases htokens : tokensAt (Position.origin.advance a) s with
  | nil =>
    -- Blanks only: no node, so nothing is deleted.
    have hnone : nodesAt (Position.origin.advance a) s = [] := by
      rw [nodesAt_of_stretch _ hs, htokens]
      rfl
    have hlexemes : s.filterMap lexeme? = [] := by
      rw [← map_lexeme_tokensAt (Position.origin.advance a), htokens]
      rfl
    refine ⟨[], s, ⟨hrow.loose, ?_, ?_, fun body closed hhead => ?_, by simp [hnone],
      fun p hp => .inr ⟨rfl, hp⟩, by simp⟩, .inl rfl⟩
    · rw [hnone, List.append_nil]
      exact .kept _ _
    · rw [hnone, ← comments_tokensAt (Position.origin.advance a), htokens]
      rfl
    · have hnot := List.filterMap_eq_nil_iff.1 hlexemes _ (List.mem_of_mem_head? hhead)
      cases hnot
  | cons x xs =>
    obtain ⟨gs, hlaid, hall, hnodes⟩ := exists_laid hpos hs hrow.wellFormed htokens
    have hjoined : Joined (.ofText uri t) (Position.origin.advance a)
        ((Position.origin.advance a).advance (s.flatMap Piece.text)) (gs.map node) := by
      rw [hnodes, nodesAt_of_tokensAt hpos hs htokens, ht]
      refine joined_ofTokens ha hs hrow ?_ rfl
      rw [htokens, List.map_cons, List.map_cons, map_place_renameTail]
    have htext : gs.flatMap Segment.text = s.flatMap Piece.text := by
      rw [← flatMap_text_flatMap_all, hall]
    obtain ⟨g, gs, rfl⟩ := hlaid.exists_cons
    obtain ⟨n, hn⟩ : ∃ n, ((g :: gs).map node).getLast? = some n :=
      ⟨_, List.getLast?_eq_some_getLast (List.cons_ne_nil _ _)⟩
    have hstop := hlaid.getLast?_stop n hn
    rw [htext, ← Position.advance_append] at hstop
    obtain ⟨eaten, hend, heaten⟩ := @exists_eaten uri t a b hb s ht n hstop
    refine ⟨eaten, _, trimmed_of_laid hlaid hall hnodes hrow hjoined h fun m hm => ?_, heaten⟩
    obtain rfl : n = m := Option.some.inj (hn.symm.trans (hnodes ▸ hm))
    exact hend

/-- Pieces and what is left of them. -/
structure Kept (doc : Document) (here : Position) (ps qs : List Piece) : Prop where
  loose : Loose qs
  rewrites : Rewrites here (ps.flatMap Piece.text) (qs.flatMap Piece.text)
    ((nodesAt here ps).flatMap (numberEdits doc))
  comments : comments qs = ((nodesAt here ps).filter (!isDeleted doc ·)).flatMap Node.comments
  head : ∀ body closed, qs.head? = some (.quoted body closed) →
    startsString (nodesAt here ps) = true

/-- A separator stays between a stretch and the rest. -/
theorem Trimmed.append_separator {s rest qs qs' : List Piece} {c : Char} {later : List Node}
    (h : Trimmed doc here s later [] qs) (hrow : Row (s ++ .separator c :: rest))
    (hrest : Kept doc (here.advance (s.flatMap Piece.text ++ [c])) rest qs') :
    Kept doc here (s ++ .separator c :: rest) (qs ++ .separator c :: qs') := by
  have hrewrites := h.rewrites
  rw [List.append_nil] at hrewrites
  have hlater := hrest.rewrites
  rw [Position.advance_append] at hlater
  refine ⟨?_, ?_, ?_, fun body closed hhead => ?_⟩
  · refine h.loose.append (hrest.loose.cons (hrow.wellFormed _ (by simp)) ?_) ?_
    · intro q _
      cases q <;> rfl
    · rintro p hp q ⟨⟩
      rcases h.last p hp with ⟨w, rfl⟩ | ⟨-, hp⟩
      · rfl
      · exact mayAbut_of_mayPrecede ((List.isChain_append.1 hrow.chain).2.2 p hp _ rfl)
  · rw [nodesAt_append_separator, List.flatMap_append, List.flatMap_append, List.flatMap_append,
      Position.advance_append]
    exact hrewrites.append (.keep [c] hlater)
  · have hbehind : Piece.comments (.separator c :: qs') = Piece.comments qs' := rfl
    rw [comments_append, h.comments, hbehind, hrest.comments, nodesAt_append_separator,
      List.filter_append, List.flatMap_append]
  · rw [nodesAt_append_separator]
    cases qs with
    | nil => cases hhead
    | cons q qs => exact startsString_append _ (h.head body closed hhead)

/-- A line break is gone between a stretch and the rest. -/
theorem Trimmed.append {s rest qs qs' : List Piece} {returns : Text}
    (h : Trimmed doc here s (nodesAt (here.advance (s.flatMap Piece.text ++ (returns ++ ['\n'])))
      rest) (returns ++ ['\n']) qs)
    (hrest : Kept doc (here.advance (s.flatMap Piece.text ++ (returns ++ ['\n']))) rest qs') :
    Kept doc here (s ++ ((returns ++ ['\n']).map .separator ++ rest)) (qs ++ qs') := by
  refine ⟨?_, ?_, ?_, fun body closed hhead => ?_⟩
  · refine h.loose.append hrest.loose fun p hp q hq => ?_
    -- The line break is gone: the next row follows a word, and must not be a string.
    obtain ⟨w, rfl⟩ := (h.last p hp).resolve_right (by simp)
    refine mayAbut_word fun body closed hquoted => ?_
    have hstring := hrest.head body closed (hquoted ▸ hq)
    rw [h.glue (by simp) (List.ne_nil_of_mem (List.mem_of_mem_getLast? hp))] at hstring
    cases hstring
  · rw [nodesAt_append_separators, List.flatMap_append, List.flatMap_append, List.flatMap_append,
      List.flatMap_append, flatMap_text_map_separator, ← List.append_assoc]
    exact h.rewrites.append hrest.rewrites
  · rw [comments_append, h.comments, hrest.comments, nodesAt_append_separators,
      List.filter_append, List.flatMap_append]
  · rw [nodesAt_append_separators]
    cases qs with
    | nil =>
      rw [startsString_append_of_none _ (h.nil rfl)]
      exact hrest.head body closed hhead
    | cons q qs => exact startsString_append _ (h.head body closed hhead)

/-- Whether the labels of a statement can be deleted one by one, and none but the first is in front
of a string. -/
structure Detachable (doc : Document) (s : Statement) : Prop where
  apart : (Node.ofStatement s).IsChain fun l m =>
    ¬ (isDeleted doc l = true ∧ isDeleted doc m = true)
  clear : ∀ n ∈ (Node.ofStatement s).tail, isDeleted doc n = true → leadsToString doc n = false

/-- The nodes of a stretch whose statement can be taken apart. -/
theorem separable_of_stretch {s : List Piece} (hs : Stretch s) {before later : List Node}
    (ht : Node.ofText t = before ++ (nodesAt here s ++ later))
    (h : ∀ st ∈ statementsAt here [] s, Detachable (.ofText uri t) st) :
    Separable (.ofText uri t) (nodesAt here s) later := by
  have hstatement : (nodesAt here s).IsChain (fun l m =>
      ¬ (isDeleted (.ofText uri t) l = true ∧ isDeleted (.ofText uri t) m = true)) ∧
      ∀ n ∈ (nodesAt here s).tail, isDeleted (.ofText uri t) n = true →
        leadsToString (.ofText uri t) n = false := by
    rw [statementsAt_of_stretch here [] hs, List.nil_append] at h
    rw [nodesAt_of_stretch here hs]
    cases htokens : tokensAt here s with
    | nil => simp [closeAt, close]
    | cons x xs =>
      rw [htokens, closeAt, close] at h
      rw [closeAt, close, List.flatMap_singleton]
      obtain ⟨hapart, hclear⟩ := h _ List.mem_cons_self
      exact ⟨hapart, hclear⟩
  refine ⟨hstatement.1, fun n back hback hdeleted => ?_⟩
  -- The rest of the stretch and the later nodes are what the label leads to.
  obtain ⟨front, hfront⟩ := hback.trans (List.tail_suffix _)
  have hsplit : Node.ofText t = (before ++ front) ++ n :: (back ++ later) := by
    rw [ht, ← hfront]
    simp
  rw [List.cons_append, ← leadsToString_eq hsplit hdeleted]
  exact hstatement.2 n (hback.subset List.mem_cons_self) hdeleted

/-- The rest of a text is trimmed stretch by stretch. -/
theorem exists_kept {a : Text} (ha : ∀ c ∈ a.getLast?, isBlank c = false) {ps : List Piece}
    (hrow : Row ps) (ht : t = a ++ ps.flatMap Piece.text) {before : List Node}
    (hnodes : Node.ofText t = before ++ nodesAt (Position.origin.advance a) ps)
    (hstatements : ∀ st ∈ statementsAt (Position.origin.advance a) [] ps,
      Detachable (.ofText uri t) st) :
    ∃ qs, Kept (.ofText uri t) (Position.origin.advance a) ps qs := by
  induction ps using stretchInduction generalizing a before with
  | last s hs =>
    have hseparable := separable_of_stretch hs (by rw [List.append_nil]; exact hnodes) hstatements
    obtain ⟨eaten, qs, hqs, rfl | ⟨returns, more, hmore, -⟩⟩ :=
      @exists_trimmed uri t a [] ha (by simp) s hs hrow (by rw [ht, List.append_nil]) [] hseparable
    · have hrewrites := hqs.rewrites
      rw [List.append_nil] at hrewrites
      exact ⟨qs, hqs.loose, hrewrites, hqs.comments, hqs.head⟩
    · simp at hmore
  | more s c rest hs ih =>
    have hrest : Row ([.separator c] ++ rest) := hrow.right
    have htext : t = a ++ (s.flatMap Piece.text ++ c :: rest.flatMap Piece.text) := by
      rw [ht, List.flatMap_append, List.flatMap_cons]
      rfl
    have hblank := isBlank_of_separator (hrow.wellFormed (.separator c) (by simp))
    have hsplit := hnodes
    rw [nodesAt_append_separator] at hsplit
    have hseparable := separable_of_stretch hs hsplit fun st hst => hstatements st (by
      rw [statementsAt_append_separator]
      exact List.mem_append_left _ hst)
    obtain ⟨eaten, qs, hqs, rfl | ⟨returns, more, hmore, hreturns, rfl⟩⟩ :=
      exists_trimmed ha (by rintro d ⟨⟩; exact hblank) hs hrow.left htext hseparable
    · rw [← List.append_assoc, ← Position.advance_append] at hsplit
      obtain ⟨qs', hqs'⟩ := ih rest (Nat.le_refl _) (a := a ++ (s.flatMap Piece.text ++ [c]))
        (by simpa using hblank) hrest.right (by rw [htext]; simp) hsplit
        fun st hst => hstatements st (by
          rw [statementsAt_append_separator, ← Position.advance_append]
          exact List.mem_append_right _ hst)
      rw [Position.advance_append] at hqs'
      exact ⟨_, hqs.append_separator hrow hqs'⟩
    · -- The line break is made up of separators, so what follows it is read on its own.
      obtain ⟨hpieces, hshorter⟩ := pieces_of_returns hrow.right hmore hreturns
      rw [hpieces] at hstatements ⊢
      have hlater : nodesAt ((Position.origin.advance a).advance (s.flatMap Piece.text ++ [c]))
          rest = nodesAt ((Position.origin.advance a).advance
            (s.flatMap Piece.text ++ (returns ++ ['\n']))) (ofText more) := by
        apply (List.append_right_inj (nodesAt (Position.origin.advance a) s)).1
        rw [← nodesAt_append_separators, ← hpieces, nodesAt_append_separator]
      rw [hlater] at hqs hsplit
      rw [← List.append_assoc, ← Position.advance_append] at hsplit
      obtain ⟨qs', hqs'⟩ := ih (ofText more) hshorter
        (a := a ++ (s.flatMap Piece.text ++ (returns ++ ['\n']))) (by simp; rfl)
        (row_ofText more) (by rw [htext, hmore, flatMap_text_ofText]; simp) hsplit
        fun st hst => hstatements st (by
          rw [statementsAt_append_separators _ _ (by simp), ← Position.advance_append]
          exact List.mem_append_right _ hst)
      rw [Position.advance_append] at hqs'
      exact ⟨_, hqs.append hqs'⟩

/-- What numbering leaves of the comments: those of the nodes that are not deleted. -/
theorem comments_of_applyAll
    (hclear : ∀ s ∈ Statement.ofText t, ∀ n ∈ (Node.ofStatement s).tail,
      isDeleted (.ofText uri t) n = true → leadsToString (.ofText uri t) n = false) {out : Text}
    (hout : Edit.applyAll (.ofText uri t) (toNumbers (.ofText uri t)).edits = .ok out) :
    (Document.ofText uri out).comments =
      ((Node.ofText t).filter (!isDeleted (.ofText uri t) ·)).flatMap Node.comments := by
  have hapart := isChain_of_applyAll ⟨out, hout⟩
  have hstatements : ∀ s ∈ Statement.ofText t, Detachable (.ofText uri t) s :=
    fun s hs => ⟨hapart s hs, hclear s hs⟩
  rw [Statement.ofText_eq] at hstatements
  obtain ⟨qs, hqs⟩ := @exists_kept uri t [] (by simp) (ofText t) (row_ofText t)
    (flatMap_text_ofText t).symm [] (Node.ofText_eq t) hstatements
  have hrewrites := hqs.rewrites
  rw [flatMap_text_ofText] at hrewrites
  have hperm := edits_toNumbers_perm uri t
  rw [editsFrom_eq_flatMap, Node.ofText_eq] at hperm
  have hmade := applyAll_of_rewrites uri hrewrites hperm
  obtain rfl : qs.flatMap Piece.text = out := Except.ok.inj (hmade.symm.trans hout)
  rw [comments_ofText_of_loose uri hqs.loose, Node.ofText_eq]
  exact hqs.comments

/-- What is left of lists is all of them if only empty ones are left out. -/
theorem flatMap_filter_eq_iff {α β : Type} (p : α → Bool) (f : α → List β) (l : List α) :
    (l.filter p).flatMap f = l.flatMap f ↔ ∀ a ∈ l, p a = false → f a = [] := by
  induction l with
  | nil => simp
  | cons a l ih =>
    rw [List.forall_mem_cons, ← ih, List.flatMap_cons]
    cases hp : p a with
    | true =>
      rw [List.filter_cons_of_pos hp, List.flatMap_cons, List.append_right_inj]
      simp
    | false =>
      rw [List.filter_cons_of_neg (by simp [hp])]
      constructor
      · intro h
        -- Nothing is longer once parts are left out.
        have hshorter := ((@List.filter_sublist _ p l).flatMap f).length_le
        have hlength := congrArg List.length h
        rw [List.length_append] at hlength
        have hnil : f a = [] := List.length_eq_zero_iff.1 (by omega)
        rw [hnil, List.nil_append] at h
        exact ⟨fun _ => hnil, h⟩
      · rintro ⟨hnil, h⟩
        rw [hnil rfl, h, List.nil_append]

/-- What the conversions do to comments.

* To labels: all comments stay as they are.
* To numbers: the comments of the nodes that are deleted are gone, and all others stay as they are,
  so none is lost if and only if no label that is deleted has one behind it.  This is said of texts
  in which no label is deleted between another label and a string: there the string would be read as
  part of the other label. -/
theorem comments_of_conversions (uri : String) (t : Text) :
    (∀ c, toLabels (.ofText uri t) = .ok c →
      ∃ out, Edit.applyAll (.ofText uri t) c.edits = .ok out ∧
        (Document.ofText uri out).comments = (Document.ofText uri t).comments) ∧
    ((∀ s ∈ Statement.ofText t, ∀ n ∈ (Node.ofStatement s).tail,
        isDeleted (.ofText uri t) n = true → leadsToString (.ofText uri t) n = false) →
      ∀ out, Edit.applyAll (.ofText uri t) (toNumbers (.ofText uri t)).edits = .ok out →
        (Document.ofText uri out).comments =
          ((Node.ofText t).filter (!isDeleted (.ofText uri t) ·)).flatMap Node.comments ∧
        ((Document.ofText uri out).comments = (Document.ofText uri t).comments ↔
          ∀ n ∈ Node.ofText t, isDeleted (.ofText uri t) n = true → n.comments = [])) := by
  refine ⟨fun c hc => exists_applyAll_comments hc, fun hclear out hout => ?_⟩
  have hcomments := comments_of_applyAll hclear hout
  refine ⟨hcomments, ?_⟩
  rw [hcomments, Document.comments_eq, flatMap_filter_eq_iff]
  simp

/-- A label with a comment behind it, a label that is deleted behind another one, and a jump by a
number. -/
def commentedText : Text :=
  "a: # c\nb: d: end # e\njump a always\njump d always\njump 1 always # f".toList

/-- Putting a label in keeps all comments, and deleting the first label takes its comment along. -/
theorem comments_of_conversions_commented :
    (∃ c out, toLabels (.ofText "" commentedText) = .ok c ∧ c.subjects = 1 ∧
      Edit.applyAll (.ofText "" commentedText) c.edits = .ok out ∧
      (Document.ofText "" out).comments = (Document.ofText "" commentedText).comments) ∧
    (∀ s ∈ Statement.ofText commentedText, ∀ n ∈ (Node.ofStatement s).tail,
      isDeleted (.ofText "" commentedText) n = true →
        leadsToString (.ofText "" commentedText) n = false) ∧
    ∃ out, Edit.applyAll (.ofText "" commentedText)
        (toNumbers (.ofText "" commentedText)).edits = .ok out ∧
      (Document.ofText "" out).comments = ["# e".toList, "# f".toList] ∧
      (Document.ofText "" out).comments ≠ (Document.ofText "" commentedText).comments := by
  have hlabels : (toLabels (.ofText "" commentedText)).toOption.map (·.subjects) = some 1 := by
    decide +kernel
  have hclear : ∀ s ∈ Statement.ofText commentedText, ∀ n ∈ (Node.ofStatement s).tail,
      isDeleted (.ofText "" commentedText) n = true →
        leadsToString (.ofText "" commentedText) n = false := by
    decide +kernel
  have hmade : Edit.applyAll (.ofText "" commentedText)
      (toNumbers (.ofText "" commentedText)).edits =
        .ok "b:end # e\njump 0 always\njump 0 always\njump 1 always # f".toList := by
    decide +kernel
  obtain ⟨c, hc, hsubjects⟩ := Option.map_eq_some_iff.1 hlabels
  obtain ⟨hkept, hnumbers⟩ := comments_of_conversions "" commentedText
  obtain ⟨out, hout, hcomments⟩ := hkept c (eq_ok_of_toOption hc)
  obtain ⟨hleft, hiff⟩ := hnumbers hclear _ hmade
  refine ⟨⟨c, out, eq_ok_of_toOption hc, hsubjects, hout, hcomments⟩, hclear, _, hmade, ?_, ?_⟩
  · rw [hleft]
    decide +kernel
  · rw [ne_eq, hiff]
    decide +kernel

/-- A label with a comment behind it on its line. -/
def notedText : Text := "a: # c\nend\njump a always".toList

/-- The comment is deleted with its label. -/
theorem not_comments_of_conversions :
    ¬ ∀ out, Edit.applyAll (.ofText "" notedText) (toNumbers (.ofText "" notedText)).edits =
        .ok out →
      (Document.ofText "" out).comments = (Document.ofText "" notedText).comments := by
  have happlied : Edit.applyAll (.ofText "" notedText) (toNumbers (.ofText "" notedText)).edits =
      .ok "end\njump 0 always".toList := by
    decide +kernel
  intro h
  have hsame := h _ happlied
  revert hsame
  decide +kernel

end LogicAsm.Jumps
