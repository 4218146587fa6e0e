import LogicAsm.Proofs.Jumps.Applicable
import LogicAsm.Proofs.Jumps.NumberEdits
import LogicAsm.Proofs.Jumps.Segments
import LogicAsm.Proofs.Lookups

/-!
# What numbering leaves of a statement

Numbering deletes some of the labels of a statement, each with the blanks on both sides of it.  So
what is left of the segments of a statement are those that are not deleted, and the blanks in front
of such a segment are left too, unless the one in front of it is deleted (`trimmed`).  This is what
the edits make of the statement if no two neighbours are deleted (`rewrites_trimmed`), and its
comments are those of the nodes that are left (`comments_trimmed`).

Behind another label, the blanks that are deleted are those between two pieces.  What is left is
loose all the same (`loose_trimmed`), but for a string behind a label, which would become a part of
it.
-/

namespace LogicAsm.Jumps

open Piece Edit

variable {uri : String} {t : Text}

/-! ### Edits of nodes that are deleted or not -/

/-- The edits of a node: that it is deleted, or that of its destination. -/
def numberEdits (doc : Document) (n : Node) : List Edit :=
  if isDeleted doc n then [.delete ⟨lineStart doc n, lineEnd doc n⟩]
  else (redirection? (numeral? doc) n).toList

theorem isLabel_of_isDeleted {doc : Document} {n : Node} (h : isDeleted doc n = true) :
    n.isLabel = true := by
  simp only [isDeleted, Bool.and_eq_true] at h
  exact h.1.1

/-- A label has no destination. -/
theorem redirection?_of_isLabel {f : Lexeme → Option Text} {n : Node} (h : n.isLabel = true) :
    redirection? f n = none := by
  cases hd : n.destination? with
  | none => rw [redirection?, hd]; rfl
  | some d =>
    have hinstruction := Node.isInstruction_of_destination? hd
    rw [Node.isInstruction_of_isLabel h] at hinstruction
    cases hinstruction

/-- No two nodes are the same, so the one that is deleted is the one that is dropped. -/
theorem isDropped_eq_isDeleted {n : Node} {i : Nat} (hi : (Node.ofText t)[i]? = some n) :
    isDropped (.ofText uri t) n i = isDeleted (.ofText uri t) n := by
  cases hdropped : isDropped (.ofText uri t) n i with
  | true => exact (isDeleted_of_isDropped hi hdropped).symm
  | false =>
    refine (eq_false_of_ne_true fun hdeleted => ?_).symm
    simp only [isDeleted, Bool.and_eq_true, beq_iff_eq] at hdeleted
    obtain ⟨⟨hlabel, hdeclaration⟩, hnumbered⟩ := hdeleted
    obtain ⟨j, hj, hn⟩ := Option.bind_eq_some_iff.1 hdeclaration
    have hnodup : (Node.ofText t).Nodup := by
      refine (pairwise_start_ofText t).imp fun {n m} hlt => ?_
      rintro rfl
      exact Position.ne_of_lt hlt rfl
    obtain ⟨hlt, rfl⟩ := List.getElem?_eq_some_iff.1 hi
    obtain ⟨hlt', hsame⟩ := List.getElem?_eq_some_iff.1 hn
    obtain rfl : j = i := hnodup.getElem_inj_iff.1 hsame
    rw [isDropped, hlabel, hj, hnumbered] at hdropped
    simp at hdropped

theorem editsFrom_eq_flatMap :
    editsFrom (.ofText uri t) 0 (Node.ofText t) =
      (Node.ofText t).flatMap (numberEdits (.ofText uri t)) := by
  refine editsFrom_eq_flatMap_of fun n i hi => ?_
  rw [nodeEdits, deletion?, numberEdits, isDropped_eq_isDeleted hi,
    replacement?_eq (List.mem_of_getElem? hi)]
  cases hdeleted : isDeleted (.ofText uri t) n with
  | false => rfl
  | true =>
    rw [redirection?_of_isLabel (isLabel_of_isDeleted hdeleted)]
    rfl

/-! ### The ends of what is redirected -/

/-- A single word has no destination. -/
theorem redirect_word (f : Lexeme → Option Text) (w : Text) : redirect f [.word w] = [.word w] := by
  have hnone : cutJump [word w] = none := by simp [cutJump, cutOperand]
  rw [redirect, hnone]

/-- Redirecting does not make a string the first piece. -/
theorem head?_of_redirect {f : Lexeme → Option Text} {s : List Piece} {body : Text} {closed : Bool}
    (h : (redirect f s).head? = some (.quoted body closed)) :
    s.head? = some (.quoted body closed) := by
  unfold redirect at h
  split at h
  · exact h
  · next front w back hcut =>
    obtain ⟨rfl, -⟩ := cutJump_eq_some_iff.1 hcut
    cases front with
    | nil => cases h
    | cons p front => exact h

/-- Redirecting changes the last piece to another word, if at all. -/
theorem getLast?_of_redirect {f : Lexeme → Option Text} {s : List Piece} :
    ∀ p ∈ (redirect f s).getLast?, (∃ w, p = .word w) ∨ p ∈ s.getLast? := by
  intro p hp
  unfold redirect at hp
  split at hp
  · exact .inr hp
  · next front w back hcut =>
    obtain ⟨rfl, -⟩ := cutJump_eq_some_iff.1 hcut
    rw [List.getLast?_append_of_ne_nil _ (List.cons_ne_nil _ _)] at hp ⊢
    cases back with
    | nil => exact .inl ⟨_, (Option.some.inj hp).symm⟩
    | cons q back => exact .inr hp

theorem redirect_ne_nil {f : Lexeme → Option Text} {s : List Piece} (h : s ≠ []) :
    redirect f s ≠ [] := by
  unfold redirect
  split
  · exact h
  · simp

/-! ### What is left of a statement -/

open Segment

/-- What is left of segments: those that are not deleted, with the blanks in front of each, unless
these are gone together with a label. -/
def trimmed (doc : Document) : Bool → List Segment → List Piece
  | _, [] => []
  | gone, g :: gs =>
    if isDeleted doc g.node then trimmed doc true gs
    else (if gone then [] else g.blanks.map .blank) ++
      (redirect (numeral? doc) g.pieces ++ trimmed doc false gs)

variable {doc : Document} {here : Position} {g : Segment} {gs : List Segment}

theorem trimmed_of_isDeleted (gone : Bool) (h : isDeleted doc g.node = true) :
    trimmed doc gone (g :: gs) = trimmed doc true gs := by
  rw [trimmed, if_pos h]

theorem trimmed_of_not_isDeleted (gone : Bool) (h : isDeleted doc g.node = false) :
    trimmed doc gone (g :: gs) = (if gone then [] else g.blanks.map .blank) ++
      (redirect (numeral? doc) g.pieces ++ trimmed doc false gs) := by
  rw [trimmed, if_neg (by simp [h])]

theorem numberEdits_of_isDeleted {n : Node} (h : isDeleted doc n = true) :
    numberEdits doc n = [.delete ⟨lineStart doc n, lineEnd doc n⟩] := if_pos h

theorem numberEdits_of_isLabel {n : Node} (h : n.isLabel = true)
    (hkept : isDeleted doc n = false) : numberEdits doc n = [] := by
  rw [numberEdits, hkept, redirection?_of_isLabel h]
  rfl

/-- What is left without the blanks in front of it is left with them. -/
theorem rewrites_trimmed_of_gone (hkept : isDeleted doc g.node = false) {old : Text}
    {edits : List Edit} (h : Rewrites (here.advance g.blanks) (g.pieces.flatMap Piece.text ++ old)
      ((trimmed doc true (g :: gs)).flatMap Piece.text) edits) :
    Rewrites here (g.text ++ old) ((trimmed doc false (g :: gs)).flatMap Piece.text) edits := by
  have hkeep := Rewrites.keep g.blanks h
  rw [trimmed_of_not_isDeleted _ hkept, if_pos rfl, List.nil_append] at hkeep
  rw [trimmed_of_not_isDeleted _ hkept, if_neg Bool.false_ne_true, List.flatMap_append,
    flatMap_text_map_blank, Segment.text, List.append_assoc]
  exact hkeep

/-- The edits of segments leave what is left of them, with the blanks in front of the first one or
without these. -/
theorem rewrites_trimmed (hlaid : Laid here (g :: gs))
    (hwf : ∀ h ∈ g :: gs, ∀ p ∈ h.pieces, p.WellFormed) (hstart : lineStart doc g.node = here)
    (htouches : ((g :: gs).map node).IsChain (Touches doc))
    (hapart : ((g :: gs).map node).IsChain fun l m =>
      ¬ (isDeleted doc l = true ∧ isDeleted doc m = true)) {eaten : Text}
    (hend : ∀ n ∈ ((g :: gs).map node).getLast?, if isDeleted doc n then
      lineEnd doc n = here.advance ((g :: gs).flatMap Segment.text ++ eaten) else eaten = []) :
    Rewrites here ((g :: gs).flatMap Segment.text ++ eaten)
      ((trimmed doc false (g :: gs)).flatMap Piece.text)
      ((g :: gs).flatMap fun h => numberEdits doc h.node) ∧
    (isDeleted doc g.node = false →
      Rewrites (here.advance g.blanks)
        (g.pieces.flatMap Piece.text ++ (gs.flatMap Segment.text ++ eaten))
        ((trimmed doc true (g :: gs)).flatMap Piece.text)
        ((g :: gs).flatMap fun h => numberEdits doc h.node)) := by
  induction gs generalizing here g with
  | nil =>
    cases hlaid with | last h =>
    have hend := hend g.node rfl
    rw [List.flatMap_singleton] at hend
    rw [List.flatMap_singleton, List.flatMap_singleton]
    cases hdeleted : isDeleted doc g.node with
    | true =>
      rw [hdeleted, if_pos rfl] at hend
      refine ⟨?_, by rintro ⟨⟩⟩
      have hne : g.text ++ eaten ≠ [] := by simp [Segment.text, h.text_ne]
      rw [trimmed_of_isDeleted _ hdeleted, numberEdits_of_isDeleted hdeleted, hstart, hend]
      exact .changed here hne []
    | false =>
      rw [hdeleted, if_neg Bool.false_ne_true] at hend
      have hredirect := @rewrites_redirections (numeral? doc) (here.advance g.blanks) g.pieces
        (hwf g List.mem_cons_self)
      rw [← h.redirections _ (substitutes_numeral? doc).rewords] at hredirect
      have hgone : Rewrites (here.advance g.blanks) (g.pieces.flatMap Piece.text ++ eaten)
          ((trimmed doc true [g]).flatMap Piece.text) (numberEdits doc g.node) := by
        rw [trimmed_of_not_isDeleted _ hdeleted, numberEdits, hdeleted, hend, List.append_nil]
        simpa [trimmed] using hredirect
      exact ⟨rewrites_trimmed_of_gone hdeleted hgone, fun _ => hgone⟩
  | cons next gs ih =>
    cases hlaid with | @label _ _ _ _ h isLabel w word rest =>
    obtain ⟨htouch, htouches⟩ := List.isChain_cons_cons.1 htouches
    obtain ⟨hnot, hapart⟩ := List.isChain_cons_cons.1 hapart
    have hnext : lineStart doc next.node = here.advance g.text := htouch.lineStart_eq.trans h.stop
    obtain ⟨hall, hbody⟩ := ih rest (fun k hk => hwf k (List.mem_cons_of_mem g hk)) hnext htouches
      hapart fun n hn => by
        have hend := hend n hn
        rwa [List.flatMap_cons, List.append_assoc, here.advance_append] at hend
    have htext : (g :: next :: gs).flatMap Segment.text ++ eaten =
        g.text ++ ((next :: gs).flatMap Segment.text ++ eaten) := List.append_assoc _ _ _
    have hedits : ((g :: next :: gs).flatMap fun h => numberEdits doc h.node) =
        numberEdits doc g.node ++ (next :: gs).flatMap fun h => numberEdits doc h.node := rfl
    rw [htext, hedits]
    cases hdeleted : isDeleted doc g.node with
    | true =>
      -- The blanks in front of the next node are deleted too, and that one stays.
      have hkept : isDeleted doc next.node = false :=
        eq_false_of_ne_true fun hnext => hnot ⟨hdeleted, hnext⟩
      have hne : g.text ++ next.blanks ≠ [] := by simp [Segment.text, h.text_ne]
      have hstop : lineEnd doc g.node = here.advance (g.text ++ next.blanks) := by
        rw [htouch.lineEnd_eq, rest.head.start, here.advance_append]
      have hbody := hbody hkept
      rw [← here.advance_append] at hbody
      refine ⟨?_, by rintro ⟨⟩⟩
      rw [trimmed_of_isDeleted _ hdeleted, numberEdits_of_isDeleted hdeleted, hstart, hstop,
        List.flatMap_cons, show next.text = next.blanks ++ _ from rfl, List.append_assoc,
        List.append_assoc, ← List.append_assoc g.text]
      exact .change hne [] hbody
    | false =>
      have hgone : Rewrites (here.advance g.blanks) (g.pieces.flatMap Piece.text ++
            ((next :: gs).flatMap Segment.text ++ eaten))
          ((trimmed doc true (g :: next :: gs)).flatMap Piece.text)
          (numberEdits doc g.node ++ (next :: gs).flatMap fun h => numberEdits doc h.node) := by
        rw [trimmed_of_not_isDeleted _ hdeleted, numberEdits_of_isLabel isLabel hdeleted, word,
          redirect_word, if_pos rfl, List.nil_append, List.nil_append, List.flatMap_append]
        rw [Segment.text, word, here.advance_append] at hall
        exact .keep _ hall
      exact ⟨rewrites_trimmed_of_gone hdeleted hgone, fun _ => hgone⟩

/-! ### How the rest of a statement reads -/

/-- Whether the first instruction of nodes starts with a string. -/
def startsString (ns : List Node) : Bool :=
  (ns.find? (·.isInstruction)).any fun n => n.head.kind == .string

theorem startsString_append {ns : List Node} (ms : List Node) (h : startsString ns = true) :
    startsString (ns ++ ms) = true := by
  obtain ⟨n, hn, hstring⟩ := (Option.any_eq_true _ _).1 h
  rw [startsString, List.find?_append, hn, Option.some_or, Option.any_some, hstring]

theorem startsString_append_of_none {ns : List Node} (ms : List Node)
    (h : ∀ n ∈ ns, n.isInstruction = false) : startsString (ns ++ ms) = startsString ms := by
  have hnone : ns.find? (·.isInstruction) = none :=
    List.find?_eq_none.2 fun n hn => by rw [h n hn]; exact Bool.false_ne_true
  rw [startsString, List.find?_append, hnone, Option.none_or, startsString]

/-- What is left has the comments of the nodes that are not deleted. -/
theorem comments_trimmed (hat : ∀ g ∈ gs, ∃ there, g.At there) (gone : Bool) :
    comments (trimmed doc gone gs) =
      ((gs.map node).filter (!isDeleted doc ·)).flatMap Node.comments := by
  induction gs generalizing gone with
  | nil => rfl
  | cons g gs ih =>
    obtain ⟨⟨there, hg⟩, hgs⟩ := List.forall_mem_cons.1 hat
    cases hdeleted : isDeleted doc g.node with
    | true =>
      rw [trimmed_of_isDeleted _ hdeleted, ih hgs, List.map_cons,
        List.filter_cons_of_neg (by simp [hdeleted])]
    | false =>
      have hblanks : comments (if gone then [] else g.blanks.map .blank) = [] := by
        cases gone with
        | true => rfl
        | false => exact comments_map_blank _
      rw [trimmed_of_not_isDeleted _ hdeleted, comments_append, hblanks, comments_append,
        comments_redirect, ih hgs, List.map_cons, List.filter_cons_of_pos (by simp [hdeleted]),
        List.flatMap_cons, hg.comments]
      rfl

/-- Nothing is left only of labels. -/
theorem not_isInstruction_of_trimmed (hat : ∀ g ∈ gs, ∃ there, g.At there) {gone : Bool}
    (h : trimmed doc gone gs = []) : ∀ n ∈ gs.map node, n.isInstruction = false := by
  induction gs generalizing gone with
  | nil => simp
  | cons g gs ih =>
    obtain ⟨⟨there, hg⟩, hgs⟩ := List.forall_mem_cons.1 hat
    cases hdeleted : isDeleted doc g.node with
    | true =>
      rw [trimmed_of_isDeleted _ hdeleted] at h
      rw [List.map_cons]
      refine List.forall_mem_cons.2 ⟨?_, ih hgs h⟩
      exact Node.isInstruction_of_isLabel (isLabel_of_isDeleted hdeleted)
    | false =>
      rw [trimmed_of_not_isDeleted _ hdeleted] at h
      simp only [List.append_eq_nil_iff] at h
      exact absurd h.2.1 (redirect_ne_nil hg.pieces_ne)

/-- A string comes first only if it is what the first instruction starts with. -/
theorem startsString_of_trimmed (hat : ∀ g ∈ gs, ∃ there, g.At there) {gone : Bool} {body : Text}
    {closed : Bool} (h : (trimmed doc gone gs).head? = some (.quoted body closed)) :
    startsString (gs.map node) = true := by
  induction gs generalizing gone with
  | nil => cases h
  | cons g gs ih =>
    obtain ⟨⟨there, hg⟩, hgs⟩ := List.forall_mem_cons.1 hat
    cases hdeleted : isDeleted doc g.node with
    | true =>
      rw [trimmed_of_isDeleted _ hdeleted] at h
      have hlabel := Node.isInstruction_of_isLabel (isLabel_of_isDeleted hdeleted)
      rw [List.map_cons, ← List.singleton_append,
        startsString_append_of_none _ (List.forall_mem_singleton.2 hlabel)]
      exact ih hgs h
    | false =>
      -- A string in front leaves no room for blanks in front of it.
      have hnone : (if gone then [] else g.blanks.map Piece.blank) = [] := by
        rw [trimmed_of_not_isDeleted _ hdeleted] at h
        cases gone with
        | true => rfl
        | false =>
          rw [if_neg Bool.false_ne_true] at h ⊢
          cases hblanks : g.blanks with
          | nil => rfl
          | cons c cs =>
            rw [hblanks] at h
            cases h
      rw [trimmed_of_not_isDeleted _ hdeleted, hnone, List.nil_append,
        List.head?_append_of_ne_nil _ (redirect_ne_nil hg.pieces_ne)] at h
      obtain ⟨hinstruction, hstring⟩ := hg.quoted _ _ (head?_of_redirect h)
      simp [startsString, hinstruction, hstring]

/-- What is left ends in a word, or as the statement does if its last node is not deleted. -/
theorem getLast?_of_trimmed (hlaid : Laid here gs) (gone : Bool) :
    ∀ p ∈ (trimmed doc gone gs).getLast?, (∃ w, p = .word w) ∨
      p ∈ (gs.flatMap all).getLast? ∧
        ∀ n ∈ (gs.map node).getLast?, isDeleted doc n = false := by
  induction hlaid generalizing gone with
  | @last here g h =>
    intro p hp
    cases hdeleted : isDeleted doc g.node with
    | true =>
      rw [trimmed_of_isDeleted _ hdeleted] at hp
      cases hp
    | false =>
      rw [trimmed_of_not_isDeleted _ hdeleted, trimmed, List.append_nil,
        List.getLast?_append_of_ne_nil _ (redirect_ne_nil h.pieces_ne)] at hp
      rw [List.flatMap_singleton, all, List.getLast?_append_of_ne_nil _ h.pieces_ne]
      refine (getLast?_of_redirect p hp).imp_right fun hlast => ⟨hlast, ?_⟩
      rintro n ⟨⟩
      exact hdeleted
  | @label here g next gs h isLabel w word rest ih =>
    -- What is last behind the label is last with the label in front of it.
    have hbehind {p : Piece} (hp : (∃ w, p = .word w) ∨ p ∈ ((next :: gs).flatMap all).getLast? ∧
        ∀ n ∈ ((next :: gs).map node).getLast?, isDeleted doc n = false) :
        (∃ w, p = .word w) ∨ p ∈ ((g :: next :: gs).flatMap all).getLast? ∧
          ∀ n ∈ ((g :: next :: gs).map node).getLast?, isDeleted doc n = false := by
      rcases hp with hword | ⟨hlast, hkept⟩
      · exact .inl hword
      · refine .inr ⟨?_, hkept⟩
        rw [List.flatMap_cons, List.getLast?_append, hlast]
        rfl
    intro p hp
    cases hdeleted : isDeleted doc g.node with
    | true =>
      rw [trimmed_of_isDeleted _ hdeleted] at hp
      exact hbehind (ih true p hp)
    | false =>
      rw [trimmed_of_not_isDeleted _ hdeleted, word, redirect_word, List.getLast?_append_of_ne_nil _
        (by simp), List.singleton_append] at hp
      cases hrest : trimmed doc false (next :: gs) with
      | nil =>
        rw [hrest] at hp
        exact .inl ⟨w, (Option.some.inj hp).symm⟩
      | cons q qs =>
        rw [hrest, List.getLast?_cons_cons, ← hrest] at hp
        exact hbehind (ih false p hp)

/-- What is left is loose, if no label in front of a string loses the blanks on both sides. -/
theorem loose_trimmed (hlaid : Laid here gs) (hrow : Row (gs.flatMap all))
    (htouches : (gs.map node).IsChain (Touches doc))
    (hclear : ∀ n back, n :: back <:+ (gs.map node).tail → isDeleted doc n = true →
      startsString (n :: back) = false) (gone : Bool) : Loose (trimmed doc gone gs) := by
  induction hlaid generalizing gone with
  | @last here g h =>
    cases hdeleted : isDeleted doc g.node with
    | true =>
      rw [trimmed_of_isDeleted _ hdeleted]
      exact row_nil.loose
    | false =>
      rw [List.flatMap_singleton, all, ← List.append_nil g.pieces] at hrow
      have hredirect := row_redirect (substitutes_numeral? doc).rewords h.stretch hrow
      rw [trimmed_of_not_isDeleted _ hdeleted]
      cases gone with
      | true => exact hredirect.right.loose
      | false => exact hredirect.loose
  | @label here g next gs h isLabel w word rest ih =>
    obtain ⟨htouch, htouches⟩ := List.isChain_cons_cons.1 htouches
    rw [List.flatMap_cons] at hrow
    have hlater := ih hrow.right htouches fun n back hback =>
      hclear n back (hback.trans (List.suffix_cons _ _))
    cases hdeleted : isDeleted doc g.node with
    | true =>
      rw [trimmed_of_isDeleted _ hdeleted]
      exact hlater true
    | false =>
      have hfront : Row ((if gone then [] else g.blanks.map Piece.blank) ++ [Piece.word w]) := by
        have hall := hrow.left
        rw [all, word] at hall
        cases gone with
        | true => exact hall.right
        | false => exact hall
      rw [trimmed_of_not_isDeleted _ hdeleted, word, redirect_word, ← List.append_assoc]
      refine hfront.loose.append (hlater false) fun p hp q hq => ?_
      rw [List.getLast?_concat] at hp
      obtain rfl := Option.some.inj hp
      refine mayAbut_word fun body closed hquoted => ?_
      -- The next node starts with a blank, or it is deleted and no string comes behind it.
      rw [hquoted] at hq
      cases hnext : isDeleted doc next.node with
      | true =>
        have hstring := startsString_of_trimmed rest.exists_at hq
        rw [List.map_cons, hclear _ _ (List.suffix_refl _) hnext] at hstring
        cases hstring
      | false =>
        have hblank : next.blanks ≠ [] := by
          intro hnil
          have hlt := htouch.stop_lt_start
          rw [h.stop, rest.head.start, hnil] at hlt
          exact Position.ne_of_lt hlt rfl
        obtain ⟨c, cs, hblanks⟩ := List.exists_cons_of_ne_nil hblank
        rw [trimmed_of_not_isDeleted _ hnext, if_neg Bool.false_ne_true, hblanks] at hq
        cases hq

end LogicAsm.Jumps
