import LogicAsm.Proofs.Edits
import LogicAsm.Proofs.Jumps.Margins
import LogicAsm.Proofs.Jumps.NodeEdits

/-!
# Rewriting stretch by stretch

What `Jumps.toNumbers` makes of a text is again a row of pieces, if each stretch becomes one or is
deleted with the line break behind it (`Revisable`).  Then the edits can be made
(`exists_applyAll_of_revisable`).

How much of the nodes is left in the new text is said by a relation `P`, between nodes and what is
said once they are edited.  It has to hold for each stretch, and nothing else is asked of it but
that it holds for two lists behind each other if it holds for both.
-/

namespace LogicAsm.Jumps

open Piece Edit

variable (P : List Node → List Outline → Prop) (doc : Document)

/-- A stretch, what becomes of it, and the edits of its nodes, the first of which has index `k`. -/
structure Revised (here : Position) (k : Nat) (s s' : List Piece) : Prop where
  stretch : Stretch s'
  row : ∀ tail, Row (s ++ tail) → Row (s' ++ tail)
  rewrites : Rewrites here (s.flatMap text) (s'.flatMap text) (editsFrom doc k (nodesAt here s))
  nodes : P (nodesAt here s) (Outline.ofLexemes (Lexeme.rename (s'.filterMap lexeme?)))

/-- A stretch that is deleted with the line break behind it. -/
structure LineDeleted (here : Position) (k : Nat) (s : List Piece) (returns : Text) : Prop where
  return_of_mem : ∀ c ∈ returns, c = '\r'
  nodes : P (nodesAt here s) []
  rewrites : Rewrites here (s.flatMap text ++ (returns ++ ['\n'])) []
    (editsFrom doc k (nodesAt here s))

/-- Pieces and what becomes of them, where their nodes have indices from `k` on. -/
structure Rewritten (here : Position) (k : Nat) (ps qs : List Piece) : Prop where
  row : Row qs
  rewrites : Rewrites here (ps.flatMap text) (qs.flatMap text) (editsFrom doc k (nodesAt here ps))
  nodes : ∀ there, P (nodesAt here ps) ((nodesAt there qs).map Node.outline)

variable {P doc}

section

variable {Q : List Node → List Outline → Prop} (hPQ : ∀ ns os, P ns os → Q ns os)
  {here : Position} {k : Nat} {s : List Piece}

include hPQ

theorem Revised.imp {s' : List Piece} (h : Revised P doc here k s s') :
    Revised Q doc here k s s' :=
  ⟨h.stretch, h.row, h.rewrites, hPQ _ _ h.nodes⟩

theorem LineDeleted.imp {returns : Text} (h : LineDeleted P doc here k s returns) :
    LineDeleted Q doc here k s returns :=
  ⟨h.return_of_mem, hPQ _ _ h.nodes, h.rewrites⟩

end

theorem nodesAt_append_separators (here : Position) (s : List Piece) (returns : Text)
    (rest : List Piece) :
    nodesAt here (s ++ ((returns ++ ['\n']).map .separator ++ rest)) =
      nodesAt here s ++ nodesAt (here.advance (s.flatMap text ++ (returns ++ ['\n']))) rest := by
  rw [nodesAt, statementsAt_append_separators _ _ (by simp), List.flatMap_append]
  rfl

section

variable (hP : ∀ ns ms os os', P ns os → P ms os' → P (ns ++ ms) (os ++ os'))

include hP

/-- A stretch is revised in front of a separator. -/
theorem Revised.append_separator {here : Position} {k : Nat} {s s' rest qs : List Piece} {c : Char}
    (h : Revised P doc here k s s') (hrow : Row (s ++ .separator c :: rest))
    (hqs : Rewritten P doc (here.advance (s.flatMap text ++ [c])) (k + (nodesAt here s).length)
      rest qs) :
    Rewritten P doc here k (s ++ .separator c :: rest) (s' ++ .separator c :: qs) := by
  have hseparator : Row (.separator c :: qs) :=
    hqs.row.cons (hrow.wellFormed _ (by simp)) fun q _ => by cases q <;> rfl
  have hjoined : Row (s ++ .separator c :: qs) := by
    refine hrow.left.append hseparator ?_
    rintro p hp q ⟨⟩
    exact (List.isChain_append.1 hrow.chain).2.2 p hp _ rfl
  refine ⟨h.row _ hjoined, ?_, fun there => ?_⟩
  · have hrest := hqs.rewrites
    rw [Position.advance_append] at hrest
    rw [nodesAt_append_separator, editsFrom_append, List.flatMap_append, List.flatMap_append,
      Position.advance_append]
    exact h.rewrites.append (.keep [c] hrest)
  · rw [nodesAt_append_separator, nodesAt_append_separator, List.map_append,
      map_outline_nodesAt_of_stretch there h.stretch]
    exact hP _ _ _ _ h.nodes (hqs.nodes _)

/-- A stretch is deleted with the line break behind it. -/
theorem LineDeleted.append {here : Position} {k : Nat} {s rest qs : List Piece} {returns : Text}
    (h : LineDeleted P doc here k s returns)
    (hqs : Rewritten P doc (here.advance (s.flatMap text ++ (returns ++ ['\n'])))
      (k + (nodesAt here s).length) rest qs) :
    Rewritten P doc here k (s ++ ((returns ++ ['\n']).map .separator ++ rest)) qs := by
  refine ⟨hqs.row, ?_, fun there => ?_⟩
  · rw [nodesAt_append_separators, editsFrom_append, List.flatMap_append, List.flatMap_append,
      flatMap_text_map_separator, ← List.append_assoc]
    exact h.rewrites.append hqs.rewrites
  · rw [nodesAt_append_separators]
    exact hP _ _ _ _ h.nodes (hqs.nodes there)

end

variable {uri : String} {t : Text}

variable (P uri t) in
/-- A text in which every stretch becomes another one or is deleted with the line break behind it,
if `Q` holds for its statement. -/
def Revisable (Q : Statement → Prop) : Prop :=
  ∀ (a b : Text) (k : Nat) (s : List Piece), (∀ c ∈ a.getLast?, isBlank c = false) →
    (∀ c ∈ b.head?, isBlank c = false) → Stretch s → (∀ p ∈ s, p.WellFormed) →
    t = a ++ (s.flatMap text ++ b) →
    nodesAt (Position.origin.advance a) s <+: (Node.ofText t).drop k →
    (∀ st ∈ statementsAt (Position.origin.advance a) [] s, Q st) →
    (∃ s', Revised P (.ofText uri t) (Position.origin.advance a) k s s') ∨
      ∃ returns more, b = returns ++ '\n' :: more ∧
        LineDeleted P (.ofText uri t) (Position.origin.advance a) k s returns

section

variable (hP : ∀ ns ms os os', P ns os → P ms os' → P (ns ++ ms) (os ++ os'))
  {Q : Statement → Prop} (hrevisable : Revisable P uri t Q)

include hP hrevisable

/-- The rest of a text is rewritten stretch by stretch. -/
theorem exists_rewritten {a : Text} (ha : ∀ c ∈ a.getLast?, isBlank c = false) {k : Nat}
    {ps : List Piece} (hrow : Row ps) (ht : t = a ++ ps.flatMap text)
    (hk : (Node.ofText t).drop k = nodesAt (Position.origin.advance a) ps)
    (hstatements : ∀ st ∈ statementsAt (Position.origin.advance a) [] ps, Q st) :
    ∃ qs, Rewritten P (.ofText uri t) (Position.origin.advance a) k ps qs := by
  -- A deletion may reach over the separators behind a stretch, so the induction is on the number of
  -- pieces, and the text in front (`a`) grows by all that is done.
  induction ps using stretchInduction generalizing a k with
  | last s hs =>
    rcases hrevisable a [] k s ha (by simp) hs hrow.wellFormed (by rw [ht, List.append_nil])
      (hk ▸ List.prefix_refl _) hstatements with ⟨s', hs'⟩ | ⟨returns, more, hmore, -⟩
    · have hrow' := hs'.row [] (by rwa [List.append_nil])
      rw [List.append_nil] at hrow'
      refine ⟨s', hrow', hs'.rewrites, fun there => ?_⟩
      rw [map_outline_nodesAt_of_stretch there hs'.stretch]
      exact hs'.nodes
    · simp at hmore
  | more s c rest hs ih =>
    have hrest : Row ([.separator c] ++ rest) := hrow.right
    have htext : t = a ++ (s.flatMap text ++ c :: rest.flatMap text) := by
      rw [ht, List.flatMap_append, List.flatMap_cons]
      rfl
    have hblank := isBlank_of_separator (hrow.wellFormed (.separator c) (by simp))
    have hfirst : ∀ st ∈ statementsAt (Position.origin.advance a) [] s, Q st := by
      intro st hst
      refine hstatements st ?_
      rw [statementsAt_append_separator]
      exact List.mem_append_left _ hst
    have hsplit := hk
    rw [nodesAt_append_separator] at hsplit
    rcases hrevisable a (c :: rest.flatMap text) k s ha (by rintro d ⟨⟩; exact hblank) hs
      hrow.left.wellFormed htext (hsplit ▸ List.prefix_append _ _) hfirst with
      ⟨s', hs'⟩ | ⟨returns, more, hmore, hline⟩
    · obtain ⟨qs, hqs⟩ := ih rest (Nat.le_refl _) (a := a ++ (s.flatMap text ++ [c]))
        (by simpa using hblank) (k := k + (nodesAt (Position.origin.advance a) s).length)
        hrest.right (by rw [htext]; simp)
        (by rw [← List.drop_drop, hsplit, List.drop_left, ← Position.advance_append])
        fun st hst => hstatements st (by
          rw [statementsAt_append_separator, ← Position.advance_append]
          exact List.mem_append_right _ hst)
      rw [Position.advance_append] at hqs
      exact ⟨_, hs'.append_separator hP hrow hqs⟩
    · -- The line break is made up of separators, so what follows it is read on its own.
      obtain ⟨hpieces, hshorter⟩ := pieces_of_returns hrow.right hmore hline.return_of_mem
      rw [hpieces] at hstatements hk ⊢
      rw [nodesAt_append_separators] at hk
      obtain ⟨qs, hqs⟩ := ih (ofText more) hshorter
        (a := a ++ (s.flatMap text ++ (returns ++ ['\n']))) (by simp; rfl)
        (k := k + (nodesAt (Position.origin.advance a) s).length) (row_ofText more)
        (by rw [htext, hmore, flatMap_text_ofText]; simp)
        (by rw [← List.drop_drop, hk, List.drop_left, ← Position.advance_append])
        fun st hst => hstatements st (by
          rw [statementsAt_append_separators _ _ (by simp), ← Position.advance_append]
          exact List.mem_append_right _ hst)
      rw [Position.advance_append] at hqs
      exact ⟨qs, hline.append hP hqs⟩

/-- The edits of a text that is rewritten stretch by stretch are made. -/
theorem exists_applyAll_of_revisable (hstatements : ∀ s ∈ Statement.ofText t, Q s) :
    ∃ out, Edit.applyAll (.ofText uri t) (toNumbers (.ofText uri t)).edits = .ok out ∧
      P (Node.ofText t) ((Node.ofText out).map Node.outline) := by
  rw [Statement.ofText_eq] at hstatements
  obtain ⟨qs, hqs⟩ := @exists_rewritten P uri t hP Q hrevisable [] (by simp) 0 (ofText t)
    (row_ofText t) (flatMap_text_ofText t).symm (Node.ofText_eq t) hstatements
  have hrewrites := hqs.rewrites
  have hnodes := hqs.nodes .origin
  rw [flatMap_text_ofText] at hrewrites
  refine ⟨qs.flatMap text, applyAll_of_rewrites uri hrewrites ?_, ?_⟩
  · have hperm := edits_toNumbers_perm uri t
    rwa [Node.ofText_eq] at hperm
  · rw [Node.ofText_eq, Node.ofText_eq, ofText_flatMap_text hqs.row]
    exact hnodes

end

end LogicAsm.Jumps
