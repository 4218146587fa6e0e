import LogicAsm.Proofs.Jumps.Labelling
import LogicAsm.Proofs.Jumps.Renumbering

/-!
# A label in front of a statement

A label may stand in front of a statement, on the same line: `loop: print x`.  The label is then a
node of its own, and what follows it is read as if it stood alone, but for the names of old.  These
are given to a statement before its labels are cut off, so that behind a label the first token is
one more operand, and the operation of `op` is none.

The label keeps the statement (`Node.label_keeps_statement_iff`) unless this starts with such a
name (`Lexeme.LeadsOldName`).  Only the first statement of a line is at risk: what stands behind a
separator is read the same, whatever stands in front of it (`Piece.exists_outlines_behind`).
-/

namespace LogicAsm

namespace Lexeme

/-! ### Names behind a label -/

/-- Whether a statement starts with a name that means another thing behind a label: an operand of
old, or `op` with an operation of old. -/
def LeadsOldName (xs : List Lexeme) : Prop :=
  ∃ x ∈ xs.head?, x.2 = "configure".toList ∨ x.2 = "@configure".toList ∨
    x.2 = "op".toList ∧ ∃ y ∈ xs.tail.head?, y.2 = "atan2".toList ∨ y.2 = "dst".toList

instance (xs : List Lexeme) : Decidable (LeadsOldName xs) :=
  inferInstanceAs (Decidable (∃ x ∈ xs.head?, _ ∨ _ ∨ _ ∧ ∃ y ∈ xs.tail.head?, _ ∨ _))

/-- A statement has the names of operands behind a label, and these are its own unless it starts
with a name of old. -/
theorem rename_eq_map_iff (xs : List Lexeme) :
    rename xs = xs.map (Prod.map id renamedOperand) ↔ ¬ LeadsOldName xs := by
  cases xs with
  | nil => simp [rename, LeadsOldName]
  | cons x xs =>
    constructor
    · rintro hsame ⟨_, ⟨⟩, hname⟩
      rw [rename, List.map_cons, List.cons.injEq] at hsame
      obtain ⟨hfirst, htail⟩ := hsame
      have hself : renamedOperand x.2 = x.2 := (congrArg Prod.snd hfirst).symm
      rw [renamedOperand_eq_self_iff, not_or] at hself
      obtain hname | hname | ⟨hop, y, hy, hold⟩ := hname
      · exact hself.1 hname
      · exact hself.2 hname
      -- Behind `op` an operation of old has a new name that no operand has.
      · obtain ⟨ys, rfl⟩ := List.head?_eq_some_iff.1 hy
        rw [renameTail, if_pos hop, List.modifyHead_cons, List.map_cons, List.map_cons,
          List.cons.injEq] at htail
        have hsecond : renamedOperand (renamedOperation y.2) = renamedOperand y.2 :=
          congrArg Prod.snd htail.1
        rcases hold with hold | hold <;> rw [hold] at hsecond <;> revert hsecond <;> decide
    · intro hnone
      apply Jumps.rename_eq_map
      · rw [renamedOperand_eq_self_iff]
        rintro (h | h)
        · exact hnone ⟨x, rfl, .inl h⟩
        · exact hnone ⟨x, rfl, .inr (.inl h)⟩
      · intro hop y hy
        rw [renamedOperation_eq_self_iff]
        intro hold
        exact hnone ⟨x, rfl, .inr (.inr ⟨hop, y, hy, hold⟩)⟩

end Lexeme

namespace Outline

/-- Nodes say all that they are read from. -/
theorem flatMap_lexemes_ofLexemes (xs : List Lexeme) : (ofLexemes xs).flatMap lexemes = xs := by
  fun_induction ofLexemes xs with
  | case5 head hc hl second rest hs ih => simp [ih]
  | _ => simp

theorem ofLexemes_inj {xs ys : List Lexeme} : ofLexemes xs = ofLexemes ys ↔ xs = ys := by
  refine ⟨fun h => ?_, congrArg ofLexemes⟩
  rw [← flatMap_lexemes_ofLexemes xs, h, flatMap_lexemes_ofLexemes]

/-- A label in front of what is no comment: its own node, and the nodes of what follows it with the
names of operands. -/
theorem ofLexemes_rename_label {label : Lexeme} (hlabel : label.isLabel = true) {xs : List Lexeme}
    (hxs : ∀ x ∈ xs.head?, x.isComment = false) :
    ofLexemes (Lexeme.rename (label :: xs)) =
      ⟨.label, [label]⟩ :: ofLexemes (xs.map (Prod.map id renamedOperand)) := by
  have hcomment : label.isComment = false := by
    rw [Lexeme.isComment, Lexeme.kind_of_isLabel hlabel]
    rfl
  rw [Jumps.rename_cons_of_ne_op (Lexeme.ne_of_isLabel hlabel (by decide))]
  cases xs with
  | nil =>
    simp [ofLexemes, hcomment, hlabel]
  | cons x xs =>
    have hx : Lexeme.isComment (Prod.map id renamedOperand x) = false := hxs x rfl
    exact Jumps.ofLexemes_label hcomment hlabel hx _

end Outline

namespace Piece

/-! ### The first statement of a text -/

/-- What the pieces in front of the first separator say, under the names that they are written
with. -/
def leading (ps : List Piece) : List Lexeme :=
  (ps.takeWhile fun p => !p.endsStatement).filterMap lexeme?

theorem leading_append {s : List Piece} (hs : Stretch s) (ps : List Piece) :
    leading (s ++ ps) = s.filterMap lexeme? ++ leading ps := by
  have hall : ∀ p ∈ s, (!p.endsStatement) = true := by
    intro p hp
    rw [hs p hp]
    rfl
  rw [leading, List.takeWhile_append_of_pos hall, List.filterMap_append, leading]

theorem leading_separator (c : Char) (ps : List Piece) : leading (.separator c :: ps) = [] := rfl

/-- What nodes say does not depend on where they stand. -/
theorem map_outline_nodesAt_congr (here there : Position) (ps : List Piece) :
    (nodesAt here ps).map Node.outline = (nodesAt there ps).map Node.outline := by
  induction ps using stretchInduction generalizing here there with
  | last s hs =>
    rw [map_outline_nodesAt_of_stretch here hs, map_outline_nodesAt_of_stretch there hs]
  | more s c rest hs ih =>
    rw [nodesAt_append_separator, nodesAt_append_separator, List.map_append, List.map_append,
      map_outline_nodesAt_of_stretch here hs, map_outline_nodesAt_of_stretch there hs]
    exact congrArg _ (ih rest (Nat.le_refl _) _ _)

/-- What is put in front of a text without a separator changes the first statement at most. -/
theorem exists_outlines_behind (ps : List Piece) :
    ∃ os, ∀ here front, Stretch front →
      (nodesAt here (front ++ ps)).map Node.outline =
        Outline.ofLexemes (Lexeme.rename (front.filterMap lexeme? ++ leading ps)) ++ os := by
  rcases stretch_or_append_separator ps with hs | ⟨s, c, rest, rfl, hs⟩
  · refine ⟨[], fun here front hfront => ?_⟩
    have hleading : leading ps = ps.filterMap lexeme? := by
      simpa [leading] using leading_append hs []
    rw [map_outline_nodesAt_of_stretch here (hfront.append hs), hleading, List.filterMap_append,
      List.append_nil]
  · refine ⟨(nodesAt .origin rest).map Node.outline, fun here front hfront => ?_⟩
    rw [← List.append_assoc, nodesAt_append_separator, List.map_append,
      map_outline_nodesAt_of_stretch here (hfront.append hs), leading_append hs, leading_separator,
      List.append_nil, List.filterMap_append, map_outline_nodesAt_congr _ .origin rest]

/-- A label in front of a text is a word and a blank in front of its pieces. -/
theorem ofText_label {name : Text} (h : Declarable name) (s : Text) :
    ofText (name ++ ':' :: ' ' :: s) = [.word (name ++ [':']), .blank ' '] ++ ofText s := by
  have hblank : ofText (' ' :: s) = .blank ' ' :: ofText s :=
    @ofText_text_append (.blank ' ') rfl s fun _ _ => rfl
  have hword := @ofText_text_append _ h.wellFormed (' ' :: s) (by rintro c ⟨⟩; rfl)
  rw [hblank] at hword
  simpa [text] using hword

end Piece

namespace Node

open Piece

/-- The first token of a text is the first one of its first statement. -/
theorem head?_leading {s : Text} {x : Lexeme} (hx : x ∈ (leading (Piece.ofText s)).head?) :
    ∃ first ∈ ((Node.ofText s).flatMap tokens).head?, first.lexeme = x := by
  obtain ⟨os, hos⟩ := exists_outlines_behind (Piece.ofText s)
  have houtlines := hos .origin [] (by simp [Stretch])
  rw [List.nil_append, ← Node.ofText_eq] at houtlines
  obtain ⟨xs, hxs⟩ := List.head?_eq_some_iff.1 hx
  have hlexemes : ((Node.ofText s).flatMap tokens).map Token.lexeme =
      ((Node.ofText s).map outline).flatMap Outline.lexemes := by
    rw [List.map_flatMap, List.flatMap_map]
    rfl
  rw [houtlines, List.flatMap_append, Outline.flatMap_lexemes_ofLexemes, hxs] at hlexemes
  obtain ⟨first, rest, htokens, hfirst, -⟩ := List.map_eq_cons_iff.1 hlexemes
  exact ⟨first, by rw [htokens]; rfl, hfirst⟩

/-- A label in front of a statement is a node of its own, and it leaves the nodes behind it as they
are if and only if the statement does not start with a name of old. -/
theorem label_keeps_statement_iff {name : Text} (h : Declarable name) (s : Text)
    (hfirst : ∀ x ∈ ((Node.ofText s).flatMap tokens).head?, x.isComment = false) :
    (Node.ofText (name ++ ':' :: ' ' :: s)).map outline =
        .ofLabel name :: (Node.ofText s).map outline ↔
      ¬ Lexeme.LeadsOldName (leading (Piece.ofText s)) := by
  have hleading : ∀ x ∈ (leading (Piece.ofText s)).head?, x.isComment = false := by
    intro x hx
    obtain ⟨first, hmem, rfl⟩ := head?_leading hx
    exact hfirst first hmem
  -- With and without the label, the same nodes stand behind the first statement.
  obtain ⟨os, hos⟩ := exists_outlines_behind (Piece.ofText s)
  have halone : (Node.ofText s).map outline =
      Outline.ofLexemes (Lexeme.rename (leading (Piece.ofText s))) ++ os := by
    rw [Node.ofText_eq]
    apply hos .origin []
    simp [Stretch]
  have hlabelled : (Node.ofText (name ++ ':' :: ' ' :: s)).map outline =
      .ofLabel name :: (Outline.ofLexemes
        ((leading (Piece.ofText s)).map (Prod.map id renamedOperand)) ++ os) := by
    have hstretch : Stretch [.word (name ++ [':']), .blank ' '] := by
      simp [Stretch, endsStatement]
    rw [Node.ofText_eq, ofText_label h, hos .origin _ hstretch]
    exact congrArg (· ++ os) (Outline.ofLexemes_rename_label h.isLabel hleading)
  rw [hlabelled, halone, List.cons_inj_right, List.append_cancel_right_eq, Outline.ofLexemes_inj,
    eq_comm]
  exact Lexeme.rename_eq_map_iff _

/-- A second label behind the first one, and a statement behind a semicolon that starts with a name
of old. -/
theorem label_keeps_statement_iff_two :
    ¬ Lexeme.LeadsOldName (leading (Piece.ofText "b: print x; op atan2 r x y".toList)) ∧
      (Node.ofText "a: b: print x; op atan2 r x y".toList).map outline =
        .ofLabel "a".toList :: (Node.ofText "b: print x; op atan2 r x y".toList).map outline := by
  have hname : Declarable "a".toList := ⟨wellFormed_word_iff.2 (by decide), by decide⟩
  have hnone :
      ¬ Lexeme.LeadsOldName (leading (Piece.ofText "b: print x; op atan2 r x y".toList)) := by
    decide +kernel
  refine ⟨hnone, (label_keeps_statement_iff hname "b: print x; op atan2 r x y".toList ?_).2 hnone⟩
  decide +kernel

/-- Behind a label the operation `atan2` keeps its old name. -/
theorem not_label_keeps_statement :
    (Node.ofText "a: op atan2 r x y".toList).map (fun n => n.tokens.map Token.content) ≠
      ["a:".toList] ::
        (Node.ofText "op atan2 r x y".toList).map (fun n => n.tokens.map Token.content) := by
  decide +kernel

end Node

end LogicAsm
