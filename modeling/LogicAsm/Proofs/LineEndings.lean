import LogicAsm.Proofs.Outlines

/-!
# Line endings

A line that ends in a carriage return and a line feed reads like one that ends in the line feed
alone.  The return is a separator at the end of its line: no piece swallows it, whatever state the
line ends in (`ofText_crlf`), and between it and the line feed there is no statement.  It moves no
position either, as the next line starts at its own first character.
-/

namespace LogicAsm

namespace Text

/-- The text with a carriage return in front of every line feed. -/
def crlf (t : Text) : Text := t.flatMap fun c => if c = '\n' then ['\r', '\n'] else [c]

theorem crlf_append (a b : Text) : crlf (a ++ b) = crlf a ++ crlf b := List.flatMap_append

theorem crlf_of_newline_not_mem {t : Text} (h : '\n' ∉ t) : crlf t = t := by
  induction t with
  | nil => rfl
  | cons c cs ih =>
    rw [List.mem_cons, not_or] at h
    rw [crlf, List.flatMap_cons, if_neg (Ne.symm h.1)]
    exact congrArg (c :: ·) (ih h.2)

end Text

namespace Piece

/-- The pieces with a carriage return in front of every line feed. -/
def crlf (ps : List Piece) : List Piece :=
  ps.flatMap fun p => if p = .separator '\n' then [.separator '\r', .separator '\n'] else [p]

theorem crlf_cons {p : Piece} (h : p ≠ .separator '\n') (ps : List Piece) :
    crlf (p :: ps) = p :: crlf ps := by
  rw [crlf, List.flatMap_cons, if_neg h]
  rfl

/-- Line feeds stand nowhere but in pieces of their own. -/
theorem flatMap_text_crlf {ps : List Piece} (hwf : ∀ p ∈ ps, p.WellFormed) :
    (crlf ps).flatMap text = Text.crlf (ps.flatMap text) := by
  induction ps with
  | nil => rfl
  | cons p ps ih =>
    obtain ⟨hp, hps⟩ := List.forall_mem_cons.1 hwf
    rw [List.flatMap_cons, Text.crlf_append, ← ih hps]
    by_cases h : p = .separator '\n'
    · subst h
      rfl
    · rw [crlf_cons h, List.flatMap_cons, Text.crlf_of_newline_not_mem (hp.newline_not_mem h)]

/-- A return may stand wherever a line feed does. -/
theorem mayPrecede_return {p : Piece} : p.mayPrecede (.separator '\r') = true := by
  cases p with
  | quoted body closed => cases closed <;> rfl
  | _ => rfl

theorem row_crlf {ps : List Piece} (h : Row ps) : Row (crlf ps) := by
  induction ps with
  | nil => exact row_nil
  | cons p ps ih =>
    have hps : Row ps := Row.right (show Row ([p] ++ ps) from h)
    by_cases hp : p = .separator '\n'
    · subst hp
      have hfeed : Row (.separator '\n' :: crlf ps) :=
        (ih hps).cons (Or.inr rfl) fun q _ => by cases q <;> rfl
      exact hfeed.cons (Or.inl rfl) fun q _ => by cases q <;> rfl
    · rw [crlf_cons hp]
      refine (ih hps).cons (h.wellFormed p List.mem_cons_self) ?_
      -- What stands behind a piece is what stood there, or a return in front of it.
      cases ps with
      | nil => simp [crlf]
      | cons q qs =>
        have hnext := (List.isChain_cons_cons.1 h.chain).1
        by_cases hq : q = .separator '\n'
        · subst hq
          rintro r ⟨⟩
          exact mayPrecede_return
        · rw [crlf_cons hq]
          rintro r ⟨⟩
          exact hnext

end Piece

theorem Piece.ofText_crlf (t : Text) : ofText t.crlf = crlf (ofText t) := by
  have hrow := row_ofText t
  have htext := flatMap_text_crlf hrow.wellFormed
  rw [flatMap_text_ofText] at htext
  rw [← htext, ofText_flatMap_text (row_crlf hrow)]

namespace Piece

/-- A return at the end of a line closes the statement that the line feed would close. -/
theorem statementsAt_crlf (here : Position) (found : List Token) (ps : List Piece) :
    statementsAt here found (crlf ps) = statementsAt here found ps := by
  induction ps generalizing here found with
  | nil => rfl
  | cons p ps ih =>
    by_cases h : p = .separator '\n'
    · subst h
      show closeAt here found ++ statementsAt ⟨here.line + 1, 0⟩ [] (crlf ps) =
        closeAt here found ++ statementsAt ⟨here.line + 1, 0⟩ [] ps
      rw [ih]
    · rw [crlf_cons h, statementsAt, statementsAt, ih, ih]

/-- A return at the end of a line is no problem, and neither is anything in front of it. -/
theorem problemsAt_crlf (here : Position) (glued : Bool) (ps : List Piece) :
    problemsAt here glued (crlf ps) = problemsAt here glued ps := by
  induction ps generalizing here glued with
  | nil => rfl
  | cons p ps ih =>
    by_cases h : p = .separator '\n'
    · subst h
      exact ih ⟨here.line + 1, 0⟩ false
    · rw [crlf_cons h, problemsAt, problemsAt, ih]

end Piece

/-- A text reads the same with a carriage return in front of every line feed: it has the same
statements, and so the same nodes with the same tokens in the same places, and the same lexical
problems. -/
theorem reading_ignores_returns (uri : String) (t : Text) :
    Statement.ofText t.crlf = Statement.ofText t ∧
      (Document.ofText uri t.crlf).nodes = (Document.ofText uri t).nodes ∧
      (Document.ofText uri t.crlf).problems = (Document.ofText uri t).problems := by
  have hstatements : Statement.ofText t.crlf = Statement.ofText t := by
    rw [Statement.ofText_eq, Piece.ofText_crlf, Piece.statementsAt_crlf, ← Statement.ofText_eq]
  refine ⟨hstatements, ?_, ?_⟩
  · show Node.ofText t.crlf = Node.ofText t
    rw [Node.ofText, hstatements, Node.ofText]
  · show Statement.problemsOfText t.crlf = Statement.problemsOfText t
    rw [Statement.problemsOfText_eq, Piece.ofText_crlf, Piece.problemsAt_crlf,
      ← Statement.problemsOfText_eq]

end LogicAsm
