import LogicAsm.Proofs.Places

/-!
# Reading a row of pieces

Statements and nodes are read line by line.  Here they are read from the whole row of pieces
instead (`Piece.statementsAt`, `Piece.nodesAt`), where a line feed is one more separator and the
position moves on with the text.  Both readings agree (`Statement.ofText_eq`, `Node.ofText_eq`), and
so do those of the lexical problems (`Statement.problemsOfText_eq`).

## Stretches

Between two separators lies a *stretch*: pieces of which none ends a statement.  A separator ends
what stands in front of it (`nodesAt_append_separator`), so a row is read stretch by stretch
(`stretchInduction`), and a stretch is at most one statement (`nodesAt_of_stretch`).
-/

namespace LogicAsm

namespace Piece

/-! ### Reading from a position -/

/-- The token that a piece is, at a position. -/
def tokenAt? (here : Position) (p : Piece) : Option Token :=
  p.token? here.line here.character.toNat

/-- The tokens of pieces that start at a position. -/
def tokensAt (here : Position) : List Piece → List Token
  | [] => []
  | p :: ps => (p.tokenAt? here).toList ++ tokensAt (here.advance p.text) ps

/-- The statement of the tokens found so far, if there are any, which ends at a position. -/
def closeAt (here : Position) (found : List Token) : List Statement :=
  close here.line here.character.toNat found

/-- The statements of pieces that start at a position, the first of which starts with the tokens
found so far. -/
def statementsAt (here : Position) (found : List Token) : List Piece → List Statement
  | [] => closeAt here found
  | p :: ps =>
    if p.endsStatement then closeAt here found ++ statementsAt (here.advance p.text) [] ps
    else statementsAt (here.advance p.text) (found ++ (p.tokenAt? here).toList) ps

/-- The nodes of pieces that start at a position. -/
def nodesAt (here : Position) (ps : List Piece) : List Node :=
  (statementsAt here [] ps).flatMap Node.ofStatement

/-- What is wrong with pieces that start at a position, where `glued` says that a token ends right
in front of them. -/
def problemsAt (here : Position) (glued : Bool) : List Piece → List Diagnostic
  | [] => []
  | p :: ps =>
    p.problems here.line here.character.toNat glued ++ problemsAt (here.advance p.text) p.touches ps

/-! ### One line -/

/-- The statements of one line, and those of the lines below it. -/
theorem statementsAt_line (line : Int) (column : Nat) (found : List Token) {ps : List Piece}
    (h : ∀ p ∈ ps, '\n' ∉ p.text) :
    statementsAt ⟨line, column⟩ found ps = statementsFrom line column found ps ∧
      ∀ rest, statementsAt ⟨line, column⟩ found (ps ++ .separator '\n' :: rest) =
        statementsFrom line column found ps ++ statementsAt ⟨line + 1, 0⟩ [] rest := by
  induction ps generalizing column found with
  | nil => exact ⟨rfl, fun _ => rfl⟩
  | cons p ps ih =>
    have hstep : Position.advance ⟨line, column⟩ p.text
        = ⟨line, ((column + p.text.length : Nat) : Int)⟩ := by
      rw [Position.advance_of_newline_not_mem _ (h p (by simp))]
      rfl
    have htail : ∀ q ∈ ps, '\n' ∉ q.text := fun q hq => h q (by simp [hq])
    -- A separator closes the statement and empties what was found, other pieces add to it.
    by_cases hp : p.endsStatement = true
    · obtain ⟨hlast, hmore⟩ := ih (column + p.text.length) [] htail
      simp only [statementsAt, statementsFrom, List.cons_append, hp, if_true, hstep, hlast, hmore,
        closeAt, Int.toNat_natCast, List.append_assoc, true_and, implies_true]
    · obtain ⟨hlast, hmore⟩ := ih (column + p.text.length)
        (found ++ (p.token? line column).toList) htail
      simp only [statementsAt, statementsFrom, List.cons_append, hp, if_false, hstep, hlast, hmore,
        tokenAt?, Int.toNat_natCast, true_and, implies_true, Bool.false_eq_true]

/-- The problems of one line, and those of the lines below it. -/
theorem problemsAt_line (line : Int) (column : Nat) (glued : Bool) {ps : List Piece}
    (h : ∀ p ∈ ps, '\n' ∉ p.text) :
    problemsAt ⟨line, column⟩ glued ps = problemsFrom line column glued ps ∧
      ∀ rest, problemsAt ⟨line, column⟩ glued (ps ++ .separator '\n' :: rest) =
        problemsFrom line column glued ps ++ problemsAt ⟨line + 1, 0⟩ false rest := by
  induction ps generalizing column glued with
  | nil => exact ⟨rfl, fun _ => rfl⟩
  | cons p ps ih =>
    have hstep : Position.advance ⟨line, column⟩ p.text
        = ⟨line, ((column + p.text.length : Nat) : Int)⟩ := by
      rw [Position.advance_of_newline_not_mem _ (h p (by simp))]
      rfl
    obtain ⟨hlast, hmore⟩ :=
      ih (column + p.text.length) p.touches fun q hq => h q (by simp [hq])
    simp only [problemsAt, problemsFrom, List.cons_append, hstep, hlast, hmore, Int.toNat_natCast,
      List.append_assoc, true_and, implies_true]

/-- The pieces of a line without line feeds hold none. -/
theorem newline_not_mem_of_mem_scan {l : Text} (hl : '\n' ∉ l) :
    ∀ p ∈ scan l, '\n' ∉ p.text := by
  intro p hp hmem
  apply hl
  rw [← flatMap_text_scan l]
  exact List.mem_flatMap.2 ⟨p, hp, hmem⟩

end Piece

/-! ### Both readings agree -/

namespace Text

/-- No line holds a line feed. -/
theorem newline_not_mem_of_mem_lines {t : Text} : ∀ l ∈ lines t, '\n' ∉ l := by
  induction t with
  | nil => simp [lines_nil]
  | cons c cs ih =>
    by_cases hc : c = '\n'
    · subst hc
      rw [lines_newline]
      simpa using ih
    · obtain ⟨m, ms, hm⟩ := List.exists_cons_of_ne_nil (lines_ne_nil cs)
      rw [lines_cons hc hm]
      rw [hm] at ih
      intro l hl
      rcases List.mem_cons.1 hl with rfl | hl
      · have hne : ¬ '\n' = c := fun e => hc e.symm
        simp [hne, ih m (by simp)]
      · exact ih l (by simp [hl])

end Text

/-- What is read line by line is read from the row of all lines, if reading a row goes on with a
new line behind each line feed. -/
theorem Piece.flatMap_lines_eq {α : Type} (ofLine : Int → Text → List α)
    (ofRow : Position → List Piece → List α)
    (last : ∀ line l, '\n' ∉ l → ofRow ⟨line, 0⟩ (scan l) = ofLine line l)
    (more : ∀ line l rest, '\n' ∉ l → ofRow ⟨line, 0⟩ (scan l ++ .separator '\n' :: rest) =
      ofLine line l ++ ofRow ⟨line + 1, 0⟩ rest)
    (k : Nat) {ls : List Text} (hne : ls ≠ []) (h : ∀ l ∈ ls, '\n' ∉ l) :
    (ls.zipIdx k).flatMap (fun (text, line) => ofLine line text) =
      ofRow ⟨k, 0⟩ (List.intercalate [.separator '\n'] (ls.map scan)) := by
  induction ls generalizing k with
  | nil => exact absurd rfl hne
  | cons l ls ih =>
    have hl := h l (by simp)
    -- Only the last line has no line feed behind it.
    cases ls with
    | nil => simpa using (last k l hl).symm
    | cons m ms =>
      have hrest := ih (k + 1) (by simp) fun q hq => h q (by simp [hq])
      have hk : (⟨((k + 1 : Nat) : Int), 0⟩ : Position) = ⟨(k : Int) + 1, 0⟩ := rfl
      rw [hk] at hrest
      rw [List.zipIdx_cons, List.flatMap_cons, hrest, List.map_cons (l := m :: ms),
        List.intercalate_cons_of_ne_nil (by simp), List.append_assoc]
      exact (more k l _ hl).symm

namespace Statement

/-- The statements of a text are those of its row of pieces. -/
theorem ofText_eq (t : Text) : ofText t = Piece.statementsAt .origin [] (Piece.ofText t) := by
  have hscan {l : Text} (hl : '\n' ∉ l) := Piece.newline_not_mem_of_mem_scan hl
  exact Piece.flatMap_lines_eq ofLine (Piece.statementsAt · [])
    (fun line _ hl => (Piece.statementsAt_line line 0 [] (hscan hl)).1)
    (fun line _ rest hl => (Piece.statementsAt_line line 0 [] (hscan hl)).2 rest)
    0 (Text.lines_ne_nil t) Text.newline_not_mem_of_mem_lines

/-- The problems of a text are those of its row of pieces. -/
theorem problemsOfText_eq (t : Text) :
    problemsOfText t = Piece.problemsAt .origin false (Piece.ofText t) := by
  have hscan {l : Text} (hl : '\n' ∉ l) := Piece.newline_not_mem_of_mem_scan hl
  exact Piece.flatMap_lines_eq problemsOfLine (Piece.problemsAt · false)
    (fun line _ hl => (Piece.problemsAt_line line 0 false (hscan hl)).1)
    (fun line _ rest hl => (Piece.problemsAt_line line 0 false (hscan hl)).2 rest)
    0 (Text.lines_ne_nil t) Text.newline_not_mem_of_mem_lines

end Statement

/-- The nodes of a text are those of its row of pieces. -/
theorem Node.ofText_eq (t : Text) : Node.ofText t = Piece.nodesAt .origin (Piece.ofText t) := by
  rw [Node.ofText, Statement.ofText_eq, Piece.nodesAt]

namespace Piece

/-! ### Stretches -/

/-- Pieces of which none ends a statement. -/
def Stretch (ps : List Piece) : Prop := ∀ p ∈ ps, p.endsStatement = false

theorem Stretch.tail {p : Piece} {ps : List Piece} (h : Stretch (p :: ps)) : Stretch ps :=
  fun q hq => h q (by simp [hq])

theorem Stretch.cons {p : Piece} {ps : List Piece} (hp : p.endsStatement = false)
    (h : Stretch ps) : Stretch (p :: ps) :=
  List.forall_mem_cons.2 ⟨hp, h⟩

theorem Stretch.append {ps qs : List Piece} (h : Stretch ps) (h' : Stretch qs) :
    Stretch (ps ++ qs) :=
  List.forall_mem_append.2 ⟨h, h'⟩

theorem Stretch.left {ps qs : List Piece} (h : Stretch (ps ++ qs)) : Stretch ps :=
  (List.forall_mem_append.1 h).1

theorem Stretch.right {ps qs : List Piece} (h : Stretch (ps ++ qs)) : Stretch qs :=
  (List.forall_mem_append.1 h).2

/-- A separator ends the statement in front of it. -/
theorem statementsAt_append_separator (here : Position) (found : List Token) (ps : List Piece)
    (c : Char) (rest : List Piece) :
    statementsAt here found (ps ++ .separator c :: rest) =
      statementsAt here found ps ++
        statementsAt (here.advance (ps.flatMap text ++ [c])) [] rest := by
  induction ps generalizing here found with
  | nil => rfl
  | cons p ps ih =>
    rw [List.cons_append, statementsAt, statementsAt, List.flatMap_cons, List.append_assoc,
      here.advance_append]
    by_cases hp : p.endsStatement = true
    · rw [if_pos hp, if_pos hp, ih, List.append_assoc]
    · rw [if_neg hp, if_neg hp, ih]

theorem nodesAt_append_separator (here : Position) (ps : List Piece) (c : Char)
    (rest : List Piece) :
    nodesAt here (ps ++ .separator c :: rest) =
      nodesAt here ps ++ nodesAt (here.advance (ps.flatMap text ++ [c])) rest := by
  rw [nodesAt, statementsAt_append_separator, List.flatMap_append]
  rfl

theorem statementsAt_of_stretch (here : Position) (found : List Token) {s : List Piece}
    (hs : Stretch s) :
    statementsAt here found s =
      closeAt (here.advance (s.flatMap text)) (found ++ tokensAt here s) := by
  induction s generalizing here found with
  | nil => simp [statementsAt, tokensAt]
  | cons p ps ih =>
    have hp : ¬ p.endsStatement = true := by simp [hs p (by simp)]
    rw [statementsAt, if_neg hp, ih _ _ hs.tail, tokensAt, List.flatMap_cons,
      here.advance_append, List.append_assoc]

/-- The tokens of a stretch, if there are any, are one statement. -/
theorem nodesAt_of_stretch (here : Position) {s : List Piece} (hs : Stretch s) :
    nodesAt here s =
      (closeAt (here.advance (s.flatMap text)) (tokensAt here s)).flatMap Node.ofStatement := by
  rw [nodesAt, statementsAt_of_stretch here [] hs, List.nil_append]

theorem closeAt_cons {here : Position} (hpos : 0 ≤ here.character) (head : Token)
    (tail : List Token) : closeAt here (head :: tail) = [⟨head, renameTail head tail, here⟩] := by
  have hcast : ((here.character.toNat : Nat) : Int) = here.character := Int.toNat_of_nonneg hpos
  rw [closeAt, close, hcast]

/-- Pieces are a stretch, or a stretch in front of a separator. -/
theorem stretch_or_append_separator (ps : List Piece) :
    Stretch ps ∨ ∃ s c rest, ps = s ++ .separator c :: rest ∧ Stretch s := by
  induction ps with
  | nil => exact .inl (by simp [Stretch])
  | cons p ps ih =>
    cases hp : p.endsStatement with
    | true =>
      cases p with
      | separator c => exact .inr ⟨[], c, ps, rfl, by simp [Stretch]⟩
      | _ => cases hp
    | false =>
      rcases ih with h | ⟨s, c, rest, rfl, hs⟩
      · exact .inl (h.cons hp)
      · exact .inr ⟨p :: s, c, rest, rfl, hs.cons hp⟩

/-- What holds of every stretch, and of a stretch in front of a separator if it holds of all
shorter lists, holds of every list of pieces. -/
theorem stretchInduction {motive : List Piece → Prop}
    (last : ∀ s, Stretch s → motive s)
    (more : ∀ s c rest, Stretch s →
      (∀ ps, ps.length ≤ rest.length → motive ps) → motive (s ++ .separator c :: rest))
    (ps : List Piece) : motive ps := by
  -- By the length, since what follows a separator is not the tail of a constructor.
  induction hn : ps.length using Nat.strongRecOn generalizing ps with
  | ind n ih =>
    rcases stretch_or_append_separator ps with hs | ⟨s, c, rest, rfl, hs⟩
    · exact last ps hs
    · refine more s c rest hs fun qs hqs => ih qs.length ?_ qs rfl
      rw [← hn, List.length_append, List.length_cons]
      omega

/-! ### Line breaks -/

theorem isBlank_of_separator {c : Char} (h : (separator c).WellFormed) : isBlank c = false := by
  have hc : (c = ';' ∨ c = '\r') ∨ c = '\n' := by
    simpa [WellFormed, isSeparator] using h
  rcases hc with (rfl | rfl) | rfl <;> rfl

/-- A line break, with carriage returns in front of it, is cut into separators. -/
theorem ofText_returns {returns : Text} (h : ∀ c ∈ returns, c = '\r') (more : Text) :
    ofText (returns ++ '\n' :: more) = (returns ++ ['\n']).map .separator ++ ofText more := by
  induction returns with
  | nil => exact ofText_newline more
  | cons c cs ih =>
    have hwf : (separator c).WellFormed := by
      rw [h c List.mem_cons_self]
      exact .inl rfl
    have hcons := @ofText_text_append (.separator c) hwf (cs ++ '\n' :: more) fun _ _ => rfl
    rw [ih fun d hd => h d (by simp [hd])] at hcons
    exact hcons

/-- A row that starts with a line break is made up of separators and of the row behind them. -/
theorem pieces_of_returns {c : Char} {rest : List Piece} (hrow : Row (.separator c :: rest))
    {returns more : Text} (h : c :: rest.flatMap text = returns ++ '\n' :: more)
    (hreturns : ∀ c ∈ returns, c = '\r') :
    .separator c :: rest = (returns ++ ['\n']).map .separator ++ ofText more ∧
      (ofText more).length ≤ rest.length := by
  have hpieces : .separator c :: rest = (returns ++ ['\n']).map .separator ++ ofText more := by
    rw [← ofText_returns hreturns, ← h]
    exact (ofText_flatMap_text hrow).symm
  have hlength := congrArg List.length hpieces
  simp only [List.length_cons, List.length_append, List.length_map, List.length_nil] at hlength
  exact ⟨hpieces, by omega⟩

theorem flatMap_text_map_separator (cs : Text) : (cs.map Piece.separator).flatMap text = cs := by
  induction cs with
  | nil => rfl
  | cons c cs ih => rw [List.map_cons, List.flatMap_cons, ih]; rfl

/-- Separators end a statement, and between them there is none. -/
theorem statementsAt_append_separators (here : Position) (s : List Piece) {cs : Text}
    (hcs : cs ≠ []) (ps : List Piece) :
    statementsAt here [] (s ++ (cs.map .separator ++ ps)) =
      statementsAt here [] s ++ statementsAt (here.advance (s.flatMap text ++ cs)) [] ps := by
  -- Between separators nothing is found, so each of them closes an empty statement.
  have hskip (here : Position) (cs : Text) :
      statementsAt here [] (cs.map .separator ++ ps) = statementsAt (here.advance cs) [] ps := by
    induction cs generalizing here with
    | nil => rfl
    | cons c cs ih => exact ih (here.after c)
  obtain ⟨c, cs, rfl⟩ := List.exists_cons_of_ne_nil hcs
  rw [List.map_cons, List.cons_append, statementsAt_append_separator, hskip,
    ← Position.advance_append, List.append_assoc]
  rfl

end Piece

end LogicAsm
