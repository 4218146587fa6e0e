import LogicAsm.Proofs.Jumps.Arrangement

/-!
# Lexical problems, token by token

The lexical problems of a text are found from its pieces, with a flag that says whether the piece in
front is a token.  Here they are said about the tokens of statements instead (`Token.problems`): a
string is open, or a token that is no comment starts where the one in front of it stops.  Nothing
else is a problem, and the flag is never left over from another statement
(`problems_of_statements`).

The second problem is named after strings, and rightly so: a word ends in front of nothing but a
blank, a separator or a comment, so a token that is touched by the next one, comments apart, is a
string with a closing quote.  An open string, like a comment, leaves nothing of its statement behind
it (`isChain_tokensAt`).
-/

namespace LogicAsm

namespace Token

/-- What is wrong with a token, where the given one, if any, stands in front of it. -/
def problemsBehind (previous : Option Token) (x : Token) : List Diagnostic :=
  (if x.isOpenString then [x.unclosedProblem] else []) ++
  if x.isComment = false ∧ previous.any (fun y => y.stop = x.start) then
    [{ range := x.range, message := "Expected space after string."
       severity := .error, code := .missingSpace }]
  else []

/-- What is wrong with tokens that stand in a row behind the given one, if any. -/
def problems (previous : Option Token) : List Token → List Diagnostic
  | [] => []
  | x :: xs => x.problemsBehind previous ++ problems (some x) xs

/-- What holds of a token with another one right behind it in a statement: it is no open string, and
if it stops where the other one starts and that one is no comment, it is a closed string. -/
structure Precedes (x y : Token) : Prop where
  isOpenString : x.isOpenString = false
  isClosedString : x.stop = y.start → y.isComment = false → x.isClosedString = true

/-! ### New names -/

/-- A text ends in a quote other than its first character, unless it is a lone quote or does not end
in one. -/
theorem closed_eq (t : Text) :
    (2 ≤ t.length && t.endsWith '"') = !(t == ['"'] || !t.endsWith '"') := by
  match t with
  | [] => rfl
  | [c] => by_cases hc : c = '"' <;> simp [Text.endsWith, hc]
  | c :: d :: cs => simp

/-- A string is closed or open. -/
theorem isClosedString_eq (x : Token) :
    x.isClosedString = (x.kind == .string && !x.isOpenString) := by
  rw [isClosedString, isOpenString, Lexeme.isOpenString, lexeme, Bool.and_assoc, closed_eq]
  cases x.kind == .string <;> rfl

/-- What the problems of a token depend on: its kind, its place and whether it is an open string. -/
def mark (x : Token) : (TokenKind × Range) × Bool := (x.place, x.isOpenString)

theorem problemsBehind_congr {x y : Token} {p q : Option Token} (h : x.mark = y.mark)
    (hprevious : p.map Token.place = q.map Token.place) :
    x.problemsBehind p = y.problemsBehind q := by
  have hrange : x.range = y.range := congrArg (·.1.2) h
  have hstart : x.start = y.start := congrArg Range.start hrange
  have hcomment : x.isComment = y.isComment := by
    rw [isComment, isComment, show x.kind = y.kind from congrArg (·.1.1) h]
  have hany : p.any (fun z => z.stop = x.start) = q.any fun z => z.stop = y.start := by
    cases p with
    | none =>
      cases q with
      | none => rfl
      | some z => cases hprevious
    | some w =>
      cases q with
      | none => cases hprevious
      | some z =>
        have hstop : w.stop = z.stop := congrArg (·.2.stop) (Option.some.inj hprevious)
        simp only [Option.any_some, hstop, hstart]
  rw [problemsBehind, problemsBehind, hany, hcomment, unclosedProblem, unclosedProblem, hrange,
    show x.isOpenString = y.isOpenString from congrArg Prod.snd h]

theorem problems_congr {xs ys : List Token} {p q : Option Token} (h : xs.map mark = ys.map mark)
    (hprevious : p.map Token.place = q.map Token.place) : problems p xs = problems q ys := by
  induction xs generalizing ys p q with
  | nil =>
    obtain rfl := List.map_eq_nil_iff.1 h.symm
    rfl
  | cons x xs ih =>
    obtain ⟨y, ys, rfl, hy, hys⟩ := List.map_eq_cons_iff.1 h.symm
    have hplace : (some x).map Token.place = (some y).map Token.place :=
      congrArg some (show x.place = y.place from congrArg Prod.fst hy.symm)
    rw [problems, problems, problemsBehind_congr hy.symm hprevious, ih hys.symm hplace]

theorem Precedes.congr {x y x' y' : Token} (hx : x.mark = x'.mark) (hy : y.place = y'.place)
    (h : x.Precedes y) : x'.Precedes y' := by
  have hopen : x.isOpenString = x'.isOpenString := congrArg Prod.snd hx
  have hkind : x.kind = x'.kind := congrArg (·.1.1) hx
  have hstop : x.stop = x'.stop := congrArg (·.1.2.stop) hx
  have hstart : y.start = y'.start := congrArg (·.2.start) hy
  have hcomment : y.isComment = y'.isComment := by
    rw [isComment, isComment, show y.kind = y'.kind from congrArg Prod.fst hy]
  have hclosed := h.isClosedString
  rw [x.isClosedString_eq, hkind, hopen, ← x'.isClosedString_eq, hstop, hstart, hcomment] at hclosed
  exact ⟨hopen ▸ h.isOpenString, hclosed⟩

theorem isChain_precedes_congr {xs ys : List Token} (h : xs.map mark = ys.map mark)
    (hxs : xs.IsChain Precedes) : ys.IsChain Precedes := by
  induction xs generalizing ys with
  | nil =>
    obtain rfl := List.map_eq_nil_iff.1 h.symm
    exact .nil
  | cons x xs ih =>
    obtain ⟨y, ys, rfl, hy, hys⟩ := List.map_eq_cons_iff.1 h.symm
    cases xs with
    | nil =>
      obtain rfl := List.map_eq_nil_iff.1 hys
      exact .singleton y
    | cons w xs =>
      obtain ⟨z, zs, rfl, hz, -⟩ := List.map_eq_cons_iff.1 hys
      obtain ⟨hnext, hchain⟩ := List.isChain_cons_cons.1 hxs
      exact List.isChain_cons_cons.2
        ⟨hnext.congr hy.symm (congrArg Prod.fst hz.symm), ih hys.symm hchain⟩

/-- A new name is given to no string. -/
theorem mark_rename {f : Text → Text} {x : Token} (hx : x.kind ≠ .string) :
    (x.rename f).mark = x.mark := by
  have hopen {y : Token} (hy : y.kind ≠ .string) : y.isOpenString = false := by
    rw [isOpenString, Lexeme.isOpenString, lexeme, beq_false_of_ne hy]
    rfl
  rw [mark, mark, hopen hx, @hopen (x.rename f) hx]
  rfl

end Token

/-- What is wrong with the tokens of a statement. -/
def Statement.problems (s : Statement) : List Diagnostic := Token.problems none s.tokens

namespace Piece

open Position

/-! ### Tokens of a stretch -/

/-- What is wrong with a piece that is a token. -/
theorem problems_of_tokenAt? {here : Position} (hpos : 0 ≤ here.character) {p : Piece}
    (hp : p.WellFormed) {x : Token} (h : p.tokenAt? here = some x) (previous : Option Token) :
    p.problems here.line here.character.toNat (previous.any fun y => y.stop = here) =
      x.problemsBehind previous := by
  have hlexeme := lexeme_of_tokenAt? h
  have hrange : x.range = .of here.line here.character.toNat here.line
      (here.character.toNat + p.text.length : Nat) := by
    cases p <;> cases h <;> rfl
  rw [Token.problemsBehind, start_of_tokenAt? hpos h, Token.unclosedProblem, hrange,
    Token.isOpenString, show x.isComment = x.lexeme.isComment from rfl]
  -- Only a string can be open, and only a string or a word can be glued.
  cases p with
  | blank c => cases hlexeme
  | separator c => cases hlexeme
  | comment body =>
    rw [← Option.some.inj hlexeme]
    rfl
  | quoted body closed =>
    rw [← Option.some.inj hlexeme, isOpenString_quoted hp]
    cases closed <;> cases previous.any (fun y => y.stop = here) <;> rfl
  | word w =>
    rw [← Option.some.inj hlexeme]
    have hkind := Lexeme.runsOn_word w w
    simp only [Lexeme.runsOn, Bool.or_eq_false_iff] at hkind
    rw [hkind.1, hkind.2]
    cases previous.any (fun y => y.stop = here) <;> rfl

/-- The problems of a stretch are those of its tokens.  A piece is glued to the token in front of it
exactly if that token stops where the piece starts. -/
theorem problemsAt_of_stretch {here : Position} (hpos : 0 ≤ here.character) {s : List Piece}
    (hs : Stretch s) (hwf : ∀ p ∈ s, p.WellFormed) {previous : Option Token}
    (hprevious : ∀ y ∈ previous, y.stop ≤ here) :
    problemsAt here (previous.any fun y => y.stop = here) s =
      Token.problems previous (tokensAt here s) := by
  induction s generalizing here previous with
  | nil => rfl
  | cons p ps ih =>
    obtain ⟨hp, hps⟩ := List.forall_mem_cons.1 hwf
    have hpos' := here.character_advance_nonneg hpos p.text
    rw [problemsAt, tokensAt]
    cases htoken : p.tokenAt? here with
    | some x =>
      have hstop := stop_of_tokenAt? hpos hp htoken
      have htouches : p.touches = (some x).any fun y => y.stop = here.advance p.text := by
        rw [Option.any_some, hstop, decide_eq_true rfl]
        cases p <;> first | rfl | cases htoken
      rw [problems_of_tokenAt? hpos hp htoken, htouches, ih hpos' hs.tail hps ?_]
      · rfl
      · rintro y ⟨⟩
        exact hstop ▸ le_refl _
    | none =>
      -- Behind a blank no token touches the one in front of the blank any more.
      obtain ⟨c, rfl⟩ : ∃ c, p = .blank c := by
        cases p with
        | blank c => exact ⟨c, rfl⟩
        | separator c => exact absurd (hs _ List.mem_cons_self) (by simp [endsStatement])
        | _ => cases htoken
      have hlt : here < here.advance (blank c).text := lt_advance here (by simp [text])
      have htouches : (blank c).touches =
          previous.any fun y => y.stop = here.advance (blank c).text := by
        cases previous with
        | none => rfl
        | some y =>
          have hne : y.stop ≠ here.advance (blank c).text := fun heq =>
            Position.not_le.2 hlt (heq ▸ hprevious y rfl)
          rw [Option.any_some, decide_eq_false hne]
          rfl
      rw [htouches, ih hpos' hs.tail hps fun y hy => le_trans (hprevious y hy) (le_of_lt hlt)]
      rfl

/-- A separator leaves nothing for the next token to touch. -/
theorem problemsAt_append_separator (here : Position) (glued : Bool) (ps : List Piece) (c : Char)
    (rest : List Piece) :
    problemsAt here glued (ps ++ .separator c :: rest) =
      problemsAt here glued ps ++
        problemsAt (here.advance (ps.flatMap text ++ [c])) false rest := by
  induction ps generalizing here glued with
  | nil => rfl
  | cons p ps ih =>
    rw [List.cons_append, problemsAt, problemsAt, ih, List.flatMap_cons, List.append_assoc,
      List.append_assoc, here.advance_append]

/-! ### What stands behind a token -/

theorem isChain_tokensAt {here : Position} (hpos : 0 ≤ here.character) {s : List Piece}
    (hs : Stretch s) (hrow : Row s) :
    (tokensAt here s).IsChain Token.Precedes := by
  induction s generalizing here with
  | nil => exact .nil
  | cons p ps ih =>
    obtain ⟨hp, hps⟩ := List.forall_mem_cons.1 hrow.wellFormed
    have hpos' := here.character_advance_nonneg hpos p.text
    have hlater := ih hpos' hs.tail (Row.right (show Row ([p] ++ ps) from hrow))
    rw [tokensAt]
    cases htoken : p.tokenAt? here with
    | none => exact hlater
    | some x =>
      refine List.isChain_cons.2 ⟨fun y hy => ?_, hlater⟩
      obtain ⟨ys, hys⟩ := List.head?_eq_some_iff.1 hy
      have hlexeme := lexeme_of_tokenAt? htoken
      obtain ⟨bs, q, rest, rfl, -, hq, hstart, -, -⟩ :=
        exists_of_tokensAt_eq_cons hpos' hs.tail hps hys
      have hnext := (List.isChain_cons.1 hrow.chain).1
      have hrunsOn : x.lexeme.runsOn = false := by
        obtain ⟨r, hr⟩ : ∃ r, (bs.map blank ++ q :: rest).head? = some r := by
          cases bs <;> exact ⟨_, rfl⟩
        exact runsOn_of_mayPrecede hp hlexeme (hnext r hr) (hs.tail r (List.mem_of_mem_head? hr))
      have hopen : x.isOpenString = false := by
        exact (Bool.or_eq_false_iff.1 hrunsOn).2
      refine ⟨hopen, fun htouch hcomment => ?_⟩
      -- Between the two there is no blank, so the second piece follows the first one.
      obtain rfl : bs = [] := by
        by_contra hne
        have hlt := lt_advance (here.advance p.text) hne
        rw [← hstart, ← htouch, stop_of_tokenAt? hpos hp htoken] at hlt
        exact Position.not_le.2 hlt (le_refl _)
      have hprecede := hnext q rfl
      have hkind : x.kind = .string := by
        cases p with
        | blank c => cases hlexeme
        | separator c => cases hlexeme
        | comment body =>
          cases htoken
          cases hrunsOn
        | quoted body closed =>
          cases htoken
          rfl
        | word w =>
          rw [mayPrecede_word hq hcomment] at hprecede
          cases hprecede
      rw [x.isClosedString_eq, hkind, hopen]
      rfl

/-- The problems of a text from a place on are those of its statements, whose tokens are followed by
what may follow them. -/
theorem problemsAt_eq {a : Text} {ps : List Piece} (hrow : Row ps) :
    problemsAt (origin.advance a) false ps =
        (statementsAt (origin.advance a) [] ps).flatMap Statement.problems ∧
      ∀ s ∈ statementsAt (origin.advance a) [] ps,
        s.tokens.IsChain Token.Precedes := by
  -- Within a stretch the problems go by the tokens, which closing a statement renames.
  have hstretch {a : Text} {s : List Piece} (hs : Stretch s) (hrow : Row s) :
      problemsAt (origin.advance a) false s =
          (statementsAt (origin.advance a) [] s).flatMap Statement.problems ∧
        ∀ st ∈ statementsAt (origin.advance a) [] s,
          st.tokens.IsChain Token.Precedes := by
    have hpos := character_origin_advance a
    have hproblems := @problemsAt_of_stretch _ hpos s hs hrow.wellFormed none (by simp)
    have hchain := isChain_tokensAt hpos hs hrow
    have hwf := @wellFormed_of_mem_tokensAt (origin.advance a) s hrow.wellFormed
    rw [Option.any_none] at hproblems
    rw [hproblems, statementsAt_of_stretch _ _ hs, List.nil_append]
    cases htokens : tokensAt (origin.advance a) s with
    | nil => exact ⟨rfl, by simp [closeAt, close]⟩
    | cons head tail =>
      rw [htokens] at hwf hchain
      have hmarks : (head :: renameTail head tail).map Token.mark =
          (head :: tail).map Token.mark := by
        rw [List.map_cons, map_renameTail (fun _ x hx _ => Token.mark_rename hx) head
          (List.forall_mem_cons.1 hwf).2, List.map_cons]
      rw [closeAt_cons (character_advance_nonneg hpos _), List.flatMap_singleton]
      refine ⟨Token.problems_congr hmarks.symm rfl, List.forall_mem_singleton.2 ?_⟩
      exact Token.isChain_precedes_congr hmarks.symm hchain
  induction ps using stretchInduction generalizing a with
  | last s hs => exact hstretch hs hrow
  | more s c rest hs ih =>
    have hrest : Row ([.separator c] ++ rest) := hrow.right
    obtain ⟨hfirst, hfirst'⟩ := hstretch (a := a) hs hrow.left
    obtain ⟨hlater, hlater'⟩ :=
      ih rest (Nat.le_refl _) (a := a ++ (s.flatMap text ++ [c])) hrest.right
    rw [problemsAt_append_separator, statementsAt_append_separator, ← advance_append, hfirst,
      hlater, List.flatMap_append]
    exact ⟨rfl, List.forall_mem_append.2 ⟨hfirst', hlater'⟩⟩

end Piece

/-- The lexical problems of a text are those of the tokens of its statements, one statement behind
the other: each open string, and then, if both apply, each token other than a comment that starts
where the token in front of it in its statement stops.  Such a token in front is always a closed
string, and an open string is always the last token of its statement. -/
theorem problems_of_statements (t : Text) :
    Statement.problemsOfText t = (Statement.ofText t).flatMap Statement.problems ∧
      ∀ s ∈ Statement.ofText t, s.tokens.IsChain fun x y => x.isOpenString = false ∧
        (x.stop = y.start → y.isComment = false → x.isClosedString = true) := by
  obtain ⟨hproblems, hchain⟩ := @Piece.problemsAt_eq [] _ (Piece.row_ofText t)
  rw [Statement.problemsOfText_eq, Statement.ofText_eq]
  refine ⟨hproblems, fun s hs => (hchain s hs).imp fun x y h => ?_⟩
  exact ⟨h.isOpenString, h.isClosedString⟩

end LogicAsm
