import LogicAsm.Proofs.Reading

/-!
# What a text says, wherever it says it

A token says its kind and its content (`Token.lexeme`), a node its kind and what its tokens say
(`Node.outline`).  Places play no part in this: which nodes a row of tokens is made up of depends
on the lexemes alone (`Outline.ofLexemes`), and the outlines of a stretch are those of its lexemes
(`map_outline_nodesAt_of_stretch`).

## Writing lexemes down again

A list of lexemes is `Writable` if each comes from a well-formed piece and none but the last one
goes on to the end of its line.  The lexemes of every node are (`Node.writable_ofText`), and
lexemes that are can be written with a blank between any two and read again (`row_joined`,
`filterMap_lexeme?_joined`).
-/

namespace LogicAsm

/-- What a token says, wherever it stands. -/
abbrev Lexeme := TokenKind × Text

/-- The kind and the content of a token. -/
def Token.lexeme (t : Token) : Lexeme := (t.kind, t.content)

/-- What a node says, wherever it stands. -/
structure Outline where
  kind : NodeKind
  lexemes : List Lexeme
deriving DecidableEq

/-- The kind of a node and what its tokens say. -/
def Node.outline (n : Node) : Outline := ⟨n.kind, n.tokens.map Token.lexeme⟩

namespace Lexeme

/-- Whether a lexeme is a comment. -/
def isComment (x : Lexeme) : Bool := x.1 == .comment

/-- Whether a lexeme declares a label. -/
def isLabel (x : Lexeme) : Bool :=
  x.1 == .identifier && 1 < x.2.length && x.2.endsWith ':'

/-- Whether a lexeme is a string without a closing quote: a lone quote, or no quote at the end. -/
def isOpenString (x : Lexeme) : Bool := x.1 == .string && (x.2 == ['"'] || !x.2.endsWith '"')

/-- The lexemes behind the first one, under their new names. -/
def renameTail (head : Lexeme) (tail : List Lexeme) : List Lexeme :=
  let tail :=
    if head.2 = "op".toList then tail.modifyHead (Prod.map id renamedOperation) else tail
  tail.map (Prod.map id renamedOperand)

/-- The lexemes of a statement under their new names. -/
def rename : List Lexeme → List Lexeme
  | [] => []
  | head :: tail => head :: renameTail head tail

end Lexeme

namespace Token

def isOpenString (x : Token) : Bool := x.lexeme.isOpenString

/-- What is said of a string without a closing quote. -/
def unclosedProblem (x : Token) : Diagnostic :=
  { range := x.range
    message := "Missing closing quote \" before end of line."
    severity := .error
    code := .unclosedString }

end Token

/-- The outlines of the nodes that a row of lexemes is made up of. -/
def Outline.ofLexemes : List Lexeme → List Outline
  | [] => []
  | head :: tail =>
    if head.isComment then [⟨.comment, head :: tail⟩]
    else if head.isLabel then
      match tail with
      | [] => [⟨.label, [head]⟩]
      | second :: rest =>
        if second.isComment then [⟨.label, head :: second :: rest⟩]
        else ⟨.label, [head]⟩ :: ofLexemes (second :: rest)
    else [⟨.instruction, head :: tail⟩]

/-! ### Outlines of what is read -/

/-- The outlines of the nodes of tokens are those of what the tokens say. -/
theorem Node.map_outline_ofTokens (stop : Position) (ts : List Token) :
    (ofTokens stop ts).map outline = Outline.ofLexemes (ts.map Token.lexeme) := by
  -- Both recursions test the first two tokens alone, and a test only looks at the lexeme.
  fun_induction ofTokens stop ts with
  | case1 => rfl
  | case2 head tail hc =>
    have hc' : head.lexeme.isComment = true := hc
    rw [List.map_cons, Outline.ofLexemes.eq_def]
    simp [hc', outline, tokens]
  | case3 head hc hl =>
    have hc' : ¬ head.lexeme.isComment = true := hc
    have hl' : head.lexeme.isLabel = true := hl
    simp [Outline.ofLexemes, hc', hl', outline, tokens]
  | case4 head hc hl second rest hs =>
    have hc' : ¬ head.lexeme.isComment = true := hc
    have hl' : head.lexeme.isLabel = true := hl
    have hs' : second.lexeme.isComment = true := hs
    simp [Outline.ofLexemes, hc', hl', hs', outline, tokens]
  | case5 head hc hl second rest hs ih =>
    have hc' : ¬ head.lexeme.isComment = true := hc
    have hl' : head.lexeme.isLabel = true := hl
    have hs' : ¬ second.lexeme.isComment = true := hs
    rw [List.map_cons] at ih
    rw [List.map_cons, ih, List.map_cons, List.map_cons, Outline.ofLexemes, if_neg hc',
      if_pos hl', if_neg hs']
    rfl
  | case6 head tail hc hl =>
    have hc' : ¬ head.lexeme.isComment = true := hc
    have hl' : ¬ head.lexeme.isLabel = true := hl
    rw [List.map_cons, Outline.ofLexemes.eq_def]
    simp [hc', hl', outline, tokens]

/-- Tokens are read as nodes, and the first of these starts with the first token. -/
theorem Node.exists_ofTokens_cons (stop : Position) (head : Token) (tail : List Token) :
    ∃ n ns, ofTokens stop (head :: tail) = n :: ns ∧ n.head = head := by
  rw [ofTokens.eq_def]
  simp only
  split
  · exact ⟨_, _, rfl, rfl⟩
  split
  · split
    · exact ⟨_, _, rfl, rfl⟩
    · split
      · exact ⟨_, _, rfl, rfl⟩
      · exact ⟨_, _, rfl, rfl⟩
  · exact ⟨_, _, rfl, rfl⟩

/-- A node starts with the first token that it is read from. -/
theorem Node.head?_ofTokens (stop : Position) (head : Token) (tail : List Token) :
    ∀ n ∈ (ofTokens stop (head :: tail)).head?, n.head = head := by
  obtain ⟨m, ms, hnodes, hhead⟩ := exists_ofTokens_cons stop head tail
  rw [hnodes]
  rintro n ⟨⟩
  exact hhead

/-- The tokens of a statement are those of its nodes. -/
theorem flatMap_tokens_ofStatement (s : Statement) :
    (Node.ofStatement s).flatMap Node.tokens = s.tokens := by
  unfold Node.ofStatement
  fun_induction Node.ofTokens s.stop s.tokens <;> simp_all [Node.tokens]

theorem flatMap_tokens_ofText (t : Text) :
    (Node.ofText t).flatMap Node.tokens = (Statement.ofText t).flatMap Statement.tokens := by
  rw [Node.ofText, List.flatMap_assoc]
  exact List.flatMap_congr fun s _ => flatMap_tokens_ofStatement s

/-- Renaming changes what tokens say, not where they stand. -/
theorem map_lexeme_renameTail (head : Token) (tail : List Token) :
    (renameTail head tail).map Token.lexeme =
      Lexeme.renameTail head.lexeme (tail.map Token.lexeme) := by
  unfold renameTail Lexeme.renameTail
  by_cases h : head.content = "op".toList
  · have h' : head.lexeme.2 = "op".toList := h
    rw [if_pos h, if_pos h']
    cases tail with
    | nil => rfl
    | cons t ts => simp [Token.lexeme, Token.rename]
  · have h' : ¬ head.lexeme.2 = "op".toList := h
    rw [if_neg h, if_neg h']
    simp [Token.lexeme, Token.rename]

namespace Piece

/-- What a piece says, if it is a token. -/
def lexeme? : Piece → Option Lexeme
  | .blank _ | .separator _ => none
  | .comment body => some (.comment, '#' :: body)
  | .quoted body closed => some (.string, (quoted body closed).text)
  | .word w => some ((classifyWord w).1, w)

/-- What the tokens of pieces say, wherever these stand. -/
theorem map_lexeme_tokensAt (here : Position) (ps : List Piece) :
    (tokensAt here ps).map Token.lexeme = ps.filterMap lexeme? := by
  induction ps generalizing here with
  | nil => rfl
  | cons p ps ih =>
    rw [tokensAt, List.map_append, ih, List.filterMap_cons]
    cases p <;> rfl

/-- The outlines of a stretch are those of what it says, under its new names. -/
theorem map_outline_nodesAt_of_stretch (here : Position) {s : List Piece} (hs : Stretch s) :
    (nodesAt here s).map Node.outline =
      Outline.ofLexemes (Lexeme.rename (s.filterMap lexeme?)) := by
  rw [nodesAt_of_stretch here hs, ← map_lexeme_tokensAt here s]
  cases tokensAt here s with
  | nil => rfl
  | cons head tail =>
    simp only [closeAt, close, List.flatMap_cons, List.flatMap_nil, List.append_nil,
      Node.ofStatement, Statement.tokens, Node.map_outline_ofTokens, List.map_cons,
      map_lexeme_renameTail, Lexeme.rename]

end Piece

/-! ### Nodes stand for themselves -/

namespace Outline

/-- The lexemes of a node stand together among those it was read from. -/
theorem isInfix_of_mem_ofLexemes {xs : List Lexeme} :
    ∀ o ∈ ofLexemes xs, o.lexemes <:+: xs := by
  fun_induction ofLexemes xs with
  | case1 => simp
  | case2 head tail => simp
  | case3 head => simp
  | case4 head _ _ second rest => simp
  | case5 head _ _ second rest _ ih =>
    intro o ho
    rcases List.mem_cons.1 ho with rfl | ho
    · exact ⟨[], second :: rest, rfl⟩
    · exact (ih o ho).trans (List.suffix_cons _ _).isInfix
  | case6 head tail => simp

/-- A node that is read alone is the same node. -/
theorem ofLexemes_lexemes {xs : List Lexeme} : ∀ o ∈ ofLexemes xs, ofLexemes o.lexemes = [o] := by
  fun_induction ofLexemes xs with
  | case1 => simp
  | case2 head tail hc =>
    rintro o ho
    obtain rfl := List.mem_singleton.1 ho
    rw [ofLexemes.eq_def]
    simp [hc]
  | case3 head hc hl =>
    rintro o ho
    obtain rfl := List.mem_singleton.1 ho
    simp [ofLexemes, hc, hl]
  | case4 head hc hl second rest hs =>
    rintro o ho
    obtain rfl := List.mem_singleton.1 ho
    simp [ofLexemes, hc, hl, hs]
  -- A label cut off in front has one lexeme, and reads as a label again.
  | case5 head hc hl second rest hs ih =>
    intro o ho
    rcases List.mem_cons.1 ho with rfl | ho
    · simp [ofLexemes, hc, hl]
    · exact ih o ho
  | case6 head tail hc hl =>
    rintro o ho
    obtain rfl := List.mem_singleton.1 ho
    rw [ofLexemes.eq_def]
    simp [hc, hl]

/-- Whether lexemes are one node, and of which kind, depends on the first one and on the kinds of
the others. -/
theorem ofLexemes_cons_congr {kind : NodeKind} {head : Lexeme} {tail other : List Lexeme}
    (h : ofLexemes (head :: tail) = [⟨kind, head :: tail⟩])
    (hkinds : other.map Prod.fst = tail.map Prod.fst) :
    ofLexemes (head :: other) = [⟨kind, head :: other⟩] := by
  by_cases hc : head.isComment = true
  · rw [ofLexemes.eq_def] at h ⊢
    simp only [hc, if_true, List.cons.injEq, mk.injEq, and_true] at h ⊢
    exact h
  by_cases hl : head.isLabel = true
  · cases tail with
    | nil =>
      obtain rfl : other = [] := by simpa using hkinds
      exact h
    | cons second rest =>
      cases other with
      | nil => simp at hkinds
      | cons second' rest' =>
        -- The second token decides by its kind whether a label is cut off.
        have hsecond : second'.isComment = second.isComment := by
          simp only [List.map_cons, List.cons.injEq] at hkinds
          rw [Lexeme.isComment, Lexeme.isComment, hkinds.1]
        rw [ofLexemes, if_neg hc, if_pos hl] at h ⊢
        rw [hsecond]
        by_cases hs : second.isComment = true
        · simp only [hs, if_true, List.cons.injEq, mk.injEq, and_true] at h ⊢
          exact h
        · rw [if_neg hs] at h
          simp at h
  · rw [ofLexemes.eq_def] at h ⊢
    simp only [hc, hl, if_false, List.cons.injEq, mk.injEq, and_true, Bool.false_eq_true] at h ⊢
    exact h

end Outline

namespace Lexeme

/-- New names keep the kinds. -/
theorem map_fst_renameTail (head : Lexeme) (tail : List Lexeme) :
    (renameTail head tail).map Prod.fst = tail.map Prod.fst := by
  unfold renameTail
  split
  · cases tail <;> simp
  · simp

end Lexeme

/-- A node that is read alone, under its new names, is one node of its kind. -/
theorem Node.ofLexemes_rename_outline {xs : List Lexeme} {o : Outline}
    (ho : o ∈ Outline.ofLexemes xs) :
    Outline.ofLexemes (Lexeme.rename o.lexemes) = [⟨o.kind, Lexeme.rename o.lexemes⟩] := by
  have hself := Outline.ofLexemes_lexemes o ho
  obtain ⟨kind, lexemes⟩ := o
  cases lexemes with
  | nil => cases hself
  | cons head tail =>
    exact Outline.ofLexemes_cons_congr hself (Lexeme.map_fst_renameTail head tail)

/-! ### Lexemes that can be written down -/

namespace Lexeme

/-- A lexeme that some piece can say. -/
def WellFormed (x : Lexeme) : Prop := ∃ p : Piece, p.WellFormed ∧ p.lexeme? = some x

/-- Whether a lexeme goes on to the end of its line. -/
def runsOn (x : Lexeme) : Bool := x.isComment || x.isOpenString

/-- The piece that says a lexeme. -/
def piece (x : Lexeme) : Piece :=
  match x.1 with
  | .comment => .comment (x.2.drop 1)
  | .string =>
    if x.isOpenString then .quoted (x.2.drop 1) false else .quoted (x.2.drop 1).dropLast true
  | _ => .word x.2

/-- Lexemes of which each can be said by a piece, and of which none but the last one goes on to the
end of its line. -/
structure Writable (xs : List Lexeme) : Prop where
  wellFormed : ∀ x ∈ xs, x.WellFormed
  chain : xs.IsChain fun x _ => x.runsOn = false

end Lexeme

/-- A word is neither a comment nor a string. -/
theorem classifyWord_kind (w : Text) :
    (classifyWord w).1 = .number ∨ (classifyWord w).1 = .color ∨
      (classifyWord w).1 = .identifier := by
  unfold classifyWord
  split
  · simp
  split
  · simp
  split <;> simp

/-- Nothing of the kind of a word goes on to the end of its line. -/
theorem Lexeme.runsOn_word (w t : Text) : runsOn ((classifyWord w).1, t) = false := by
  rcases classifyWord_kind w with h | h | h <;> rw [h] <;> rfl

namespace Piece

/-- A string ends in a quote if and only if it is closed. -/
theorem isOpenString_quoted {body : Text} {closed : Bool} (h : (quoted body closed).WellFormed) :
    Lexeme.isOpenString (.string, (quoted body closed).text) = !closed := by
  cases closed with
  | true => simp [Lexeme.isOpenString, text, Text.endsWith, List.getLast?_cons]
  | false =>
    cases hlast : body.getLast? with
    | none =>
      obtain rfl : body = [] := List.getLast?_eq_none_iff.1 hlast
      decide
    | some c =>
      have hc : c ≠ '"' := (h c (List.mem_of_getLast? hlast)).1
      simp [Lexeme.isOpenString, text, Text.endsWith, List.getLast?_cons, hlast, hc]

/-- The piece of a lexeme is the one that says it. -/
theorem piece_of_lexeme? {p : Piece} {x : Lexeme} (hp : p.WellFormed) (hx : p.lexeme? = some x) :
    x.piece = p := by
  cases p with
  | blank c => cases hx
  | separator c => cases hx
  | comment body =>
    cases hx
    rfl
  | quoted body closed =>
    cases hx
    have hopen := isOpenString_quoted hp
    simp only [Lexeme.piece, hopen]
    cases closed <;> simp [text]
  | word w =>
    cases hx
    rcases classifyWord_kind w with h | h | h <;> simp [Lexeme.piece, h]

/-- A token of a stretch that has something behind it does not go on to the end of the line. -/
theorem runsOn_of_mayPrecede {p q : Piece} {x : Lexeme} (hp : p.WellFormed)
    (hx : p.lexeme? = some x) (hpq : p.mayPrecede q = true) (hq : q.endsStatement = false) :
    x.runsOn = false := by
  cases p with
  | blank c => cases hx
  | separator c => cases hx
  | comment body => cases q <;> simp_all [mayPrecede, endsStatement]
  | quoted body closed =>
    cases hx
    cases closed with
    | true => simp [Lexeme.runsOn, Lexeme.isComment, isOpenString_quoted hp]
    | false => cases q <;> simp_all [mayPrecede, endsStatement]
  | word w =>
    cases hx
    exact Lexeme.runsOn_word w w

theorem Row.left {ps qs : List Piece} (h : Row (ps ++ qs)) : Row ps :=
  ⟨fun p hp => h.wellFormed p (by simp [hp]), (List.isChain_append.1 h.chain).1⟩

theorem Row.right {ps qs : List Piece} (h : Row (ps ++ qs)) : Row qs :=
  ⟨fun p hp => h.wellFormed p (by simp [hp]), (List.isChain_append.1 h.chain).2.1⟩

/-- A row goes on with another one, where the last piece of the first may precede the first one of
the second. -/
theorem Row.append {ps qs : List Piece} (hps : Row ps) (hqs : Row qs)
    (h : ∀ p ∈ ps.getLast?, ∀ q ∈ qs.head?, p.mayPrecede q = true) : Row (ps ++ qs) := by
  refine ⟨?_, List.isChain_append.2 ⟨hps.chain, hqs.chain, h⟩⟩
  intro p hp
  rcases List.mem_append.1 hp with hp | hp
  · exact hps.wellFormed p hp
  · exact hqs.wellFormed p hp

/-- What a stretch says can be written down. -/
theorem writable_of_stretch {s : List Piece} (hrow : Row s) (hs : Stretch s) :
    Lexeme.Writable (s.filterMap lexeme?) := by
  induction s with
  | nil => exact ⟨by simp, .nil⟩
  | cons p ps ih =>
    have hp := hrow.wellFormed p (by simp)
    have hps := ih (Row.right (show Row ([p] ++ ps) from hrow)) hs.tail
    cases hx : p.lexeme? with
    | none => simpa [List.filterMap_cons, hx] using hps
    | some x =>
      rw [List.filterMap_cons_some hx]
      refine ⟨?_, List.isChain_cons.2 ⟨?_, hps.chain⟩⟩
      · intro y hy
        rcases List.mem_cons.1 hy with rfl | hy
        · exact ⟨p, hp, hx⟩
        · exact hps.wellFormed y hy
      · intro y hy
        cases ps with
        | nil => simp at hy
        | cons q qs =>
          have hpq := (List.isChain_cons.1 hrow.chain).1 q rfl
          exact runsOn_of_mayPrecede hp hx hpq (hs q (by simp))

end Piece

namespace Lexeme

theorem Writable.of_infix {xs ys : List Lexeme} (h : Writable ys) (hxs : xs <:+: ys) :
    Writable xs :=
  ⟨fun x hx => h.wellFormed x (hxs.subset hx), h.chain.infix hxs⟩

/-- The words that have a new name, with that name. -/
def newNames : List (Text × Text) :=
  [("atan2", "angle"), ("dst", "len"), ("configure", "config"), ("@configure", "@config")].map
    fun (old, new) => (old.toList, new.toList)

theorem renamedOperation_eq_or (w : Text) :
    renamedOperation w = w ∨ (w, renamedOperation w) ∈ newNames := by
  unfold renamedOperation
  split
  · next h => exact .inr (by simp [h, newNames])
  split
  · next h => exact .inr (by simp [h, newNames])
  · exact .inl rfl

theorem renamedOperand_eq_or (w : Text) :
    renamedOperand w = w ∨ (w, renamedOperand w) ∈ newNames := by
  unfold renamedOperand
  split
  · next h => exact .inr (by simp [h, newNames])
  split
  · next h => exact .inr (by simp [h, newNames])
  · exact .inl rfl

theorem renamedOperation_eq_self_iff (w : Text) :
    renamedOperation w = w ↔ ¬ (w = "atan2".toList ∨ w = "dst".toList) := by
  unfold renamedOperation
  split
  · next h =>
    subst h
    simp
  split
  · next h =>
    subst h
    simp
  · next h₁ h₂ => exact iff_of_true rfl (not_or.2 ⟨h₁, h₂⟩)

theorem renamedOperand_eq_self_iff (w : Text) :
    renamedOperand w = w ↔ ¬ (w = "configure".toList ∨ w = "@configure".toList) := by
  unfold renamedOperand
  split
  · next h =>
    subst h
    simp
  split
  · next h =>
    subst h
    simp
  · next h₁ h₂ => exact iff_of_true rfl (not_or.2 ⟨h₁, h₂⟩)

/-- Old names are words, and the new ones are words of the same kind. -/
theorem newNames_words : ∀ r ∈ newNames,
    (r.1.head? ≠ some '#' ∧ r.1.head? ≠ some '"') ∧
      (r.2 ≠ [] ∧ r.2.head? ≠ some '"' ∧ ∀ c ∈ r.2, Piece.inWord c ∧ c ≠ '\n') ∧
      (classifyWord r.1).1 = (classifyWord r.2).1 := by
  -- A test of the characters of a name, and not one of all characters for being in it.
  have hword : ∀ r ∈ newNames, (r.2.all fun c => Piece.inWord c && c != '\n') = true := by decide
  have hstart : ∀ r ∈ newNames, (r.1.head? ≠ some '#' ∧ r.1.head? ≠ some '"') ∧
      r.2 ≠ [] ∧ r.2.head? ≠ some '"' := by decide
  have hkind : ∀ r ∈ newNames, (classifyWord r.1).1 = (classifyWord r.2).1 := by decide
  intro r hr
  obtain ⟨hold, hne, hquote⟩ := hstart r hr
  refine ⟨hold, ⟨hne, hquote, ?_⟩, hkind r hr⟩
  simpa using hword r hr

/-- A lexeme under a new name can be written like the old one. -/
theorem WellFormed.renamed {x : Lexeme} (hx : x.WellFormed) {new : Text}
    (h : new = x.2 ∨ (x.2, new) ∈ newNames) :
    WellFormed (x.1, new) ∧ runsOn (x.1, new) = x.runsOn := by
  rcases h with rfl | h
  · exact ⟨hx, rfl⟩
  obtain ⟨⟨hhash, hquote⟩, hnew, hkind⟩ := newNames_words _ h
  obtain ⟨p, hp, hlex⟩ := hx
  cases p with
  | blank c => cases hlex
  | separator c => cases hlex
  | comment body =>
    cases hlex
    exact absurd rfl hhash
  | quoted body closed =>
    cases hlex
    exact absurd rfl hquote
  | word w =>
    cases hlex
    refine ⟨⟨.word new, hnew, ?_⟩, ?_⟩
    · rw [Piece.lexeme?, ← hkind]
    · rw [runsOn_word, runsOn_word]

/-- New names can be written wherever the old ones can. -/
theorem Writable.map {xs : List Lexeme} (h : Writable xs) {f : Lexeme → Lexeme}
    (hf : ∀ x, x.WellFormed → (f x).WellFormed ∧ (f x).runsOn = x.runsOn) :
    Writable (xs.map f) := by
  refine ⟨?_, ?_⟩
  · intro y hy
    obtain ⟨x, hx, rfl⟩ := List.mem_map.1 hy
    exact (hf x (h.wellFormed x hx)).1
  · rw [List.isChain_map]
    refine h.chain.imp_of_mem_imp ?_
    intro x y hx _ hrun
    rw [(hf x (h.wellFormed x hx)).2, hrun]

theorem Writable.cons_iff {x : Lexeme} {xs : List Lexeme} :
    Writable (x :: xs) ↔ x.WellFormed ∧ (xs ≠ [] → x.runsOn = false) ∧ Writable xs := by
  constructor
  · intro h
    obtain ⟨hhead, htail⟩ := List.isChain_cons.1 h.chain
    refine ⟨h.wellFormed x (by simp), ?_, fun y hy => h.wellFormed y (by simp [hy]), htail⟩
    intro hne
    obtain ⟨y, ys, rfl⟩ := List.exists_cons_of_ne_nil hne
    exact hhead y rfl
  · rintro ⟨hx, hrun, hxs⟩
    refine ⟨?_, List.isChain_cons.2 ⟨?_, hxs.chain⟩⟩
    · intro y hy
      rcases List.mem_cons.1 hy with rfl | hy
      · exact hx
      · exact hxs.wellFormed y hy
    · intro y hy
      apply hrun
      rintro rfl
      simp at hy

/-- A statement under its new names can be written down. -/
theorem Writable.rename {xs : List Lexeme} (h : Writable xs) : Writable (rename xs) := by
  cases xs with
  | nil => exact h
  | cons head tail =>
    have hoperation (x : Lexeme) (hx : x.WellFormed) :=
      hx.renamed (renamedOperation_eq_or x.2)
    have hoperand (x : Lexeme) (hx : x.WellFormed) := hx.renamed (renamedOperand_eq_or x.2)
    obtain ⟨hhead, hrun, htail⟩ := Writable.cons_iff.1 h
    have hmodified : Writable (if head.2 = "op".toList then
        tail.modifyHead (Prod.map id renamedOperation) else tail) := by
      split
      · cases tail with
        | nil => exact htail
        | cons x xs =>
          obtain ⟨hx, hxrun, hxs⟩ := Writable.cons_iff.1 htail
          obtain ⟨hx', hxrun'⟩ := hoperation x hx
          exact Writable.cons_iff.2 ⟨hx', fun hne => hxrun'.trans (hxrun hne), hxs⟩
      · exact htail
    refine Writable.cons_iff.2 ⟨hhead, fun hne => hrun ?_, hmodified.map hoperand⟩
    rintro rfl
    exact hne (by simp [renameTail])

end Lexeme

namespace Piece

/-- A node of a row can be written down, and it is a node of some row of lexemes. -/
theorem writable_of_mem_nodesAt {ps : List Piece} (hrow : Row ps) (here : Position) :
    ∀ n ∈ nodesAt here ps,
      Lexeme.Writable n.outline.lexemes ∧ ∃ xs, n.outline ∈ Outline.ofLexemes xs := by
  have hstretch {s : List Piece} (hrow : Row s) (hs : Stretch s) (here : Position) :
      ∀ n ∈ nodesAt here s,
        Lexeme.Writable n.outline.lexemes ∧ ∃ xs, n.outline ∈ Outline.ofLexemes xs := by
    intro n hn
    have ho : n.outline ∈ (nodesAt here s).map Node.outline := List.mem_map_of_mem hn
    rw [map_outline_nodesAt_of_stretch here hs] at ho
    have hinfix := Outline.isInfix_of_mem_ofLexemes _ ho
    exact ⟨(writable_of_stretch hrow hs).rename.of_infix hinfix, _, ho⟩
  induction ps using stretchInduction generalizing here with
  | last s hs => exact hstretch hrow hs here
  | more s c rest hs ih =>
    intro n hn
    rw [nodesAt_append_separator] at hn
    rcases List.mem_append.1 hn with hn | hn
    · exact hstretch hrow.left hs here n hn
    · have hrest : Row ([.separator c] ++ rest) := hrow.right
      exact ih rest (Nat.le_refl _) hrest.right _ n hn

/-! ### Joining lexemes by blanks -/

/-- Lexemes as pieces, with a blank between any two. -/
def joined (xs : List Lexeme) : List Piece := (xs.map Lexeme.piece).intersperse (.blank ' ')

theorem joined_cons_cons (x y : Lexeme) (xs : List Lexeme) :
    joined (x :: y :: xs) = x.piece :: .blank ' ' :: joined (y :: xs) := by
  simp [joined]

theorem text_of_lexeme? {p : Piece} {x : Lexeme} (hx : p.lexeme? = some x) : p.text = x.2 := by
  cases p <;> cases hx <;> rfl

theorem endsStatement_of_lexeme? {p : Piece} {x : Lexeme} (hx : p.lexeme? = some x) :
    p.endsStatement = false := by
  cases p <;> cases hx <;> rfl

/-- The piece of a lexeme says it. -/
theorem lexeme?_piece {x : Lexeme} (hx : x.WellFormed) :
    x.piece.WellFormed ∧ x.piece.lexeme? = some x := by
  obtain ⟨p, hp, hlex⟩ := hx
  rw [piece_of_lexeme? hp hlex]
  exact ⟨hp, hlex⟩

/-- A blank may stand behind every lexeme that does not go on to the end of its line. -/
theorem mayPrecede_blank {x : Lexeme} (hx : x.WellFormed) (hrun : x.runsOn = false) (c : Char) :
    x.piece.mayPrecede (.blank c) = true := by
  obtain ⟨p, hp, hlex⟩ := hx
  rw [piece_of_lexeme? hp hlex]
  cases p with
  | comment body =>
    cases hlex
    simp [Lexeme.runsOn, Lexeme.isComment] at hrun
  | quoted body closed =>
    cases hlex
    cases closed with
    | true => rfl
    | false => simp [Lexeme.runsOn, isOpenString_quoted hp] at hrun
  | _ => rfl

theorem stretch_joined {xs : List Lexeme} (h : Lexeme.Writable xs) : Stretch (joined xs) := by
  induction xs with
  | nil => simp [Stretch, joined]
  | cons x xs ih =>
    obtain ⟨hx, -, hxs⟩ := Lexeme.Writable.cons_iff.1 h
    have hends := endsStatement_of_lexeme? (lexeme?_piece hx).2
    cases xs with
    | nil => simpa [Stretch, joined] using hends
    | cons y ys =>
      intro p hp
      rw [joined_cons_cons, List.mem_cons, List.mem_cons] at hp
      rcases hp with rfl | rfl | hp
      · exact hends
      · rfl
      · exact ih hxs p hp

/-- Joined lexemes are a row. -/
theorem row_joined {xs : List Lexeme} (h : Lexeme.Writable xs) : Row (joined xs) := by
  induction xs with
  | nil => exact row_nil
  | cons x xs ih =>
    obtain ⟨hx, hrun, hxs⟩ := Lexeme.Writable.cons_iff.1 h
    cases xs with
    | nil => exact row_nil.cons (lexeme?_piece hx).1 (by simp)
    | cons y ys =>
      rw [joined_cons_cons]
      have hblank : Row (.blank ' ' :: joined (y :: ys)) := (ih hxs).cons rfl fun _ _ => rfl
      refine hblank.cons (lexeme?_piece hx).1 ?_
      rintro q ⟨⟩
      exact mayPrecede_blank hx (hrun (by simp)) ' '

/-- Joined lexemes say what they said before. -/
theorem filterMap_lexeme?_joined {xs : List Lexeme} (h : Lexeme.Writable xs) :
    (joined xs).filterMap lexeme? = xs := by
  induction xs with
  | nil => rfl
  | cons x xs ih =>
    obtain ⟨hx, -, hxs⟩ := Lexeme.Writable.cons_iff.1 h
    have hlex := (lexeme?_piece hx).2
    cases xs with
    | nil => simp [joined, hlex]
    | cons y ys =>
      rw [joined_cons_cons, List.filterMap_cons_some hlex, List.filterMap_cons_none rfl, ih hxs]

theorem flatMap_text_joined {xs : List Lexeme} (h : Lexeme.Writable xs) :
    (joined xs).flatMap text = List.intercalate [' '] (xs.map Prod.snd) := by
  induction xs with
  | nil => rfl
  | cons x xs ih =>
    obtain ⟨hx, -, hxs⟩ := Lexeme.Writable.cons_iff.1 h
    have htext := text_of_lexeme? (lexeme?_piece hx).2
    cases xs with
    | nil => simp [joined, htext]
    | cons y ys =>
      rw [joined_cons_cons, List.flatMap_cons, List.flatMap_cons, ih hxs, htext]
      simp [text]

end Piece

/-- Every node of a text can be written down, and it is a node of some row of lexemes. -/
theorem Node.writable_ofText (t : Text) :
    ∀ n ∈ Node.ofText t,
      Lexeme.Writable n.outline.lexemes ∧ ∃ xs, n.outline ∈ Outline.ofLexemes xs := by
  rw [Node.ofText_eq]
  exact Piece.writable_of_mem_nodesAt (Piece.row_ofText t) .origin

end LogicAsm
