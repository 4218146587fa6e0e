import LogicAsm.Proofs.Sources

/-!
# The text is made up of its tokens

Reading loses nothing: a text is its tokens, each at the offsets of its place, with blanks,
separators and line feeds in between.  This is said of offsets alone by `Tiled`, a relation that
goes through the text from front to back as the scanner does; that spans are in order, disjoint and
cover all but the gaps are three facts about it.

The pieces of a text tile it (`tiled_tokensAt`).  Statements put the tokens into groups and give
some of them a new name, but they keep all of them where they are (`map_place_statementsAt`), and
nodes keep those of statements.  So what a node says can be looked up in the text, with the old name
in the place of a new one (`lexemes_of_mem_ofText`).
-/

namespace LogicAsm

/-! ### Spans that cover a text -/

/-- A character that stands between tokens. -/
def Piece.isGap (c : Char) : Bool := isBlank c || isSeparator c || c == '\n'

/-- The text behind so many characters is made up of spans, each given by its offsets, and of
characters between them. -/
inductive Tiled : Nat → Text → List (Nat × Nat) → Prop where
  | nil (offset : Nat) : Tiled offset [] []
  | gap {offset : Nat} {c : Char} {rest : Text} {spans : List (Nat × Nat)} :
      Piece.isGap c = true → Tiled (offset + 1) rest spans → Tiled offset (c :: rest) spans
  | span {offset : Nat} {w rest : Text} {spans : List (Nat × Nat)} :
      w ≠ [] → Tiled (offset + w.length) rest spans →
        Tiled offset (w ++ rest) ((offset, offset + w.length) :: spans)

namespace Tiled

variable {offset : Nat} {t : Text} {spans : List (Nat × Nat)}

/-- Each span has a character at least, and it lies in the text. -/
theorem bounds (h : Tiled offset t spans) :
    ∀ s ∈ spans, offset ≤ s.1 ∧ s.1 < s.2 ∧ s.2 ≤ offset + t.length := by
  induction h with
  | nil => simp
  | gap _ _ ih =>
    intro s hs
    obtain ⟨hstart, hlt, hstop⟩ := ih s hs
    rw [List.length_cons]
    omega
  | @span offset w rest spans hw _ ih =>
    have hpos := List.length_pos_of_ne_nil hw
    intro s hs
    rw [List.length_append]
    rcases List.mem_cons.1 hs with rfl | hs
    · exact ⟨Nat.le_refl _, by omega, by omega⟩
    · obtain ⟨hstart, hlt, hstop⟩ := ih s hs
      omega

/-- Each span ends in front of those behind it. -/
theorem pairwise (h : Tiled offset t spans) : spans.Pairwise fun s s' => s.2 ≤ s'.1 := by
  induction h with
  | nil => exact .nil
  | gap _ _ ih => exact ih
  | span _ hrest ih => exact .cons (fun s hs => (hrest.bounds s hs).1) ih

/-- A character outside all spans stands between them. -/
theorem isGap_of_outside (h : Tiled offset t spans) {i : Nat} {c : Char} (hc : t[i]? = some c)
    (hout : ∀ s ∈ spans, ¬ (s.1 ≤ offset + i ∧ offset + i < s.2)) : Piece.isGap c = true := by
  induction h generalizing i with
  | nil => simp at hc
  | @gap offset d rest spans hgap _ ih =>
    cases i with
    | zero =>
      obtain rfl : d = c := by simpa using hc
      exact hgap
    | succ i =>
      apply ih (by simpa using hc)
      intro s hs hin
      apply hout s hs
      omega
  | @span offset w rest spans _ _ ih =>
    -- The character is not in the first span, so it stands behind it.
    have hbehind : w.length ≤ i := by
      have hfirst := hout _ List.mem_cons_self
      simp only at hfirst
      omega
    rw [List.getElem?_append_right hbehind] at hc
    apply ih hc
    intro s hs hin
    apply hout s (List.mem_cons_of_mem _ hs)
    omega

end Tiled

namespace Document

/-- The offsets of the first character of a token and of the one behind its last. -/
def span (doc : Document) (t : Token) : Nat × Nat := (doc.offsetAt t.start, doc.offsetAt t.stop)

/-- All tokens of a document, node by node. -/
def tokens (doc : Document) : List Token := doc.nodes.flatMap Node.tokens

end Document

namespace Piece

/-- Pieces that are no token are characters between tokens. -/
theorem exists_gap_of_tokenAt? {here : Position} {p : Piece} (hp : p.WellFormed)
    (h : p.tokenAt? here = none) : ∃ c, p.text = [c] ∧ isGap c = true := by
  cases p with
  | blank c =>
    refine ⟨c, rfl, ?_⟩
    have hc : isBlank c = true := hp
    simp [isGap, hc]
  | separator c =>
    refine ⟨c, rfl, ?_⟩
    rcases (show isSeparator c = true ∨ c = '\n' from hp) with hc | hc <;> simp [isGap, hc]
  | _ => cases h

/-- The tokens of the pieces behind a text, and the characters between them, make up the pieces. -/
theorem tiled_tokensAt (uri : String) {a : Text} {ps : List Piece}
    (hwf : ∀ p ∈ ps, p.WellFormed) :
    Tiled a.length (ps.flatMap text)
      ((tokensAt (Position.origin.advance a) ps).map
        (Document.ofText uri (a ++ ps.flatMap text)).span) := by
  -- The text in front grows by a piece at each step, so that offsets are lengths.
  induction ps generalizing a with
  | nil => exact .nil _
  | cons p ps ih =>
    have hp := hwf p List.mem_cons_self
    have hrest := @ih (a ++ p.text) fun q hq => hwf q (List.mem_cons_of_mem p hq)
    rw [List.append_assoc, ← List.flatMap_cons, Position.advance_append,
      List.length_append] at hrest
    rw [tokensAt]
    cases htoken : p.tokenAt? (Position.origin.advance a) with
    | none =>
      obtain ⟨c, hc, hgap⟩ := exists_gap_of_tokenAt? hp htoken
      rw [hc] at hrest
      rw [List.flatMap_cons] at hrest ⊢
      rw [hc] at hrest ⊢
      exact .gap hgap hrest
    | some t =>
      have hpos := Position.character_origin_advance a
      have hstart := Document.offsetAt_advance uri a (p.text ++ ps.flatMap text)
      have hstop := Document.offsetAt_advance uri (a ++ p.text) (ps.flatMap text)
      have hspan : (Document.ofText uri (a ++ (p :: ps).flatMap text)).span t =
          (a.length, a.length + p.text.length) := by
        rw [Document.span, start_of_tokenAt? hpos htoken, stop_of_tokenAt? hpos hp htoken,
          ← Position.advance_append, List.flatMap_cons, hstart, ← List.append_assoc, hstop,
          List.length_append]
      have hne : p.text ≠ [] := by
        obtain ⟨c, hc⟩ := hp.exists_head
        exact List.ne_nil_of_mem (List.mem_of_mem_head? hc)
      rw [Option.toList_some, List.singleton_append, List.map_cons, hspan]
      rw [List.flatMap_cons] at hrest ⊢
      exact .span hne hrest

/-! ### Tokens in statements -/

theorem map_place_closeAt (here : Position) (found : List Token) :
    ((closeAt here found).flatMap Statement.tokens).map Token.place = found.map Token.place := by
  cases found with
  | nil => rfl
  | cons head tail =>
    show (head :: renameTail head tail ++ []).map Token.place = _
    rw [List.append_nil, List.map_cons, map_place_renameTail, List.map_cons]

/-- Statements hold all tokens, each in its place. -/
theorem map_place_statementsAt (here : Position) (found : List Token) (ps : List Piece) :
    ((statementsAt here found ps).flatMap Statement.tokens).map Token.place =
      (found ++ tokensAt here ps).map Token.place := by
  induction ps generalizing here found with
  | nil => rw [statementsAt, map_place_closeAt, tokensAt, List.append_nil]
  | cons p ps ih =>
    rw [statementsAt, tokensAt]
    split
    · next hends =>
      -- A separator is no token, so all that was found so far is a statement.
      have hnone : p.tokenAt? here = none := by
        cases p with
        | separator c => rfl
        | _ => cases hends
      rw [List.flatMap_append, List.map_append, map_place_closeAt, ih, hnone, ← List.map_append]
      rfl
    · rw [ih, List.append_assoc]

end Piece

/-! ### What stands in the place of a token -/

/-- Lexemes under their new names say the same, or a new name for what they said. -/
theorem Lexeme.forall₂_rename (xs : List Lexeme) :
    List.Forall₂ (fun x y : Lexeme => y.2 = x.2 ∨ (x.2, y.2) ∈ newNames) xs (rename xs) := by
  have hoperand (x : Lexeme) := renamedOperand_eq_or x.2
  have htail (ys : List Lexeme) :
      List.Forall₂ (fun x y : Lexeme => y.2 = x.2 ∨ (x.2, y.2) ∈ newNames) ys
        (ys.map (Prod.map id renamedOperand)) := by
    rw [List.forall₂_map_right_iff, List.forall₂_same]
    exact fun y _ => hoperand y
  cases xs with
  | nil => exact .nil
  | cons head tail =>
    refine .cons (.inl rfl) ?_
    rw [renameTail]
    split
    · cases tail with
      | nil => exact .nil
      | cons y ys =>
        refine .cons ?_ (htail ys)
        show renamedOperand (renamedOperation y.2) = y.2 ∨ _
        -- Both tables are looked up in turn, and no new name of the first is an old one of the
        -- second.
        rcases renamedOperation_eq_or y.2 with hself | hnew
        · rw [Prod.map_snd, Prod.map_snd, hself]
          exact hoperand y
        · have hlast : ∀ r ∈ newNames, renamedOperand r.2 = r.2 := by decide
          right
          rw [Prod.map_snd, Prod.map_snd, hlast _ hnew]
          exact hnew
    · exact htail tail

/-- What is said of tokens by their places is the same of tokens in the same places. -/
theorem map_place_congr {α : Type} (f : TokenKind × Range → α) {ts us : List Token}
    (h : ts.map Token.place = us.map Token.place) :
    ts.map (fun t => f t.place) = us.map fun t => f t.place := by
  have hf := congrArg (List.map f) h
  rwa [List.map_map, List.map_map] at hf

namespace Document

/-- The tokens of a document and the characters between them make up its text. -/
theorem tiled_tokens (uri : String) (t : Text) :
    Tiled 0 t ((ofText uri t).tokens.map (ofText uri t).span) := by
  have hplaces : (ofText uri t).tokens.map Token.place =
      (Piece.tokensAt .origin (Piece.ofText t)).map Token.place := by
    show ((Node.ofText t).flatMap Node.tokens).map Token.place = _
    rw [flatMap_tokens_ofText, Statement.ofText_eq, Piece.map_place_statementsAt, List.nil_append]
  have hspans : (ofText uri t).tokens.map (ofText uri t).span =
      (Piece.tokensAt .origin (Piece.ofText t)).map (ofText uri t).span :=
    map_place_congr (fun p => ((ofText uri t).offsetAt p.2.start, (ofText uri t).offsetAt p.2.stop))
      hplaces
  have htiled := @Piece.tiled_tokensAt uri [] _ (Piece.row_ofText t).wellFormed
  rw [List.nil_append, Piece.flatMap_text_ofText] at htiled
  rw [hspans]
  exact htiled

/-- What the tokens of a statement say is what stands in their places, under the new names. -/
theorem lexemes_of_mem_ofText (uri : String) {t : Text} {s : Statement}
    (hs : s ∈ Statement.ofText t) :
    s.tokens.map Token.lexeme =
      Lexeme.rename (s.tokens.map fun x => (x.kind, (ofText uri t).source x)) := by
  rw [Statement.ofText_eq] at hs
  obtain ⟨tail, htail, hfound⟩ := Piece.exists_of_mem_statementsAt s hs
  have hplaces : s.tokens.map Token.place = (s.head :: tail).map Token.place := by
    rw [Statement.tokens, htail, List.map_cons, map_place_renameTail, List.map_cons]
  have hkept : s.tokens.map (fun x => (x.kind, (ofText uri t).source x)) =
      (s.head :: tail).map fun x => (x.kind, (ofText uri t).source x) :=
    map_place_congr (fun p => (p.1, Edit.slice t ((ofText uri t).offsetAt p.2.start)
      ((ofText uri t).offsetAt p.2.stop))) hplaces
  have hsource : (s.head :: tail).map (fun x => (x.kind, (ofText uri t).source x)) =
      (s.head :: tail).map Token.lexeme := by
    apply List.map_congr_left
    intro x hx
    have hx := (hfound x hx).resolve_left List.not_mem_nil
    have hcontent := @Piece.source_of_mem_tokensAt uri [] [] _ (Piece.row_ofText t).wellFormed x hx
    rw [List.nil_append, List.append_nil, Piece.flatMap_text_ofText] at hcontent
    rw [hcontent]
    rfl
  rw [hkept, hsource, Statement.tokens, htail, List.map_cons, map_lexeme_renameTail, List.map_cons]
  rfl

/-- Reading loses nothing.  The tokens of all nodes are those of all statements; their spans have a
character at least, lie in the text, come one behind the other and do not overlap; what a token says
is what stands in its span, or the new name for it, and which tokens get a new name is decided by
what stands in the spans of their statement; all other characters are blanks, separators and line
feeds. -/
theorem reading_lossless (uri : String) (t : Text) :
    (ofText uri t).tokens = (Statement.ofText t).flatMap Statement.tokens ∧
    (∀ x ∈ (ofText uri t).tokens,
      (ofText uri t).offsetAt x.start < (ofText uri t).offsetAt x.stop ∧
        (ofText uri t).offsetAt x.stop ≤ t.length) ∧
    (ofText uri t).tokens.Pairwise (fun x y =>
      (ofText uri t).offsetAt x.start < (ofText uri t).offsetAt y.start ∧
        (ofText uri t).offsetAt x.stop ≤ (ofText uri t).offsetAt y.start) ∧
    (∀ x ∈ (ofText uri t).tokens, x.content = (ofText uri t).source x ∨
      ((ofText uri t).source x, x.content) ∈ Lexeme.newNames) ∧
    (∀ s ∈ Statement.ofText t, s.tokens.map Token.lexeme =
      Lexeme.rename (s.tokens.map fun x => (x.kind, (ofText uri t).source x))) ∧
    ∀ (i : Nat) (c : Char), t[i]? = some c →
      (∀ x ∈ (ofText uri t).tokens,
        ¬ ((ofText uri t).offsetAt x.start ≤ i ∧ i < (ofText uri t).offsetAt x.stop)) →
      c ∈ [' ', '\t', '\r', '\n', ';'] := by
  have htiled := tiled_tokens uri t
  have htokens : (ofText uri t).tokens = (Statement.ofText t).flatMap Statement.tokens :=
    flatMap_tokens_ofText t
  have hbounds : ∀ x ∈ (ofText uri t).tokens,
      (ofText uri t).offsetAt x.start < (ofText uri t).offsetAt x.stop ∧
        (ofText uri t).offsetAt x.stop ≤ t.length := by
    intro x hx
    obtain ⟨-, hlt, hstop⟩ := htiled.bounds _ (List.mem_map_of_mem hx)
    rw [Nat.zero_add] at hstop
    exact ⟨hlt, hstop⟩
  -- The spans tile the text; order, content and gaps are read off the tiling.
  refine ⟨htokens, hbounds, ?_, ?_, fun s hs => lexemes_of_mem_ofText uri hs, ?_⟩
  · have hapart := List.pairwise_map.1 htiled.pairwise
    refine hapart.imp_of_mem ?_
    intro x y hx hy hle
    exact ⟨Nat.lt_of_lt_of_le (hbounds x hx).1 hle, hle⟩
  · intro x hx
    rw [htokens] at hx
    obtain ⟨s, hs, hx⟩ := List.mem_flatMap.1 hx
    have hnames := Lexeme.forall₂_rename (s.tokens.map fun x => (x.kind, (ofText uri t).source x))
    rw [← lexemes_of_mem_ofText uri hs, List.forall₂_map_left_iff, List.forall₂_map_right_iff,
      List.forall₂_same] at hnames
    exact hnames x hx
  · intro i c hc hout
    have hgap : Piece.isGap c = true := by
      apply htiled.isGap_of_outside hc
      intro s hs
      obtain ⟨x, hx, rfl⟩ := List.mem_map.1 hs
      rw [Nat.zero_add]
      exact hout x hx
    simp only [Piece.isGap, Piece.isBlank, Piece.isSeparator, Bool.or_eq_true, beq_iff_eq] at hgap
    simp only [List.mem_cons, List.not_mem_nil, or_false]
    tauto

end Document

end LogicAsm
