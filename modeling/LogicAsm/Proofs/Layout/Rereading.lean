import LogicAsm.Proofs.Layout.Blocks
import LogicAsm.Proofs.Sources

/-!
# The layout is read as the same program

The text that the layout renders is made up of pieces: line feeds, indentation, and the tokens of
each node joined by blanks (`Placement.pieces`).  They are a row (`row_pieces`), so this is how the
text is cut when it is read again.  Reading them, each placed node becomes one statement with one
node in it (`rereads_statementsAt`): of the same kind, with the same tokens under their new names,
and at the place that the layout gave it.

The main result is `canonical_keeps_program`: layout changes neither the nodes of a program nor what
they say, puts each on a line of its own, and leaves no lexical problem but the open strings that
were there before.
-/

namespace LogicAsm

namespace Lexeme

/-- A new name ends in a quote only where the old one does. -/
theorem isOpenString_renamed {x : Lexeme} {new : Text} (h : new = x.2 ∨ (x.2, new) ∈ newNames) :
    isOpenString (x.1, new) = x.isOpenString := by
  have hnames : ∀ r ∈ newNames, r.1.endsWith '"' = false ∧ r.2.endsWith '"' = false := by decide
  rcases h with rfl | h
  · rfl
  · obtain ⟨hold, hnew⟩ := hnames _ h
    simp only [isOpenString] at hold hnew ⊢
    rw [hold, hnew]
    simp

/-- An open string has no new name. -/
theorem WellFormed.not_mem_newNames {x : Lexeme} (hx : x.WellFormed) (hopen : x.isOpenString = true)
    (new : Text) : (x.2, new) ∉ newNames := by
  intro hmem
  obtain ⟨⟨-, hquote⟩, -, -⟩ := newNames_words _ hmem
  obtain ⟨p, -, hlex⟩ := hx
  cases p with
  | blank c => cases hlex
  | separator c => cases hlex
  | comment body =>
    cases hlex
    cases hopen
  | quoted body closed =>
    cases hlex
    exact hquote rfl
  | word w =>
    cases hlex
    have hclosed := (Bool.or_eq_false_iff.1 (runsOn_word w w)).2
    rw [hclosed] at hopen
    cases hopen

theorem filter_isOpenString_map {f : Text → Text} (hf : ∀ w, f w = w ∨ (w, f w) ∈ newNames)
    {xs : List Lexeme} (h : ∀ x ∈ xs, x.WellFormed) :
    (xs.map (Prod.map id f)).filter isOpenString = xs.filter isOpenString := by
  induction xs with
  | nil => rfl
  | cons x xs ih =>
    have hrest := ih fun y hy => h y (by simp [hy])
    have hsame : isOpenString (Prod.map id f x) = x.isOpenString := isOpenString_renamed (hf x.2)
    rw [List.map_cons, List.filter_cons, List.filter_cons, hrest, hsame]
    cases hopen : x.isOpenString with
    | false => rfl
    | true =>
      have hkeep : f x.2 = x.2 :=
        (hf x.2).resolve_right ((h x (by simp)).not_mem_newNames hopen (f x.2))
      simp [Prod.map, hkeep]

/-- New names leave the open strings of a statement as they are. -/
theorem filter_isOpenString_rename {xs : List Lexeme} (h : ∀ x ∈ xs, x.WellFormed) :
    (rename xs).filter isOpenString = xs.filter isOpenString := by
  cases xs with
  | nil => rfl
  | cons head tail =>
    have htail : ∀ x ∈ tail, x.WellFormed := fun x hx => h x (by simp [hx])
    -- The first token is never renamed.
    suffices hsuff : (renameTail head tail).filter isOpenString = tail.filter isOpenString by
      rw [rename, List.filter_cons, List.filter_cons, hsuff]
    unfold renameTail
    split
    · cases tail with
      | nil => rfl
      | cons x xs =>
        have hx := htail x (by simp)
        have hfirst := @filter_isOpenString_map _ renamedOperation_eq_or [x] (by simpa using hx)
        -- The second renaming needs tokens that can be read, which the first one keeps.
        have hmodified : ∀ y ∈ Prod.map id renamedOperation x :: xs, WellFormed y := by
          intro y hy
          rcases List.mem_cons.1 hy with rfl | hy
          · exact (hx.renamed (renamedOperation_eq_or x.2)).1
          · exact htail y (by simp [hy])
        rw [List.modifyHead_cons, filter_isOpenString_map renamedOperand_eq_or hmodified,
          ← List.singleton_append, List.filter_append, ← List.map_singleton, hfirst,
          ← List.filter_append]
        rfl
    · exact filter_isOpenString_map renamedOperand_eq_or htail

end Lexeme

/-- The open strings of a text. -/
def openStrings (t : Text) : List Token :=
  ((Node.ofText t).flatMap Node.tokens).filter Token.isOpenString

namespace Piece

/-! ### Pieces that anything may follow -/

/-- Copies of a piece that may precede everything. -/
theorem Row.replicate_append {p : Piece} (hp : p.WellFormed) (hall : ∀ q, p.mayPrecede q = true)
    (count : Nat) {qs : List Piece} (hqs : Row qs) : Row (List.replicate count p ++ qs) := by
  induction count with
  | zero => exact hqs
  | succ count ih =>
    rw [List.replicate_succ, List.cons_append]
    exact ih.cons hp fun q _ => hall q

/-- Blanks may stand in front of every row. -/
theorem Row.blanks_append {cs : Text} (h : ∀ c ∈ cs, isBlank c = true) {qs : List Piece}
    (hqs : Row qs) : Row (cs.map .blank ++ qs) := by
  induction cs with
  | nil => exact hqs
  | cons c cs ih =>
    rw [List.map_cons, List.cons_append]
    exact (ih fun d hd => h d (by simp [hd])).cons (h c (by simp)) fun _ _ => rfl

/-- Whether pieces are none or start with a line feed. -/
def StartsLine (ps : List Piece) : Prop := ∀ p ∈ ps.head?, p = .separator '\n'

theorem Row.append_startsLine {ps qs : List Piece} (hps : Row ps) (hqs : Row qs)
    (h : StartsLine qs) : Row (ps ++ qs) := by
  refine hps.append hqs ?_
  intro p _ q hq
  rw [h q hq]
  exact mayPrecede_newline p

/-! ### Reading on at a line feed -/

/-- A stretch is read alone, if a new line follows it. -/
theorem statementsAt_append_startsLine (here : Position) {s rest : List Piece} (hs : Stretch s)
    (h : StartsLine rest) :
    statementsAt here [] (s ++ rest) =
      closeAt (here.advance (s.flatMap text)) (tokensAt here s) ++
        statementsAt (here.advance (s.flatMap text)) [] rest := by
  cases rest with
  | nil =>
    rw [List.append_nil, statementsAt_of_stretch here [] hs]
    simp [statementsAt, closeAt, close]
  | cons q qs =>
    obtain rfl := h q rfl
    rw [statementsAt_append_separator, statementsAt_of_stretch here [] hs, List.nil_append,
      here.advance_append]
    rfl

theorem advance_replicate_newline (here : Position) (count : Nat)
    (h : 0 < count ∨ here.character = 0) :
    here.advance (List.replicate count '\n') = ⟨here.line + count, 0⟩ := by
  induction count generalizing here with
  | zero =>
    have hc := h.resolve_left (Nat.lt_irrefl 0)
    rw [← hc]
    simp
  | succ count ih =>
    rw [List.replicate_succ, ← List.singleton_append, here.advance_append, here.advance_newline,
      ih _ (.inr rfl)]
    simp only [Position.mk.injEq, and_true]
    omega

/-- Line feeds lead to another line. -/
theorem statementsAt_newlines (here : Position) (count : Nat) (ps : List Piece) :
    statementsAt here [] (List.replicate count (.separator '\n') ++ ps) =
      statementsAt (here.advance (List.replicate count '\n')) [] ps := by
  induction count generalizing here with
  | zero => rfl
  | succ count ih =>
    have hstep := statementsAt_append_separator here [] [] '\n'
      (List.replicate count (.separator '\n') ++ ps)
    rw [List.replicate_succ, List.cons_append]
    rw [List.nil_append] at hstep
    rw [hstep, ih, List.replicate_succ, ← List.singleton_append (l := List.replicate count '\n'),
      here.advance_append]
    rfl

theorem problemsAt_newlines (here : Position) {glued : Bool} {count : Nat}
    (h : 0 < count ∨ glued = false) (ps : List Piece) :
    problemsAt here glued (List.replicate count (.separator '\n') ++ ps) =
      problemsAt (here.advance (List.replicate count '\n')) false ps := by
  induction count generalizing here glued with
  | zero =>
    rw [h.resolve_left (Nat.lt_irrefl 0)]
    rfl
  | succ count ih =>
    have hrest := @ih (here.advance ['\n']) false (.inr rfl)
    rw [List.replicate_succ, List.cons_append, List.replicate_succ,
      ← List.singleton_append (l := List.replicate count '\n'), here.advance_append, ← hrest]
    rfl

theorem problemsAt_blanks (here : Position) (cs : Text) (ps : List Piece) :
    problemsAt here false (cs.map .blank ++ ps) = problemsAt (here.advance cs) false ps := by
  induction cs generalizing here with
  | nil => rfl
  | cons c cs ih =>
    rw [List.map_cons, List.cons_append, problemsAt, ← List.singleton_append (l := cs),
      here.advance_append]
    exact ih _

end Piece

namespace Piece

/-! ### Joined lexemes at a position -/

/-- Joined lexemes start with the first one. -/
theorem tokensAt_joined_cons {here : Position} (hpos : 0 ≤ here.character) {x : Lexeme}
    {xs : List Lexeme} (h : Lexeme.Writable (x :: xs)) :
    ∃ head tail, tokensAt here (joined (x :: xs)) = head :: tail ∧ head.start = here ∧
      head.lexeme = x ∧ tail.map Token.lexeme = xs := by
  have hlexemes := map_lexeme_tokensAt here (joined (x :: xs))
  rw [filterMap_lexeme?_joined h] at hlexemes
  obtain ⟨head, tail, htokens⟩ : ∃ head tail, tokensAt here (joined (x :: xs)) = head :: tail := by
    cases htokens : tokensAt here (joined (x :: xs)) with
    | nil => simp [htokens] at hlexemes
    | cons head tail => exact ⟨head, tail, rfl⟩
  rw [htokens, List.map_cons, List.cons.injEq] at hlexemes
  refine ⟨head, tail, htokens, ?_, hlexemes.1, hlexemes.2⟩
  -- The first token is that of the first piece.
  obtain ⟨ps, hps⟩ : ∃ ps, joined (x :: xs) = x.piece :: ps := by
    cases xs <;> simp [joined]
  have hx := (lexeme?_piece (h.wellFormed x (by simp))).2
  obtain ⟨t, ht⟩ : ∃ t, x.piece.tokenAt? here = some t := by
    cases hp : x.piece <;> rw [hp] at hx <;> first | exact ⟨_, rfl⟩ | cases hx
  rw [hps, tokensAt, ht] at htokens
  obtain ⟨rfl, -⟩ : t = head ∧ _ := by simpa using htokens
  exact start_of_tokenAt? hpos ht

/-- What is wrong with a token that touches no other. -/
theorem problems_not_glued (line : Int) (column : Nat) {p : Piece} (hp : p.WellFormed) :
    p.problems line column false =
      ((p.token? line column).toList.filter Token.isOpenString).map Token.unclosedProblem := by
  cases p with
  | quoted body closed =>
    obtain ⟨t, ht⟩ : ∃ t, token? line column (quoted body closed) = some t := ⟨_, rfl⟩
    have hopen : t.isOpenString = !closed := by
      cases ht
      exact isOpenString_quoted hp
    rw [ht, Option.toList_some]
    cases closed with
    | true =>
      rw [List.filter_cons_of_neg (by simp [hopen])]
      rfl
    | false =>
      rw [List.filter_cons_of_pos hopen]
      cases ht
      rfl
  | word w =>
    obtain ⟨t, ht⟩ : ∃ t, token? line column (word w) = some t := ⟨_, rfl⟩
    have hclosed : t.isOpenString = false := by
      cases ht
      exact (Bool.or_eq_false_iff.1 (Lexeme.runsOn_word w w)).2
    rw [ht, Option.toList_some, List.filter_cons_of_neg (by simp [hclosed])]
    rfl
  | _ => rfl

/-- What is wrong with joined lexemes: their open strings. -/
theorem problemsAt_joined (here : Position) {xs : List Lexeme} (h : Lexeme.Writable xs)
    {rest : List Piece} (hrest : StartsLine rest) :
    problemsAt here false (joined xs ++ rest) =
      ((tokensAt here (joined xs)).filter Token.isOpenString).map Token.unclosedProblem ++
        problemsAt (here.advance ((joined xs).flatMap text)) false rest := by
  induction xs generalizing here with
  | nil => rfl
  | cons x xs ih =>
    obtain ⟨hx, -, hxs⟩ := Lexeme.Writable.cons_iff.1 h
    have hfirst := problems_not_glued here.line here.character.toNat (lexeme?_piece hx).1
    cases xs with
    | nil =>
      -- The piece touches what follows, but a line feed does not mind.
      have hglued (glued : Bool) (there : Position) :
          problemsAt there glued rest = problemsAt there false rest := by
        cases rest with
        | nil => rfl
        | cons q qs =>
          obtain rfl := hrest q rfl
          rfl
      have hone : joined [x] = [x.piece] := rfl
      rw [hone, List.singleton_append, problemsAt, hfirst, hglued]
      simp [tokensAt, tokenAt?]
    | cons y ys =>
      have hstep := ih (here.advance x.piece.text |>.advance [' ']) hxs
      rw [joined_cons_cons, List.cons_append, List.cons_append, problemsAt, problemsAt, hfirst]
      rw [show ((blank ' ').touches = false) from rfl, show (blank ' ').text = [' '] from rfl,
        hstep]
      simp only [tokensAt, tokenAt?, List.filter_append, List.map_append, List.append_assoc,
        List.flatMap_cons, Position.advance_append]
      rfl

end Piece

namespace Layout

open Piece

/-! ### The pieces of a layout -/

/-- The indentation of a placed node. -/
def Placement.indentation (o : Options) (p : Placement) : Text := if p.indented then o.unit else []

/-- The line of a placed node: its indentation, and its tokens joined by blanks. -/
def Placement.written (o : Options) (p : Placement) : List Piece :=
  (p.indentation o).map .blank ++ joined p.node.outline.lexemes

/-- The pieces of a placed node: line feeds in front of its line. -/
def Placement.pieces (o : Options) (p : Placement) : List Piece :=
  List.replicate p.breaks (.separator '\n') ++ p.written o

/-- Placed nodes as a layout has them: each can be written down, is one node if read alone, and all
but the first start on a line of their own. -/
structure Placed (ps : List Placement) : Prop where
  writable : ∀ p ∈ ps, Lexeme.Writable p.node.outline.lexemes
  single : ∀ p ∈ ps, ∃ xs, p.node.outline ∈ Outline.ofLexemes xs
  breaks : ∀ p ∈ ps.tail, 0 < p.breaks

theorem Placed.tail {p : Placement} {ps : List Placement} (h : Placed (p :: ps)) : Placed ps :=
  ⟨fun q hq => h.writable q (by simp [hq]), fun q hq => h.single q (by simp [hq]),
    fun q hq => h.breaks q (List.mem_of_mem_tail hq)⟩

theorem blank_of_mem_unit {o : Options} : ∀ c ∈ o.unit, isBlank c = true := by
  intro c hc
  unfold Options.unit at hc
  split at hc
  · rw [List.eq_of_mem_replicate hc]
    decide
  · rw [List.mem_singleton.1 hc]
    decide

theorem Placement.blank_of_mem_indentation {o : Options} {p : Placement} :
    ∀ c ∈ p.indentation o, isBlank c = true := by
  intro c hc
  unfold indentation at hc
  split at hc
  · exact blank_of_mem_unit c hc
  · cases hc

theorem Placement.newline_not_mem_indentation (o : Options) (p : Placement) :
    '\n' ∉ p.indentation o := fun h => absurd (p.blank_of_mem_indentation _ h) (by decide)

/-- The pieces of a placed node make up its text. -/
theorem Placement.flatMap_text_pieces (o : Options) {p : Placement}
    (h : Lexeme.Writable p.node.outline.lexemes) : (p.pieces o).flatMap Piece.text = p.text o := by
  have hnewlines : (List.replicate p.breaks (Piece.separator '\n')).flatMap Piece.text =
      List.replicate p.breaks '\n' := by
    rw [List.flatMap_replicate]
    simp [Piece.text]
  have hcontents : p.node.outline.lexemes.map Prod.snd = p.node.tokens.map (·.content) := by
    simp [Node.outline, Token.lexeme, Function.comp_def]
  rw [pieces, written, List.flatMap_append, List.flatMap_append, hnewlines, flatMap_text_map_blank,
    flatMap_text_joined h, hcontents, Placement.text, indentation, nodeText, List.append_assoc]

theorem Placement.row_written (o : Options) {p : Placement}
    (h : Lexeme.Writable p.node.outline.lexemes) : Row (p.written o) :=
  (row_joined h).blanks_append p.blank_of_mem_indentation

theorem Placement.stretch_written (o : Options) {p : Placement}
    (h : Lexeme.Writable p.node.outline.lexemes) : Stretch (p.written o) := by
  intro q hq
  rcases List.mem_append.1 hq with hq | hq
  · obtain ⟨c, -, rfl⟩ := List.mem_map.1 hq
    rfl
  · exact stretch_joined h q hq

/-- The line of a placed node is one line. -/
theorem Placement.newline_not_mem_written (o : Options) {p : Placement}
    (h : Lexeme.Writable p.node.outline.lexemes) : '\n' ∉ (p.written o).flatMap Piece.text := by
  intro hmem
  obtain ⟨q, hq, hmem⟩ := List.mem_flatMap.1 hmem
  refine ((p.row_written o h).wellFormed q hq).newline_not_mem ?_ hmem
  rintro rfl
  exact absurd (p.stretch_written o h _ hq) (by simp [endsStatement])

/-- A placed node in front of a new line. -/
theorem Placement.row_pieces_append {o : Options} {p : Placement}
    (h : Lexeme.Writable p.node.outline.lexemes) {rest : List Piece} (hrest : Row rest)
    (hline : StartsLine rest) : Row (p.pieces o ++ rest) := by
  have hwritten : Row (p.written o ++ rest) := (p.row_written o h).append_startsLine hrest hline
  rw [pieces, List.append_assoc]
  exact Row.replicate_append (show (Piece.separator '\n').WellFormed from .inr rfl) (fun _ => rfl)
    p.breaks hwritten

/-- Placed nodes start on a new line, or at the front. -/
theorem startsLine_flatMap_pieces {o : Options} {ps : List Placement}
    (h : ∀ p ∈ ps, 0 < p.breaks) {rest : List Piece} (hline : StartsLine rest) :
    StartsLine (ps.flatMap (·.pieces o) ++ rest) := by
  cases ps with
  | nil => exact hline
  | cons p ps =>
    obtain ⟨k, hk⟩ := Nat.exists_eq_add_one_of_ne_zero (Nat.ne_of_gt (h p (by simp)))
    intro q hq
    have hfirst : (((p :: ps).flatMap (·.pieces o)) ++ rest).head? = some (.separator '\n') := by
      rw [List.flatMap_cons, Placement.pieces, hk, List.replicate_succ]
      rfl
    rw [hfirst] at hq
    exact (Option.some.inj hq).symm

/-- The pieces of placed nodes are a row. -/
theorem row_pieces {o : Options} {ps : List Placement} (h : Placed ps) {rest : List Piece}
    (hrest : Row rest) (hline : StartsLine rest) : Row (ps.flatMap (·.pieces o) ++ rest) := by
  induction ps with
  | nil => exact hrest
  | cons p ps ih =>
    rw [List.flatMap_cons, List.append_assoc]
    exact Placement.row_pieces_append (h.writable p (by simp)) (ih h.tail)
      (startsLine_flatMap_pieces h.breaks hline)

/-! ### Reading the pieces -/

/-- What placed nodes are read as: each is one statement with one node in it, of the same kind and
with the same tokens under their new names, behind its line breaks and its indentation. -/
inductive Rereads (o : Options) : Int → List Placement → List Statement → Prop where
  | nil {line : Int} : Rereads o line [] []
  | cons {line : Int} {p : Placement} {ps : List Placement} {s : Statement} {ss : List Statement}
      {n : Node} (node : Node.ofStatement s = [n])
      (outline : n.outline = ⟨p.node.kind, Lexeme.rename p.node.outline.lexemes⟩)
      (start : n.start = ⟨line + p.breaks, (p.indentation o).length⟩)
      (rest : Rereads o (line + p.breaks) ps ss) : Rereads o line (p :: ps) (s :: ss)

/-- One placed node, read at the start of a line. -/
theorem Placement.ofStatement_reread {o : Options} {p : Placement}
    (hwritable : Lexeme.Writable p.node.outline.lexemes)
    (hsingle : ∃ xs, p.node.outline ∈ Outline.ofLexemes xs) (line : Int) (stop : Position) :
    ∃ s n, closeAt stop (tokensAt ⟨line, 0⟩ (p.written o)) = [s] ∧
      Node.ofStatement s = [n] ∧
      n.outline = ⟨p.node.kind, Lexeme.rename p.node.outline.lexemes⟩ ∧
      n.start = ⟨line, (p.indentation o).length⟩ := by
  have hlexemes : p.node.outline.lexemes = p.node.head.lexeme :: p.node.tail.map Token.lexeme := rfl
  have hindented : Position.advance ⟨line, 0⟩ (p.indentation o) =
      ⟨line, (p.indentation o).length⟩ := by
    rw [Position.advance_of_newline_not_mem _ (p.newline_not_mem_indentation o)]
    simp
  obtain ⟨head, tail, htokens, hstart, hhead, htail⟩ :=
    @tokensAt_joined_cons ⟨line, (p.indentation o).length⟩ (Int.natCast_nonneg _) p.node.head.lexeme
      (p.node.tail.map Token.lexeme) hwritable
  -- One outline was written, and it is read back as one, with the renames of a new statement.
  have houtlines : (Node.ofTokens ⟨stop.line, stop.character.toNat⟩
      (head :: renameTail head tail)).map Node.outline =
        [⟨p.node.kind, Lexeme.rename p.node.outline.lexemes⟩] := by
    obtain ⟨xs, hxs⟩ := hsingle
    rw [Node.map_outline_ofTokens, List.map_cons, map_lexeme_renameTail, hhead, htail]
    exact Node.ofLexemes_rename_outline hxs
  obtain ⟨n, hn, houtline⟩ := List.map_eq_singleton_iff.1 houtlines
  rw [written, tokensAt_blanks, hindented, hlexemes, htokens]
  refine ⟨_, n, rfl, hn, houtline, ?_⟩
  rw [Node.start, Node.head?_ofTokens _ head _ n (by rw [hn]; rfl), hstart]

/-- Placed nodes are read one by one. -/
theorem rereads_statementsAt {o : Options} {ps : List Placement} (h : Placed ps) {here : Position}
    (hhere : here.character = 0 ∨ ∀ p ∈ ps, 0 < p.breaks) {rest : List Piece}
    (hline : StartsLine rest) (hrest : ∀ there, statementsAt there [] rest = []) :
    Rereads o here.line ps (statementsAt here [] (ps.flatMap (·.pieces o) ++ rest)) := by
  induction ps generalizing here with
  | nil =>
    rw [List.flatMap_nil, List.nil_append, hrest]
    exact .nil
  | cons p ps ih =>
    have hwritable := h.writable p (by simp)
    have hbreaks : 0 < p.breaks ∨ here.character = 0 :=
      hhere.symm.imp_left fun hpos => hpos p (by simp)
    have hnext : StartsLine (ps.flatMap (·.pieces o) ++ rest) :=
      startsLine_flatMap_pieces h.breaks hline
    -- What follows the node starts on the line of the node.
    have hadvance := Position.advance_of_newline_not_mem ⟨here.line + p.breaks, 0⟩
      (p.newline_not_mem_written o hwritable)
    obtain ⟨s, n, hs, hnode, houtline, hstart⟩ :=
      @p.ofStatement_reread o hwritable (h.single p (by simp)) (here.line + p.breaks)
        ⟨here.line + p.breaks, 0 + ((p.written o).flatMap Piece.text).length⟩
    rw [List.flatMap_cons, Placement.pieces, List.append_assoc, List.append_assoc,
      statementsAt_newlines, advance_replicate_newline here p.breaks hbreaks,
      statementsAt_append_startsLine _ (p.stretch_written o hwritable) hnext, hadvance, hs]
    exact .cons hnode houtline hstart
      (@ih h.tail ⟨here.line + p.breaks, 0 + ((p.written o).flatMap Piece.text).length⟩
        (.inr h.breaks))

/-! ### Lexical problems of what is read -/

theorem isOpenString_rename (t : Token) :
    (t.rename renamedOperation).isOpenString = t.isOpenString ∧
      (t.rename renamedOperand).isOpenString = t.isOpenString :=
  ⟨@Lexeme.isOpenString_renamed t.lexeme _ (Lexeme.renamedOperation_eq_or t.content),
    @Lexeme.isOpenString_renamed t.lexeme _ (Lexeme.renamedOperand_eq_or t.content)⟩

/-- The problems of the open strings among tokens. -/
def unclosedProblems (ts : List Token) : List Diagnostic :=
  (ts.filter Token.isOpenString).map Token.unclosedProblem

theorem unclosedProblems_append (ts us : List Token) :
    unclosedProblems (ts ++ us) = unclosedProblems ts ++ unclosedProblems us := by
  simp [unclosedProblems]

theorem unclosedProblems_map {f : Token → Token}
    (hopen : ∀ t, (f t).isOpenString = t.isOpenString)
    (hproblem : ∀ t, (f t).unclosedProblem = t.unclosedProblem) (ts : List Token) :
    unclosedProblems (ts.map f) = unclosedProblems ts := by
  rw [unclosedProblems, List.filter_map, List.map_map, unclosedProblems]
  congr 1
  · funext t
    exact hproblem t
  · congr 1
    funext t
    exact hopen t

/-- Closing a statement keeps the problems of its tokens. -/
theorem unclosedProblems_closeAt (stop : Position) (ts : List Token) :
    unclosedProblems ((closeAt stop ts).flatMap Statement.tokens) = unclosedProblems ts := by
  cases ts with
  | nil => rfl
  | cons head tail =>
    -- A string is not a name, so both renamings pass it by.
    have hoperands (us : List Token) :
        unclosedProblems (us.map (Token.rename renamedOperand)) = unclosedProblems us :=
      unclosedProblems_map (fun t => (isOpenString_rename t).2) (fun _ => rfl) us
    have htail : unclosedProblems (renameTail head tail) = unclosedProblems tail := by
      rw [renameTail, hoperands]
      split
      · cases tail with
        | nil => rfl
        | cons t ts =>
          have hfirst : unclosedProblems [t.rename renamedOperation] = unclosedProblems [t] :=
            unclosedProblems_map (fun t => (isOpenString_rename t).1) (fun _ => rfl) [t]
          rw [List.modifyHead_cons, ← List.singleton_append, unclosedProblems_append, hfirst,
            ← unclosedProblems_append]
          rfl
      · rfl
    have htokens : (closeAt stop (head :: tail)).flatMap Statement.tokens =
        [head] ++ renameTail head tail := by
      simp [closeAt, close, Statement.tokens]
    rw [htokens, unclosedProblems_append, htail, ← unclosedProblems_append]
    rfl

/-- What is wrong with placed nodes: their open strings. -/
theorem problemsAt_pieces {o : Options} {ps : List Placement} (h : Placed ps) {here : Position}
    {glued : Bool} (hhere : here.character = 0 ∧ glued = false ∨ ∀ p ∈ ps, 0 < p.breaks)
    {rest : List Piece} (hline : StartsLine rest)
    (hrest : ∀ there, statementsAt there [] rest = [])
    (hquiet : ∀ there flag, problemsAt there flag rest = []) :
    problemsAt here glued (ps.flatMap (·.pieces o) ++ rest) =
      unclosedProblems ((statementsAt here [] (ps.flatMap (·.pieces o) ++ rest)).flatMap
        Statement.tokens) := by
  induction ps generalizing here glued with
  | nil =>
    rw [List.flatMap_nil, List.nil_append, hrest, hquiet]
    rfl
  | cons p ps ih =>
    have hwritable := h.writable p (by simp)
    -- A line break in front, or the start of the text: either way nothing is glued.
    have hbreaks : 0 < p.breaks ∨ here.character = 0 ∧ glued = false :=
      hhere.symm.imp_left fun hpos => hpos p (by simp)
    have hnext : StartsLine (ps.flatMap (·.pieces o) ++ rest) :=
      startsLine_flatMap_pieces h.breaks hline
    rw [List.flatMap_cons, Placement.pieces, List.append_assoc, List.append_assoc,
      statementsAt_newlines, problemsAt_newlines here (hbreaks.imp_right And.right),
      advance_replicate_newline here p.breaks (hbreaks.imp_right And.left),
      statementsAt_append_startsLine _ (p.stretch_written o hwritable) hnext, List.flatMap_append,
      unclosedProblems_append, unclosedProblems_closeAt, ← ih h.tail (.inr h.breaks)]
    rw [Placement.written, List.append_assoc, problemsAt_blanks,
      problemsAt_joined _ hwritable hnext, tokensAt_blanks, List.flatMap_append,
      flatMap_text_map_blank, Position.advance_append]
    rfl

/-! ### The layout of a text -/

/-- Only the first node may stand without a line break in front of it. -/
theorem breaks_pos_of_mem_placeMarked (line : Int) (nodes : List Node) {ms : List (Nat × Block)}
    (h : ∀ m ∈ ms, m.1 ≠ 0) : ∀ p ∈ placeMarked line nodes ms, 0 < p.breaks := by
  induction nodes generalizing line ms with
  | nil => simp [placeMarked]
  | cons n ns ih =>
    cases ms with
    | nil => simp [placeMarked]
    | cons m ms =>
      intro p hp
      rw [placeMarked, List.mem_cons] at hp
      rcases hp with rfl | hp
      · have hlow := (place_breaks m.2 m.1 line n).1
        have hpos := gapBounds_pos (h m (by simp)) m.2
        omega
      · exact ih n.line (fun m' hm' => h m' (by simp [hm'])) p hp

/-- The nodes of a text are placed as a layout has them. -/
theorem placed_placements (t : Text) : Placed (placements (Node.ofText t)) := by
  have hmem : ∀ p ∈ placements (Node.ofText t), p.node ∈ Node.ofText t := by
    intro p hp
    rw [← map_node_placements (Node.ofText t)]
    exact List.mem_map_of_mem hp
  refine ⟨fun p hp => (Node.writable_ofText t _ (hmem p hp)).1,
    fun p hp => (Node.writable_ofText t _ (hmem p hp)).2, ?_⟩
  intro p hp
  have hindices := map_fst_marks_blocks (Node.ofText t)
  rw [placements_eq] at hp
  cases hnodes : Node.ofText t with
  | nil => simp [hnodes, placeMarked] at hp
  | cons n ns =>
    rw [hnodes] at hp hindices
    cases hms : marks (blocks (n :: ns)) with
    | nil => simp [hms, placeMarked] at hp
    | cons m ms =>
      rw [hms] at hp hindices
      refine breaks_pos_of_mem_placeMarked n.line ns ?_ p hp
      -- Behind the first mark come the indices from one on.
      rw [List.length_cons, List.range_succ_eq_map, List.map_cons, List.cons.injEq] at hindices
      intro m' hm' hzero
      have hfst : m'.1 ∈ ms.map Prod.fst := List.mem_map_of_mem hm'
      rw [hindices.2] at hfst
      obtain ⟨k, -, hk⟩ := List.mem_map.1 hfst
      omega

/-- The pieces at the end of a layout. -/
def Options.finalPieces (o : Options) : List Piece :=
  if o.finalNewline then [.separator '\n'] else []

theorem Options.startsLine_finalPieces (o : Options) : StartsLine o.finalPieces := by
  intro q hq
  unfold finalPieces at hq
  split at hq
  · exact (Option.some.inj hq).symm
  · cases hq

theorem Options.row_finalPieces (o : Options) : Row o.finalPieces := by
  unfold finalPieces
  split
  · exact row_nil.cons (.inr rfl) (by simp)
  · exact row_nil

/-- How a layout is cut when it is read again. -/
theorem ofText_canonical (o : Options) (t : Text) :
    Piece.ofText (canonical o t) =
      (placements (Node.ofText t)).flatMap (·.pieces o) ++ o.finalPieces := by
  have hplaced := placed_placements t
  have htext :
      ((placements (Node.ofText t)).flatMap (·.pieces o) ++ o.finalPieces).flatMap Piece.text =
      canonical o t := by
    have hfinal : o.finalPieces.flatMap Piece.text = if o.finalNewline then ['\n'] else [] := by
      unfold Options.finalPieces
      split <;> rfl
    rw [List.flatMap_append, List.flatMap_assoc, hfinal, canonical, render]
    congr 1
    refine List.flatMap_congr ?_
    intro p hp
    exact p.flatMap_text_pieces o (hplaced.writable p hp)
  rw [← htext, ofText_flatMap_text (row_pieces hplaced o.row_finalPieces o.startsLine_finalPieces)]

theorem Options.statementsAt_finalPieces (o : Options) (there : Position) :
    statementsAt there [] o.finalPieces = [] := by
  unfold finalPieces
  split <;> rfl

theorem Options.problemsAt_finalPieces (o : Options) (there : Position) (flag : Bool) :
    problemsAt there flag o.finalPieces = [] := by
  unfold finalPieces
  split <;> rfl

/-- The layout of a text is read node by node. -/
theorem rereads_canonical (o : Options) (t : Text) :
    Rereads o 0 (placements (Node.ofText t)) (Statement.ofText (canonical o t)) := by
  rw [Statement.ofText_eq, ofText_canonical]
  exact @rereads_statementsAt o _ (placed_placements t) .origin (.inl rfl) _
    o.startsLine_finalPieces o.statementsAt_finalPieces

/-! ### The same program -/

/-- The nodes that are read say what the placed ones say, under their new names. -/
theorem Rereads.forall₂_outline {o : Options} {line : Int} {ps : List Placement}
    {ss : List Statement} (h : Rereads o line ps ss) :
    List.Forall₂ (fun n m => m.outline = ⟨n.kind, Lexeme.rename n.outline.lexemes⟩)
      (ps.map Placement.node) (ss.flatMap Node.ofStatement) := by
  induction h with
  | nil => exact .nil
  | cons node outline _ _ ih =>
    rw [List.map_cons, List.flatMap_cons, node]
    exact .cons outline ih

/-- The lines of the nodes that are read go up, if each placed node has a line break in front of
it. -/
theorem Rereads.lt_line {o : Options} {line : Int} {ps : List Placement} {ss : List Statement}
    (h : Rereads o line ps ss) (hbreaks : ∀ p ∈ ps, 0 < p.breaks) :
    ∀ n ∈ ss.flatMap Node.ofStatement, line < n.line := by
  induction h with
  | nil => simp
  | @cons line p ps s ss n node _ start _ ih =>
    have hp := hbreaks p (by simp)
    intro m hm
    rw [List.flatMap_cons, node, List.singleton_append, List.mem_cons] at hm
    rcases hm with rfl | hm
    · rw [Node.line, start]
      show line < line + p.breaks
      omega
    · have := ih (fun q hq => hbreaks q (by simp [hq])) m hm
      omega

theorem Rereads.pairwise_line {o : Options} {line : Int} {ps : List Placement}
    {ss : List Statement} (h : Rereads o line ps ss) (hbreaks : ∀ p ∈ ps.tail, 0 < p.breaks) :
    (ss.flatMap Node.ofStatement).Pairwise fun n m => n.line < m.line := by
  induction h with
  | nil => exact .nil
  | @cons line p ps s ss n node _ start rest ih =>
    rw [List.flatMap_cons, node, List.singleton_append]
    refine .cons ?_ (ih fun q hq => hbreaks q (List.mem_of_mem_tail hq))
    intro m hm
    rw [Node.line, start]
    exact rest.lt_line hbreaks m hm

/-- The open strings of a text, by what its nodes say. -/
theorem map_content_openStrings (t : Text) :
    (openStrings t).map Token.content =
      ((Node.ofText t).flatMap fun n => n.outline.lexemes.filter Lexeme.isOpenString).map
        Prod.snd := by
  have hnode (ts : List Token) : (ts.filter Token.isOpenString).map Token.content =
      ((ts.map Token.lexeme).filter Lexeme.isOpenString).map Prod.snd := by
    rw [List.filter_map, List.map_map]
    rfl
  rw [openStrings, hnode, List.map_flatMap, List.filter_flatMap]
  rfl

/-- The open strings of a layout are those that were there before. -/
theorem map_content_openStrings_canonical (o : Options) (t : Text) :
    (openStrings (canonical o t)).map Token.content = (openStrings t).map Token.content := by
  have hnodes := (rereads_canonical o t).forall₂_outline
  rw [map_node_placements] at hnodes
  have hkeep {ns ms : List Node}
      (h : List.Forall₂ (fun n m => m.outline = ⟨n.kind, Lexeme.rename n.outline.lexemes⟩) ns ms)
      (hwritable : ∀ n ∈ ns, Lexeme.Writable n.outline.lexemes) :
      (ms.flatMap fun m => m.outline.lexemes.filter Lexeme.isOpenString) =
        ns.flatMap fun n => n.outline.lexemes.filter Lexeme.isOpenString := by
    induction h with
    | nil => rfl
    | @cons n m ns ms houtline _ ih =>
      rw [List.flatMap_cons, List.flatMap_cons, houtline,
        Lexeme.filter_isOpenString_rename (hwritable n (by simp)).wellFormed,
        ih fun k hk => hwritable k (by simp [hk])]
  rw [map_content_openStrings, map_content_openStrings]
  exact congrArg (List.map Prod.snd) (hkeep hnodes fun n hn => (Node.writable_ofText t n hn).1)

/-- Layout keeps the program: there are as many nodes as before, each of the same kind and with
tokens of the same kinds, and what the tokens say is what they said, under the names that the node
has if it stands alone.  Each node has a line of its own, and all that is wrong with the new text
are the strings that were open before. -/
theorem canonical_keeps_program (o : Options) (t : Text) :
    (formatText o t = o.check.map fun _ => canonical o t) ∧
    List.Forall₂ (fun n m : Node =>
        m.kind = n.kind ∧ m.tokens.map Token.kind = n.tokens.map Token.kind ∧
          m.tokens.map Token.content = (n.head :: renameTail n.head n.tail).map Token.content)
      (Node.ofText t) (Node.ofText (canonical o t)) ∧
    (Node.ofText (canonical o t)).Pairwise (fun n m => n.line < m.line) ∧
    Statement.problemsOfText (canonical o t) =
      (openStrings (canonical o t)).map Token.unclosedProblem ∧
    (openStrings (canonical o t)).map Token.content = (openStrings t).map Token.content := by
  have hreread := rereads_canonical o t
  have hplaced := placed_placements t
  refine ⟨rfl, ?_, hreread.pairwise_line hplaced.breaks, ?_, map_content_openStrings_canonical o t⟩
  · have hnodes := hreread.forall₂_outline
    rw [map_node_placements] at hnodes
    refine hnodes.imp ?_
    intro n m houtline
    have hlexemes : m.tokens.map Token.lexeme =
        (n.head :: renameTail n.head n.tail).map Token.lexeme := by
      rw [List.map_cons, map_lexeme_renameTail]
      exact congrArg Outline.lexemes houtline
    refine ⟨congrArg Outline.kind houtline, ?_, ?_⟩
    · have hkinds := congrArg (List.map Prod.fst) hlexemes
      rw [List.map_cons, map_lexeme_renameTail, List.map_cons, Lexeme.map_fst_renameTail] at hkinds
      simpa [Node.tokens, Token.lexeme, Function.comp_def] using hkinds
    · have hcontents := congrArg (List.map Prod.snd) hlexemes
      simpa [Token.lexeme, Function.comp_def] using hcontents
  -- The text of the layout is cut into the pieces that it was made of.
  · rw [openStrings, flatMap_tokens_ofText, Statement.problemsOfText_eq, Statement.ofText_eq,
      ofText_canonical]
    exact problemsAt_pieces hplaced (.inl ⟨rfl, rfl⟩) o.startsLine_finalPieces
      o.statementsAt_finalPieces o.problemsAt_finalPieces

end Layout

end LogicAsm
