import LogicAsm.Proofs.Comments

/-!
# The segments of a statement

A stretch is cut into segments, one for each of its nodes: the blanks in front of the node and the
pieces that it is read from (`exists_laid`).  All segments but the last one are labels, of one word
each.  Whatever else there is belongs to the last one, with the blanks and the comment at its end.
-/

namespace LogicAsm

open Piece

/-- Tokens are one node, or a label in front of others. -/
theorem Node.ofTokens_cases (stop : Position) (head : Token) (tail : List Token) :
    (∃ kind, ofTokens stop (head :: tail) = [⟨kind, head, tail, stop⟩] ∧
      (head.kind = .string → kind = .instruction)) ∨
    head.isLabel = true ∧ tail.head?.any (!·.isComment) = true ∧
      ofTokens stop (head :: tail) = ofLabel head :: ofTokens stop tail := by
  cases hcomment : head.isComment with
  | true =>
    refine .inl ⟨.comment, by rw [ofTokens.eq_def]; simp [hcomment], fun hkind => ?_⟩
    rw [Token.isComment, hkind] at hcomment
    cases hcomment
  | false =>
  cases hlabel : head.isLabel with
  | false =>
    exact .inl ⟨.instruction, by rw [ofTokens.eq_def]; simp [hcomment, hlabel], fun _ => rfl⟩
  | true =>
    have hidentifier : head.kind = .identifier := @Lexeme.kind_of_isLabel head.lexeme hlabel
    have hstring : head.kind = .string → NodeKind.label = .instruction := by simp [hidentifier]
    cases tail with
    | nil => exact .inl ⟨.label, by rw [ofTokens.eq_def]; simp [hcomment, hlabel], hstring⟩
    | cons second rest =>
      cases hsecond : second.isComment with
      | true =>
        exact .inl ⟨.label, by rw [ofTokens.eq_def]; simp [hcomment, hlabel, hsecond], hstring⟩
      | false =>
        refine .inr ⟨rfl, by simp [hsecond], ?_⟩
        rw [ofTokens, hcomment, hlabel, hsecond]
        rfl

/-- A node with the blanks in front of it and the pieces that it is read from. -/
structure Segment where
  blanks : Text
  pieces : List Piece
  node : Node

namespace Segment

/-- All pieces of a segment. -/
def all (g : Segment) : List Piece := g.blanks.map .blank ++ g.pieces

/-- What a segment is cut from. -/
def text (g : Segment) : Text := g.blanks ++ g.pieces.flatMap Piece.text

theorem flatMap_text_all (g : Segment) : g.all.flatMap Piece.text = g.text := by
  rw [all, List.flatMap_append, flatMap_text_map_blank, text]

/-- A segment that starts at a position. -/
structure At (here : Position) (g : Segment) : Prop where
  blank : ∀ c ∈ g.blanks, isBlank c = true
  stretch : Stretch g.pieces
  text_ne : g.pieces.flatMap Piece.text ≠ []
  start : g.node.start = here.advance g.blanks
  stop : g.node.stop = here.advance g.text
  comments : g.node.comments = Piece.comments g.pieces
  redirections : ∀ f, Rewords f →
    (Jumps.redirection? f g.node).toList = Piece.redirections f (here.advance g.blanks) g.pieces
  quoted : ∀ body closed, g.pieces.head? = some (.quoted body closed) →
    g.node.isInstruction = true ∧ g.node.head.kind = .string

theorem At.pieces_ne {here : Position} {g : Segment} (h : g.At here) : g.pieces ≠ [] := by
  intro hnil
  exact h.text_ne (by rw [hnil]; rfl)

/-- Segments one behind the other, of which all but the last one are labels. -/
inductive Laid : Position → List Segment → Prop where
  | last {here : Position} {g : Segment} (h : g.At here) : Laid here [g]
  | label {here : Position} {g next : Segment} {gs : List Segment} (h : g.At here)
      (isLabel : g.node.isLabel = true) {w : Text} (word : g.pieces = [.word w])
      (rest : Laid (here.advance g.text) (next :: gs)) : Laid here (g :: next :: gs)

theorem Laid.exists_cons {here : Position} {gs : List Segment} (h : Laid here gs) :
    ∃ g more, gs = g :: more := by
  cases h with
  | last h => exact ⟨_, _, rfl⟩
  | label h isLabel word rest => exact ⟨_, _, rfl⟩

/-- The first segment stands where the segments start. -/
theorem Laid.head {here : Position} {g : Segment} {gs : List Segment} (h : Laid here (g :: gs)) :
    g.At here := by
  cases h with
  | last h => exact h
  | label h isLabel word rest => exact h

/-- Each segment stands somewhere. -/
theorem Laid.exists_at {here : Position} {gs : List Segment} (h : Laid here gs) :
    ∀ g ∈ gs, ∃ there, g.At there := by
  induction h with
  | last h => exact List.forall_mem_singleton.2 ⟨_, h⟩
  | label h _ _ _ ih => exact List.forall_mem_cons.2 ⟨⟨_, h⟩, ih⟩

/-- The last node ends where the segments do. -/
theorem Laid.getLast?_stop {here : Position} {gs : List Segment} (h : Laid here gs) :
    ∀ n ∈ (gs.map node).getLast?, n.stop = here.advance (gs.flatMap text) := by
  induction h with
  | last h =>
    rintro n ⟨⟩
    rw [List.flatMap_singleton]
    exact h.stop
  | @label here g next gs h isLabel w word rest ih =>
    intro n hn
    rw [List.flatMap_cons, here.advance_append]
    exact ih n hn

theorem flatMap_text_flatMap_all (gs : List Segment) :
    (gs.flatMap all).flatMap Piece.text = gs.flatMap text := by
  rw [List.flatMap_assoc]
  exact List.flatMap_congr fun g _ => g.flatMap_text_all

end Segment

open Segment

/-- Nodes that have the comments of pieces and the edits of their destinations. -/
structure Node.Cover (here : Position) (s : List Piece) (ns : List Node) : Prop where
  comments : ns.flatMap Node.comments = Piece.comments s
  redirections : ∀ f, Rewords f → ns.filterMap (Jumps.redirection? f) = redirections f here s

/-- A stretch that is one node is one segment. -/
theorem exists_laid_of_one {here : Position} (hpos : 0 ≤ here.character) {s : List Piece}
    (hs : Stretch s) (hwf : ∀ p ∈ s, p.WellFormed) {x : Token} {xs : List Token}
    (htokens : tokensAt here s = x :: xs) {kind : NodeKind} {head : Token} {tail : List Token}
    (hplace : head.place = x.place) (hstring : head.kind = .string → kind = .instruction)
    {ns : List Node} (hns : ns = [⟨kind, head, tail, here.advance (s.flatMap Piece.text)⟩])
    (hcover : Node.Cover here s ns) :
    ∃ gs, Laid here gs ∧ gs.flatMap all = s ∧ gs.map node = ns := by
  obtain ⟨bs, p, rest, rfl, hbs, hp, hstart, -, -⟩ := exists_of_tokensAt_eq_cons hpos hs hwf htokens
  obtain ⟨n, hn⟩ : ∃ n : Node, n = ⟨kind, head, tail, here.advance (List.flatMap Piece.text
    (bs.map .blank ++ p :: rest))⟩ := ⟨_, rfl⟩
  rw [← hn] at hns
  have hcomments := hcover.comments
  rw [hns, List.flatMap_singleton] at hcomments
  refine ⟨[⟨bs, p :: rest, n⟩], .last ⟨hbs, hs.right, ?_, ?_, ?_, ?_, ?_, ?_⟩, ?_, hns.symm⟩
  · obtain ⟨c, hc⟩ := (hwf p (by simp)).exists_head
    exact List.ne_nil_of_mem
      (List.mem_flatMap.2 ⟨p, List.mem_cons_self, List.mem_of_mem_head? hc⟩)
  · rw [hn]
    exact (congrArg (·.2.start) hplace).trans hstart
  · rw [hn, List.flatMap_append, flatMap_text_map_blank]
    rfl
  · rw [hcomments, comments_append, comments_map_blank]
    rfl
  · intro f hf
    -- Blanks hold no token, so they do not change which word is the destination.
    have hblanks : ∀ x ∈ (bs.map Piece.blank).filterMap lexeme?, x.isLabel = true := by
      rw [filterMap_lexeme?_map_blank]
      simp
    have hedits := hcover.redirections f hf
    rw [hns, List.filterMap_eq_flatMap_toList, List.flatMap_singleton,
      redirections_append hs.left hblanks, flatMap_text_map_blank] at hedits
    exact hedits
  · rintro body closed ⟨⟩
    have hx : x.kind = .string := congrArg Prod.fst (Option.some.inj hp).symm
    have hhead : head.kind = .string := (congrArg Prod.fst hplace).trans hx
    rw [hn, hstring hhead]
    exact ⟨rfl, hhead⟩
  · rw [List.flatMap_singleton]
    rfl

/-- A label in front of a stretch is cut off, and nothing is lost of what stands behind it. -/
theorem exists_at_of_label {here : Position} (hpos : 0 ≤ here.character) {s : List Piece}
    (hs : Stretch s) (hwf : ∀ p ∈ s, p.WellFormed) {x : Token} {xs : List Token}
    (htokens : tokensAt here s = x :: xs) (hlabel : x.isLabel = true) :
    ∃ (g : Segment) (v : List Piece), s = g.all ++ v ∧ g.At here ∧ g.node = Node.ofLabel x ∧
      g.pieces = [.word x.content] ∧ tokensAt (here.advance g.text) v = xs ∧
      Piece.comments s = Piece.comments v ∧
      ∀ f, redirections f here s = redirections f (here.advance g.text) v := by
  obtain ⟨bs, p, v, rfl, hbs, hp, hstart, hstop, hv⟩ :=
    exists_of_tokensAt_eq_cons hpos hs hwf htokens
  have hkind := @Lexeme.kind_of_isLabel x.lexeme hlabel
  obtain ⟨rfl, -⟩ := eq_word_of_lexeme? hp (by simp [hkind]) (by simp [hkind])
  have hp : (word x.content).lexeme? = some x.lexeme := hp
  have hcomments : (Node.ofLabel x).comments = [] := by
    simp [Node.comments, Token.comments, Node.tokens, Node.ofLabel,
      Token.isComment_of_isLabel hlabel]
  have htext : (bs.map Piece.blank ++ [word x.content]).flatMap Piece.text = bs ++ x.content := by
    rw [List.flatMap_append, flatMap_text_map_blank, List.flatMap_singleton]
    rfl
  have hlabels : ∀ y ∈ (bs.map Piece.blank ++ [word x.content]).filterMap lexeme?,
      y.isLabel = true := by
    rw [List.filterMap_append, filterMap_lexeme?_map_blank, List.nil_append,
      List.filterMap_cons_some hp]
    exact List.forall_mem_singleton.2 hlabel
  have hcut : bs.map Piece.blank ++ word x.content :: v =
      (bs.map Piece.blank ++ [word x.content]) ++ v := List.append_cons _ _ _
  have hsegment : Segment.text ⟨bs, [word x.content], Node.ofLabel x⟩ = bs ++ x.content := by
    simp [Segment.text, Piece.text]
  refine ⟨⟨bs, [word x.content], Node.ofLabel x⟩, v, hcut, ⟨hbs, ?_, ?_, hstart, ?_, hcomments,
    fun f _ => ?_, ?_⟩, rfl, rfl, ?_, ?_, fun f => ?_⟩
  · exact (hcut ▸ hs).left.right
  · have hw : (word x.content).WellFormed := hwf _ (List.mem_append_right _ List.mem_cons_self)
    simpa [Piece.text] using hw.1
  · rw [hsegment]
    exact hstop
  · have hnone : cutJump [word x.content] = none := by simp [cutJump, cutOperand]
    rw [redirections, hnone]
    rfl
  · rintro body closed ⟨⟩
  · rw [hsegment]
    exact hv.symm
  · rw [comments_append, comments_map_blank]
    rfl
  · have hfront : Stretch (bs.map Piece.blank ++ [word x.content]) := (hcut ▸ hs).left
    have happend := @redirections_append f _ hfront hlabels here v
    rw [htext, ← hcut] at happend
    rw [hsegment]
    exact happend

/-- Tokens under the names of operands are the nodes of segments. -/
theorem exists_laid_of_operands {here : Position} (hpos : 0 ≤ here.character) {s : List Piece}
    (hs : Stretch s) (hwf : ∀ p ∈ s, p.WellFormed) {x : Token} {xs : List Token}
    (htokens : tokensAt here s = x :: xs) {ns : List Node}
    (hns : ns = Node.ofTokens (here.advance (s.flatMap Piece.text))
      (x.rename renamedOperand :: xs.map (Token.rename renamedOperand)))
    (hcover : Node.Cover here s ns) :
    ∃ gs, Laid here gs ∧ gs.flatMap all = s ∧ gs.map node = ns := by
  have hplace (x : Token) : (x.rename renamedOperand).place = x.place := rfl
  induction xs generalizing here s x ns with
  | nil =>
    rcases Node.ofTokens_cases (here.advance (s.flatMap Piece.text)) (x.rename renamedOperand) []
      with ⟨kind, hone, hstring⟩ | ⟨-, hnone, -⟩
    · exact exists_laid_of_one hpos hs hwf htokens (hplace x) hstring (hns.trans hone) hcover
    · cases hnone
  | cons y ys ih =>
    rcases Node.ofTokens_cases (here.advance (s.flatMap Piece.text)) (x.rename renamedOperand)
      ((y :: ys).map (Token.rename renamedOperand)) with ⟨kind, hone, hstring⟩ | ⟨hlabel, -, hmore⟩
    · exact exists_laid_of_one hpos hs hwf htokens (hplace x) hstring (hns.trans hone) hcover
    have hlabel : x.isLabel = true :=
      (Lexeme.isLabel_map_renamedOperand x.lexeme).symm.trans hlabel
    rw [Token.rename_of_isLabel hlabel] at hmore hns
    -- A label is cut off, and the rest of the stretch is a shorter one.
    obtain ⟨g, v, rfl, hg, hnode, hword, hv, hcut, hredirections⟩ :=
      exists_at_of_label hpos hs hwf htokens hlabel
    rw [hmore, ← hnode, List.flatMap_append, flatMap_text_all, here.advance_append] at hns
    have hlater : Node.Cover (here.advance g.text) v (Node.ofTokens
        ((here.advance g.text).advance (v.flatMap Piece.text))
        ((y :: ys).map (Token.rename renamedOperand))) := by
      refine ⟨?_, fun f hf => ?_⟩
      · rw [← hcut, ← hcover.comments, hns, List.flatMap_cons, hg.comments, hword]
        rfl
      · rw [← hredirections f, ← hcover.redirections f hf, hns, hnode]
        rfl
    obtain ⟨gs, hlaid, hall, hgs⟩ := ih (here.character_advance_nonneg hpos _) hs.right
      (fun q hq => hwf q (List.mem_append_right _ hq)) hv rfl hlater
    obtain ⟨next, gs, rfl⟩ := hlaid.exists_cons
    refine ⟨g :: next :: gs, .label hg (by rw [hnode]; rfl) hword hlaid, ?_, ?_⟩
    · rw [List.flatMap_cons, hall]
    · rw [List.map_cons, hgs, hns]
      rfl

/-- The nodes of a stretch are those of segments that it is cut into. -/
theorem exists_laid {here : Position} (hpos : 0 ≤ here.character) {s : List Piece} (hs : Stretch s)
    (hwf : ∀ p ∈ s, p.WellFormed) {x : Token} {xs : List Token}
    (htokens : tokensAt here s = x :: xs) :
    ∃ gs, Laid here gs ∧ gs.flatMap all = s ∧ gs.map node = nodesAt here s := by
  have hnodes := nodesAt_of_tokensAt hpos hs htokens
  have hcover : Node.Cover here s (nodesAt here s) :=
    ⟨comments_of_stretch here hs hwf, fun f hf => filterMap_redirection? hf hpos hs hwf⟩
  rcases Node.ofTokens_cases (here.advance (s.flatMap Piece.text)) x (renameTail x xs) with
    ⟨kind, hone, hstring⟩ | ⟨hlabel, -, -⟩
  · exact exists_laid_of_one hpos hs hwf htokens rfl hstring (hnodes.trans hone) hcover
  · -- Behind a label all names are those of operands.
    have hoperands := cons_renameTail (Jumps.ne_op_of_isLabel hlabel)
      (Token.rename_of_isLabel hlabel) xs
    rw [hoperands] at hnodes
    exact exists_laid_of_operands hpos hs hwf htokens hnodes hcover

end LogicAsm
