import LogicAsm.Proofs.Jumps.Redirecting
import LogicAsm.Proofs.Spans

/-!
# Comments

The comments of a text are the contents of its comment tokens, in their order
(`Document.comments`).  They can be told from the pieces alone (`comments_ofText`), as no comment
has a new name.

What is left of a text once parts of it are deleted is not a row in general: two words that had a
blank between them may stand right behind each other, and are then read as one.  Such a list of
pieces is *loose* (`Loose`), and it has the comments of its pieces all the same
(`comments_ofText_of_loose`).  Nothing else may have lost what stood in front of it: behind a word a
string would not be read as a string any more, and whatever `#` is in it would start a comment.
-/

namespace LogicAsm

/-- The comments among tokens, as they are written. -/
def Token.comments (xs : List Token) : List Text := (xs.filter (·.isComment)).map Token.content

/-- The comments among the tokens of a node. -/
def Node.comments (n : Node) : List Text := Token.comments n.tokens

/-- The comments of a document, in their order. -/
def Document.comments (doc : Document) : List Text := Token.comments doc.tokens

namespace Token

/-- What a token says, if it is a comment. -/
def comment? (x : Token) : Option Text := if x.isComment then some x.content else none

theorem comments_eq (xs : List Token) : comments xs = xs.filterMap comment? := by
  induction xs with
  | nil => rfl
  | cons x xs ih =>
    rw [comments, List.filter_cons, List.filterMap_cons, ← ih, comment?]
    cases x.isComment <;> rfl

theorem comments_append (xs ys : List Token) :
    comments (xs ++ ys) = comments xs ++ comments ys := by
  rw [comments_eq, comments_eq, comments_eq, List.filterMap_append]

/-- No comment has a new name. -/
theorem comments_renameTail (head : Token) {tail : List Token}
    (h : ∀ x ∈ tail, x.lexeme.WellFormed) :
    comments (head :: renameTail head tail) = comments (head :: tail) := by
  have hword (f : Text → Text) (x : Token) (_ : x.kind ≠ .string) (hx : x.kind ≠ .comment) :
      comment? (x.rename f) = comment? x := by
    have hcomment : x.isComment = false := beq_false_of_ne hx
    rw [comment?, comment?, show (x.rename f).isComment = x.isComment from rfl, hcomment]
    rfl
  -- Token by token, so that what comments are made of is only compared in place.
  have hmap : (head :: renameTail head tail).map comment? = (head :: tail).map comment? := by
    rw [List.map_cons, map_renameTail hword head h, List.map_cons]
  have hsame := congrArg (List.filterMap id) hmap
  rwa [List.filterMap_map, List.filterMap_map, Function.id_comp, ← comments_eq,
    ← comments_eq] at hsame

end Token

namespace Node

theorem comments_flatMap_tokens (ns : List Node) :
    Token.comments (ns.flatMap tokens) = ns.flatMap comments := by
  induction ns with
  | nil => rfl
  | cons n ns ih => rw [List.flatMap_cons, Token.comments_append, ih, List.flatMap_cons]; rfl

theorem comments_ofStatement (s : Statement) :
    (ofStatement s).flatMap comments = Token.comments s.tokens := by
  rw [← comments_flatMap_tokens, flatMap_tokens_ofStatement]

end Node

theorem Document.comments_eq (uri : String) (t : Text) :
    (ofText uri t).comments = (Node.ofText t).flatMap Node.comments :=
  Node.comments_flatMap_tokens _

namespace Piece

/-! ### Comments among pieces -/

/-- What a piece says, if it is a comment. -/
def comment? : Piece → Option Text
  | .comment body => some ('#' :: body)
  | _ => none

/-- The comments among pieces. -/
def comments (ps : List Piece) : List Text := ps.filterMap comment?

theorem comments_append (ps qs : List Piece) : comments (ps ++ qs) = comments ps ++ comments qs :=
  List.filterMap_append

theorem comments_cons_word (w : Text) (ps : List Piece) : comments (.word w :: ps) = comments ps :=
  rfl

theorem comments_map_blank (bs : Text) : comments (bs.map .blank) = [] := by
  rw [comments, List.filterMap_map]
  exact List.filterMap_eq_nil_iff.2 fun _ _ => rfl

/-- Comments are told from the tokens or from the pieces. -/
theorem comments_tokensAt (here : Position) (ps : List Piece) :
    Token.comments (tokensAt here ps) = comments ps := by
  induction ps generalizing here with
  | nil => rfl
  | cons p ps ih =>
    rw [tokensAt, Token.comments_append, ih, comments, comments, List.filterMap_cons]
    cases p with
    | word w =>
      have hkind : (classifyWord w).1 ≠ .comment := by
        rcases classifyWord_kind w with h | h | h <;> simp [h]
      simp [tokenAt?, token?, Token.comments, Token.isComment, hkind, comment?]
    | _ => rfl

theorem comments_of_stretch (here : Position) {s : List Piece} (hs : Stretch s)
    (hwf : ∀ p ∈ s, p.WellFormed) : (nodesAt here s).flatMap Node.comments = comments s := by
  rw [nodesAt_of_stretch here hs, ← comments_tokensAt here]
  have hlexemes := @wellFormed_of_mem_tokensAt here s hwf
  cases htokens : tokensAt here s with
  | nil => rfl
  | cons head tail =>
    rw [htokens] at hlexemes
    rw [closeAt, close, List.flatMap_singleton, Node.comments_ofStatement]
    exact Token.comments_renameTail head (List.forall_mem_cons.1 hlexemes).2

theorem comments_nodesAt (here : Position) {ps : List Piece} (hwf : ∀ p ∈ ps, p.WellFormed) :
    (nodesAt here ps).flatMap Node.comments = comments ps := by
  induction ps using stretchInduction generalizing here with
  | last s hs => exact comments_of_stretch here hs hwf
  | more s c rest hs ih =>
    obtain ⟨hs', hrest⟩ := List.forall_mem_append.1 hwf
    rw [nodesAt_append_separator, List.flatMap_append, comments_of_stretch here hs hs',
      ih rest (Nat.le_refl _) _ (List.forall_mem_cons.1 hrest).2, comments_append]
    rfl

theorem comments_ofText (uri : String) (t : Text) :
    (Document.ofText uri t).comments = comments (ofText t) := by
  rw [Document.comments_eq, Node.ofText_eq, comments_nodesAt _ (row_ofText t).wellFormed]

/-- Another word for a destination is no comment. -/
theorem comments_redirect (f : Lexeme → Option Text) (s : List Piece) :
    comments (redirect f s) = comments s := by
  unfold redirect
  split
  · rfl
  · next front w back hcut =>
    obtain ⟨rfl, -⟩ := cutJump_eq_some_iff.1 hcut
    rw [comments_append, comments_append, comments_cons_word, comments_cons_word]

/-! ### Loose lists of pieces -/

/-- Whether the second piece can stand right behind the first one, or both are words. -/
def mayAbut : Piece → Piece → Bool
  | .word _, .word _ => true
  | p, q => p.mayPrecede q

theorem mayAbut_of_mayPrecede {p q : Piece} (h : p.mayPrecede q = true) : p.mayAbut q = true := by
  unfold mayAbut
  split
  · rfl
  · exact h

/-- What can stand behind a word that has lost the blank behind it. -/
theorem mayAbut_word {w : Text} {q : Piece} (h : ∀ body closed, q ≠ .quoted body closed) :
    (word w).mayAbut q = true := by
  cases q with
  | quoted body closed => exact absurd rfl (h body closed)
  | _ => rfl

/-- Well-formed pieces of which none swallows the next one, unless both are words. -/
structure Loose (ps : List Piece) : Prop where
  wellFormed : ∀ p ∈ ps, p.WellFormed
  chain : ps.IsChain (mayAbut · ·)

theorem Row.loose {ps : List Piece} (h : Row ps) : Loose ps :=
  ⟨h.wellFormed, h.chain.imp fun _ _ => mayAbut_of_mayPrecede⟩

theorem Loose.cons {p : Piece} {ps : List Piece} (hp : p.WellFormed) (hps : Loose ps)
    (h : ∀ q ∈ ps.head?, p.mayAbut q = true) : Loose (p :: ps) :=
  ⟨List.forall_mem_cons.2 ⟨hp, hps.wellFormed⟩, List.isChain_cons.2 ⟨h, hps.chain⟩⟩

theorem Loose.append {ps qs : List Piece} (hps : Loose ps) (hqs : Loose qs)
    (h : ∀ p ∈ ps.getLast?, ∀ q ∈ qs.head?, p.mayAbut q = true) : Loose (ps ++ qs) :=
  ⟨List.forall_mem_append.2 ⟨hps.wellFormed, hqs.wellFormed⟩,
    List.isChain_append.2 ⟨hps.chain, hqs.chain, h⟩⟩

/-- A piece in front of others, which is one with the next one if both are words. -/
def fuseOnto : Piece → List Piece → List Piece
  | .word u, .word v :: qs => .word (u ++ v) :: qs
  | p, qs => p :: qs

/-- The pieces with every run of words made one. -/
def fuse (ps : List Piece) : List Piece := ps.foldr fuseOnto []

/-- Two words become one, and nothing else changes. -/
theorem fuseOnto_cases (p : Piece) (qs : List Piece) :
    (∃ u v rest, p = .word u ∧ qs = .word v :: rest ∧ fuseOnto p qs = .word (u ++ v) :: rest) ∨
      fuseOnto p qs = p :: qs ∧ ∀ u v, p = .word u → qs.head? ≠ some (.word v) := by
  cases p with
  | word u =>
    match qs with
    | .word v :: rest => exact .inl ⟨u, v, rest, rfl, rfl, rfl⟩
    | [] => exact .inr ⟨rfl, by simp⟩
    | .blank c :: rest => exact .inr ⟨rfl, by simp⟩
    | .separator c :: rest => exact .inr ⟨rfl, by simp⟩
    | .comment body :: rest => exact .inr ⟨rfl, by simp⟩
    | .quoted body closed :: rest => exact .inr ⟨rfl, by simp⟩
  | _ => exact .inr ⟨rfl, by rintro u v ⟨⟩⟩

theorem fuse_cons (p : Piece) (ps : List Piece) : fuse (p :: ps) = fuseOnto p (fuse ps) := rfl

theorem flatMap_text_fuse (ps : List Piece) : (fuse ps).flatMap text = ps.flatMap text := by
  induction ps with
  | nil => rfl
  | cons p ps ih =>
    rw [fuse_cons, List.flatMap_cons, ← ih]
    rcases fuseOnto_cases p (fuse ps) with ⟨u, v, rest, rfl, hps, hfused⟩ | ⟨hfused, -⟩
    · rw [hfused, hps]
      simp [text]
    · rw [hfused, List.flatMap_cons]

theorem comments_fuse (ps : List Piece) : comments (fuse ps) = comments ps := by
  induction ps with
  | nil => rfl
  | cons p ps ih =>
    have hcons : comments (p :: ps) = comments (p :: fuse ps) := by
      rw [comments, List.filterMap_cons, ← comments, ← ih]
      rfl
    rw [fuse_cons, hcons]
    rcases fuseOnto_cases p (fuse ps) with ⟨u, v, rest, rfl, hps, hfused⟩ | ⟨hfused, -⟩
    · rw [hfused, hps]
      rfl
    · rw [hfused]

/-- What is fused starts as before, with a longer word at most. -/
theorem head?_fuse {ps : List Piece} {q : Piece} (hq : (fuse ps).head? = some q) :
    ps.head? = some q ∨ ∃ v w, ps.head? = some (.word v) ∧ q = .word w := by
  cases ps with
  | nil => cases hq
  | cons p ps =>
    rw [fuse_cons] at hq
    rcases fuseOnto_cases p (fuse ps) with ⟨u, v, rest, rfl, -, hfused⟩ | ⟨hfused, -⟩
    · rw [hfused] at hq
      exact .inr ⟨u, u ++ v, rfl, (Option.some.inj hq).symm⟩
    · rw [hfused] at hq
      exact .inl hq

/-- A loose list is a row once its words are fused. -/
theorem Loose.row_fuse {ps : List Piece} (h : Loose ps) : Row (fuse ps) := by
  induction ps with
  | nil => exact row_nil
  | cons p ps ih =>
    obtain ⟨hp, hps⟩ := List.forall_mem_cons.1 h.wellFormed
    obtain ⟨hnext, hchain⟩ := List.isChain_cons.1 h.chain
    have hrow : Row (fuse ps) := ih ⟨hps, hchain⟩
    rw [fuse_cons]
    rcases fuseOnto_cases p (fuse ps) with ⟨u, v, rest, rfl, heq, hfused⟩ | ⟨hfused, hwords⟩
    · rw [heq] at hrow
      have hv := hrow.wellFormed (.word v) List.mem_cons_self
      rw [hfused]
      refine @Row.replace_word [] rest v hrow (u ++ v) ⟨?_, ?_, fun c hc => ?_⟩
      · simp [hp.1]
      · rw [List.head?_append_of_ne_nil _ hp.1]
        exact hp.2.1
      · exact (List.mem_append.1 hc).elim (hp.2.2 c) (hv.2.2 c)
    · rw [hfused]
      refine hrow.cons hp fun q hq => ?_
      -- The next piece is the same as before, or a word, and then the piece in front is none.
      have hself (r : Piece) (hr : ps.head? = some r) (hword : ∀ u v, p = .word u → r ≠ .word v) :
          p.mayPrecede r = true := by
        have habut := hnext r hr
        unfold mayAbut at habut
        split at habut
        · exact absurd rfl (hword _ _ rfl)
        · exact habut
      rcases head?_fuse hq with hsame | ⟨v, w, hv, rfl⟩
      · exact hself q hsame fun u v hu hv => hwords u v hu (hv ▸ hq)
      · have hprecede := hself (.word v) hv fun u _ hu _ => hwords u w hu hq
        cases p with
        | word u => cases hprecede
        | quoted body closed => cases closed <;> exact hprecede
        | _ => exact hprecede

theorem comments_ofText_of_loose (uri : String) {ps : List Piece} (h : Loose ps) :
    (Document.ofText uri (ps.flatMap text)).comments = comments ps := by
  rw [comments_ofText, ← flatMap_text_fuse, ofText_flatMap_text h.row_fuse, comments_fuse]

end Piece

end LogicAsm
