import LogicAsm.Edit
import LogicAsm.Proofs.Outlines

/-!
# Tokens and their source

A token says what stands in its place, but for words that have a new name.  The text in its place is
its *source* (`Document.source`): the piece that the token was read from (`source_eq`).  The tokens
of a stretch are found one by one, with the blanks in front of them and with their places
(`exists_of_tokensAt_eq_cons`).
-/

namespace LogicAsm

namespace Position

theorem character_advance_nonneg {here : Position} (h : 0 ≤ here.character) (t : Text) :
    0 ≤ (here.advance t).character := by
  induction t generalizing here with
  | nil => exact h
  | cons c cs ih =>
    refine @ih (here.after c) ?_
    unfold after
    split
    · exact Int.le_refl 0
    · exact Int.le_add_one h

theorem character_origin_advance (t : Text) : 0 ≤ (origin.advance t).character :=
  @character_advance_nonneg origin (Int.le_refl 0) t

end Position

namespace Document

/-- The text in the place of a token. -/
def source (doc : Document) (t : Token) : Text :=
  Edit.slice doc.text (doc.offsetAt t.start) (doc.offsetAt t.stop)

/-- The source of a token is what stands between the two cuts that are its place. -/
theorem source_eq (uri : String) (a w b : Text) {t : Token}
    (hstart : t.start = Position.origin.advance a)
    (hstop : t.stop = Position.origin.advance (a ++ w)) :
    (ofText uri (a ++ (w ++ b))).source t = w := by
  have hfirst := offsetAt_advance uri a (w ++ b)
  have hlast := offsetAt_advance uri (a ++ w) b
  rw [List.append_assoc] at hlast
  rw [source, hstart, hstop, hfirst, hlast, Edit.slice,
    show (ofText uri (a ++ (w ++ b))).text = a ++ (w ++ b) from rfl, List.drop_left,
    List.length_append, Nat.add_sub_cancel_left, List.take_left]

end Document

/-- What a token is and where it stands, whatever it says. -/
def Token.place (t : Token) : TokenKind × Range := (t.kind, t.range)

/-- Renaming changes what tokens say, not what they are and where they stand. -/
theorem map_place_renameTail (head : Token) (tail : List Token) :
    (renameTail head tail).map Token.place = tail.map Token.place := by
  unfold renameTail
  split
  · cases tail with
    | nil => rfl
    | cons t ts => simp [Token.place, Token.rename, Token.range]
  · simp [Token.place, Token.rename, Token.range]

/-- Only a word has a new name. -/
theorem Token.rename_eq_self_or {f : Text → Text}
    (hf : ∀ w, f w = w ∨ (w, f w) ∈ Lexeme.newNames) {x : Token} (hx : x.lexeme.WellFormed) :
    x.rename f = x ∨ x.kind ≠ .string ∧ x.kind ≠ .comment := by
  rcases hf x.content with hself | hnew
  · exact .inl (by rw [rename, hself])
  obtain ⟨hhash, hquote⟩ := (Lexeme.newNames_words _ hnew).1
  obtain ⟨p, -, hlexeme⟩ := hx
  obtain ⟨hkind, hcontent⟩ : _ ∧ _ := ⟨congrArg (Option.map Prod.fst) hlexeme,
    congrArg (Option.map Prod.snd) hlexeme⟩
  -- An old name has no `#` and no quote, so neither a comment nor a string has one as its text.
  cases p with
  | blank c => cases hlexeme
  | separator c => cases hlexeme
  | comment body =>
    rw [show x.content = '#' :: body from (Option.some.inj hcontent).symm] at hhash
    exact absurd rfl hhash
  | quoted body closed =>
    rw [show x.content = (Piece.quoted body closed).text from (Option.some.inj hcontent).symm]
      at hquote
    exact absurd rfl hquote
  | word w =>
    right
    rw [show x.kind = (classifyWord w).1 from (Option.some.inj hkind).symm]
    rcases classifyWord_kind w with h | h | h <;> simp [h]

/-- What is the same for all words of a kind in a place is not changed by renaming. -/
theorem map_renameTail {α : Type} {g : Token → α}
    (hg : ∀ (f : Text → Text) (x : Token), x.kind ≠ .string → x.kind ≠ .comment →
      g (x.rename f) = g x)
    (head : Token) {tail : List Token} (h : ∀ x ∈ tail, x.lexeme.WellFormed) :
    (renameTail head tail).map g = tail.map g := by
  have hrename {f : Text → Text} (hf : ∀ w, f w = w ∨ (w, f w) ∈ Lexeme.newNames) {x : Token}
      (hx : x.lexeme.WellFormed) : g (x.rename f) = g x := by
    rcases Token.rename_eq_self_or hf hx with hself | ⟨hstring, hcomment⟩
    · rw [hself]
    · exact hg f x hstring hcomment
  have hoperand {xs : List Token} (h : ∀ x ∈ xs, x.lexeme.WellFormed) :
      (xs.map (Token.rename renamedOperand)).map g = xs.map g := by
    rw [List.map_map]
    exact List.map_congr_left fun x hx => hrename Lexeme.renamedOperand_eq_or (h x hx)
  unfold renameTail
  split
  · cases tail with
    | nil => rfl
    | cons x xs =>
      obtain ⟨hx, hxs⟩ := List.forall_mem_cons.1 h
      -- The operation is renamed first, and what comes out of it must still be a token.
      have hwf : (x.rename renamedOperation).lexeme.WellFormed :=
        (hx.renamed (Lexeme.renamedOperation_eq_or x.content)).1
      rw [List.modifyHead_cons, hoperand (List.forall_mem_cons.2 ⟨hwf, hxs⟩), List.map_cons,
        hrename Lexeme.renamedOperation_eq_or hx, List.map_cons]
  · exact hoperand h

namespace Piece

/-! ### Blanks -/

theorem flatMap_text_map_blank (cs : Text) : (cs.map Piece.blank).flatMap text = cs := by
  induction cs with
  | nil => rfl
  | cons c cs ih => rw [List.map_cons, List.flatMap_cons, ih]; rfl

/-- Blanks move on and nothing else. -/
theorem tokensAt_blanks (here : Position) (cs : Text) (ps : List Piece) :
    tokensAt here (cs.map .blank ++ ps) = tokensAt (here.advance cs) ps := by
  induction cs generalizing here with
  | nil => rfl
  | cons c cs ih =>
    rw [List.map_cons, List.cons_append, tokensAt, ih, ← List.singleton_append (l := cs),
      here.advance_append]
    rfl

theorem tokensAt_append (here : Position) (ps qs : List Piece) :
    tokensAt here (ps ++ qs) =
      tokensAt here ps ++ tokensAt (here.advance (ps.flatMap text)) qs := by
  induction ps generalizing here with
  | nil => rfl
  | cons p ps ih =>
    rw [List.cons_append, tokensAt, tokensAt, ih, List.append_assoc, List.flatMap_cons,
      here.advance_append]

theorem filterMap_lexeme?_map_blank (cs : Text) : (cs.map Piece.blank).filterMap lexeme? = [] := by
  rw [List.filterMap_map]
  exact List.filterMap_eq_nil_iff.2 fun _ _ => rfl

theorem flatMap_text_padded (cs ds : Text) (p : Piece) :
    (cs.map Piece.blank ++ p :: ds.map .blank).flatMap text = cs ++ p.text ++ ds := by
  rw [List.flatMap_append, List.flatMap_cons, flatMap_text_map_blank, flatMap_text_map_blank,
    List.append_assoc]

/-- One token between blanks. -/
theorem filterMap_lexeme?_padded (cs ds : Text) {p : Piece} {x : Lexeme}
    (hx : p.lexeme? = some x) :
    (cs.map Piece.blank ++ p :: ds.map .blank).filterMap lexeme? = [x] := by
  rw [List.filterMap_append, List.filterMap_cons_some hx, filterMap_lexeme?_map_blank,
    filterMap_lexeme?_map_blank]
  rfl

/-- A token starts with neither a blank nor a line end. -/
theorem head?_of_lexeme? {p : Piece} (hp : p.WellFormed) {x : Lexeme} (hx : p.lexeme? = some x) :
    ∀ c ∈ p.text.head?, isBlank c = false ∧ endsLine c = false := by
  intro c hc
  cases p with
  | blank d => cases hx
  | separator d => cases hx
  | comment body =>
    cases hc
    decide
  | quoted body closed =>
    cases hc
    decide
  | word w =>
    obtain ⟨hin, hnewline⟩ := hp.2.2 c (List.mem_of_mem_head? hc)
    simp only [inWord, isSeparator, Bool.and_eq_true, Bool.not_eq_true',
      Bool.or_eq_false_iff] at hin
    refine ⟨hin.1.1, ?_⟩
    rw [endsLine, hin.1.2.2, Bool.false_or]
    exact beq_false_of_ne hnewline

/-! ### Tokens of statements -/

/-- A statement is made of tokens that were found, under their new names. -/
theorem exists_of_mem_statementsAt {here : Position} {found : List Token} {ps : List Piece} :
    ∀ s ∈ statementsAt here found ps, ∃ tail, s.tail = renameTail s.head tail ∧
      ∀ t ∈ s.head :: tail, t ∈ found ∨ t ∈ tokensAt here ps := by
  have hclose {there : Position} {ts : List Token} : ∀ s ∈ closeAt there ts,
      ∃ tail, s.tail = renameTail s.head tail ∧ ∀ t ∈ s.head :: tail, t ∈ ts := by
    intro s hs
    cases ts with
    | nil => cases hs
    | cons head tail =>
      obtain rfl := List.mem_singleton.1 hs
      exact ⟨tail, rfl, fun t ht => ht⟩
  induction ps generalizing here found with
  | nil =>
    intro s hs
    obtain ⟨tail, htail, hfound⟩ := hclose s hs
    exact ⟨tail, htail, fun t ht => .inl (hfound t ht)⟩
  | cons p ps ih =>
    intro s hs
    rw [statementsAt] at hs
    simp only [tokensAt, List.mem_append]
    -- At a separator the tokens found so far make a statement, and the next one begins with none.
    split at hs
    · rcases List.mem_append.1 hs with hs | hs
      · obtain ⟨tail, htail, hfound⟩ := hclose s hs
        exact ⟨tail, htail, fun t ht => .inl (hfound t ht)⟩
      · obtain ⟨tail, htail, hfound⟩ := ih s hs
        refine ⟨tail, htail, fun t ht => .inr (.inr ?_)⟩
        exact (hfound t ht).resolve_left List.not_mem_nil
    · obtain ⟨tail, htail, hfound⟩ := ih s hs
      refine ⟨tail, htail, fun t ht => ?_⟩
      rcases hfound t ht with hearlier | hlater
      · rcases List.mem_append.1 hearlier with hearlier | hhere
        · exact .inl hearlier
        · exact .inr (.inl hhere)
      · exact .inr (.inr hlater)

/-! ### Places of tokens -/

/-- A token starts where it is read. -/
theorem start_of_tokenAt? {here : Position} (hpos : 0 ≤ here.character) {p : Piece} {t : Token}
    (h : p.tokenAt? here = some t) : t.start = here := by
  have hcast : ((here.character.toNat : Nat) : Int) = here.character := Int.toNat_of_nonneg hpos
  cases p <;> cases h <;> simp [hcast]

/-- A token ends where its piece does. -/
theorem stop_of_tokenAt? {here : Position} (hpos : 0 ≤ here.character) {p : Piece}
    (hp : p.WellFormed) {t : Token} (h : p.tokenAt? here = some t) :
    t.stop = here.advance p.text := by
  have hnewline : '\n' ∉ p.text := by
    refine hp.newline_not_mem ?_
    rintro rfl
    cases h
  have hcast : ((here.character.toNat : Nat) : Int) = here.character := Int.toNat_of_nonneg hpos
  rw [Position.advance_of_newline_not_mem _ hnewline]
  cases p <;> cases h <;> simp [hcast]

theorem lexeme_of_tokenAt? {here : Position} {p : Piece} {t : Token}
    (h : p.tokenAt? here = some t) : p.lexeme? = some t.lexeme := by
  cases p <;> cases h <;> rfl

theorem wellFormed_of_mem_tokensAt {here : Position} {ps : List Piece}
    (hwf : ∀ p ∈ ps, p.WellFormed) : ∀ t ∈ tokensAt here ps, t.lexeme.WellFormed := by
  intro t ht
  have hmem : t.lexeme ∈ ps.filterMap lexeme? := by
    rw [← map_lexeme_tokensAt here]
    exact List.mem_map_of_mem ht
  obtain ⟨p, hp, hlexeme⟩ := List.mem_filterMap.1 hmem
  exact ⟨p, hwf p hp, hlexeme⟩

/-- In front of the renaming every token says what stands in its place. -/
theorem source_of_mem_tokensAt (uri : String) {a b : Text} {ps : List Piece}
    (hwf : ∀ p ∈ ps, p.WellFormed) :
    ∀ t ∈ tokensAt (Position.origin.advance a) ps,
      (Document.ofText uri (a ++ (ps.flatMap text ++ b))).source t = t.content := by
  induction ps generalizing a with
  | nil => simp [tokensAt]
  | cons p ps ih =>
    have hpos := Position.character_origin_advance a
    intro t ht
    rw [List.flatMap_cons, List.append_assoc]
    rcases List.mem_append.1 ht with ht | ht
    · have htoken : p.tokenAt? (Position.origin.advance a) = some t := Option.mem_toList.1 ht
      have hstop := stop_of_tokenAt? hpos (hwf p (by simp)) htoken
      rw [← Position.advance_append] at hstop
      rw [Document.source_eq uri a p.text _ (start_of_tokenAt? hpos htoken) hstop]
      exact text_of_lexeme? (lexeme_of_tokenAt? htoken)
    · rw [← Position.advance_append] at ht
      have hsource := ih (fun q hq => hwf q (by simp [hq])) t ht
      rwa [List.append_assoc] at hsource

/-- The first token of a stretch stands behind blanks, and the others behind it. -/
theorem exists_of_tokensAt_eq_cons {here : Position} (hpos : 0 ≤ here.character) {s : List Piece}
    (hs : Stretch s) (hwf : ∀ p ∈ s, p.WellFormed) {t : Token} {ts : List Token}
    (h : tokensAt here s = t :: ts) :
    ∃ bs p rest, s = bs.map .blank ++ p :: rest ∧ (∀ c ∈ bs, isBlank c = true) ∧
      p.lexeme? = some t.lexeme ∧ t.start = here.advance bs ∧
      t.stop = here.advance (bs ++ p.text) ∧
      ts = tokensAt (here.advance (bs ++ p.text)) rest := by
  induction s generalizing here with
  | nil => cases h
  | cons p ps ih =>
    have hp := hwf p (by simp)
    cases htoken : p.tokenAt? here with
    | none =>
      -- Within a stretch only a blank is no token.
      obtain ⟨c, rfl⟩ : ∃ c, p = .blank c := by
        cases p with
        | blank c => exact ⟨c, rfl⟩
        | separator c => exact absurd (hs _ (List.mem_cons_self)) (by simp [endsStatement])
        | _ => cases htoken
      rw [tokensAt, htoken] at h
      obtain ⟨bs, q, rest, rfl, hbs, hlex, hstart, hstop, hts⟩ :=
        ih (here.character_advance_nonneg hpos _) hs.tail (fun r hr => hwf r (by simp [hr])) h
      have hcons (u : Text) : here.advance (c :: u) = (here.advance (blank c).text).advance u := rfl
      refine ⟨c :: bs, q, rest, rfl, ?_, hlex, ?_, ?_, ?_⟩
      · intro d hd
        rcases List.mem_cons.1 hd with rfl | hd
        · exact hp
        · exact hbs d hd
      · rw [hcons, hstart]
      · rw [List.cons_append, hcons, hstop]
      · rw [List.cons_append, hcons, hts]
    | some u =>
      rw [tokensAt, htoken] at h
      obtain ⟨rfl, hts⟩ : u = t ∧ tokensAt (here.advance p.text) ps = ts := by simpa using h
      exact ⟨[], p, ps, rfl, by simp, lexeme_of_tokenAt? htoken, start_of_tokenAt? hpos htoken,
        stop_of_tokenAt? hpos hp htoken, hts.symm⟩

theorem text_ne_nil_of_tokensAt {here : Position} (hpos : 0 ≤ here.character) {s : List Piece}
    (hs : Stretch s) (hwf : ∀ p ∈ s, p.WellFormed) {t : Token} {ts : List Token}
    (h : tokensAt here s = t :: ts) : s.flatMap text ≠ [] := by
  obtain ⟨bs, p, v, rfl, -⟩ := exists_of_tokensAt_eq_cons hpos hs hwf h
  obtain ⟨c, hc⟩ := (hwf p (by simp)).exists_head
  exact List.ne_nil_of_mem (List.mem_flatMap.2 ⟨p, by simp, List.mem_of_mem_head? hc⟩)

/-- The nodes of a stretch that has tokens. -/
theorem nodesAt_of_tokensAt {here : Position} (hpos : 0 ≤ here.character) {s : List Piece}
    (hs : Stretch s) {head : Token} {tail : List Token} (h : tokensAt here s = head :: tail) :
    nodesAt here s =
      Node.ofTokens (here.advance (s.flatMap text)) (head :: renameTail head tail) := by
  rw [nodesAt_of_stretch here hs, h, closeAt_cons (here.character_advance_nonneg hpos _)]
  simp [Node.ofStatement, Statement.tokens]

/-- Two tokens in a row stand behind blanks, each of them behind its own. -/
theorem exists_of_tokensAt_eq_cons_cons {here : Position} (hpos : 0 ≤ here.character)
    {s : List Piece} (hs : Stretch s) (hwf : ∀ p ∈ s, p.WellFormed) {t u : Token}
    {ts : List Token} (h : tokensAt here s = t :: u :: ts) :
    ∃ bs p bs' q rest, s = bs.map .blank ++ p :: (bs'.map .blank ++ q :: rest) ∧
      (∀ c ∈ bs, isBlank c = true) ∧ (∀ c ∈ bs', isBlank c = true) ∧
      p.lexeme? = some t.lexeme ∧ q.lexeme? = some u.lexeme ∧ t.start = here.advance bs ∧
      t.stop = here.advance (bs ++ p.text) ∧ u.start = here.advance (bs ++ p.text ++ bs') ∧
      tokensAt (here.advance (bs ++ p.text ++ bs')) (q :: rest) = u :: ts := by
  obtain ⟨bs, p, r, rfl, hbs, hp, hstart, hstop, hr⟩ := exists_of_tokensAt_eq_cons hpos hs hwf h
  obtain ⟨bs', q, rest, rfl, hbs', hq, hstart', -, -⟩ := exists_of_tokensAt_eq_cons
    (here.character_advance_nonneg hpos _) (fun v hv => hs v (by simp [hv]))
    (fun v hv => hwf v (by simp [hv])) hr.symm
  rw [tokensAt_blanks, ← Position.advance_append] at hr
  rw [← Position.advance_append] at hstart'
  exact ⟨bs, p, bs', q, rest, rfl, hbs, hbs', hp, hq, hstart, hstop, hstart', hr.symm⟩

end Piece

end LogicAsm
