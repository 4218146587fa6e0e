import LogicAsm.Proofs.Jumps.Arrangement

/-!
# Runs of a line

A range is *in* a text (`Range.InText`) if it is a run of characters of one of its lines, at least
one and none of the carriage returns that the line ends with.  What stands between two line ends is
such a run (`inText_of_cut`), and so is every part of it that is not empty (`InText.of_within`).

A statement is a run of its line, as no line end stands in it.  Everything that is reported of it
lies within: its nodes, their tokens, the names of its labels and the colour names in its strings.
`Node.InLine` says all of this about a node, and it holds of every node of a text
(`inLine_of_mem_ofText`).
-/

namespace LogicAsm

/-- What stands at the end of a text and outside the class is not trimmed, nor what is in front. -/
theorem Text.length_le_length_trimRight {p : Char → Bool} {a : Text}
    (ha : ∀ c ∈ a.getLast?, p c = false) (b : Text) :
    a.length ≤ ((a ++ b).trimRight p).length := by
  rw [trimRight, List.length_reverse, List.reverse_append, List.dropWhile_append]
  split
  · have hself : a.reverse.dropWhile p = a.reverse := by
      cases hr : a.reverse with
      | nil => rfl
      | cons c cs =>
        have hc : p c = false := ha c (by rw [← List.head?_reverse, hr]; rfl)
        rw [List.dropWhile_cons_of_neg (by rw [hc]; exact Bool.false_ne_true)]
    rw [hself, List.length_reverse]
  · rw [List.length_append, List.length_reverse]
    exact Nat.le_add_left _ _

theorem Text.length_trimRight_le (p : Char → Bool) (t : Text) :
    (t.trimRight p).length ≤ t.length := by
  have hle := List.length_dropWhile_le p t.reverse
  rw [List.length_reverse] at hle
  rwa [trimRight, List.length_reverse]

namespace Range

/-- A run of characters of one line of the text, at least one and none of the carriage returns at
the end of the line. -/
def InText (t : Text) (r : Range) : Prop :=
  ∃ (line : Nat) (l : Text), t.lines[line]? = some l ∧
    r.start.line = line ∧ r.stop.line = line ∧
    0 ≤ r.start.character ∧ r.start.character < r.stop.character ∧
    r.stop.character ≤ (l.trimRight (· == '\r')).length

/-- A part of another range, on its line, that is not empty. -/
structure Within (r outer : Range) : Prop where
  start_line : r.start.line = outer.start.line
  stop_line : r.stop.line = outer.stop.line
  start_le : outer.start.character ≤ r.start.character
  start_lt_stop : r.start.character < r.stop.character
  stop_le : r.stop.character ≤ outer.stop.character

theorem InText.stop_line {t : Text} {r : Range} (h : InText t r) :
    r.stop.line = r.start.line := by
  obtain ⟨line, l, -, hstart, hstop, -⟩ := h
  exact hstop.trans hstart.symm

theorem InText.of_within {t : Text} {r outer : Range} (h : InText t outer) (hr : r.Within outer) :
    InText t r := by
  obtain ⟨line, l, hl, hstart, hstop, hnonneg, -, hle⟩ := h
  exact ⟨line, l, hl, hr.start_line.trans hstart, hr.stop_line.trans hstop,
    Int.le_trans hnonneg hr.start_le, hr.start_lt_stop, Int.le_trans hr.stop_le hle⟩

/-- Between two places of one line, only the characters are left to compare. -/
theorem within_of_le {r outer : Range} (hline : outer.stop.line = outer.start.line)
    (hstart : outer.start ≤ r.start) (hlt : r.start < r.stop) (hstop : r.stop ≤ outer.stop) :
    r.Within outer := by
  simp only [Position.le_iff, Position.lt_iff] at hstart hlt hstop
  constructor <;> omega

open Position in
/-- What stands in a text between two places, without a line end, is a run of a line. -/
theorem inText_of_cut (a b : Text) {w : Text} (hw : w ≠ [])
    (hend : ∀ c ∈ w, Piece.endsLine c = false) :
    InText (a ++ (w ++ b)) ⟨origin.advance a, (origin.advance a).advance w⟩ := by
  have hnewline : '\n' ∉ w := fun h => absurd (hend _ h) (by decide)
  obtain ⟨init, last, ha⟩ := Text.exists_lines_eq_append a
  obtain ⟨first, rest, hb⟩ := List.exists_cons_of_ne_nil (Text.lines_ne_nil b)
  have hlines := Text.lines_append_eq ha (Text.lines_append hnewline hb)
  rw [advance_of_newline_not_mem _ hnewline, advance_origin ha]
  have hpos := List.length_pos_of_ne_nil hw
  -- Trimming the row of its returns must not reach into the part cut out.
  have hlast : ∀ c ∈ (last ++ w).getLast?, (c == '\r') = false := by
    intro c hc
    rw [List.getLast?_append_of_ne_nil _ hw] at hc
    have hreturn := hend c (List.mem_of_mem_getLast? hc)
    simp only [Piece.endsLine, Bool.or_eq_false_iff] at hreturn
    exact hreturn.1
  have hle := Text.length_le_length_trimRight hlast first
  rw [List.append_assoc, List.length_append] at hle
  refine ⟨init.length, last ++ (w ++ first), ?_, rfl, rfl, ?_, ?_, ?_⟩
  · rw [hlines]
    simp
  · exact Int.natCast_nonneg _
  · show (last.length : Int) < last.length + w.length
    omega
  · show (last.length : Int) + w.length ≤ _
    omega

end Range

/-! ### Tokens -/

/-- What the markup and the name of a label need: the colour names of a token lie in it, and one
that declares a label has a character in front of the colon. -/
structure Token.Roomy (x : Token) : Prop where
  tags : ∀ tag ∈ x.tags, tag.nameStart ≤ tag.nameStop ∧
    x.start.character + tag.nameStop ≤ x.stop.character
  label : x.isLabel = true → x.start.character + 1 < x.stop.character

/-- A colour name starts behind a bracket and ends in front of one. -/
theorem Markup.bounds_of_mem_colorTagsFrom {i : Nat} {opened : Option Nat}
    (hopened : ∀ start ∈ opened, start < i) (t : Text) :
    ∀ tag ∈ colorTagsFrom i opened t,
      tag.nameStart ≤ tag.nameStop ∧ tag.nameStop < i + t.length := by
  induction t generalizing i opened with
  | nil => simp [colorTagsFrom]
  | cons c cs ih =>
    -- The induction hypothesis, for any bracket that is open behind this character.
    have hlater {opened : Option Nat} (hopened : ∀ start ∈ opened, start < i + 1) :
        ∀ tag ∈ colorTagsFrom (i + 1) opened cs,
          tag.nameStart ≤ tag.nameStop ∧ tag.nameStop < i + (c :: cs).length := by
      intro tag htag
      obtain ⟨hle, hlt⟩ := ih hopened tag htag
      rw [List.length_cons]
      omega
    have hkept : ∀ start ∈ opened, start < i + 1 :=
      fun start hs => Nat.lt_succ_of_lt (hopened start hs)
    rw [colorTagsFrom.eq_def]
    simp only
    split
    · apply hlater
      intro start hs
      split at hs
      · cases hs
      · cases hs
        exact Nat.lt_succ_self i
    split
    · split
      · next start =>
        intro tag htag
        rcases List.mem_cons.1 htag with rfl | htag
        · have hlt := hopened start rfl
          simp only [List.length_cons]
          omega
        · exact hlater (by simp) tag htag
      · exact hlater (by simp)
    · exact hlater hkept

/-- The tag of a named colour lies between its brackets. -/
theorem bounds_of_mem_classifyWord {w : Text} :
    ∀ tag ∈ (classifyWord w).2, tag.nameStart ≤ tag.nameStop ∧ tag.nameStop ≤ w.length := by
  unfold classifyWord
  split
  · simp
  split
  · next hnamed =>
    have hlength : 3 ≤ w.length := by
      unfold Color.isNamedLiteral at hnamed
      split at hnamed
      · next rest _ =>
        cases rest with
        | nil => simp [Text.endsWith] at hnamed
        | cons c cs =>
          simp only [List.length_cons]
          omega
      · cases hnamed
    intro tag htag
    obtain rfl := List.mem_singleton.1 htag
    show 2 ≤ w.length - 1 ∧ w.length - 1 ≤ w.length
    omega
  · split <;> simp

namespace Token

/-- A token has room for the markup in it and for the name of a label. -/
theorem roomy_of_tokenAt? {here : Position} {p : Piece} {x : Token}
    (h : p.tokenAt? here = some x) : x.Roomy := by
  have hwidth : x.stop.character = x.start.character + p.text.length := by
    cases p <;> cases h <;> rfl
  have hcontent : x.content = p.text := by
    cases p <;> cases h <;> rfl
  have htags : ∀ tag ∈ x.tags, tag.nameStart ≤ tag.nameStop ∧ tag.nameStop ≤ p.text.length := by
    cases p with
    | blank c => cases h
    | separator c => cases h
    | comment body => cases h; simp
    | quoted body closed =>
      cases h
      intro tag htag
      obtain ⟨hle, hlt⟩ := Markup.bounds_of_mem_colorTagsFrom (by simp) _ tag htag
      omega
    | word w =>
      cases h
      exact bounds_of_mem_classifyWord
  refine ⟨fun tag htag => ?_, fun hlabel => ?_⟩
  · obtain ⟨hle, hstop⟩ := htags tag htag
    omega
  · simp only [isLabel, Bool.and_eq_true, decide_eq_true_eq] at hlabel
    have hlength := hlabel.1.2
    rw [hcontent] at hlength
    omega

/-- A new name is no label. -/
theorem isLabel_of_rename {f : Text → Text}
    (hf : ∀ w, f w = w ∨ (w, f w) ∈ Lexeme.newNames) {x : Token}
    (h : (x.rename f).isLabel = true) : x.isLabel = true := by
  rcases hf x.content with hself | hnew
  · rwa [show x.rename f = x by rw [rename, hself]] at h
  · have hcolon : ∀ r ∈ Lexeme.newNames, Text.endsWith r.2 ':' = false := by decide
    have hends := hcolon _ hnew
    simp only [isLabel, rename, hends, Bool.and_false] at h
    cases h

theorem Roomy.rename {f : Text → Text} (hf : ∀ w, f w = w ∨ (w, f w) ∈ Lexeme.newNames)
    {x : Token} (h : x.Roomy) : (x.rename f).Roomy :=
  ⟨h.tags, fun hlabel => h.label (isLabel_of_rename hf hlabel)⟩

/-- A new name takes no room from a token. -/
theorem roomy_of_mem_renameTail {head : Token} {tail : List Token} (h : ∀ x ∈ tail, x.Roomy) :
    ∀ x ∈ renameTail head tail, x.Roomy := by
  have hoperation : ∀ x ∈ tail.modifyHead (Token.rename renamedOperation), x.Roomy := by
    cases tail with
    | nil => simp
    | cons y ys =>
      obtain ⟨hy, hys⟩ := List.forall_mem_cons.1 h
      exact List.forall_mem_cons.2 ⟨hy.rename Lexeme.renamedOperation_eq_or, hys⟩
  intro x hx
  unfold renameTail at hx
  obtain ⟨y, hy, rfl⟩ := List.mem_map.1 hx
  apply Roomy.rename Lexeme.renamedOperand_eq_or
  split at hy
  · exact hoperation y hy
  · exact h y hy

end Token

namespace Piece

open Position

/-- In a statement no line ends. -/
theorem WellFormed.endsLine_eq_false {p : Piece} (hp : p.WellFormed)
    (h : p.endsStatement = false) : ∀ c ∈ p.text, endsLine c = false := by
  intro c hc
  cases p with
  | blank d =>
    obtain rfl : c = d := by simpa [text] using hc
    have hblank : c = ' ' ∨ c = '\t' := by simpa [WellFormed, isBlank] using hp
    rcases hblank with rfl | rfl <;> decide
  | separator d => cases h
  | comment body =>
    rcases List.mem_cons.1 hc with rfl | hc
    · decide
    · exact hp c hc
  | quoted body closed =>
    have hin : c = '"' ∨ c ∈ body := by
      cases closed <;> simp [text] at hc <;> tauto
    rcases hin with rfl | hin
    · decide
    · exact (hp c hin).2
  | word w =>
    obtain ⟨hin, hnewline⟩ := hp.2.2 c hc
    simp only [inWord, isSeparator, Bool.and_eq_true, Bool.not_eq_true',
      Bool.or_eq_false_iff] at hin
    rw [endsLine, hin.1.2.2, Bool.false_or]
    exact beq_false_of_ne hnewline

/-- Each token ends in front of those behind it. -/
theorem pairwise_tokensAt {here : Position} (hpos : 0 ≤ here.character) {ps : List Piece}
    (hwf : ∀ p ∈ ps, p.WellFormed) :
    (tokensAt here ps).Pairwise fun x y => x.stop ≤ y.start := by
  induction ps generalizing here with
  | nil => exact .nil
  | cons p ps ih =>
    have hpos' := here.character_advance_nonneg hpos p.text
    have hwf' : ∀ q ∈ ps, q.WellFormed := fun q hq => hwf q (List.mem_cons_of_mem p hq)
    refine List.pairwise_append.2 ⟨?_, ih hpos' hwf', fun x hx y hy => ?_⟩
    · cases p.tokenAt? here <;> simp
    · rw [stop_of_tokenAt? hpos (hwf p List.mem_cons_self) (Option.mem_toList.1 hx)]
      exact (bounds_of_mem_tokensAt hpos' hwf' y hy).1

theorem roomy_of_mem_tokensAt {here : Position} {ps : List Piece} :
    ∀ x ∈ tokensAt here ps, x.Roomy := by
  induction ps generalizing here with
  | nil => simp [tokensAt]
  | cons p ps ih =>
    intro x hx
    rcases List.mem_append.1 hx with hx | hx
    · exact Token.roomy_of_tokenAt? (Option.mem_toList.1 hx)
    · exact ih x hx

/-- A statement is made of the tokens of a stretch. -/
theorem exists_stretch_of_mem_statementsAt {a : Text} {ps : List Piece} (hrow : Row ps) :
    ∀ st ∈ statementsAt (origin.advance a) [] ps, ∃ front s back,
      a ++ ps.flatMap text = front ++ (s.flatMap text ++ back) ∧ Stretch s ∧ Row s ∧
        ∃ head tail, tokensAt (origin.advance front) s = head :: tail ∧
          st = ⟨head, renameTail head tail, (origin.advance front).advance (s.flatMap text)⟩ := by
  -- A stretch has one statement, or none when it holds blanks only.
  have hstretch {a : Text} {s : List Piece} (hs : Stretch s) :
      ∀ st ∈ statementsAt (origin.advance a) [] s, ∃ head tail,
        tokensAt (origin.advance a) s = head :: tail ∧
          st = ⟨head, renameTail head tail, (origin.advance a).advance (s.flatMap text)⟩ := by
    rw [statementsAt_of_stretch _ _ hs, List.nil_append]
    have hpos := character_advance_nonneg (character_origin_advance a) (s.flatMap text)
    cases tokensAt (origin.advance a) s with
    | nil => simp [closeAt, close]
    | cons head tail =>
      rw [closeAt_cons hpos]
      intro st hst
      exact ⟨head, tail, rfl, List.mem_singleton.1 hst⟩
  induction ps using stretchInduction generalizing a with
  | last s hs =>
    intro st hst
    exact ⟨a, s, [], by rw [List.append_nil], hs, hrow, hstretch hs st hst⟩
  | more s c rest hs ih =>
    intro st hst
    rw [statementsAt_append_separator, ← advance_append] at hst
    rcases List.mem_append.1 hst with hst | hst
    · refine ⟨a, s, c :: rest.flatMap text, ?_, hs, hrow.left, hstretch hs st hst⟩
      rw [List.flatMap_append]
      rfl
    · have hrest : Row ([.separator c] ++ rest) := hrow.right
      obtain ⟨front, s', back, htext, h⟩ := ih rest (Nat.le_refl _) hrest.right st hst
      refine ⟨front, s', back, ?_, h⟩
      rw [← htext, List.flatMap_append]
      simp [text]

end Piece

/-! ### Nodes -/

namespace Node

/-- A node in a text: a run of a line, with its tokens one behind the other in it. -/
structure InLine (t : Text) (n : Node) : Prop where
  range : n.range.InText t
  within : ∀ x ∈ n.tokens, x.range.Within n.range
  pairwise : n.tokens.Pairwise fun x y => x.stop ≤ y.start
  roomy : ∀ x ∈ n.tokens, x.Roomy
  label : n.isLabel = true → n.head.isLabel = true

/-- A node has some of the tokens that it is read from, in their order; it ends where they end, or
it is a label that ends with its token. -/
theorem sublist_of_mem_ofTokens {stop : Position} {ts : List Token} :
    ∀ n ∈ ofTokens stop ts, n.tokens.Sublist ts ∧ (n.isLabel = true → n.head.isLabel = true) ∧
      (n.stop = stop ∨ n.tail = [] ∧ n.stop = n.head.stop) := by
  fun_induction ofTokens stop ts with
  | case1 => simp
  | case2 head tail hc =>
    exact List.forall_mem_singleton.2 ⟨.refl _, (by rintro ⟨⟩), .inl rfl⟩
  | case3 head hc hl => exact List.forall_mem_singleton.2 ⟨.refl _, fun _ => hl, .inl rfl⟩
  | case4 head hc hl second rest hs =>
    exact List.forall_mem_singleton.2 ⟨.refl _, fun _ => hl, .inl rfl⟩
  | case5 head hc hl second rest hs ih =>
    refine List.forall_mem_cons.2 ⟨⟨?_, fun _ => hl, .inr ⟨rfl, rfl⟩⟩, fun n hn => ?_⟩
    · exact (List.nil_sublist _).cons_cons head
    · obtain ⟨hsub, hlabel, hstop⟩ := ih n hn
      exact ⟨hsub.cons head, hlabel, hstop⟩
  | case6 head tail hc hl =>
    exact List.forall_mem_singleton.2 ⟨.refl _, (by rintro ⟨⟩), .inl rfl⟩

/-- Nodes of tokens that lie one behind the other in a run of a line. -/
theorem inLine_of_mem_ofTokens {t : Text} {outer : Range} (houter : outer.InText t)
    {ts : List Token} (hwithin : ∀ x ∈ ts, x.range.Within outer)
    (hpairwise : ts.Pairwise fun x y => x.stop ≤ y.start) (hroomy : ∀ x ∈ ts, x.Roomy) :
    ∀ n ∈ ofTokens outer.stop ts, n.InLine t := by
  intro n hn
  obtain ⟨hsub, hlabel, hstop⟩ := sublist_of_mem_ofTokens n hn
  have hwithin' : ∀ x ∈ n.tokens, x.range.Within outer := fun x hx => hwithin x (hsub.subset hx)
  have hpairwise' := hpairwise.sublist hsub
  obtain ⟨hbehind, -⟩ := List.pairwise_cons.1 hpairwise'
  have hline := houter.stop_line
  have hhead := hwithin' n.head List.mem_cons_self
  -- The node starts with its first token, and no token ends behind its end.
  have hrange : n.range.Within outer ∧ ∀ x ∈ n.tokens, x.stop.character ≤ n.stop.character := by
    rcases hstop with hstop | ⟨htail, hstop⟩
    · refine ⟨⟨hhead.start_line, congrArg (·.line) hstop, hhead.start_le, ?_, ?_⟩, ?_⟩
      · show n.head.start.character < n.stop.character
        rw [hstop]
        exact Int.lt_of_lt_of_le hhead.start_lt_stop hhead.stop_le
      · exact Int.le_of_eq (congrArg (·.character) hstop)
      · intro x hx
        rw [hstop]
        exact (hwithin' x hx).stop_le
    · have hsame : n.range = n.head.range := congrArg (Range.mk n.head.start) hstop
      refine ⟨hsame ▸ hhead, fun x hx => ?_⟩
      rw [tokens, htail] at hx
      obtain rfl := List.mem_singleton.1 hx
      exact Int.le_of_eq (congrArg (·.character) hstop.symm)
  refine ⟨houter.of_within hrange.1, fun x hx => ?_, hpairwise',
    fun x hx => hroomy x (hsub.subset hx), hlabel⟩
  have hx' := hwithin' x hx
  refine ⟨hx'.start_line.trans hrange.1.start_line.symm,
    hx'.stop_line.trans hrange.1.stop_line.symm, ?_, hx'.start_lt_stop, hrange.2 x hx⟩
  show n.head.start.character ≤ x.start.character
  rcases List.mem_cons.1 hx with rfl | hx
  · exact Int.le_refl _
  · have hle := hbehind x hx
    have hstart := hx'.start_line
    have hstopLine := hhead.stop_line
    have hlt := hhead.start_lt_stop
    simp only [Token.range] at hstart hstopLine hlt
    simp only [Position.le_iff] at hle
    omega

open Position in
/-- Every node of a text lies in a line of it. -/
theorem inLine_of_mem_ofText {t : Text} : ∀ n ∈ ofText t, n.InLine t := by
  intro n hn
  obtain ⟨st, hst, hn⟩ := List.mem_flatMap.1 hn
  rw [Statement.ofText_eq] at hst
  obtain ⟨front, s, back, htext, hs, hrow, head, tail, htokens, rfl⟩ :=
    Piece.exists_stretch_of_mem_statementsAt (a := []) (Piece.row_ofText t) st hst
  rw [List.nil_append, Piece.flatMap_text_ofText] at htext
  have hpos := character_origin_advance front
  have hends : ∀ c ∈ s.flatMap Piece.text, Piece.endsLine c = false := by
    intro c hc
    obtain ⟨p, hp, hc⟩ := List.mem_flatMap.1 hc
    exact (hrow.wellFormed p hp).endsLine_eq_false (hs p hp) c hc
  have houter := Range.inText_of_cut front back
    (Piece.text_ne_nil_of_tokensAt hpos hs hrow.wellFormed htokens) hends
  rw [← htext] at houter
  have hline : ((origin.advance front).advance (s.flatMap Piece.text)).line =
      (origin.advance front).line := by
    rw [advance_of_newline_not_mem]
    exact fun h => absurd (hends _ h) (by decide)
  -- A renamed token keeps its place, and only places matter from here on.
  have hplaces : (head :: renameTail head tail).map Token.place =
      (Piece.tokensAt (origin.advance front) s).map Token.place := by
    rw [htokens, List.map_cons, map_place_renameTail, List.map_cons]
  refine inLine_of_mem_ofTokens houter ?_ ?_ ?_ n hn
  · intro x hx
    obtain ⟨y, hy, hplace⟩ := List.mem_map.1 (hplaces ▸ List.mem_map_of_mem hx)
    have hrange : y.range = x.range := congrArg Prod.snd hplace
    obtain ⟨hstart, hlt, hstop⟩ := Piece.bounds_of_mem_tokensAt hpos hrow.wellFormed y hy
    exact hrange ▸ Range.within_of_le hline hstart hlt hstop
  · have hpairwise := Piece.pairwise_tokensAt hpos hrow.wellFormed
    have hmap := (List.pairwise_map (f := Token.place)
      (R := fun p q => p.2.stop ≤ q.2.start)).2 hpairwise
    rw [← hplaces] at hmap
    exact List.pairwise_map.1 hmap
  · have hroomy := @Piece.roomy_of_mem_tokensAt (origin.advance front) s
    rw [htokens] at hroomy
    obtain ⟨hhead, htail⟩ := List.forall_mem_cons.1 hroomy
    exact List.forall_mem_cons.2 ⟨hhead, Token.roomy_of_mem_renameTail htail⟩

end Node

end LogicAsm
