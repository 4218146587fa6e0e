import LogicAsm.Jumps
import LogicAsm.Proofs.Sources

/-!
# Margins of a node

Where a conversion of jumps inserts or deletes, it goes over the blanks in front of a node and over
those behind it.  Both are said here about cuts of the text: a node with blanks `bs` in front of it
starts its line margin at the cut in front of `bs` (`lineStart_eq`), and one with blanks `bs` behind
it ends behind `bs`, or behind the line break if nothing but carriage returns stands before that
(`lineEnd_eq_or`).
-/

namespace LogicAsm

namespace Text

/-- The last line stands at the end of the text. -/
theorem exists_eq_append_of_lines {t last : Text} {init : List Text}
    (h : lines t = init ++ [last]) : ∃ front, t = front ++ last := by
  have hjoin := intercalate_cut '\n' t
  rw [show cut '\n' t = init ++ [last] from h] at hjoin
  rw [← hjoin]
  clear h hjoin
  induction init with
  | nil => exact ⟨[], by simp⟩
  | cons l ls ih =>
    obtain ⟨front, hfront⟩ := ih
    refine ⟨l ++ ['\n'] ++ front, ?_⟩
    rw [List.cons_append, List.intercalate_cons_of_ne_nil (by simp), hfront]
    simp only [List.append_assoc]

/-- The last line ends as the text does, unless it is empty. -/
theorem getLast?_of_lines {t last : Text} {init : List Text} (h : lines t = init ++ [last]) :
    ∀ c ∈ last.getLast?, c ∈ t.getLast? := by
  intro c hc
  obtain ⟨front, rfl⟩ := exists_eq_append_of_lines h
  rw [List.getLast?_append, hc]
  rfl

/-- A text of more than one line is its first line, a line feed and the rest. -/
theorem exists_eq_append_newline {t first second : Text} {rest : List Text}
    (h : lines t = first :: second :: rest) : ∃ more, t = first ++ '\n' :: more := by
  refine ⟨List.intercalate ['\n'] (second :: rest), ?_⟩
  have hjoin := intercalate_cut '\n' t
  rw [show cut '\n' t = first :: second :: rest from h] at hjoin
  rw [← hjoin, List.intercalate_cons_of_ne_nil (by simp), List.append_assoc]
  rfl

end Text

namespace Jumps

open Piece Position

/-! ### Cutting off blanks -/

theorem newline_not_mem_of_blank {bs : Text} (hbs : ∀ c ∈ bs, isBlank c = true) : '\n' ∉ bs :=
  fun h => absurd (hbs _ h) (by decide)

/-- The blanks at the end of a text are those behind its last other character. -/
theorem length_takeWhile_reverse {a bs : Text} (ha : ∀ c ∈ a.getLast?, isBlank c = false)
    (hbs : ∀ c ∈ bs, isBlank c = true) :
    ((a ++ bs).reverse.takeWhile isBlank).length = bs.length := by
  rw [List.reverse_append, takeWhile_append_of_head (by simpa using hbs) (by simpa using ha),
    List.length_reverse]

variable (uri : String) {a bs b : Text}

/-- The margin in front of a node starts in front of the blanks. -/
theorem lineStart_eq (ha : ∀ c ∈ a.getLast?, isBlank c = false) (hbs : ∀ c ∈ bs, isBlank c = true)
    {n : Node} (hn : n.start = origin.advance (a ++ bs)) :
    lineStart (Document.ofText uri (a ++ bs ++ b)) n = origin.advance a := by
  obtain ⟨init, last, hinit⟩ := Text.exists_lines_eq_append a
  obtain ⟨first, rest, hrest⟩ := List.exists_cons_of_ne_nil (Text.lines_ne_nil b)
  have hcut : (a ++ bs).lines = init ++ [last ++ bs] :=
    Text.lines_append_eq hinit (Text.lines_of_newline_not_mem (newline_not_mem_of_blank hbs))
  have hlast : ∀ c ∈ last.getLast?, isBlank c = false := fun c hc =>
    ha c (Text.getLast?_of_lines hinit c hc)
  have hline := Document.lineText?_advance uri hcut hrest
  have hplace := advance_origin hcut
  have hlength : ((last ++ bs).length : Int) - bs.length = last.length := by
    rw [List.length_append]
    omega
  unfold lineStart
  rw [hn, hline, hplace]
  simp only [Option.getD_some, Int.toNat_natCast, List.take_left,
    length_takeWhile_reverse hlast hbs, hlength, advance_origin hinit]

/-- The margin behind a node ends behind the blanks, or with the line if nothing else is left of
it. -/
theorem lineEnd_eq_or (hbs : ∀ c ∈ bs, isBlank c = true) (hb : ∀ c ∈ b.head?, isBlank c = false)
    {n : Node} (hn : n.stop = origin.advance a) :
    lineEnd (Document.ofText uri (a ++ (bs ++ b))) n = origin.advance (a ++ bs) ∨
      ∃ returns more, b = returns ++ '\n' :: more ∧ (∀ c ∈ returns, c = '\r') ∧
        lineEnd (Document.ofText uri (a ++ (bs ++ b))) n =
          origin.advance (a ++ bs ++ (returns ++ ['\n'])) := by
  obtain ⟨init, last, hinit⟩ := Text.exists_lines_eq_append a
  obtain ⟨first, rest, hrest⟩ := List.exists_cons_of_ne_nil (Text.lines_ne_nil b)
  have hnl := newline_not_mem_of_blank hbs
  have hcut : (bs ++ b).lines = (bs ++ first) :: rest := Text.lines_append hnl hrest
  have hfirst : ∀ c ∈ first.head?, isBlank c = false := fun c hc =>
    hb c (Text.head?_of_lines hrest c hc).1
  have hline := Document.lineText?_advance uri hinit hcut
  have hbelow := Document.lineText?_advance_succ uri hinit hcut
  have hplace := advance_origin hinit
  have hend : origin.advance (a ++ bs) = ⟨init.length, (last.length : Int) + bs.length⟩ := by
    rw [advance_append, hplace, advance_of_newline_not_mem _ hnl]
  have hlength : (((bs ++ first).length - first.length : Nat) : Int) = bs.length := by
    rw [List.length_append, Nat.add_sub_cancel]
  rw [hplace] at hline hbelow hn
  simp only [lineEnd, hn, hline, hbelow, Option.getD_some, Int.toNat_natCast, List.drop_left,
    dropWhile_append_of_head hbs hfirst, hlength, hend]
  split
  -- Nothing but returns is left of the line, and there is a line below, so it is deleted whole.
  · next hall =>
    right
    obtain ⟨hreturns, hsome⟩ := hall
    obtain ⟨second, rest, rfl⟩ : ∃ second others, rest = second :: others := by
      cases rest with
      | nil => cases hsome
      | cons second others => exact ⟨second, others, rfl⟩
    obtain ⟨more, hmore⟩ := Text.exists_eq_append_newline hrest
    have hnewline : '\n' ∉ first :=
      fun h => absurd (List.all_eq_true.1 hreturns _ h) (by decide)
    refine ⟨first, more, hmore, by simpa using hreturns, ?_⟩
    rw [advance_append, hend, advance_append, advance_of_newline_not_mem _ hnewline,
      advance_newline]
  · exact .inl rfl

/-- The margin behind a node that ends its line takes the line break along. -/
theorem lineEnd_of_newline {n : Node} (hn : n.stop = origin.advance a) (more : Text) :
    lineEnd (Document.ofText uri (a ++ '\n' :: more)) n = origin.advance (a ++ ['\n']) := by
  obtain ⟨init, last, hinit⟩ := Text.exists_lines_eq_append a
  obtain ⟨first, rest, hmore⟩ := List.exists_cons_of_ne_nil (Text.lines_ne_nil more)
  have hrest := Text.lines_newline more
  rw [hmore] at hrest
  have hline := Document.lineText?_advance uri hinit hrest
  have hbelow := Document.lineText?_advance_succ uri hinit hrest
  have hplace := advance_origin hinit
  rw [hplace] at hline hbelow hn
  rw [advance_append, hplace, advance_newline]
  simp only [lineEnd, hn, hline, hbelow, Option.getD_some, Int.toNat_natCast, List.drop_left]
  exact if_pos ⟨rfl, rfl⟩

/-- The margin behind a node ends at the next token, if there is one in the statement. -/
theorem lineEnd_of_token (hbs : ∀ c ∈ bs, isBlank c = true) {q : Piece} (hq : q.WellFormed)
    {x : Lexeme} (hx : q.lexeme? = some x) {n : Node} (hn : n.stop = origin.advance a) (b : Text) :
    lineEnd (Document.ofText uri (a ++ (bs ++ (q.text ++ b)))) n = origin.advance (a ++ bs) := by
  obtain ⟨c, hc⟩ := hq.exists_head
  have hnext : (q.text ++ b).head? = some c := by
    rw [List.head?_append, hc]
    rfl
  obtain ⟨hblank, hends⟩ := head?_of_lexeme? hq hx c hc
  have hline := @lineEnd_eq_or uri a bs (q.text ++ b) hbs
    (fun d hd => by rw [hnext] at hd; cases hd; exact hblank) n hn
  rcases hline with hline | ⟨returns, more, hb, hreturns, -⟩
  · exact hline
  · -- A token does not start with a line end.
    rw [hb] at hnext
    have hend : endsLine c = true := by
      cases returns with
      | nil =>
        cases hnext
        rfl
      | cons d ds =>
        cases hnext
        rw [hreturns _ List.mem_cons_self]
        rfl
    rw [hends] at hend
    cases hend

/-- The margin of the first node of a stretch starts with the stretch. -/
theorem lineStart_of_stretch {a : Text} (ha : ∀ c ∈ a.getLast?, isBlank c = false)
    {s : List Piece} (hs : Stretch s) (hwf : ∀ p ∈ s, p.WellFormed) {first : Token}
    {rest : List Token} (htokens : tokensAt (Position.origin.advance a) s = first :: rest)
    {n : Node} (hn : n.start = first.start) (b : Text) :
    lineStart (.ofText uri (a ++ (s.flatMap text ++ b))) n = Position.origin.advance a := by
  have hpos := Position.character_origin_advance a
  obtain ⟨bs, p, v, rfl, hbs, -, hstart, -, -⟩ := exists_of_tokensAt_eq_cons hpos hs hwf htokens
  rw [← Position.advance_append] at hstart
  have hline := @lineStart_eq uri a bs (p.text ++ v.flatMap text ++ b) ha hbs n (hn.trans hstart)
  rw [List.flatMap_append, flatMap_text_map_blank, List.flatMap_cons]
  simpa only [List.append_assoc] using hline

end Jumps

end LogicAsm
