import LogicAsm.Document
import LogicAsm.Proofs.Scanning

/-!
# Places in a text

A text that is cut in two, `a ++ b`, has a place at the cut: the position that reading `a` leads to
(`Position.advance`).  Everything that the library says about positions is said here about cuts:
the offset of the place is the length of `a` (`offsetAt_advance`), its line is the last line of `a`
followed by the first line of `b` (`lineText?_advance`), and there is a line below it exactly if
`b` has more than one (`lineText?_advance_succ`).

So no later proof computes with line numbers: it cuts the text where it needs a place.
-/

namespace LogicAsm

namespace Text

/-! ### Lines at a cut -/

/-- The first line of `b` goes on where the last line of `a` stops. -/
theorem lines_append_eq {a b : Text} {init rest : List Text} {last first : Text}
    (ha : lines a = init ++ [last]) (hb : lines b = first :: rest) :
    lines (a ++ b) = init ++ (last ++ first) :: rest := by
  -- The last line of `a` runs on into the first one of `b`, however long `a` is.
  induction a generalizing init last with
  | nil =>
    have h : [[]] = init ++ [last] := ha
    obtain ⟨rfl, rfl⟩ : init = [] ∧ last = [] := by
      cases init <;> simp_all
    simpa using hb
  | cons c cs ih =>
    obtain ⟨m, ms, hm⟩ := List.exists_cons_of_ne_nil (lines_ne_nil cs)
    by_cases hc : c = '\n'
    · subst hc
      rw [lines_newline] at ha
      cases init with
      | nil => simp [hm] at ha
      | cons i is =>
        obtain ⟨rfl, hcs⟩ := List.cons.inj ha
        rw [List.cons_append, lines_newline, ih hcs, List.cons_append]
    · rw [lines_cons hc hm] at ha
      cases init with
      | nil =>
        obtain ⟨rfl, rfl⟩ : c :: m = last ∧ ms = [] := by simpa using ha
        exact lines_cons hc (@ih [] _ hm)
      | cons i is =>
        obtain ⟨rfl, rfl⟩ : c :: m = i ∧ ms = is ++ [last] := by simpa using ha
        exact lines_cons hc (@ih (m :: is) _ (by simpa using hm))

theorem exists_lines_eq_append (a : Text) : ∃ init last, lines a = init ++ [last] := by
  obtain h | ⟨init, last, h⟩ := List.eq_nil_or_concat (lines a)
  · exact absurd h (lines_ne_nil a)
  · exact ⟨init, last, by simpa using h⟩

/-- A text without line feeds is its only line. -/
theorem lines_of_newline_not_mem {a : Text} (ha : '\n' ∉ a) : lines a = [a] := by
  have h := lines_append ha lines_nil
  simpa using h

end Text

namespace Position

/-! ### Reading on from a position -/

/-- The start of a text. -/
def origin : Position := ⟨0, 0⟩

/-- The position behind one more character. -/
def after (p : Position) (c : Char) : Position :=
  if c = '\n' then ⟨p.line + 1, 0⟩ else ⟨p.line, p.character + 1⟩

/-- The position behind a text that starts at the given one. -/
def advance (p : Position) (t : Text) : Position := t.foldl after p

@[simp] theorem advance_nil (p : Position) : p.advance [] = p := rfl

theorem advance_append (p : Position) (a b : Text) :
    p.advance (a ++ b) = (p.advance a).advance b := List.foldl_append

theorem advance_newline (p : Position) : p.advance ['\n'] = ⟨p.line + 1, 0⟩ := rfl

/-- On one line the character counts up. -/
theorem advance_of_newline_not_mem (p : Position) {t : Text} (h : '\n' ∉ t) :
    p.advance t = ⟨p.line, p.character + t.length⟩ := by
  induction t generalizing p with
  | nil => simp
  | cons c cs ih =>
    rw [List.mem_cons, not_or] at h
    have hc : ¬ c = '\n' := fun e => h.1 e.symm
    have hstep : p.advance (c :: cs) = Position.advance ⟨p.line, p.character + 1⟩ cs := by
      simp [advance, after, hc]
    have hcount : p.character + 1 + (cs.length : Int) = p.character + ((c :: cs).length : Int) := by
      rw [List.length_cons]
      omega
    rw [hstep, ih _ h.2, hcount]

/-- The place behind a text is the end of its last line. -/
theorem advance_origin {a : Text} {init : List Text} {last : Text}
    (ha : a.lines = init ++ [last]) : origin.advance a = ⟨init.length, last.length⟩ := by
  induction a using List.reverseRecOn generalizing init last with
  | nil =>
    obtain ⟨rfl, rfl⟩ : init = [] ∧ last = [] := by
      rw [Text.lines_nil] at ha
      cases init <;> simp_all
    rfl
  | append_singleton cs c ih =>
    obtain ⟨before, line, hcs⟩ := Text.exists_lines_eq_append cs
    rw [advance_append, ih hcs]
    -- A line feed opens an empty line, and any other character makes the last one longer.
    by_cases hc : c = '\n'
    · subst hc
      have h := Text.lines_append_eq hcs (Text.lines_newline [])
      rw [ha, Text.lines_nil] at h
      have hinit : init = before ++ [line] ∧ last = [] := by
        have h' : init ++ [last] = (before ++ [line]) ++ [[]] := by simpa using h
        simpa using List.append_inj' h' rfl
      obtain ⟨rfl, rfl⟩ := hinit
      rw [advance_newline]
      simp
    · have hc' : '\n' ∉ [c] := by simpa using fun e : '\n' = c => hc e.symm
      have h := Text.lines_append_eq hcs (Text.lines_of_newline_not_mem hc')
      rw [ha] at h
      obtain ⟨rfl, hlast⟩ := List.append_inj' h rfl
      obtain rfl : last = line ++ [c] := by simpa using hlast
      rw [advance_of_newline_not_mem _ hc']
      simp

end Position

namespace Text

/-- Every line but the last one takes a line feed. -/
theorem length_eq_of_lines {a : Text} {init : List Text} {last : Text}
    (ha : lines a = init ++ [last]) :
    a.length = init.foldr (fun l offset => l.length + 1 + offset) 0 + last.length := by
  have h := intercalate_cut '\n' a
  rw [show cut '\n' a = init ++ [last] from ha] at h
  rw [← h]
  clear h ha
  induction init with
  | nil => simp
  | cons l ls ih =>
    rw [List.cons_append, List.intercalate_cons_of_ne_nil (by simp)]
    simp only [List.length_append, List.length_singleton, ih, List.foldr_cons]
    omega

end Text

namespace Document

/-! ### Offsets and lines at a cut -/

variable (uri : String) (a b : Text)

/-- The offset of a place is the number of characters in front of it. -/
theorem offsetAt_advance :
    (ofText uri (a ++ b)).offsetAt (Position.origin.advance a) = a.length := by
  obtain ⟨init, last, ha⟩ := Text.exists_lines_eq_append a
  obtain ⟨first, rest, hb⟩ := List.exists_cons_of_ne_nil (Text.lines_ne_nil b)
  have hlines : (ofText uri (a ++ b)).lines = init ++ (last ++ first) :: rest :=
    Text.lines_append_eq ha hb
  rw [Position.advance_origin ha, Text.length_eq_of_lines ha]
  simp [offsetAt, lineOffset, hlines]

variable {a b}

/-- The line of a place is what stands in front of it and what stands behind it. -/
theorem lineText?_advance {init rest : List Text} {last first : Text}
    (ha : a.lines = init ++ [last]) (hb : b.lines = first :: rest) :
    (ofText uri (a ++ b)).lineText? (Position.origin.advance a).line = some (last ++ first) := by
  have hlines : (ofText uri (a ++ b)).lines = init ++ (last ++ first) :: rest :=
    Text.lines_append_eq ha hb
  rw [Position.advance_origin ha]
  simp [lineText?, hlines]

/-- The line below a place is the second line of what stands behind it. -/
theorem lineText?_advance_succ {init rest : List Text} {last first : Text}
    (ha : a.lines = init ++ [last]) (hb : b.lines = first :: rest) :
    (ofText uri (a ++ b)).lineText? ((Position.origin.advance a).line + 1) = rest[0]? := by
  have hlines : (ofText uri (a ++ b)).lines = init ++ (last ++ first) :: rest :=
    Text.lines_append_eq ha hb
  have hnat : ((init.length : Int) + 1).toNat = init.length + 1 := by omega
  have hpos : (0 : Int) ≤ (init.length : Int) + 1 := by omega
  rw [Position.advance_origin ha]
  simp only [lineText?, hlines, hnat, hpos, if_true]
  rw [List.getElem?_append_right (by omega)]
  simp

end Document

end LogicAsm
