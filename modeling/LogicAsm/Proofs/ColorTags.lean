import LogicAsm.Markup
import Mathlib.Data.List.DropRight

/-!
# Colour tags are opened by odd runs of brackets

Two brackets in a row are a bracket as such, so in a row of opening brackets only the last one can
open a tag, and it does if their number is odd.  The scan knows nothing of rows: it remembers the
offset of the bracket that is open.  What that offset says about the text in front is `Opens`, and
each character keeps it true (`opens_concat_open`, `opens_concat_close`, `opens_concat`).  So a tag
is found exactly where a closing bracket meets an open one (`mem_colorTagsFrom_iff`).
-/

namespace LogicAsm.Markup

/-- The number of opening brackets at the end of a text. -/
def openingRun (t : Text) : Nat := (t.rtakeWhile (· = '[')).length

/-- A name that starts at `start`, behind an odd number of opening brackets, may end at the end of
the text. -/
def Opens (t : Text) (start : Nat) : Prop :=
  ∃ front name, t = front ++ name ∧ front.length = start ∧ openingRun front % 2 = 1 ∧
    '[' ∉ name ∧ ']' ∉ name

/-- A colour tag of a text: an odd number of opening brackets, a name without brackets, and a
closing bracket. -/
def IsColorTag (t : Text) (tag : ColorTag) : Prop :=
  ∃ front name rest, t = front ++ name ++ ']' :: rest ∧ openingRun front % 2 = 1 ∧
    '[' ∉ name ∧ ']' ∉ name ∧
    tag.nameStart = front.length ∧ tag.nameStop = front.length + name.length

/-! ### Opening brackets at the end -/

theorem openingRun_concat_open (t : Text) : openingRun (t ++ ['[']) = openingRun t + 1 := by
  rw [openingRun, List.rtakeWhile_concat_pos _ _ _ (by simp), List.length_append]
  rfl

theorem openingRun_concat {c : Char} (hc : c ≠ '[') (t : Text) : openingRun (t ++ [c]) = 0 := by
  rw [openingRun, List.rtakeWhile_concat_neg _ _ _ (by simpa using hc)]
  rfl

/-! ### The open bracket -/

theorem not_opens_nil (start : Nat) : ¬ Opens [] start := by
  rintro ⟨front, name, h, -, hodd, -⟩
  obtain ⟨rfl, -⟩ := List.append_eq_nil_iff.1 h.symm
  exact absurd hodd (by decide)

/-- One more character opens a tag, or it is one more character of a name. -/
theorem opens_concat_iff {c : Char} {t : Text} {start : Nat} :
    Opens (t ++ [c]) start ↔
      start = t.length + 1 ∧ openingRun (t ++ [c]) % 2 = 1 ∨
        Opens t start ∧ c ≠ '[' ∧ c ≠ ']' := by
  constructor
  · rintro ⟨front, name, h, hstart, hodd, hopen, hclose⟩
    rcases List.eq_nil_or_concat' name with rfl | ⟨init, d, rfl⟩
    · rw [List.append_nil] at h
      rw [← h, List.length_append] at hstart
      exact .inl ⟨hstart.symm, h ▸ hodd⟩
    · rw [← List.append_assoc] at h
      obtain ⟨rfl, hlast⟩ := List.append_inj' h rfl
      obtain rfl : c = d := List.singleton_inj.1 hlast
      simp only [List.mem_append, List.mem_singleton, not_or] at hopen hclose
      exact .inr ⟨⟨front, init, rfl, hstart, hodd, hopen.1, hclose.1⟩, Ne.symm hopen.2,
        Ne.symm hclose.2⟩
  · rintro (⟨rfl, hodd⟩ | ⟨⟨front, name, rfl, hstart, hodd, hopen, hclose⟩, hc⟩)
    · exact ⟨t ++ [c], [], by simp, by simp, hodd, List.not_mem_nil, List.not_mem_nil⟩
    · refine ⟨front, name ++ [c], by simp, hstart, hodd, ?_, ?_⟩
      · simpa [hopen] using Ne.symm hc.1
      · simpa [hclose] using Ne.symm hc.2

/-- The last bracket is open if there is an odd number of them. -/
theorem opens_length_iff (t : Text) : Opens t t.length ↔ openingRun t % 2 = 1 := by
  constructor
  · rintro ⟨front, name, rfl, hlength, hodd, -⟩
    obtain rfl : name = [] := by simpa using hlength
    rwa [List.append_nil]
  · intro hodd
    exact ⟨t, [], (List.append_nil t).symm, rfl, hodd, List.not_mem_nil, List.not_mem_nil⟩

/-- An opening bracket opens a tag unless the one in front of it did. -/
theorem opens_concat_open (t : Text) (start : Nat) :
    Opens (t ++ ['[']) start ↔ start = t.length + 1 ∧ ¬ Opens t t.length := by
  rw [opens_concat_iff, openingRun_concat_open, opens_length_iff]
  simp only [ne_eq, not_true_eq_false, false_and, and_false, or_false]
  exact and_congr_right fun _ => by omega

/-- A closing bracket leaves no tag open. -/
theorem not_opens_concat_close (t : Text) (start : Nat) : ¬ Opens (t ++ [']']) start := by
  rw [opens_concat_iff, openingRun_concat (by decide)]
  simp

/-- Any other character leaves the tag open that was. -/
theorem opens_concat {c : Char} (hopen : c ≠ '[') (hclose : c ≠ ']') (t : Text) (start : Nat) :
    Opens (t ++ [c]) start ↔ Opens t start := by
  rw [opens_concat_iff, openingRun_concat hopen]
  simp [hopen, hclose]

/-! ### Finding the tags -/

/-- What the scan keeps and finds at each character. -/
theorem colorTagsFrom_open (i : Nat) (opened : Option Nat) (t : Text) :
    colorTagsFrom i opened ('[' :: t) =
      colorTagsFrom (i + 1) (if opened.map (· + 1) = some i then none else some i) t :=
  rfl

theorem colorTagsFrom_close (i : Nat) (opened : Option Nat) (t : Text) :
    colorTagsFrom i opened (']' :: t) =
      (opened.toList.map fun start => ⟨start + 1, i⟩) ++ colorTagsFrom (i + 1) none t := by
  cases opened <;> rfl

theorem colorTagsFrom_cons {c : Char} (hopen : c ≠ '[') (hclose : c ≠ ']') (i : Nat)
    (opened : Option Nat) (t : Text) :
    colorTagsFrom i opened (c :: t) = colorTagsFrom (i + 1) opened t := by
  rw [colorTagsFrom.eq_def]
  simp only [if_neg hopen, if_neg hclose]

/-- A closing bracket is the first character, or it stands behind that. -/
theorem exists_close_iff {c : Char} {cs : Text} {p : Text → Prop} :
    (∃ name rest, c :: cs = name ++ ']' :: rest ∧ p name) ↔
      c = ']' ∧ p [] ∨ ∃ name rest, cs = name ++ ']' :: rest ∧ p (c :: name) := by
  constructor
  · rintro ⟨name, rest, h, hp⟩
    cases name with
    | nil => exact .inl ⟨(List.cons.inj h).1, hp⟩
    | cons d name =>
      obtain ⟨rfl, hcs⟩ := List.cons.inj h
      exact .inr ⟨name, rest, hcs, hp⟩
  · rintro (⟨rfl, hp⟩ | ⟨name, rest, rfl, hp⟩)
    · exact ⟨[], cs, rfl, hp⟩
    · exact ⟨c :: name, rest, rfl, hp⟩

/-- The tags from some place on end at the closing brackets that meet an open one, if the scan
remembers there which bracket is open. -/
theorem mem_colorTagsFrom_iff {front : Text} {opened : Option Nat}
    (h : ∀ start, opened.map (· + 1) = some start ↔ Opens front start) (t : Text)
    (tag : ColorTag) :
    tag ∈ colorTagsFrom front.length opened t ↔
      ∃ name rest, t = name ++ ']' :: rest ∧
        Opens (front ++ name) tag.nameStart ∧ tag.nameStop = (front ++ name).length := by
  induction t generalizing front opened with
  | nil => simp [colorTagsFrom]
  | cons c cs ih =>
    -- The induction hypothesis, with the front part one character longer.
    have hrest (opened : Option Nat)
        (h : ∀ start, opened.map (· + 1) = some start ↔ Opens (front ++ [c]) start) :
        tag ∈ colorTagsFrom (front.length + 1) opened cs ↔
          ∃ name rest, cs = name ++ ']' :: rest ∧ Opens (front ++ c :: name) tag.nameStart ∧
            tag.nameStop = (front ++ c :: name).length := by
      have hfront := ih h
      simp only [List.append_assoc, List.cons_append, List.nil_append] at hfront
      rwa [List.length_append, List.length_singleton] at hfront
    rw [exists_close_iff, List.append_nil]
    rcases eq_or_ne c '[' with rfl | hopen
    · rw [colorTagsFrom_open, hrest]
      · simp
      · intro start
        rw [opens_concat_open, ← h]
        split <;> simp_all [eq_comm]
    rcases eq_or_ne c ']' with rfl | hclose
    · have hnone (start : Nat) :
          (none : Option Nat).map (· + 1) = some start ↔ Opens (front ++ [']']) start :=
        iff_of_false (by simp) (not_opens_concat_close front start)
      have hfound : tag ∈ (opened.toList.map fun start => (⟨start + 1, front.length⟩ : ColorTag)) ↔
          Opens front tag.nameStart ∧ tag.nameStop = front.length := by
        rw [← h]
        cases tag
        cases opened <;> simp [eq_comm]
      rw [colorTagsFrom_close, List.mem_append, hrest none hnone, hfound]
      simp only [true_and]
    · have hkept (start : Nat) :
          opened.map (· + 1) = some start ↔ Opens (front ++ [c]) start :=
        (h start).trans (opens_concat hopen hclose front start).symm
      rw [colorTagsFrom_cons hopen hclose, hrest opened hkept]
      simp [hclose]

/-- Tags start behind the place from which they are looked for, or at the bracket that is open. -/
theorem lt_nameStart_of_mem {i bound : Nat} {opened : Option Nat}
    (hopened : ∀ start ∈ opened, bound ≤ start) (hi : bound ≤ i) {t : Text} {tag : ColorTag}
    (htag : tag ∈ colorTagsFrom i opened t) : bound < tag.nameStart := by
  induction t generalizing i opened with
  | nil => simp [colorTagsFrom] at htag
  | cons c cs ih =>
    rcases eq_or_ne c '[' with rfl | hopen
    · rw [colorTagsFrom_open] at htag
      refine ih (fun start hstart => ?_) (Nat.le_succ_of_le hi) htag
      split at hstart
      · cases hstart
      · exact Option.some.inj hstart ▸ hi
    rcases eq_or_ne c ']' with rfl | hclose
    · rw [colorTagsFrom_close, List.mem_append, List.mem_map] at htag
      rcases htag with ⟨start, hstart, rfl⟩ | htag
      · exact Nat.lt_succ_of_le (hopened start (Option.mem_toList.1 hstart))
      · exact ih (by simp) (Nat.le_succ_of_le hi) htag
    · rw [colorTagsFrom_cons hopen hclose] at htag
      exact ih hopened (Nat.le_succ_of_le hi) htag

/-- Each tag starts behind the end of the one before. -/
theorem pairwise_colorTagsFrom (i : Nat) (opened : Option Nat) (t : Text) :
    (colorTagsFrom i opened t).Pairwise fun a b => a.nameStop < b.nameStart := by
  induction t generalizing i opened with
  | nil => exact .nil
  | cons c cs ih =>
    rcases eq_or_ne c '[' with rfl | hopen
    · exact ih _ _
    rcases eq_or_ne c ']' with rfl | hclose
    · rw [colorTagsFrom_close]
      refine List.pairwise_append.2 ⟨?_, ih _ _, ?_⟩
      · cases opened <;> simp
      · intro tag htag later hlater
        obtain ⟨start, -, rfl⟩ := List.mem_map.1 htag
        exact Nat.lt_of_succ_lt (lt_nameStart_of_mem (by simp) (Nat.le_refl _) hlater)
    · rw [colorTagsFrom_cons hopen hclose]
      exact ih _ _

/-- The colour tags of a text are found in order, without overlaps, and all of them. -/
theorem colorTags_exact (t : Text) :
    (colorTags t).Pairwise (fun a b => a.nameStop < b.nameStart) ∧
      ∀ tag, tag ∈ colorTags t ↔ IsColorTag t tag := by
  refine ⟨pairwise_colorTagsFrom 0 none t, fun tag => ?_⟩
  have hfound := @mem_colorTagsFrom_iff [] none
    (fun start => iff_of_false (by simp) (not_opens_nil start)) t tag
  rw [colorTags]
  refine hfound.trans ?_
  constructor
  · rintro ⟨body, rest, rfl, ⟨front, name, rfl, hstart, hodd, hopen, hclose⟩, hstop⟩
    exact ⟨front, name, rest, rfl, hodd, hopen, hclose, hstart.symm, by simpa using hstop⟩
  · rintro ⟨front, name, rest, rfl, hodd, hopen, hclose, hstart, hstop⟩
    exact ⟨front ++ name, rest, rfl, ⟨front, name, rfl, hstart.symm, hodd, hopen, hclose⟩,
      by simpa using hstop⟩

end LogicAsm.Markup
