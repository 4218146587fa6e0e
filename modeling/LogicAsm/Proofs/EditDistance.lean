import LogicAsm.Spelling
import Mathlib.Data.List.Infix

/-!
# The edit distance is Levenshtein's

The distance of two texts is given by a recursion on their first characters (`levenshtein`).  The
table of rows grows at the other end: a row is for one more character at the end of the longer
text, and an entry is for one more at the end of the shorter one.  Both are ways to count the same
thing, the least number of insertions, deletions and replacements between two texts (`Edits`), and
edits can be read from either end (`Edits.reverse`).

* `row_concat`: a row of distances gives the next one.
* `exists_prefix_levenshtein_le`: some entry of each row is no greater than the distance in the end.
  So when a whole row is above the limit, the distance is too, and nothing is lost by stopping.
-/

namespace LogicAsm.Spelling

/-! ### Distance and edits -/

/-- The Levenshtein distance: the first character is deleted, inserted, or kept or replaced. -/
def levenshtein : Text → Text → Nat
  | [], t => t.length
  | s, [] => s.length
  | c :: s, d :: t =>
    min (min (levenshtein s (d :: t) + 1) (levenshtein (c :: s) t + 1))
      (levenshtein s t + if c = d then 0 else 1)
termination_by s t => s.length + t.length

/-- `Edits s t n`: the text `s` becomes `t` by `n` insertions, deletions and replacements of
characters, made from left to right. -/
inductive Edits : Text → Text → Nat → Prop
  | nil : Edits [] [] 0
  | delete {s t n} (c : Char) : Edits s t n → Edits (c :: s) t (n + 1)
  | insert {s t n} (d : Char) : Edits s t n → Edits s (d :: t) (n + 1)
  | replace {s t n} (c d : Char) : Edits s t n →
      Edits (c :: s) (d :: t) (n + if c = d then 0 else 1)

@[simp]
theorem levenshtein_nil_left (t : Text) : levenshtein [] t = t.length := by
  rw [levenshtein]

@[simp]
theorem levenshtein_nil_right (s : Text) : levenshtein s [] = s.length := by
  cases s <;> simp [levenshtein]

theorem levenshtein_cons_cons (c d : Char) (s t : Text) :
    levenshtein (c :: s) (d :: t) =
      min (min (levenshtein s (d :: t) + 1) (levenshtein (c :: s) t + 1))
        (levenshtein s t + if c = d then 0 else 1) := by
  rw [levenshtein]

/-- As many edits as the distance says are enough. -/
theorem edits_levenshtein (s t : Text) : Edits s t (levenshtein s t) := by
  induction s, t using levenshtein.induct with
  | case1 t =>
    rw [levenshtein_nil_left]
    induction t with
    | nil => exact .nil
    | cons d t ih => exact ih.insert d
  | case2 s hs =>
    rw [levenshtein_nil_right]
    clear hs
    induction s with
    | nil => exact .nil
    | cons c s ih => exact ih.delete c
  | case3 c s d t hdelete hinsert hreplace =>
    -- The least of the three is one of them, and each of them is the last edit of a script.
    have hleast : levenshtein (c :: s) (d :: t) = levenshtein s (d :: t) + 1 ∨
        levenshtein (c :: s) (d :: t) = levenshtein (c :: s) t + 1 ∨
        levenshtein (c :: s) (d :: t) = levenshtein s t + if c = d then 0 else 1 := by
      rw [levenshtein_cons_cons]
      omega
    rcases hleast with h | h | h
    · exact h ▸ hdelete.delete c
    · exact h ▸ hinsert.insert d
    · exact h ▸ hreplace.replace c d

/-- Fewer edits than the distance says are not enough. -/
theorem Edits.levenshtein_le {s t : Text} {n : Nat} (h : Edits s t n) : levenshtein s t ≤ n := by
  induction h with
  | nil => simp
  | @delete s t n c _ ih =>
    cases t with
    | nil => simpa using ih
    | cons d t =>
      rw [levenshtein_cons_cons]
      omega
  | @insert s t n d _ ih =>
    cases s with
    | nil => simpa using ih
    | cons c s =>
      rw [levenshtein_cons_cons]
      omega
  | replace c d _ ih =>
    rw [levenshtein_cons_cons]
    omega

namespace Edits

variable {s t s' t' : Text} {n m : Nat}

theorem symm (h : Edits s t n) : Edits t s n := by
  induction h with
  | nil => exact .nil
  | delete c _ ih => exact ih.insert c
  | insert d _ ih => exact ih.delete d
  | replace c d _ ih =>
    rw [if_congr eq_comm rfl rfl]
    exact ih.replace d c

theorem append (h : Edits s t n) (h' : Edits s' t' m) : Edits (s ++ s') (t ++ t') (n + m) := by
  induction h with
  | nil => simpa using h'
  | delete c _ ih =>
    rw [Nat.add_right_comm]
    exact ih.delete c
  | insert d _ ih =>
    rw [Nat.add_right_comm]
    exact ih.insert d
  | replace c d _ ih =>
    rw [Nat.add_right_comm]
    exact ih.replace c d

/-- Edits may as well be made from right to left. -/
theorem reverse (h : Edits s t n) : Edits s.reverse t.reverse n := by
  induction h with
  | nil => exact .nil
  | delete c _ ih => simpa using ih.append (nil.delete c)
  | insert d _ ih => simpa using ih.append (nil.insert d)
  | replace c d _ ih => simpa using ih.append (nil.replace c d)

/-- What is edited in two parts is the result in two parts. -/
theorem exists_of_append (h : Edits (s ++ s') t n) :
    ∃ t₁ t₂ n₁ n₂, t = t₁ ++ t₂ ∧ n = n₁ + n₂ ∧ Edits s t₁ n₁ ∧ Edits s' t₂ n₂ := by
  -- The induction runs on the script, so the split text has to become a variable.
  generalize hwhole : s ++ s' = whole at h
  induction h generalizing s with
  | nil =>
    obtain ⟨rfl, rfl⟩ := List.append_eq_nil_iff.1 hwhole
    exact ⟨[], [], 0, 0, rfl, rfl, .nil, .nil⟩
  | @delete w t n c hw ih =>
    cases s with
    | nil =>
      obtain rfl : s' = c :: w := hwhole
      exact ⟨[], t, 0, n + 1, rfl, (Nat.zero_add _).symm, .nil, hw.delete c⟩
    | cons b s =>
      obtain ⟨rfl, hrest⟩ := List.cons.inj hwhole
      obtain ⟨t₁, t₂, n₁, n₂, rfl, rfl, h₁, h₂⟩ := ih hrest
      exact ⟨t₁, t₂, n₁ + 1, n₂, rfl, by omega, h₁.delete b, h₂⟩
  | insert d _ ih =>
    obtain ⟨t₁, t₂, n₁, n₂, rfl, rfl, h₁, h₂⟩ := ih hwhole
    exact ⟨d :: t₁, t₂, n₁ + 1, n₂, rfl, by omega, h₁.insert d, h₂⟩
  | @replace w t n c d hw ih =>
    cases s with
    | nil =>
      obtain rfl : s' = c :: w := hwhole
      exact ⟨[], d :: t, 0, _, rfl, (Nat.zero_add _).symm, .nil, hw.replace c d⟩
    | cons b s =>
      obtain ⟨rfl, hrest⟩ := List.cons.inj hwhole
      obtain ⟨t₁, t₂, n₁, n₂, rfl, rfl, h₁, h₂⟩ := ih hrest
      exact ⟨d :: t₁, t₂, _, n₂, rfl, by omega, h₁.replace b d, h₂⟩

theorem length_le (h : Edits s t n) : s.length ≤ t.length + n := by
  induction h with
  | nil => exact Nat.le_refl _
  | delete c _ ih =>
    rw [List.length_cons]
    omega
  | insert d _ ih =>
    rw [List.length_cons]
    omega
  | replace c d _ ih =>
    rw [List.length_cons, List.length_cons]
    omega

end Edits

theorem levenshtein_comm (s t : Text) : levenshtein s t = levenshtein t s :=
  Nat.le_antisymm (edits_levenshtein t s).symm.levenshtein_le
    (edits_levenshtein s t).symm.levenshtein_le

theorem levenshtein_reverse (s t : Text) :
    levenshtein s.reverse t.reverse = levenshtein s t := by
  refine Nat.le_antisymm (edits_levenshtein s t).reverse.levenshtein_le ?_
  have h := (edits_levenshtein s.reverse t.reverse).reverse.levenshtein_le
  rwa [List.reverse_reverse, List.reverse_reverse] at h

/-- The recursion on the last characters instead of the first ones. -/
theorem levenshtein_concat (c d : Char) (s t : Text) :
    levenshtein (s ++ [c]) (t ++ [d]) =
      min (min (levenshtein s (t ++ [d]) + 1) (levenshtein (s ++ [c]) t + 1))
        (levenshtein s t + if c = d then 0 else 1) := by
  have hstart := levenshtein_cons_cons c d s.reverse t.reverse
  have hs : c :: s.reverse = (s ++ [c]).reverse := by simp
  have ht : d :: t.reverse = (t ++ [d]).reverse := by simp
  rwa [hs, ht, levenshtein_reverse, levenshtein_reverse, levenshtein_reverse,
    levenshtein_reverse] at hstart

/-- Part of a text is as near to some start of the other text as the whole is to the whole. -/
theorem exists_prefix_levenshtein_le (s s' t : Text) :
    ∃ t₁, t₁ <+: t ∧ levenshtein s t₁ ≤ levenshtein (s ++ s') t := by
  obtain ⟨t₁, t₂, n₁, n₂, ht, hn, h₁, -⟩ := (edits_levenshtein (s ++ s') t).exists_of_append
  refine ⟨t₁, ht ▸ List.prefix_append t₁ t₂, ?_⟩
  have hle := h₁.levenshtein_le
  omega

theorem length_sub_le_levenshtein (s t : Text) : s.length - t.length ≤ levenshtein s t := by
  have h := (edits_levenshtein s t).length_le
  omega

/-! ### Rows of distances -/

/-- The distances of a text to all starts of the target. -/
def row (s target : Text) : List Nat := target.inits.map (levenshtein s)

theorem tail_inits_cons (d : Char) (t : Text) :
    (d :: t).inits.tail = [d] :: t.inits.tail.map (d :: ·) := by
  cases t <;> simp

theorem row_eq_cons (s target : Text) :
    row s target = s.length :: target.inits.tail.map (levenshtein s) := by
  cases target <;> simp [row]

/-- The row from the second entry on is computed from the left, under the row above; the columns
of `front` are done. -/
theorem rowFrom_eq (c : Char) (s front rest : Text) :
    rowFrom c (levenshtein (s ++ [c]) front)
        (levenshtein s front :: rest.inits.tail.map fun t => levenshtein s (front ++ t)) rest =
      rest.inits.tail.map fun t => levenshtein (s ++ [c]) (front ++ t) := by
  induction rest generalizing front with
  | nil => simp [rowFrom]
  | cons d rest ih =>
    have hcolumns (s : Text) :
        ((d :: rest).inits.tail.map fun t => levenshtein s (front ++ t)) =
          levenshtein s (front ++ [d]) ::
            rest.inits.tail.map fun t => levenshtein s ((front ++ [d]) ++ t) := by
      rw [tail_inits_cons, List.map_cons, List.map_map]
      simp only [Function.comp_def, List.append_assoc, List.cons_append, List.nil_append]
    rw [hcolumns, hcolumns, rowFrom, ← ih, levenshtein_concat]

/-- A row gives the one for one more character. -/
theorem nextRow_row (c : Char) (s target : Text) :
    nextRow c (row s target) target = row (s ++ [c]) target := by
  have h := rowFrom_eq c s [] target
  simp only [levenshtein_nil_right, List.nil_append, List.length_append,
    List.length_singleton] at h
  rw [row_eq_cons, row_eq_cons, nextRow, h, List.length_append, List.length_singleton]

/-- The first row. -/
theorem row_nil (target : Text) : row [] target = List.range (target.length + 1) := by
  refine List.ext_getElem (by simp [row]) fun i hi _ => ?_
  have hle : i ≤ target.length := by simpa [row, Nat.lt_succ_iff] using hi
  simp [row, hle]

/-- The last entry of the last row. -/
theorem getLast?_row (s target : Text) : (row s target).getLast? = some (levenshtein s target) := by
  have hlast : target.inits.getLast? = some target := by
    rw [List.getLast?_eq_getElem?, List.length_inits, Nat.add_sub_cancel,
      List.getElem?_eq_getElem (by simp), List.getElem_inits, List.take_length]
  rw [row, List.getLast?_map, hlast, Option.map_some]

/-! ### Stopping at the limit -/

theorem exceeds_of_le {limit : Option Int} {n m : Nat} (hle : n ≤ m) (h : exceeds limit n = true) :
    exceeds limit m = true := by
  cases limit with
  | none => cases h
  | some l =>
    simp only [exceeds, Option.any_some, decide_eq_true_eq] at h ⊢
    omega

/-- A row that is above the limit throughout leaves no way to stay below it. -/
theorem exceeds_of_row {limit : Option Int} {s target : Text}
    (h : (row s target).min?.any (exceeds limit) = true) (s' : Text) :
    exceeds limit (levenshtein (s ++ s') target) = true := by
  obtain ⟨least, hleast, habove⟩ := (Option.any_eq_true _ _).1 h
  obtain ⟨t₁, ht₁, hle⟩ := exists_prefix_levenshtein_le s s' target
  have hmem : levenshtein s t₁ ∈ row s target :=
    List.mem_map_of_mem ((List.mem_inits t₁ target).2 ht₁)
  have hmin := (List.min?_eq_some_iff.1 hleast).2 _ hmem
  exact exceeds_of_le (Nat.le_trans hmin hle) habove

/-- The last row is that of the whole text, unless its distance is above the limit anyway. -/
theorem lastRow?_row (limit : Option Int) (s rest target : Text) :
    lastRow? limit target (row s target) rest = some (row (s ++ rest) target) ∨
      lastRow? limit target (row s target) rest = none ∧
        exceeds limit (levenshtein (s ++ rest) target) = true := by
  induction rest generalizing s with
  | nil => exact .inl (by rw [lastRow?, List.append_nil])
  | cons c rest ih =>
    rw [lastRow?, nextRow_row, List.append_cons s c rest]
    by_cases h : (row (s ++ [c]) target).min?.any (exceeds limit) = true
    · exact .inr ⟨if_pos h, exceeds_of_row h rest⟩
    · rw [if_neg h]
      exact ih (s ++ [c])

/-- The distance of two texts up to a limit. -/
theorem distanceOfLonger?_eq (longer shorter : Text) (limit : Option Int) :
    distanceOfLonger? longer shorter limit =
      if exceeds limit (levenshtein longer shorter) then none
      else some (levenshtein longer shorter) := by
  unfold distanceOfLonger?
  split
  · next hgap =>
    rw [if_pos (exceeds_of_le (length_sub_le_levenshtein longer shorter) hgap)]
  · rw [← row_nil]
    rcases lastRow?_row limit [] longer shorter with h | ⟨h, habove⟩
    · rw [h, List.nil_append]
      show ((row longer shorter).getLast?.bind _) = _
      rw [getLast?_row]
      rfl
    · rw [List.nil_append] at habove
      rw [h, if_pos habove]
      rfl

/-- The distance of two texts, whichever is the longer one, up to a limit. -/
theorem distance?_eq (s t : Text) (limit : Option Int) :
    distance? s t limit =
      if ∀ l ∈ limit, (levenshtein s t : Int) ≤ l then some (levenshtein s t) else none := by
  have hwithin : exceeds limit (levenshtein s t) = true ↔
      ¬ ∀ l ∈ limit, (levenshtein s t : Int) ≤ l := by
    cases limit <;> simp [exceeds]
  rw [← ite_not, ← if_congr hwithin rfl rfl]
  unfold distance?
  split
  · rw [distanceOfLonger?_eq, levenshtein_comm]
  · exact distanceOfLonger?_eq s t limit

/-- The distance is Levenshtein's if that is within the limit, and there is none otherwise; it does
not matter which text comes first. -/
theorem distance?_levenshtein (s t : Text) (limit : Option Int) :
    distance? s t limit =
        (if ∀ l ∈ limit, (levenshtein s t : Int) ≤ l then some (levenshtein s t) else none) ∧
      distance? s t limit = distance? t s limit :=
  ⟨distance?_eq s t limit, by rw [distance?_eq, distance?_eq, levenshtein_comm]⟩

end LogicAsm.Spelling
