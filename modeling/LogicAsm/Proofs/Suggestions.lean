import LogicAsm.Proofs.EditDistance
import LogicAsm.Proofs.Rounding
import Mathlib.Data.List.MinMax

/-!
# The suggested name is the first best one

The candidates are gone through once, and each is compared under the limit that the best one so far
has set.  A later candidate has to be strictly nearer, so of several least distances the first one
counts: what the search ends with is `List.argmin` of the candidates in reach
(`suggestFrom_eq`).  Lowering the limit on the way loses none of them
(`argmin_filter_lt`), and a candidate that differs in case only ends the search.

The two lengths that candidates are held to are computed in binary64.  Rounding does not show in
them before a name has `2 ^ 48` characters (`lengthSlack_eq`, `reach_eq`).
-/

namespace LogicAsm.Spelling

/-! ### The two lengths -/

/-- Rounded up, the fraction `34 / 100` takes no product below a whole number. -/
theorem lengthSlack_eq {name : Text} (h : name.length < 2 ^ 48) :
    lengthSlack name = max 2 (name.length * 34 / 100) := by
  have hfraction : Magnitude.ofRatio 34 100 = .finite 6124895493223875 (-54) := by decide
  rw [lengthSlack, share, hfraction, Magnitude.wholePart?_mul h (by decide) (by decide)
    (show name.length * 34 / 100 * 2 ^ 54 ≤ _ by omega) (by omega), Option.getD_some]

/-- Rounded up, the fraction `2 / 5` takes no product below a whole number. -/
theorem reach_eq {name : Text} (h : name.length < 2 ^ 48) : reach name = name.length * 2 / 5 := by
  have hfraction : Magnitude.ofRatio 2 5 = .finite 7205759403792794 (-54) := by decide
  rw [reach, share, hfraction, Magnitude.wholePart?_mul h (by decide) (by decide)
    (show name.length * 2 / 5 * 2 ^ 54 ≤ _ by omega) (by omega), Option.getD_some]

/-! ### The candidates that count -/

/-- A candidate is near a name if it is another text of about the same length. -/
def IsNear (name candidate : Text) : Prop :=
  candidate ≠ name ∧ lengthGap candidate name ≤ lengthSlack name

instance (name candidate : Text) : Decidable (IsNear name candidate) :=
  inferInstanceAs (Decidable (_ ∧ _))

/-- How far a candidate is from a name, whatever the case. -/
def foldedDistance (name candidate : Text) : Nat := levenshtein name.lower candidate.lower

/-- A candidate at less than some distance that is compared with the name at all. -/
def IsWithin (name : Text) (bound : Nat) (candidate : Text) : Prop :=
  IsNear name candidate ∧ 3 ≤ candidate.length ∧ foldedDistance name candidate < bound

instance (name : Text) (bound : Nat) (candidate : Text) :
    Decidable (IsWithin name bound candidate) :=
  inferInstanceAs (Decidable (_ ∧ _))

/-! ### The first least value -/

/-- A first value stays until a smaller one comes. -/
theorem argmin_cons_eq_or {α : Type} (f : α → Nat) (x : α) (xs : List α) :
    (x :: xs).argmin f = ((xs.argmin f).filter fun y => f y < f x).or (some x) := by
  rw [List.argmin_cons]
  cases xs.argmin f with
  | none => rfl
  | some y => by_cases hlt : f y < f x <;> simp [Option.filter_some, hlt]

/-- The first least value below a bound is that of all values, if it is below the bound. -/
theorem argmin_filter_lt {α : Type} (f : α → Nat) (bound : Nat) (xs : List α) :
    (xs.filter fun x => f x < bound).argmin f = (xs.argmin f).filter fun x => f x < bound := by
  induction xs with
  | nil => rfl
  | cons x xs ih =>
    rw [argmin_cons_eq_or]
    by_cases hx : f x < bound
    · rw [List.filter_cons_of_pos (by simpa using hx), argmin_cons_eq_or, ih]
      cases xs.argmin f with
      | none => simp [Option.filter_some, hx]
      | some y =>
        by_cases hlt : f y < f x
        · have hy : f y < bound := Nat.lt_trans hlt hx
          simp [Option.filter_some, hlt, hy]
        · by_cases hy : f y < bound <;> simp [Option.filter_some, hx, hlt, hy]
    · rw [List.filter_cons_of_neg (by simpa using hx), ih]
      cases xs.argmin f with
      | none => simp [Option.filter_some, hx]
      | some y =>
        by_cases hlt : f y < f x
        · simp [Option.filter_some, hlt]
        · have hy : ¬ f y < bound := by omega
          simp [Option.filter_some, hx, hlt, hy]

/-! ### The search -/

/-- The comparison under the limit that the best candidate so far has set. -/
theorem distance?_lower_eq (name candidate : Text) (bound : Nat) :
    distance? name.lower candidate.lower (some (bound - 1 : Int)) =
      if foldedDistance name candidate < bound then some (foldedDistance name candidate)
      else none := by
  have hlimit : (∀ l ∈ some (bound - 1 : Int), (foldedDistance name candidate : Int) ≤ l) ↔
      foldedDistance name candidate < bound := by
    simp only [Option.mem_some_iff, forall_eq']
    omega
  rw [distance?_eq, ← foldedDistance, if_congr hlimit rfl rfl]

/-- Lowering the bound leaves out the candidates from the lower one on. -/
theorem filter_isWithin {name : Text} {bound lower : Nat} (hlt : lower < bound)
    (candidates : List Text) :
    (candidates.filter (IsWithin name bound)).filter (fun c => foldedDistance name c < lower) =
      candidates.filter (IsWithin name lower) := by
  rw [List.filter_filter]
  refine List.filter_congr fun c _ => ?_
  rw [← Bool.decide_and, decide_eq_decide, IsWithin, IsWithin]
  constructor
  · rintro ⟨hless, hnear, hlong, -⟩
    exact ⟨hnear, hlong, hless⟩
  · rintro ⟨hnear, hlong, hless⟩
    exact ⟨hless, hnear, hlong, Nat.lt_trans hless hlt⟩

/-- What is found among candidates, given the best one so far. -/
theorem suggestFrom_eq (name : Text) (best : Option Text) (bound : Nat) (candidates : List Text) :
    suggestFrom name best bound candidates =
      (candidates.find? fun c => IsNear name c ∧ c.lower = name.lower).or
        (((candidates.filter (IsWithin name bound)).argmin (foldedDistance name)).or best) := by
  induction candidates generalizing best bound with
  | nil => rfl
  | cons c cs ih =>
    rw [suggestFrom]
    split
    · next hfar =>
      have hnear : ¬ IsNear name c := by
        rw [IsNear]
        rcases hfar with hsame | hgap
        · exact fun h => h.1 hsame
        · exact fun h => Nat.not_lt.2 h.2 hgap
      rw [ih, List.find?_cons_of_neg (by simp [hnear]),
        List.filter_cons_of_neg (by simp [IsWithin, hnear])]
    · next hfar =>
      have hnear : IsNear name c := by
        rw [not_or, Nat.not_lt] at hfar
        exact hfar
      split
      · next hcase => rw [List.find?_cons_of_pos (by simp [hnear, hcase]), Option.some_or]
      · next hcase =>
        rw [List.find?_cons_of_neg (by simp [hcase])]
        split
        · next hshort =>
          have hwithin : ¬ IsWithin name bound c := fun h => Nat.not_lt.2 h.2.1 hshort
          rw [ih, List.filter_cons_of_neg (by simpa using hwithin)]
        · next hlong =>
          rw [distance?_lower_eq]
          by_cases hless : foldedDistance name c < bound
          · have hwithin : IsWithin name bound c := ⟨hnear, Nat.not_lt.1 hlong, hless⟩
            rw [if_pos hless, List.filter_cons_of_pos (by simpa using hwithin)]
            -- A candidate under the bound becomes the best so far, and its distance the new bound.
            show suggestFrom name (some c) (foldedDistance name c) cs = _
            rw [ih, argmin_cons_eq_or, ← argmin_filter_lt, filter_isWithin hless,
              Option.or_assoc, Option.some_or]
          · have hwithin : ¬ IsWithin name bound c := fun h => hless h.2.2
            rw [if_neg hless, List.filter_cons_of_neg (by simpa using hwithin)]
            exact ih best bound

/-- The suggestion is the first near candidate that differs in case only; if there is none, the
first one at the least distance among the near candidates that are long enough and within reach. -/
theorem suggest_eq_first_best (name : Text) (candidates : List Text) :
    suggest name candidates =
      ((candidates.filter (IsNear name)).find? fun c => c.lower = name.lower).or
        (((candidates.filter (IsNear name)).filter fun c =>
          3 ≤ c.length ∧ levenshtein name.lower c.lower ≤ reach name).argmin fun c =>
            levenshtein name.lower c.lower) := by
  have hwithin : candidates.filter (IsWithin name (reach name + 1)) =
      (candidates.filter (IsNear name)).filter fun c =>
        3 ≤ c.length ∧ levenshtein name.lower c.lower ≤ reach name := by
    rw [List.filter_filter]
    refine List.filter_congr fun c _ => ?_
    rw [← Bool.decide_and, decide_eq_decide, IsWithin, Nat.lt_succ_iff, foldedDistance, and_comm]
  rw [suggest, suggestFrom_eq, hwithin, Option.or_none, List.find?_filter]
  simp only [Bool.decide_and, Bool.decide_eq_true]
  rfl

end LogicAsm.Spelling
