import LogicAsm.Proofs.BitSets
import LogicAsm.Proofs.Results
import Mathlib.Algebra.Group.Nat.Defs
import Mathlib.Data.Finset.SymmDiff
import Mathlib.Order.BooleanAlgebra.Set

/-!
# Bit sets through their history

A program makes bit sets, changes them and joins them, in any order.  Beside every bit set stands
the set of numbers that it is meant to be (`PlainSet`), and each operation says what it means for
these (`Operation.meaning`).  One step keeps bit sets and plain sets together
(`Operation.agrees_result`), and so does a whole run (`Operation.agrees_run`).  A run ends early
only where a set would take more words than a list can have (`Operation.HasRoom`).

What a bit set answers about itself is then read off the plain set (`Represents.answers`): the
members that the lowest bits give, in rising order (`mem_toList`, `pairwise_toList`), and their
number, which the ones among the digits give too (`count_eq_length`).  Two bit sets are equal if
the plain sets are (`Represents.beq_iff`).  Equality compares lengths and words, so this rests on
the bits from the length on being clear.  With union and intersection the sets of one length are a
Boolean lattice (`isBooleanLattice`).
-/

namespace LogicAsm.BitSet

/-! ### Sets as they are meant -/

/-- A set of numbers below a length, as a set. -/
structure PlainSet where
  length : Nat
  members : Finset Nat
deriving DecidableEq

/-- A bit set is meant to be a plain set: it has the words that the length takes, all words are
below 2³², the bits from the length on are clear, and the others are set for the members. -/
structure Represents (s : BitSet) (p : PlainSet) : Prop where
  length : s.length = p.length
  words : s.words.length = (p.length + 31) / 32
  word_lt : ∀ w ∈ s.words, w.toNat < 2 ^ 32
  padding : ∀ k w, s.words[k]? = some w → ∀ j, p.length ≤ 32 * k + j → w.toNat.testBit j = false
  mem_iff : ∀ i, i ∈ p.members ↔
    i < p.length ∧ ∃ w, s.words[i / 32]? = some w ∧ w.toNat.testBit (i % 32) = true

theorem contains_iff {s : BitSet} {i : Nat} :
    s.contains i = true ↔ ∃ w, s.words[i / 32]? = some w ∧ w.toNat.testBit (i % 32) = true := by
  rw [contains]
  cases s.words[i / 32]? with
  | none => simp
  | some w => simp

/-- A bit of word `k` is a member.  The word has to be below 2³²: a higher bit would stand for a
number of the next one. -/
theorem contains_of_testBit {s : BitSet} (h : ∀ w ∈ s.words, w.toNat < 2 ^ 32) {k j : Nat}
    {w : Word} (hw : s.words[k]? = some w) (hbit : w.toNat.testBit j = true) :
    s.contains (32 * k + j) = true := by
  have hj : j < 32 := Word.lt_of_testBit (h w (List.mem_of_getElem? hw)) hbit
  have hdiv : (32 * k + j) / 32 = k := by omega
  have hmod : (32 * k + j) % 32 = j := by omega
  exact contains_iff.2 ⟨w, by rwa [hdiv], by rwa [hmod]⟩

theorem represents_iff {s : BitSet} {p : PlainSet} :
    s.Represents p ↔ s.Sized p.length ∧ ∀ i, s.contains i = true ↔ i ∈ p.members := by
  constructor
  · intro h
    -- A bit beyond the length would lie in the padding of its word.
    have hlt (i : Nat) (hi : s.contains i = true) : i < p.length := by
      obtain ⟨w, hw, hbit⟩ := contains_iff.1 hi
      by_contra hle
      rw [h.padding (i / 32) w hw (i % 32) (by omega)] at hbit
      cases hbit
    refine ⟨⟨h.length, h.words, h.word_lt, hlt⟩, fun i => ?_⟩
    rw [h.mem_iff, ← contains_iff]
    exact ⟨fun hi => ⟨hlt i hi, hi⟩, And.right⟩
  · rintro ⟨hs, hmem⟩
    refine ⟨hs.length, hs.words, hs.word_lt, ?_, ?_⟩
    -- The padding: a bit set there would be a member beyond the length.
    · intro k w hw j hj
      by_contra hset
      have hbit : w.toNat.testBit j = true := Bool.not_eq_false _ ▸ hset
      have hlt := hs.lt _ (contains_of_testBit hs.word_lt hw hbit)
      omega
    · intro i
      rw [← hmem, ← contains_iff]
      exact ⟨fun hi => ⟨hs.lt i hi, hi⟩, And.right⟩

/-! ### Views -/

/-- An index below the length stands for its own number. -/
theorem Sized.locate {n : Nat} {s : BitSet} (hs : Sized n s) {i : Nat} (hi : i < n) :
    s.locate i = .ok i := by
  have hword := hs.div_lt hi
  have hdiv : Int.fdiv i 32 = ((i / 32 : Nat) : Int) := by
    rw [Int.fdiv_eq_ediv_of_nonneg _ (by decide)]
    rfl
  have hmod : Int.fmod i 32 = ((i % 32 : Nat) : Int) := by
    rw [Int.fmod_eq_emod_of_nonneg _ (by decide)]
    rfl
  have hresolve : Index.resolve? s.words.length ((i / 32 : Nat) : Int) = some (i / 32) := by
    rw [Index.resolve?, if_pos (by omega), if_pos (by omega)]
    rfl
  rw [BitSet.locate, hdiv, hmod, Index.resolve, hresolve]
  show Except.ok (32 * (i / 32) + i % 32) = _
  rw [Nat.div_add_mod]

/-- Each bit of each word is listed. -/
theorem mem_toList {s : BitSet} (h : ∀ w ∈ s.words, w.toNat < 2 ^ 32) {i : Nat} :
    i ∈ s.toList ↔ s.contains i = true := by
  rw [toList, List.mem_flatMap]
  constructor
  · rintro ⟨⟨w, k⟩, hw, hi⟩
    obtain ⟨j, hj, rfl⟩ := Word.mem_members.1 hi
    have hbase : k <<< 5 = 32 * k := by omega
    rw [hbase]
    exact contains_of_testBit h (List.mk_mem_zipIdx_iff_getElem?.1 hw) hj
  · intro hi
    obtain ⟨w, hw, hbit⟩ := contains_iff.1 hi
    refine ⟨(w, i / 32), List.mk_mem_zipIdx_iff_getElem?.2 hw, Word.mem_members.2 ?_⟩
    exact ⟨i % 32, hbit, by omega⟩

theorem pairwise_toList {s : BitSet} (h : ∀ w ∈ s.words, w.toNat < 2 ^ 32) :
    s.toList.Pairwise (· < ·) := by
  refine List.pairwise_flatMap.2 ⟨fun x _ => Word.pairwise_members _ _, ?_⟩
  have hindices : (s.words.zipIdx.map Prod.snd).Pairwise (· < ·) := by
    rw [List.zipIdx_map_snd]
    exact List.pairwise_lt_range' 1
  -- What a word lists is in front of all that a later word lists, since it has 32 bits only.
  refine (List.pairwise_map.1 hindices).imp_of_mem ?_
  intro x y hx _ hlt i hi i' hi'
  obtain ⟨j, hj, rfl⟩ := Word.mem_members.1 hi
  obtain ⟨j', -, rfl⟩ := Word.mem_members.1 hi'
  have hget := List.mem_of_getElem? (List.mem_zipIdx_iff_getElem?.1 hx)
  have hbit : j < 32 := Word.lt_of_testBit (h _ hget) hj
  omega

/-- The digits that are counted are as many as the bits that are listed. -/
theorem count_eq_length (s : BitSet) : s.count = s.toList.length := by
  have hsum : s.count = (s.words.map fun w => Word.popcount w.toNat).sum := by
    rw [count, List.sum_eq_foldl, List.foldl_map]
  rw [hsum, toList, List.length_flatMap]
  simp only [Word.length_members]
  conv_lhs => rw [← List.zipIdx_map_fst 0 s.words, List.map_map]
  rfl

theorem any_iff {s : BitSet} (h : ∀ w ∈ s.words, w.toNat < 2 ^ 32) :
    s.any = true ↔ ∃ i, s.contains i = true := by
  rw [any, List.any_eq_true]
  constructor
  · rintro ⟨w, hw, hne⟩
    obtain ⟨k, hk⟩ := List.getElem?_of_mem hw
    obtain ⟨j, hj⟩ := Nat.exists_testBit_of_ne_zero (bne_iff_ne.1 hne)
    exact ⟨32 * k + j, contains_of_testBit h hk hj⟩
  · rintro ⟨i, hi⟩
    obtain ⟨w, hw, hbit⟩ := contains_iff.1 hi
    refine ⟨w, List.mem_of_getElem? hw, bne_iff_ne.2 ?_⟩
    intro hzero
    rw [hzero, Nat.zero_testBit] at hbit
    cases hbit

/-! ### Answers -/

/-- What a bit set answers is what holds of the plain set. -/
structure Answers (s : BitSet) (p : PlainSet) : Prop where
  get : ∀ i : Nat, i < p.length → s.get i = .ok (decide (i ∈ p.members))
  ascending : s.toList.Pairwise (· < ·)
  mem_toList : ∀ i, i ∈ s.toList ↔ i ∈ p.members
  count : s.count = p.members.card
  any : s.any = decide p.members.Nonempty

theorem Represents.answers {s : BitSet} {p : PlainSet} (h : s.Represents p) : s.Answers p := by
  obtain ⟨hs, hmem⟩ := represents_iff.1 h
  have hascending : s.toList.Pairwise (· < ·) := pairwise_toList hs.word_lt
  have hlist (i : Nat) : i ∈ s.toList ↔ i ∈ p.members := (mem_toList hs.word_lt).trans (hmem i)
  refine ⟨fun i hi => ?_, hascending, hlist, ?_, ?_⟩
  · rw [get, hs.locate hi]
    exact congrArg Except.ok (Bool.eq_iff_iff.2 ((hmem i).trans decide_eq_true_iff.symm))
  · have hfinset : s.toList.toFinset = p.members := by
      ext i
      rw [List.mem_toFinset, hlist]
    rw [← hfinset, List.toFinset_card_of_nodup (hascending.imp Nat.ne_of_lt), count_eq_length]
  · rw [Bool.eq_iff_iff, any_iff hs.word_lt, decide_eq_true_iff]
    exact exists_congr hmem

/-- Bit sets are equal exactly if they are meant to be. -/
theorem Represents.beq_iff {s t : BitSet} {p q : PlainSet} (hs : s.Represents p)
    (ht : t.Represents q) : (s == t) = true ↔ p.length = q.length ∧ p.members = q.members := by
  obtain ⟨hsized, hmem⟩ := represents_iff.1 hs
  obtain ⟨hsized', hmem'⟩ := represents_iff.1 ht
  rw [beq_iff_eq]
  constructor
  · rintro rfl
    refine ⟨Int.ofNat.inj (hsized.length.symm.trans hsized'.length), ?_⟩
    ext i
    rw [← hmem, hmem']
  · rintro ⟨hlength, hmembers⟩
    rw [hlength] at hsized
    exact hsized.ext hsized' fun i => Bool.eq_iff_iff.2 (by rw [hmem, hmem', hmembers])

/-! ### The lattice of sets of one length -/

/-- The bit sets of a length are a Boolean lattice, in which join and meet are union and
intersection, the least one has no members and the greatest one is full. -/
def IsBooleanLattice (n : Nat) : Prop :=
  ∃ _ : BooleanAlgebra { s : BitSet // s.Sized n },
    (∀ s t : { s : BitSet // s.Sized n }, (s ⊔ t).1 = s.1.union t.1) ∧
    (∀ s t : { s : BitSet // s.Sized n }, (s ⊓ t).1 = s.1.inter t.1) ∧
    (⊥ : { s : BitSet // s.Sized n }).1 = empty n ∧
    (⊤ : { s : BitSet // s.Sized n }).1 = full n

/-- The numbers below the length that are no members. -/
def complement (n : Nat) (s : BitSet) : BitSet := (List.range n).foldl toggle s

theorem complement_spec {n : Nat} {s : BitSet} (hs : Sized n s) {k : Nat} (hk : k ≤ n) :
    Sized n (s.complement k) ∧
      ∀ i, (s.complement k).contains i = (decide (i < k) ^^ s.contains i) := by
  induction k with
  | zero => exact ⟨hs, by simp [complement]⟩
  | succ k ih =>
    obtain ⟨hsized, hcontains⟩ := ih (by omega)
    have hstep : s.complement (k + 1) = (s.complement k).toggle k := by
      rw [complement, List.range_succ, List.foldl_append]
      rfl
    refine ⟨hstep ▸ hsized.toggle (by omega), fun i => ?_⟩
    rw [hstep, contains_toggle (hsized.div_lt (by omega)), hcontains]
    rcases Nat.lt_trichotomy i k with hlt | rfl | hlt
    · simp [hlt, Nat.ne_of_lt hlt, Nat.lt_succ_of_lt hlt]
    · simp
    · simp [Nat.ne_of_gt hlt, Nat.not_lt_of_gt hlt, show ¬ i < k + 1 by omega]

theorem isBooleanLattice (n : Nat) : IsBooleanLattice n := by
  let : Max { s : BitSet // s.Sized n } := ⟨fun s t => ⟨_, s.2.union t.2⟩⟩
  let : Min { s : BitSet // s.Sized n } := ⟨fun s t => ⟨_, s.2.inter t.2⟩⟩
  let : Bot { s : BitSet // s.Sized n } := ⟨⟨_, sized_empty n⟩⟩
  let : Top { s : BitSet // s.Sized n } := ⟨⟨_, sized_full n⟩⟩
  let : Compl { s : BitSet // s.Sized n } :=
    ⟨fun s => ⟨_, (complement_spec s.2 (Nat.le_refl n)).1⟩⟩
  let : SDiff { s : BitSet // s.Sized n } := ⟨fun s t => s ⊓ tᶜ⟩
  let : HImp { s : BitSet // s.Sized n } := ⟨fun s t => t ⊔ sᶜ⟩
  -- The lattice is that of the sets of numbers below `n`, and a bit set is one of them.
  let members (s : { s : BitSet // s.Sized n }) : Set (Fin n) := { i | s.1.contains i = true }
  let : LE { s : BitSet // s.Sized n } := ⟨fun s t => members s ≤ members t⟩
  let : LT { s : BitSet // s.Sized n } := ⟨fun s t => members s < members t⟩
  have hinjective : Function.Injective members := by
    intro s t h
    refine Subtype.ext (s.2.ext t.2 fun i => Bool.eq_iff_iff.2 ?_)
    by_cases hi : i < n
    · exact Set.ext_iff.1 h ⟨i, hi⟩
    · exact iff_of_false (fun hs => hi (s.2.lt i hs)) (fun ht => hi (t.2.lt i ht))
  have hsup (s t : { s : BitSet // s.Sized n }) : members (s ⊔ t) = members s ⊔ members t := by
    ext i
    show (s.1.union t.1).contains i = true ↔ s.1.contains i = true ∨ t.1.contains i = true
    rw [contains_union (s.2.words_eq t.2), Bool.or_eq_true]
  have hinf (s t : { s : BitSet // s.Sized n }) : members (s ⊓ t) = members s ⊓ members t := by
    ext i
    show (s.1.inter t.1).contains i = true ↔ s.1.contains i = true ∧ t.1.contains i = true
    rw [contains_inter (s.2.words_eq t.2), Bool.and_eq_true]
  have htop : members ⊤ = ⊤ := by
    ext i
    show (full n).contains i = true ↔ True
    simp [contains_full]
  have hbot : members ⊥ = ⊥ := by
    ext i
    show (empty n).contains i = true ↔ False
    simp [contains_empty]
  have hcompl (s : { s : BitSet // s.Sized n }) : members sᶜ = (members s)ᶜ := by
    ext i
    show (s.1.complement n).contains i = true ↔ ¬ s.1.contains i = true
    rw [(complement_spec s.2 (Nat.le_refl n)).2 i]
    simp
  have hsdiff (s t : { s : BitSet // s.Sized n }) : members (s \ t) = members s \ members t := by
    show members (s ⊓ tᶜ) = _
    rw [hinf, hcompl, sdiff_eq]
  have hhimp (s t : { s : BitSet // s.Sized n }) : members (s ⇨ t) = members s ⇨ members t := by
    show members (t ⊔ sᶜ) = _
    rw [hsup, hcompl, himp_eq]
  exact ⟨hinjective.booleanAlgebra members Iff.rfl Iff.rfl hsup hinf htop hbot hcompl hsdiff hhimp,
    fun _ _ => rfl, fun _ _ => rfl, rfl, rfl⟩

/-! ### Operations -/

/-- What is done with bit sets, which are called by their numbers in the order of their making. -/
inductive Operation where
  | new (length : Nat)
  | full (length : Nat)
  | clone (k : Nat)
  | set (k i : Nat) (value : Bool)
  | toggle (k i : Nat)
  | assignOr (k l : Nat)
  | assignAnd (k l : Nat)
  | or (k l : Nat)
  | and (k l : Nat)

namespace Operation

/-- The set that an operation changes; without one it makes a new set. -/
def target? : Operation → Option Nat
  | .set k _ _ | .toggle k _ | .assignOr k _ | .assignAnd k _ => some k
  | .new _ | .full _ | .clone _ | .or _ _ | .and _ _ => none

/-- The sets with the result of an operation. -/
def store {α : Type} (op : Operation) (xs : List α) (x : α) : List α :=
  match op.target? with
  | some k => xs.set k x
  | none => xs ++ [x]

/-- The set of a number. -/
def named (sets : List BitSet) (k : Nat) : Except Fault BitSet :=
  (sets[k]?).elim (.error .indexOutOfRange) .ok

/-- Two sets joined, if the second one has no more words than the first. -/
def joined (f : BitSet → BitSet → BitSet) (s t : BitSet) : Except Fault BitSet :=
  (s.requireFit t).map fun _ => f s t

/-- The result of an operation. -/
def result (sets : List BitSet) : Operation → Except Fault BitSet
  | .new n => make n
  | .full n => makeFull n
  | .clone k => named sets k
  | .set k i value => do (← named sets k).set i value
  | .toggle k i => do (← named sets k).flip i
  | .or k l | .assignOr k l => do joined union (← named sets k) (← named sets l)
  | .and k l | .assignAnd k l => do joined inter (← named sets k) (← named sets l)

/-- The sets after an operation. -/
def step (sets : List BitSet) (op : Operation) : Except Fault (List BitSet) :=
  (op.result sets).map (op.store sets)

/-- The sets after a row of operations. -/
def run (sets : List BitSet) (ops : List Operation) : Except Fault (List BitSet) :=
  ops.foldlM step sets

/-! ### What operations mean -/

/-- The plain set that a set is changed to by a number below its length. -/
def changed (ps : List PlainSet) (k i : Nat) (f : Finset Nat → Finset Nat) : Option PlainSet := do
  let p ← ps[k]?
  if i < p.length then some ⟨p.length, f p.members⟩ else none

/-- The plain set that two sets of one length are joined to. -/
def merged (ps : List PlainSet) (k l : Nat) (f : Finset Nat → Finset Nat → Finset Nat) :
    Option PlainSet := do
  let p ← ps[k]?
  let q ← ps[l]?
  if p.length = q.length then some ⟨p.length, f p.members q.members⟩ else none

/-- What an operation means: the plain set that its result is to be.  It means nothing for a set
that is not there, a number that is not below the length, and sets of different lengths. -/
def meaning (ps : List PlainSet) : Operation → Option PlainSet
  | .new n => some ⟨n, ∅⟩
  | .full n => some ⟨n, Finset.range n⟩
  | .clone k => ps[k]?
  | .set k i true => changed ps k i (· ∪ {i})
  | .set k i false => changed ps k i (· \ {i})
  | .toggle k i => changed ps k i (symmDiff · {i})
  | .or k l | .assignOr k l => merged ps k l (· ∪ ·)
  | .and k l | .assignAnd k l => merged ps k l (· ∩ ·)

/-- The plain sets after an operation. -/
def plainStep (ps : List PlainSet) (op : Operation) : Option (List PlainSet) :=
  (op.meaning ps).map (op.store ps)

/-- The plain sets after a row of operations. -/
def plainRun (ps : List PlainSet) (ops : List Operation) : Option (List PlainSet) :=
  ops.foldlM plainStep ps

/-- The words of a set that an operation makes are not too many for a list. -/
def HasRoom : Operation → Prop
  | .new n | .full n => ((n : Int) + 31) / 32 < Index.bound
  | _ => True

instance : (op : Operation) → Decidable op.HasRoom
  | .new n | .full n => inferInstanceAs (Decidable (((n : Int) + 31) / 32 < Index.bound))
  | .clone _ | .set _ _ _ | .toggle _ _ | .assignOr _ _ | .assignAnd _ _ | .or _ _ | .and _ _ =>
    isTrue trivial

/-! ### One operation -/

/-- An operation does what it means, or there is no room for it. -/
def Agrees (op : Operation) (x : Except Fault BitSet) (p : PlainSet) : Prop :=
  (op.HasRoom ∧ ∃ s, x = .ok s ∧ s.Represents p) ∨ (¬ op.HasRoom ∧ ∃ e, x = .error e)

variable {sets : List BitSet} {ps : List PlainSet}

/-- The set of a number is there if the plain set is. -/
theorem exists_named (h : List.Forall₂ Represents sets ps) {k : Nat} {p : PlainSet}
    (hp : ps[k]? = some p) : ∃ s, named sets k = .ok s ∧ s.Represents p := by
  obtain ⟨s, hs, hrep⟩ := exists_getElem?_of_forall₂ h.flip hp
  exact ⟨s, by rw [named, hs]; rfl, hrep⟩

/-- A set is made if there is room for its words. -/
theorem agrees_make {op : Operation} {n : Nat} {s : BitSet} {p : PlainSet}
    (hroom : op.HasRoom ↔ ((n : Int) + 31) / 32 < Index.bound) (hs : s.Represents p) :
    op.Agrees ((Count.check (((n : Int) + 31) / 32)).map fun _ => s) p := by
  by_cases hlt : ((n : Int) + 31) / 32 < Index.bound
  · refine .inl ⟨hroom.2 hlt, s, ?_, hs⟩
    rw [show ((n : Int) + 31) / 32 = ((n + 31) / 32 : Nat) by omega] at *
    rw [Count.check_of_lt hlt]
    rfl
  · refine .inr ⟨fun h => hlt (hroom.1 h), .countTooLarge, ?_⟩
    rw [Count.check_of_le (Int.not_lt.1 hlt)]
    rfl

/-- A set is changed at a number below its length. -/
theorem agrees_changed (h : List.Forall₂ Represents sets ps) {op : Operation} (hroom : op.HasRoom)
    {k i : Nat} {f : Finset Nat → Finset Nat} {p : PlainSet} (hp : changed ps k i f = some p)
    {x : BitSet → Except Fault BitSet} {g : BitSet → BitSet}
    (hx : ∀ s, s.locate i = .ok i → x s = .ok (g s))
    (hg : ∀ n s, s.Sized n → i < n → (g s).Sized n ∧
      ∀ ms : Finset Nat, (∀ j, s.contains j = true ↔ j ∈ ms) →
        ∀ j, (g s).contains j = true ↔ j ∈ f ms) :
    op.Agrees (named sets k >>= x) p := by
  obtain ⟨q, hq, hsome⟩ := Option.bind_eq_some_iff.1 hp
  obtain ⟨hi, ⟨⟩⟩ := Option.ite_none_right_eq_some.1 hsome
  obtain ⟨s, hs, hrep⟩ := exists_named h hq
  obtain ⟨hsized, hmem⟩ := represents_iff.1 hrep
  obtain ⟨hgsized, hgmem⟩ := hg _ s hsized hi
  exact .inl ⟨hroom, g s, bind_eq_ok.2 ⟨s, hs, hx s (hsized.locate hi)⟩,
    represents_iff.2 ⟨hgsized, hgmem _ hmem⟩⟩

/-- Two sets of one length are joined. -/
theorem agrees_merged (h : List.Forall₂ Represents sets ps) {op : Operation} (hroom : op.HasRoom)
    {k l : Nat} {f : Finset Nat → Finset Nat → Finset Nat} {p : PlainSet}
    (hp : merged ps k l f = some p) {g : BitSet → BitSet → BitSet}
    (hg : ∀ n s t, s.Sized n → t.Sized n → (g s t).Sized n ∧
      ∀ ms ns : Finset Nat, (∀ j, s.contains j = true ↔ j ∈ ms) →
        (∀ j, t.contains j = true ↔ j ∈ ns) → ∀ j, (g s t).contains j = true ↔ j ∈ f ms ns) :
    op.Agrees (do joined g (← named sets k) (← named sets l)) p := by
  obtain ⟨q, hq, hrest⟩ := Option.bind_eq_some_iff.1 hp
  obtain ⟨r, hr, hsome⟩ := Option.bind_eq_some_iff.1 hrest
  obtain ⟨hlength, ⟨⟩⟩ := Option.ite_none_right_eq_some.1 hsome
  obtain ⟨s, hs, hrep⟩ := exists_named h hq
  obtain ⟨t, ht, hrep'⟩ := exists_named h hr
  obtain ⟨hsized, hmem⟩ := represents_iff.1 hrep
  obtain ⟨hsized', hmem'⟩ := represents_iff.1 hrep'
  rw [← hlength] at hsized'
  obtain ⟨hgsized, hgmem⟩ := hg _ s t hsized hsized'
  have hjoined : joined g s t = .ok (g s t) := by
    have hfits : s.fits t = true := decide_eq_true (Nat.le_of_eq (hsized'.words_eq hsized))
    rw [joined, requireFit, if_pos hfits]
    rfl
  exact .inl ⟨hroom, g s t, bind_eq_ok.2 ⟨s, hs, bind_eq_ok.2 ⟨t, ht, hjoined⟩⟩,
    represents_iff.2 ⟨hgsized, hgmem _ _ hmem hmem'⟩⟩

theorem agrees_or (op : Operation) (hroom : op.HasRoom) (h : List.Forall₂ Represents sets ps)
    {k l : Nat} {p : PlainSet} (hp : merged ps k l (· ∪ ·) = some p) :
    op.Agrees (do joined union (← named sets k) (← named sets l)) p := by
  refine agrees_merged h hroom hp fun n s t hs ht => ⟨hs.union ht, fun ms ns hms hns j => ?_⟩
  rw [contains_union (hs.words_eq ht), Bool.or_eq_true, hms, hns, Finset.mem_union]

theorem agrees_and (op : Operation) (hroom : op.HasRoom) (h : List.Forall₂ Represents sets ps)
    {k l : Nat} {p : PlainSet} (hp : merged ps k l (· ∩ ·) = some p) :
    op.Agrees (do joined inter (← named sets k) (← named sets l)) p := by
  refine agrees_merged h hroom hp fun n s t hs ht => ⟨hs.inter ht, fun ms ns hms hns j => ?_⟩
  rw [contains_inter (hs.words_eq ht), Bool.and_eq_true, hms, hns, Finset.mem_inter]

/-- Each operation that means something does it, as far as there is room. -/
theorem agrees_result (h : List.Forall₂ Represents sets ps) {op : Operation} {p : PlainSet}
    (hp : op.meaning ps = some p) : op.Agrees (op.result sets) p := by
  cases op with
  | new n =>
    cases hp
    show Agrees _ (make n) _
    rw [make]
    refine agrees_make Iff.rfl (represents_iff.2 ⟨sized_empty n, fun i => ?_⟩)
    exact iff_of_false (by simp [contains_empty]) (Finset.notMem_empty i)
  | full n =>
    cases hp
    -- `agrees_make` speaks of a check followed by a result that is there anyway.
    have hmake : makeFull n = (Count.check (((n : Int) + 31) / 32)).map fun _ => BitSet.full n := by
      rw [makeFull, make]
      cases Count.check (((n : Int) + 31) / 32) <;> rfl
    show Agrees _ (makeFull n) _
    rw [hmake]
    refine agrees_make Iff.rfl (represents_iff.2 ⟨sized_full n, fun i => ?_⟩)
    rw [contains_full, decide_eq_true_iff, Finset.mem_range]
  | clone k =>
    obtain ⟨s, hs, hrep⟩ := exists_named h hp
    exact .inl ⟨trivial, s, hs, hrep⟩
  | set k i value =>
    have hroom : (Operation.set k i value).HasRoom := trivial
    cases value with
    | true =>
      have hchanged : changed ps k i (· ∪ {i}) = some p := hp
      refine agrees_changed h hroom hchanged (g := (·.insert i)) (fun s hs => ?_)
        fun n s hs hi => ?_
      · rw [BitSet.set, hs]
        rfl
      · refine ⟨hs.insert hi, fun ms hms j => ?_⟩
        rw [contains_insert (hs.div_lt hi), Bool.or_eq_true, hms, decide_eq_true_iff,
          Finset.mem_union, Finset.mem_singleton, or_comm]
    | false =>
      have hchanged : changed ps k i (· \ {i}) = some p := hp
      refine agrees_changed h hroom hchanged (g := (·.erase i)) (fun s hs => ?_) fun n s hs hi => ?_
      · rw [BitSet.set, hs]
        rfl
      · refine ⟨hs.erase i, fun ms hms j => ?_⟩
        rw [contains_erase, Bool.and_eq_true, hms, Bool.not_eq_true', decide_eq_false_iff_not,
          Finset.mem_sdiff, Finset.mem_singleton, and_comm]
  | toggle k i =>
    have hroom : (Operation.toggle k i).HasRoom := trivial
    have hchanged : changed ps k i (symmDiff · {i}) = some p := hp
    refine agrees_changed h hroom hchanged (g := (·.toggle i)) (fun s hs => ?_) fun n s hs hi => ?_
    · rw [BitSet.flip, hs]
      rfl
    · refine ⟨hs.toggle hi, fun ms hms j => ?_⟩
      rw [contains_toggle (hs.div_lt hi), Finset.mem_symmDiff, Finset.mem_singleton, ← hms]
      by_cases hj : j = i <;> simp [hj]
  | assignOr k l => exact agrees_or (.assignOr k l) trivial h hp
  | assignAnd k l => exact agrees_and (.assignAnd k l) trivial h hp
  | or k l => exact agrees_or (.or k l) trivial h hp
  | and k l => exact agrees_and (.and k l) trivial h hp

/-! ### Runs -/

/-- What is stored in two rows that belong together leaves them together. -/
theorem forall₂_store (h : List.Forall₂ Represents sets ps) (op : Operation) {s : BitSet}
    {p : PlainSet} (hs : s.Represents p) :
    List.Forall₂ Represents (op.store sets s) (op.store ps p) := by
  unfold store
  cases op.target? with
  | none => exact List.rel_append h (.cons hs .nil)
  | some k =>
    induction h generalizing k with
    | nil => exact .nil
    | cons hfirst hrest ih =>
      cases k with
      | zero => exact .cons hs hrest
      | succ k => exact .cons hfirst (ih k)

/-- A run keeps bit sets and plain sets together, and ends early only for lack of room. -/
theorem agrees_run (h : List.Forall₂ Represents sets ps) {ops : List Operation}
    {qs : List PlainSet} (hrun : plainRun ps ops = some qs) :
    ((∀ op ∈ ops, op.HasRoom) ∧
      ∃ sets', run sets ops = .ok sets' ∧ List.Forall₂ Represents sets' qs) ∨
    ((∃ op ∈ ops, ¬ op.HasRoom) ∧ ∃ e, run sets ops = .error e) := by
  induction ops generalizing sets ps with
  | nil =>
    cases hrun
    exact .inl ⟨by simp, sets, rfl, h⟩
  | cons op ops ih =>
    rw [plainRun, List.foldlM_cons] at hrun
    obtain ⟨ps', hstep, hrest⟩ := Option.bind_eq_some_iff.1 hrun
    obtain ⟨p, hp, rfl⟩ := Option.map_eq_some_iff.1 hstep
    rw [run, List.foldlM_cons, step]
    -- A step that lacks room ends the run, and what comes behind it is never tried.
    rcases agrees_result h hp with ⟨hroom, s, hs, hrep⟩ | ⟨hroom, e, he⟩
    · rw [hs]
      rcases ih (forall₂_store h op hrep) hrest with
        ⟨hrooms, sets', hsets', hreps⟩ | ⟨⟨op', hmem, hroom'⟩, herror⟩
      · exact .inl ⟨List.forall_mem_cons.2 ⟨hroom, hrooms⟩, sets', hsets', hreps⟩
      · exact .inr ⟨⟨op', List.mem_cons_of_mem op hmem, hroom'⟩, herror⟩
    · rw [he]
      exact .inr ⟨⟨op, List.mem_cons_self, hroom⟩, e, rfl⟩

end Operation

open Operation in
/-- Bit sets are finite sets.  Whatever is done with bit sets, as long as numbers are below the
length and only sets of one length are joined, is done if there is room for all of them; then each
bit set that is reached has the words, the clear bits and the members of the plain set that the same
operations give, and answers for it.  Bit sets are equal exactly if lengths and members are, and the
sets of one length are a Boolean lattice. -/
theorem history_represents {ops : List Operation} {ps : List PlainSet}
    (h : plainRun [] ops = some ps) :
    ((∃ sets, run [] ops = .ok sets) ↔ ∀ op ∈ ops, op.HasRoom) ∧
    (∀ sets, run [] ops = .ok sets →
      List.Forall₂ (fun s p => s.Represents p ∧ s.Answers p) sets ps ∧
      ∀ x ∈ sets.zip ps, ∀ y ∈ sets.zip ps,
        (x.1 == y.1) = true ↔ x.2.length = y.2.length ∧ x.2.members = y.2.members) ∧
    ∀ n, IsBooleanLattice n := by
  rcases agrees_run .nil h with ⟨hrooms, sets, hsets, hreps⟩ | ⟨⟨op, hmem, hroom⟩, e, he⟩
  · refine ⟨iff_of_true ⟨sets, hsets⟩ hrooms, fun sets' hsets' => ?_, isBooleanLattice⟩
    obtain rfl : sets = sets' := Except.ok.inj (hsets.symm.trans hsets')
    refine ⟨hreps.imp fun _ _ hrep => ⟨hrep, hrep.answers⟩, fun x hx y hy => ?_⟩
    exact (List.forall₂_zip hreps hx).beq_iff (List.forall₂_zip hreps hy)
  · refine ⟨iff_of_false ?_ fun hrooms => hroom (hrooms op hmem), fun sets hsets => ?_,
      isBooleanLattice⟩
    · rintro ⟨sets, hsets⟩
      rw [he] at hsets
      cases hsets
    · rw [he] at hsets
      cases hsets

/-- The full set of 33 numbers, which have one bit in the second word, is changed, joined with a set
of one member and cut down to it. -/
def paddedHistory : List Operation :=
  [.new 33, .set 0 32 true, .full 33, .toggle 1 0, .or 0 1, .assignAnd 1 0]

theorem history_represents_padded :
    Operation.plainRun [] paddedHistory =
      some [⟨33, {32}⟩, ⟨33, {32}⟩, ⟨33, Finset.range 33 \ {0}⟩] ∧
    ∃ s t, Operation.run [] paddedHistory = .ok [s, s, t] ∧
      (s.Represents ⟨33, {32}⟩ ∧ s.Answers ⟨33, {32}⟩) ∧
      (t.Represents ⟨33, Finset.range 33 \ {0}⟩ ∧ t.Answers ⟨33, Finset.range 33 \ {0}⟩) := by
  have hplain : Operation.plainRun [] paddedHistory =
      some [⟨33, {32}⟩, ⟨33, {32}⟩, ⟨33, Finset.range 33 \ {0}⟩] := by
    decide +kernel
  obtain ⟨hrooms, hreached, -⟩ := history_represents hplain
  obtain ⟨sets, hsets⟩ := hrooms.2 (by decide)
  obtain ⟨hreps, hequal⟩ := hreached sets hsets
  obtain _ | ⟨hs, _ | ⟨hs', _ | ⟨ht, _ | _⟩⟩⟩ := hreps
  rename_i s s' t
  obtain rfl : s = s' := by
    refine beq_iff_eq.1 ((hequal (s, ⟨33, {32}⟩) ?_ (s', ⟨33, {32}⟩) ?_).2 ⟨rfl, rfl⟩)
    · exact List.mem_cons_self
    · exact List.mem_cons_of_mem _ List.mem_cons_self
  exact ⟨hplain, s, t, hsets, hs, ht⟩

end LogicAsm.BitSet
