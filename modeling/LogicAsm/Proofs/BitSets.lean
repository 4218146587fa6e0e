import LogicAsm.Proofs.Words
import Mathlib.Data.Finset.Card
import Mathlib.Data.Finset.Range

/-!
# Bit sets are sets

What the operations on bit sets do to the members.  A set is `Sized n` if it has the words that `n`
bits take, all of them below 2³², and no member from `n` on; all operations on numbers below `n`
and on sets of that size keep this, and each changes the members as its name says.  Sets of one
size with the same members are equal (`Sized.ext`).

That words stay below 2³² is part of the size, since a word is a number without a bound: setting and
changing bits put in no bit above the 31st, and clearing keeps only bits of the mask.
-/

namespace LogicAsm

namespace BitSet

theorem contains_eq_of_getElem? {s : BitSet} {i : Nat} {w : Word} (h : s.words[i / 32]? = some w) :
    s.contains i = w.toNat.testBit (i % 32) := by
  rw [contains, h]

theorem contains_eq_false {s : BitSet} {i : Nat} (h : s.words[i / 32]? = none) :
    s.contains i = false := by
  rw [contains, h]

/-! ### Members after an operation -/

/-- Changing one bit of a word changes one member. -/
theorem contains_modify {s : BitSet} {i : Nat} {f : Word → Word} {b : Bool → Bool}
    (hf : ∀ (w : Word) (j : Nat), (f w).toNat.testBit (j % 32) =
      if j % 32 = i % 32 then b (w.toNat.testBit (j % 32)) else w.toNat.testBit (j % 32))
    (h : i / 32 < s.words.length ∨ b false = false) (j : Nat) :
    contains { s with words := s.words.modify (i / 32) f } j =
      if j = i then b (s.contains j) else s.contains j := by
  rw [contains, List.getElem?_modify]
  cases hw : s.words[j / 32]? with
  -- No word is changed here: the hypothesis has to speak for the bit itself.
  | none =>
    have hj := List.getElem?_eq_none_iff.1 hw
    rw [contains_eq_false hw]
    show false = _
    split
    · next heq =>
      subst heq
      exact (h.resolve_left (Nat.not_lt.2 hj)).symm
    · rfl
  | some w =>
    rw [contains_eq_of_getElem? hw]
    show (if i / 32 = j / 32 then f w else w).toNat.testBit (j % 32) = _
    by_cases hword : i / 32 = j / 32
    · have hsame : j % 32 = i % 32 ↔ j = i := by omega
      simp only [if_pos hword, hf, hsame]
    · have hne : ¬ j = i := by
        rintro rfl
        exact hword rfl
      rw [if_neg hword, if_neg hne]

theorem contains_insert {s : BitSet} {i : Nat} (h : i / 32 < s.words.length) (j : Nat) :
    (s.insert i).contains j = (decide (j = i) || s.contains j) := by
  have hbit (w : Word) (j : Nat) : (w ||| .bit i).toNat.testBit (j % 32) =
      if j % 32 = i % 32 then true else w.toNat.testBit (j % 32) := by
    rw [Word.toNat_or, Nat.testBit_or, Word.testBit_bit]
    split <;> simp [*]
  rw [insert, @contains_modify s i _ (fun _ => true) hbit (.inl h)]
  split <;> simp [*]

theorem contains_erase (s : BitSet) (i j : Nat) :
    (s.erase i).contains j = (!decide (j = i) && s.contains j) := by
  have hbit (w : Word) (j : Nat) : (w.clear i).toNat.testBit (j % 32) =
      if j % 32 = i % 32 then false else w.toNat.testBit (j % 32) := by
    rw [Word.testBit_clear]
    split <;> simp [*]
  rw [erase, @contains_modify s i _ (fun _ => false) hbit (.inr rfl)]
  split <;> simp [*]

theorem contains_toggle {s : BitSet} {i : Nat} (h : i / 32 < s.words.length) (j : Nat) :
    (s.toggle i).contains j = (decide (j = i) ^^ s.contains j) := by
  have hbit (w : Word) (j : Nat) : (w ^^^ .bit i).toNat.testBit (j % 32) =
      if j % 32 = i % 32 then !w.toNat.testBit (j % 32) else w.toNat.testBit (j % 32) := by
    rw [Word.toNat_xor, Nat.testBit_xor, Word.testBit_bit]
    split <;> simp [*]
  rw [toggle, @contains_modify s i _ (fun x => !x) hbit (.inl h)]
  split <;> simp [*]

theorem getElem?_mergeWords (f : Word → Word → Word) {ws vs : List Word}
    (h : ws.length = vs.length) (k : Nat) :
    (mergeWords f ws vs)[k]? = (ws[k]?).bind fun w => (vs[k]?).map (f w) := by
  induction ws generalizing vs k with
  | nil =>
    obtain rfl : vs = [] := by simpa using h.symm
    simp [mergeWords]
  | cons w ws ih =>
    obtain ⟨v, vs, rfl⟩ := List.exists_cons_of_length_eq_add_one h.symm
    cases k with
    | zero => rfl
    | succ k => exact ih (by simpa using h) k

/-- Merging words merges the members. -/
theorem contains_mergeWords (f : Word → Word → Word) (b : Bool → Bool → Bool)
    (hf : ∀ (w v : Word) (i : Nat),
      (f w v).toNat.testBit i = b (w.toNat.testBit i) (v.toNat.testBit i))
    (hb : b false false = false) {s t : BitSet} (h : s.words.length = t.words.length) (i : Nat) :
    contains { s with words := mergeWords f s.words t.words } i =
      b (s.contains i) (t.contains i) := by
  have hmerged := getElem?_mergeWords f h (i / 32)
  cases hs : s.words[i / 32]? with
  | none =>
    have ht : t.words[i / 32]? = none := by
      rw [List.getElem?_eq_none_iff] at hs ⊢
      omega
    rw [hs] at hmerged
    rw [contains_eq_false hmerged, contains_eq_false hs, contains_eq_false ht, hb]
  | some w =>
    obtain ⟨v, ht⟩ : ∃ v, t.words[i / 32]? = some v := by
      obtain ⟨hlt, -⟩ := List.getElem?_eq_some_iff.1 hs
      exact ⟨_, List.getElem?_eq_getElem (h ▸ hlt)⟩
    rw [hs, ht] at hmerged
    rw [contains_eq_of_getElem? hmerged, contains_eq_of_getElem? hs, contains_eq_of_getElem? ht]
    exact hf w v _

theorem contains_union {s t : BitSet} (h : s.words.length = t.words.length) (i : Nat) :
    (s.union t).contains i = (s.contains i || t.contains i) :=
  contains_mergeWords (· ||| ·) (· || ·) (fun w v i => Nat.testBit_or w.toNat v.toNat i) rfl h i

theorem contains_inter {s t : BitSet} (h : s.words.length = t.words.length) (i : Nat) :
    (s.inter t).contains i = (s.contains i && t.contains i) :=
  contains_mergeWords (· &&& ·) (· && ·) (fun w v i => Nat.testBit_and w.toNat v.toNat i) rfl h i

theorem length_mergeWords (f : Word → Word → Word) (ws vs : List Word) :
    (mergeWords f ws vs).length = ws.length := by
  fun_induction mergeWords f ws vs with
  | case1 w ws v vs ih => simp [ih]
  | case2 => rfl

/-! ### Words stay below 2³² -/

theorem word_lt_modify {ws : List Word} (h : ∀ w ∈ ws, w.toNat < 2 ^ 32) (k : Nat)
    {f : Word → Word} (hf : ∀ w : Word, w.toNat < 2 ^ 32 → (f w).toNat < 2 ^ 32) :
    ∀ w ∈ ws.modify k f, w.toNat < 2 ^ 32 := by
  intro w hw
  obtain ⟨j, hj⟩ := List.getElem?_of_mem hw
  rw [List.getElem?_modify] at hj
  obtain ⟨v, hv, rfl⟩ := Option.map_eq_some_iff.1 hj
  have hlt := h v (List.mem_of_getElem? hv)
  show (if k = j then f v else v).toNat < 2 ^ 32
  split
  · exact hf v hlt
  · exact hlt

theorem word_lt_mergeWords {f : Word → Word → Word}
    (hf : ∀ w v : Word, w.toNat < 2 ^ 32 → v.toNat < 2 ^ 32 → (f w v).toNat < 2 ^ 32)
    {ws vs : List Word} (hws : ∀ w ∈ ws, w.toNat < 2 ^ 32) (hvs : ∀ v ∈ vs, v.toNat < 2 ^ 32) :
    ∀ w ∈ mergeWords f ws vs, w.toNat < 2 ^ 32 := by
  fun_induction mergeWords f ws vs with
  | case1 w ws v vs ih =>
    rw [List.forall_mem_cons] at hws hvs ⊢
    exact ⟨hf w v hws.1 hvs.1, ih hws.2 hvs.2⟩
  | case2 => exact hws

/-! ### Sets of one size -/

/-- A set of numbers below `n`: it has the words for them, each of 32 bits, and no member beyond. -/
structure Sized (n : Nat) (s : BitSet) : Prop where
  length : s.length = n
  words : s.words.length = (n + 31) / 32
  word_lt : ∀ w ∈ s.words, w.toNat < 2 ^ 32
  lt : ∀ i, s.contains i = true → i < n

theorem wordCount_natCast (n : Nat) : wordCount n = (n + 31) / 32 := by
  unfold wordCount
  omega

theorem Sized.words_eq {n : Nat} {s t : BitSet} (hs : Sized n s) (ht : Sized n t) :
    s.words.length = t.words.length := hs.words.trans ht.words.symm

/-- Sets of one size with the same members are equal. -/
theorem Sized.ext {n : Nat} {s t : BitSet} (hs : Sized n s) (ht : Sized n t)
    (h : ∀ i, s.contains i = t.contains i) : s = t := by
  obtain ⟨slength, swords⟩ := s
  obtain ⟨tlength, twords⟩ := t
  obtain rfl : slength = tlength := hs.length.trans ht.length.symm
  have hwords : swords.length = twords.length := hs.words_eq ht
  suffices hsuff : swords = twords by rw [hsuff]
  apply List.ext_getElem hwords
  intro k hk hk'
  apply congrArg Word.mk
  apply Nat.eq_of_testBit_eq
  intro j
  by_cases hj : j < 32
  -- Above the 31st bit both words have none.
  case neg =>
    have hclear {w : Word} (h : w.toNat < 2 ^ 32) : w.toNat.testBit j = false :=
      Bool.eq_false_iff.2 fun hbit => hj (Word.lt_of_testBit h hbit)
    exact (hclear (hs.word_lt _ (List.getElem_mem hk))).trans
      (hclear (ht.word_lt _ (List.getElem_mem hk'))).symm
  -- Bit `j` of word `k` is the member `32 * k + j`.
  have hdiv : (32 * k + j) / 32 = k := by omega
  have hmod : (32 * k + j) % 32 = j := by omega
  have hbit := h (32 * k + j)
  rw [contains_eq_of_getElem? (show swords[(32 * k + j) / 32]? = some swords[k] by
      rw [hdiv, List.getElem?_eq_getElem hk]),
    contains_eq_of_getElem? (show twords[(32 * k + j) / 32]? = some twords[k] by
      rw [hdiv, List.getElem?_eq_getElem hk']), hmod] at hbit
  exact hbit

theorem contains_empty (length : Int) (i : Nat) : (empty length).contains i = false := by
  cases hw : (empty length).words[i / 32]? with
  | none => exact contains_eq_false hw
  | some w =>
    rw [contains_eq_of_getElem? hw]
    obtain rfl : w = ⟨0⟩ := by
      have hmem := List.mem_of_getElem? hw
      exact List.eq_of_mem_replicate hmem
    exact Nat.zero_testBit _

theorem sized_empty (n : Nat) : Sized n (empty n) := by
  refine ⟨rfl, ?_, fun w hw => ?_, ?_⟩
  · rw [empty, List.length_replicate, wordCount_natCast]
  · rw [List.eq_of_mem_replicate hw]
    decide
  · intro i hi
    rw [contains_empty] at hi
    cases hi

theorem contains_full (n i : Nat) : (full n).contains i = decide (i < n) := by
  have hused : ((n : Int) % 32).toNat = n % 32 := by omega
  have hmod := Nat.mod_lt i (show 0 < 32 by decide)
  -- Only the last word is cut, and only if the count does not fill it.
  have hword : (full n).words[i / 32]? =
      if i / 32 < (n + 31) / 32 then
        some (if n % 32 ≠ 0 ∧ (n + 31) / 32 - 1 = i / 32 then
          ⟨Word.mask⟩ &&& ⟨1 <<< (n % 32) - 1⟩ else ⟨Word.mask⟩)
      else none := by
    simp only [full, hused, wordCount_natCast, List.length_replicate]
    by_cases hzero : n % 32 = 0
    · simp [hzero, List.getElem?_replicate]
    · simp only [hzero, if_false, List.getElem?_modify, List.getElem?_replicate]
      split
      · next h => simp [hzero, h]
      · next h => simp [h]
  by_cases hlt : i / 32 < (n + 31) / 32
  · rw [if_pos hlt] at hword
    rw [contains_eq_of_getElem? hword]
    split
    · next h =>
      rw [Word.toNat_and, Nat.testBit_and, Word.testBit_mask, Nat.one_shiftLeft,
        Nat.testBit_two_pow_sub_one]
      have hiff : i % 32 < n % 32 ↔ i < n := by omega
      simp [hmod, hiff]
    · next h =>
      have hin : i < n := by omega
      rw [Word.testBit_mask]
      simp [hmod, hin]
  · rw [if_neg hlt] at hword
    have hout : ¬ i < n := by omega
    simp [contains_eq_false hword, hout]

theorem sized_full (n : Nat) : Sized n (full n) := by
  have hmask : ∀ w ∈ List.replicate (wordCount n) (Word.mk Word.mask), w.toNat < 2 ^ 32 := by
    intro w hw
    rw [List.eq_of_mem_replicate hw]
    decide
  refine ⟨rfl, ?_, ?_, ?_⟩
  · simp only [full]
    split <;> simp [wordCount_natCast]
  · simp only [full]
    split
    · exact hmask
    · exact word_lt_modify hmask _ fun w hw => Nat.lt_of_le_of_lt Nat.and_le_left hw
  · intro i hi
    simpa [contains_full] using hi

theorem Sized.div_lt {n : Nat} {s : BitSet} (hs : Sized n s) {i : Nat} (hi : i < n) :
    i / 32 < s.words.length := by
  rw [hs.words]
  omega

theorem Sized.insert {n : Nat} {s : BitSet} (hs : Sized n s) {i : Nat} (hi : i < n) :
    Sized n (s.insert i) := by
  refine ⟨hs.length, ?_, ?_, ?_⟩
  · rw [BitSet.insert, List.length_modify, hs.words]
  · exact word_lt_modify hs.word_lt _ fun w hw => Nat.or_lt_two_pow hw (Word.bit_lt i)
  · intro j hj
    rw [contains_insert (hs.div_lt hi), Bool.or_eq_true, decide_eq_true_iff] at hj
    rcases hj with rfl | hj
    · exact hi
    · exact hs.lt j hj

theorem Sized.erase {n : Nat} {s : BitSet} (hs : Sized n s) (i : Nat) : Sized n (s.erase i) := by
  refine ⟨hs.length, ?_, ?_, ?_⟩
  · rw [BitSet.erase, List.length_modify, hs.words]
  · exact word_lt_modify hs.word_lt _ fun w hw => Word.clear_lt i hw
  · intro j hj
    rw [contains_erase, Bool.and_eq_true] at hj
    exact hs.lt j hj.2

theorem Sized.toggle {n : Nat} {s : BitSet} (hs : Sized n s) {i : Nat} (hi : i < n) :
    Sized n (s.toggle i) := by
  refine ⟨hs.length, ?_, ?_, ?_⟩
  · rw [BitSet.toggle, List.length_modify, hs.words]
  · exact word_lt_modify hs.word_lt _ fun w hw => Nat.xor_lt_two_pow hw (Word.bit_lt i)
  · intro j hj
    by_cases hji : j = i
    · exact hji ▸ hi
    · rw [contains_toggle (hs.div_lt hi), decide_eq_false hji, Bool.false_xor] at hj
      exact hs.lt j hj

theorem Sized.union {n : Nat} {s t : BitSet} (hs : Sized n s) (ht : Sized n t) :
    Sized n (s.union t) := by
  refine ⟨hs.length, ?_, ?_, ?_⟩
  · rw [BitSet.union, length_mergeWords, hs.words]
  · exact word_lt_mergeWords (fun w v hw hv => Nat.or_lt_two_pow hw hv) hs.word_lt ht.word_lt
  · intro i hi
    rw [contains_union (hs.words_eq ht), Bool.or_eq_true] at hi
    exact hi.elim (hs.lt i) (ht.lt i)

theorem Sized.inter {n : Nat} {s t : BitSet} (hs : Sized n s) (ht : Sized n t) :
    Sized n (s.inter t) := by
  refine ⟨hs.length, ?_, ?_, ?_⟩
  · rw [BitSet.inter, length_mergeWords, hs.words]
  · exact word_lt_mergeWords (fun w v hw hv => Nat.lt_of_le_of_lt Nat.and_le_left hw)
      hs.word_lt ht.word_lt
  · intro i hi
    rw [contains_inter (hs.words_eq ht), Bool.and_eq_true] at hi
    exact hs.lt i hi.1

/-! ### The number of members -/

/-- The members of a set below a bound. -/
def members (n : Nat) (s : BitSet) : Finset Nat := (Finset.range n).filter (s.contains ·)

theorem mem_members {n : Nat} {s : BitSet} {i : Nat} :
    i ∈ s.members n ↔ i < n ∧ s.contains i = true := by
  simp [members]

theorem card_members_le (n : Nat) (s : BitSet) : (s.members n).card ≤ n := by
  have h := Finset.card_filter_le (Finset.range n) (s.contains ·)
  rwa [Finset.card_range] at h

theorem card_members_le_card (n : Nat) {s t : BitSet}
    (hsub : ∀ i, s.contains i = true → t.contains i = true) :
    (s.members n).card ≤ (t.members n).card :=
  Finset.card_le_card fun i hi =>
    mem_members.2 ⟨(mem_members.1 hi).1, hsub i (mem_members.1 hi).2⟩

/-- A set that grows has more members. -/
theorem card_members_lt {n : Nat} {s t : BitSet} (hs : Sized n s) (ht : Sized n t)
    (hsub : ∀ i, s.contains i = true → t.contains i = true) (hne : t ≠ s) :
    (s.members n).card < (t.members n).card := by
  refine Finset.card_lt_card ⟨fun i hi => ?_, fun hback => hne ?_⟩
  · exact mem_members.2 ⟨(mem_members.1 hi).1, hsub i (mem_members.1 hi).2⟩
  · refine ht.ext hs fun i => Bool.eq_iff_iff.2 ⟨fun hi => ?_, hsub i⟩
    exact (mem_members.1 (hback (mem_members.2 ⟨ht.lt i hi, hi⟩))).2

end BitSet

end LogicAsm
