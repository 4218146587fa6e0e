import LogicAsm.Count

/-!
# Bit sets

Sets of natural numbers below a fixed length, packed into words of 32 bits: number `i` is bit
`i % 32` of word `i / 32`.  They are the sets of every flow computation: one bit per node for what
can be reached, one bit per variable for what may be unset.

## Two layers

* `contains`, `insert`, `erase` and `toggle` take a natural number.  On numbers below the length
  they are membership and the usual changes; outside the words they find and change nothing.
* `get`, `set` and `flip` take an index as it comes, which may also count words from the back, and
  fail when it points to no word.  An index beyond the length may still point into the last word.

Union and intersection work word by word on sets of equal length.  Where the right operand has fewer
words, only those are touched; where it has more, `fits` says that the operation is incomplete.

## Words

A word is a number without a bound.  No type keeps it below 2³²: the operations do, as long as they
are given numbers below the length.  Members are listed by taking the lowest bit off a word until
nothing is left of it, and counted by the ones among its binary digits.
-/

namespace LogicAsm

/-- A word is a number of any size, of which 32 bits are meant to be used. -/
structure Word where
  toNat : Nat
deriving DecidableEq

namespace Word

/-- The bits of a number that another one does not have, `a & ~b`. -/
def without (a b : Nat) : Nat := a ^^^ (a &&& b)

/-- The lowest bit of a number by itself.  It is `n & -n`, in which `-n` is `~(n - 1)`. -/
def lowest (n : Nat) : Nat := without n (n - 1)

def bitLength (n : Nat) : Nat := if n = 0 then 0 else n.log2 + 1

/-- All bits that are used. -/
def mask : Nat := 0xFFFFFFFF

/-- The word in which only bit `i % 32` is set. -/
def bit (i : Nat) : Word := ⟨1 <<< (i % 32)⟩

def clear (w : Word) (i : Nat) : Word := ⟨w.toNat &&& without mask (bit i).toNat⟩

instance : OrOp Word := ⟨fun w v => ⟨w.toNat ||| v.toNat⟩⟩
instance : AndOp Word := ⟨fun w v => ⟨w.toNat &&& v.toNat⟩⟩
instance : XorOp Word := ⟨fun w v => ⟨w.toNat ^^^ v.toNat⟩⟩

/-- What is left of a number without its lowest bit. -/
theorem xor_lowest (n : Nat) : n ^^^ lowest n = n &&& (n - 1) := by
  rw [lowest, without, ← Nat.xor_assoc, Nat.xor_self, Nat.zero_xor]

theorem xor_lowest_lt {n : Nat} (h : n ≠ 0) : n ^^^ lowest n < n := by
  have hle : n &&& (n - 1) ≤ n - 1 := Nat.and_le_right
  rw [xor_lowest]
  omega

/-- The places of the bits of a number, counted from `base`, the lowest first. -/
def members (base n : Nat) : List Nat :=
  if n = 0 then []
  else (base + bitLength (lowest n) - 1) :: members base (n ^^^ lowest n)
termination_by n
decreasing_by exact xor_lowest_lt ‹_›

/-- The number of ones among the binary digits. -/
def popcount (n : Nat) : Nat := (Nat.toDigits 2 n).count '1'

end Word

/-- A set of numbers below a length, packed into words. -/
structure BitSet where
  length : Int
  words : List Word
deriving DecidableEq

namespace BitSet

/-! ### Building -/

def wordCount (length : Int) : Nat := ((length + 31) / 32).toNat

def empty (length : Int) : BitSet := ⟨length, List.replicate (wordCount length) ⟨0⟩⟩

/-- The set without members, if its words are not too many for a list. -/
def make (length : Int) : Except Fault BitSet :=
  (Count.check ((length + 31) / 32)).map fun _ => empty length

/-- The set of all numbers below the length; bits beyond it are clear. -/
def full (length : Int) : BitSet :=
  let used := (length % 32).toNat
  let words := List.replicate (wordCount length) ⟨Word.mask⟩
  ⟨length,
    if used = 0 then words else words.modify (words.length - 1) (· &&& ⟨(1 <<< used) - 1⟩)⟩

def makeFull (length : Int) : Except Fault BitSet := (make length).map fun _ => full length

/-! ### Members -/

def contains (s : BitSet) (i : Nat) : Bool :=
  match s.words[i / 32]? with
  | some w => w.toNat.testBit (i % 32)
  | none => false

def insert (s : BitSet) (i : Nat) : BitSet :=
  { s with words := s.words.modify (i / 32) (· ||| .bit i) }

def erase (s : BitSet) (i : Nat) : BitSet :=
  { s with words := s.words.modify (i / 32) (·.clear i) }

def toggle (s : BitSet) (i : Nat) : BitSet :=
  { s with words := s.words.modify (i / 32) (· ^^^ .bit i) }

/-! ### Members by index -/

/-- The number that an index stands for: its word counts from either end, its bit from the
front. -/
def locate (s : BitSet) (index : Int) : Except Fault Nat :=
  (Index.resolve .indexOutOfRange s.words.length (Int.fdiv index 32)).map fun word =>
    32 * word + (Int.fmod index 32).toNat

def get (s : BitSet) (index : Int) : Except Fault Bool := (s.locate index).map s.contains

def set (s : BitSet) (index : Int) (value : Bool) : Except Fault BitSet :=
  (s.locate index).map fun i => if value then s.insert i else s.erase i

def flip (s : BitSet) (index : Int) : Except Fault BitSet := (s.locate index).map s.toggle

/-! ### Union and intersection -/

/-- Words combined with those of another row, as far as it goes. -/
def mergeWords (f : Word → Word → Word) : List Word → List Word → List Word
  | w :: ws, v :: vs => f w v :: mergeWords f ws vs
  | ws, _ => ws

def union (s t : BitSet) : BitSet := { s with words := mergeWords (· ||| ·) s.words t.words }

def inter (s t : BitSet) : BitSet := { s with words := mergeWords (· &&& ·) s.words t.words }

/-- Whether every word of the right operand has a word to go with. -/
def fits (s t : BitSet) : Bool := t.words.length ≤ s.words.length

def requireFit (s t : BitSet) : Except Fault Unit :=
  if s.fits t then .ok () else .error .indexOutOfRange

/-! ### Views -/

/-- The members: word by word, and in each from its lowest bit up. -/
def toList (s : BitSet) : List Nat :=
  s.words.zipIdx.flatMap fun (w, k) => Word.members (k <<< 5) w.toNat

def count (s : BitSet) : Nat := s.words.foldl (fun n w => n + Word.popcount w.toNat) 0

def any (s : BitSet) : Bool := s.words.any (·.toNat != 0)

/-- The length, if it is one that a sequence can have. -/
def size (s : BitSet) : Except Fault Nat :=
  if s.length < 0 then .error .negativeSize else Count.check s.length

/-- The bits below the length, as digits. -/
def digits (s : BitSet) : Text :=
  (List.range s.length.toNat).map fun i => if s.contains i then '1' else '0'

def text (s : BitSet) : String := s!"BitSet({s.length}, {String.ofList s.digits.quoted})"

end BitSet

end LogicAsm
