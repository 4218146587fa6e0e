/-!
# Rounding to binary64

Decimal literals and colour components are binary64 numbers: the nearest number of the form
`mantissa * 2 ^ exponent` with a mantissa below `2 ^ 53` and an exponent from `-1074` to `971`, or
infinity from half a unit above the largest on.  Here they are exact: a number is its sign, its
mantissa and its exponent, and rounding is arithmetic on natural numbers.  So "which literal is an
integer, and which one" is a question about natural numbers too.
-/

namespace LogicAsm

/-- A binary64 number without its sign: `mantissa * 2 ^ exponent`, or infinity. -/
inductive Magnitude where
  | finite (mantissa : Nat) (exponent : Int)
  | infinite
deriving DecidableEq

structure Binary64 where
  negative : Bool
  magnitude : Magnitude
deriving DecidableEq

/-- The quotient rounded to the nearest natural number, a half to the even one. -/
def roundHalfEven (num den : Nat) : Nat :=
  let q := num / den
  let twice := 2 * (num % den)
  if twice < den then q
  else if den < twice then q + 1
  else if q % 2 = 0 then q
  else q + 1

namespace Magnitude

/-- The least exponent, that of the numbers nearest to zero. -/
def minExponent : Int := -1074

/-- The bit that a mantissa starts with, except near zero: two to the power of 52. -/
def leadingBit : Nat := 0x10000000000000

/-- The greatest exponent of a finite number. -/
def maxExponent : Int := 971

/-- The quotient `num / (den * 2 ^ exponent)`, rounded. -/
def scaled (num den : Nat) (exponent : Int) : Nat :=
  if 0 ≤ exponent then roundHalfEven num (den * Nat.pow 2 exponent.toNat)
  else roundHalfEven (num * Nat.pow 2 (-exponent).toNat) den

/-- The exponent `k` with `2 ^ k ≤ num / den < 2 ^ (k + 1)`, for positive `num` and `den`. -/
def leadingExponent (num den : Nat) : Int :=
  let k : Int := (num.log2 : Int) - den.log2
  let reached :=
    if 0 ≤ k then den * Nat.pow 2 k.toNat ≤ num else den ≤ num * Nat.pow 2 (-k).toNat
  if reached then k else k - 1

/-- The magnitude nearest to `num / den`. -/
def ofRatio (num den : Nat) : Magnitude :=
  if num = 0 then .finite 0 minExponent
  else
    let exponent := max (leadingExponent num den - 52) minExponent
    let mantissa := scaled num den exponent
    -- Rounding up may reach the next power of two.
    let (mantissa, exponent) :=
      if mantissa = 2 * leadingBit then (leadingBit, exponent + 1) else (mantissa, exponent)
    if maxExponent < exponent then .infinite else .finite mantissa exponent

/-- Beyond this power of ten, up or down, only zero and infinity are left. -/
def decimalReach : Int := 400

/-- The magnitude nearest to `digits * 10 ^ scale`, where `digits` is below `10 ^ count`. -/
def ofDecimal (digits count : Nat) (scale : Int) : Magnitude :=
  if digits = 0 then ofRatio 0 1
  else if decimalReach < scale then .infinite
  else if scale + count < -decimalReach then ofRatio 0 1
  else if 0 ≤ scale then ofRatio (digits * Nat.pow 10 scale.toNat) 1
  else ofRatio digits (Nat.pow 10 (-scale).toNat)

/-- The magnitude nearest to the product of two; infinite if one of them is. -/
def mul : Magnitude → Magnitude → Magnitude
  | .finite m e, .finite k f =>
    let exponent := e + f
    if 0 ≤ exponent then ofRatio (m * k * Nat.pow 2 exponent.toNat) 1
    else ofRatio (m * k) (Nat.pow 2 (-exponent).toNat)
  | _, _ => .infinite

/-- The whole part of the magnitude, if it is finite. -/
def wholePart? : Magnitude → Option Nat
  | .infinite => none
  | .finite m e =>
    some (if 0 ≤ e then m * Nat.pow 2 e.toNat else m / Nat.pow 2 (-e).toNat)

/-- The integer that the magnitude is, if it is one. -/
def toNat? : Magnitude → Option Nat
  | .infinite => none
  | .finite m e =>
    if 0 ≤ e then some (m * Nat.pow 2 e.toNat)
    else if m % Nat.pow 2 (-e).toNat = 0 then some (m / Nat.pow 2 (-e).toNat)
    else none

/-- The bits of the magnitude: a biased exponent and the mantissa without its leading bit. -/
def bits : Magnitude → Nat
  | .infinite => 2047 * leadingBit
  | .finite m e =>
    if m < leadingBit then m else (e - minExponent + 1).toNat * leadingBit + (m - leadingBit)

end Magnitude

namespace Binary64

def ofRatio (num : Int) (den : Nat) : Binary64 :=
  ⟨num < 0, Magnitude.ofRatio num.natAbs den⟩

def one : Binary64 := ofRatio 1 1

def zero : Binary64 := ofRatio 0 1

def toInt? (x : Binary64) : Option Int :=
  x.magnitude.toNat?.map fun n => if x.negative then -(n : Int) else n

def bits (x : Binary64) : Nat :=
  (if x.negative then 2048 * Magnitude.leadingBit else 0) + x.magnitude.bits

end Binary64

end LogicAsm
