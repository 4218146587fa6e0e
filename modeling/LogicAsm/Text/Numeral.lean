import LogicAsm.Text.Blank
import LogicAsm.Text.DecimalDigit

/-!
# Integer numerals

How a setting, an option or a colour component writes an integer: blanks around it, an optional
sign, and digits of any script, with single underscores allowed between two digits.  A decimal
numeral of more than `maxDecimalDigits` digits, leading zeros included, is refused, and an integer
that would take as many is not written.
-/

namespace LogicAsm.Text

/-- The most digits that a decimal numeral may have. -/
def maxDecimalDigits : Nat := 4300

def isDigitOfBase (base : Nat) (c : Char) : Bool := (digitOfBase? base c).isSome

/-- The digits of a numeral, without the underscores between them. -/
def digitsBetweenUnderscores? (base : Nat) : Text → Option Text
  | [] => none
  | [d] => if isDigitOfBase base d then some [d] else none
  | d :: '_' :: rest =>
    if isDigitOfBase base d then (digitsBetweenUnderscores? base rest).map (d :: ·) else none
  | d :: rest =>
    if isDigitOfBase base d then (digitsBetweenUnderscores? base rest).map (d :: ·) else none

/-- The sign of a numeral, negative or not, and what follows it. -/
def signOf : Text → Bool × Text
  | '+' :: rest => (false, rest)
  | '-' :: rest => (true, rest)
  | rest => (false, rest)

/-- The integer that a numeral of the base writes. -/
def integer? (base : Nat) (t : Text) : Option Int := do
  let (negative, rest) := signOf (t.trim isNumeralBlank)
  let digits ← digitsBetweenUnderscores? base rest
  if base = 10 ∧ maxDecimalDigits < digits.length then none
  else
    let value := digitsValue base digits
    return if negative then -(value : Int) else value

/-- The decimal numeral of an integer, if it is not too long. -/
def ofInteger? (n : Int) : Option String :=
  if maxDecimalDigits < (ofNat n.natAbs).length then none else some (toString n)

end LogicAsm.Text
