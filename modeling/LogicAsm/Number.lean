import LogicAsm.Binary64
import LogicAsm.Fault
import LogicAsm.Text.Numeral

/-!
# Number literals

A number literal is a word in one of three forms:

* `0x` and hexadecimal digits, `0b` and binary digits: exact natural numbers of any size;
* decimal: a sign, digits with a point somewhere in or around them, and an exponent, of which only
  one digit in front of the exponent is obligatory: a binary64 number.

`Literal.read?` takes a word apart by this grammar and `Literal.text` puts it together again; the
value of a literal is computed from its parts.  Decimal digits may be of any script, hexadecimal and
binary digits are the usual ones.

A jump may name its target by a number.  `Number.address` is the instruction counter that a number
stands for: an integer, or none when the number has a fraction or is infinite.
-/

namespace LogicAsm

inductive Sign where
  | none
  | plus
  | minus
deriving DecidableEq

def Sign.text : Sign → Text
  | .none => []
  | .plus => ['+']
  | .minus => ['-']

/-- The exponent of a decimal literal: the letter it starts with, a sign and digits. -/
structure Exponent where
  mark : Char
  sign : Sign
  digits : Text
deriving DecidableEq

/-- The parts of a number literal. -/
inductive Literal where
  | hexadecimal (digits : Text)
  | binary (digits : Text)
  | decimal (sign : Sign) (whole : Text) (fraction : Option Text) (exponent : Option Exponent)
deriving DecidableEq

/-- The value of a number literal. -/
inductive Number where
  | exact (n : Nat)
  | rounded (x : Binary64)
deriving DecidableEq

namespace Literal

/-! ### Reading -/

/-- A sign, and what follows it. -/
def takeSign : Text → Sign × Text
  | '+' :: rest => (.plus, rest)
  | '-' :: rest => (.minus, rest)
  | rest => (.none, rest)

/-- The exponent that a text is, up to its end. -/
def readExponent? : Text → Option (Option Exponent)
  | [] => some none
  | mark :: rest =>
    let (sign, digits) := takeSign rest
    if (mark = 'e' ∨ mark = 'E') ∧ digits ≠ [] ∧ digits.all Text.isDigit then
      some (some ⟨mark, sign, digits⟩)
    else none

/-- The decimal literal that a text is. -/
def readDecimal? (t : Text) : Option Literal :=
  let (sign, t) := takeSign t
  let whole := t.takeWhile Text.isDigit
  match t.dropWhile Text.isDigit with
  | '.' :: rest =>
    let fraction := rest.takeWhile Text.isDigit
    if whole = [] ∧ fraction = [] then none
    else
      (readExponent? (rest.dropWhile Text.isDigit)).map fun exponent =>
        .decimal sign whole (some fraction) exponent
  | rest =>
    if whole = [] then none
    else (readExponent? rest).map fun exponent => .decimal sign whole none exponent

def isBinaryDigit (c : Char) : Bool := c == '0' || c == '1'

/-- The literal that a word is, if it is one. -/
def read? : Text → Option Literal
  | '0' :: 'x' :: digits =>
    if digits ≠ [] ∧ digits.all Text.isHexDigit then some (.hexadecimal digits) else none
  | '0' :: 'b' :: digits =>
    if digits ≠ [] ∧ digits.all isBinaryDigit then some (.binary digits) else none
  | t => readDecimal? t

/-! ### Writing -/

/-- The word that a literal is read from. -/
def text : Literal → Text
  | .hexadecimal digits => '0' :: 'x' :: digits
  | .binary digits => '0' :: 'b' :: digits
  | .decimal sign whole fraction exponent =>
    sign.text ++ whole ++ (match fraction with | none => [] | some f => '.' :: f) ++
      (match exponent with | none => [] | some e => e.mark :: (e.sign.text ++ e.digits))

/-! ### Value -/

/-- The power of ten that an exponent stands for. -/
def scaleOf : Option Exponent → Int
  | none => 0
  | some e =>
    let n : Int := Text.digitsValue 10 e.digits
    if e.sign = .minus then -n else n

/-- The value of a literal: exact for hexadecimal and binary ones, the nearest binary64 number for
decimal ones. -/
def value : Literal → Number
  | .hexadecimal digits => .exact (Text.digitsValue 16 digits)
  | .binary digits => .exact (Text.digitsValue 2 digits)
  | .decimal sign whole fraction exponent =>
    let fraction := fraction.getD []
    let digits := whole ++ fraction
    .rounded ⟨sign = .minus,
      Magnitude.ofDecimal (Text.digitsValue 10 digits) digits.length
        (scaleOf exponent - fraction.length)⟩

end Literal

namespace Number

def read? (word : Text) : Option Number := (Literal.read? word).map Literal.value

def isLiteral (word : Text) : Bool := (Literal.read? word).isSome

/-- The instruction counter that a number stands for.  An exact number must be in the reach of
binary64 even though its exact value is taken. -/
def address : Number → Except Fault (Option Int)
  | .exact n =>
    match Magnitude.ofRatio n 1 with
    | .infinite => .error .numberTooLarge
    | .finite _ _ => .ok (some n)
  | .rounded x => .ok x.toInt?

end Number

end LogicAsm
