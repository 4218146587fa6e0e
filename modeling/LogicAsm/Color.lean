import LogicAsm.Binary64
import LogicAsm.Fault
import LogicAsm.Text.LowerCase
import LogicAsm.Text.Numeral

/-!
# Colours

A colour literal is `%` with six or eight hexadecimal digits, or a name as in `%[red]`.  Inside a
string a colour is switched on by a tag as in `[red]` or `[#ff0000]`.

`rgba` gives the components of a hexadecimal colour between zero and one.  Its argument may come
from elsewhere than a literal: then each pair of characters is read as an integer numeral in base
sixteen, and digits of another count than six or eight give opaque black.
-/

namespace LogicAsm.Color

structure Rgba where
  red : Binary64
  green : Binary64
  blue : Binary64
  alpha : Binary64
deriving DecidableEq

def isHexDigits (t : Text) : Bool :=
  (t.length == 6 || t.length == 8) && t.all Text.isHexDigit

def isHexLiteral : Text → Bool
  | '%' :: digits => isHexDigits digits
  | _ => false

/-- A named colour literal: a name without `]` between `%[` and `]`. -/
def isNamedLiteral : Text → Bool
  | '%' :: '[' :: rest => Text.endsWith rest ']' && !rest.dropLast.contains ']'
  | _ => false

/-- The component that two hexadecimal digits write, between zero and one. -/
def component (digits : Text) : Except Fault Binary64 :=
  match Text.integer? 16 digits with
  | some n => .ok (.ofRatio n 255)
  | none => .error (.invalidHexadecimal digits)

/-- The components of the colour that hexadecimal digits write. -/
def rgba (digits : Text) : Except Fault Rgba :=
  if digits.length = 6 ∨ digits.length = 8 then do
    let red ← component (digits.take 2)
    let green ← component ((digits.drop 2).take 2)
    let blue ← component ((digits.drop 4).take 2)
    let alpha ← if digits.length = 8 then component (digits.drop 6) else .ok .one
    return ⟨red, green, blue, alpha⟩
  else .ok ⟨.zero, .zero, .zero, .one⟩

def names : List Text :=
  ["accent", "acid", "black", "blue", "brick", "brown", "clear", "coral", "crimson", "cyan",
   "darkgray", "forest", "gold", "goldenrod", "gray", "green", "highlight", "lightgray", "lime",
   "magenta", "maroon", "navy", "negstat", "olive", "orange", "pink", "purple", "red", "royal",
   "salmon", "scarlet", "sky", "slate", "stat", "tan", "teal", "unlaunched", "violet", "white",
   "yellow"].map String.toList

/-- Whether a tag's name is that of a colour, in any case, or `#` with hexadecimal digits. -/
def isKnownName (name : Text) : Bool :=
  names.contains name.lower ||
    match name with
    | '#' :: digits => isHexDigits digits
    | _ => false

end LogicAsm.Color
