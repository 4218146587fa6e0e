import LogicAsm.Text.CodeRange

/-!
# Blank characters

The white space of the Unicode standard, as it separates the words of a shape and surrounds the
values of settings.  The four information separators (code points 28 to 31) count as blank around a
word, but not around a numeral: `isNumeralBlank` is the class without them.

The scanner of programs uses neither class: it knows the space and the tab only.
-/

namespace LogicAsm.Text

/-- The code ranges of white space. -/
def blankRanges : List CodeRange :=
  [(9, 13), (28, 32), (0x85, 0x85), (0xA0, 0xA0), (0x1680, 0x1680), (0x2000, 0x200A),
   (0x2028, 0x2029), (0x202F, 0x202F), (0x205F, 0x205F), (0x3000, 0x3000)]

def isBlank (c : Char) : Bool := inRanges blankRanges c

/-- White space that may stand around a numeral. -/
def isNumeralBlank (c : Char) : Bool := isBlank c && !(28 ≤ c.toNat && c.toNat ≤ 31)

end LogicAsm.Text
