import LogicAsm.Text.Basic

/-!
# Character classes as tables of code ranges

A character class that the Unicode standard fixes is a table: a list of closed ranges of code
points.  The tables stand in modules of their own, named for the property; this module says how they
are read.
-/

namespace LogicAsm.Text

/-- A closed range of code points, first and last. -/
abbrev CodeRange := Nat × Nat

def CodeRange.covers (r : CodeRange) (c : Char) : Bool := r.1 ≤ c.toNat && c.toNat ≤ r.2

/-- Whether some range of the table covers the character. -/
def inRanges (table : List CodeRange) (c : Char) : Bool := table.any (·.covers c)

end LogicAsm.Text
