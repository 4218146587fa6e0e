import LogicAsm.Text.DecimalDigit

/-!
# Linked buildings

A processor sees each building that is linked to it as a variable: the name of the block and a
number, as in `cell1`.  Programs never set such variables.
-/

namespace LogicAsm.BuildingLink

/-- The names of blocks that can be linked. -/
def blockNames : List Text :=
  ["arc", "bank", "battery", "cell", "conduit", "container", "conveyor", "core", "cultivator",
   "cyclone", "diode", "disassembler", "display", "door", "drill", "duct", "duo", "factory",
   "foreshadow", "fuse", "gate", "generator", "hail", "illuminator", "incinerator", "junction",
   "kiln", "lancer", "laser", "meltdown", "melter", "memory", "mender", "message", "mixer", "node",
   "overflow", "panel", "point", "press", "processor", "projector", "pulverizer", "pump", "reactor",
   "router", "ripple", "salvo", "scatter", "segment", "separator", "smelter", "sorter", "spectre",
   "switch", "swarmer", "tank", "tsunami", "turret", "unloader", "vault", "wave",
   "weaver"].map String.toList

def isSmallLetter (c : Char) : Bool := 'a' ≤ c && c ≤ 'z'

def withoutFinalNewline (t : Text) : Text := if t.endsWith '\n' then t.dropLast else t

/-- Whether a name is that of a linked building: a block's name and a number, which one line feed
may follow. -/
def isLink (name : Text) : Bool :=
  let digits := withoutFinalNewline (name.dropWhile isSmallLetter)
  blockNames.contains (name.takeWhile isSmallLetter) && digits != [] && digits.all Text.isDigit

end LogicAsm.BuildingLink
