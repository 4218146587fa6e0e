import LogicAsm.Fault

/-!
# Indices counted from either end

A sequence is indexed from zero at its front and from minus one at its back.  `Index.resolve?` turns
such an index into the number of elements in front of it, or into nothing when it points outside.

An index is a signed number of 64 bits.  One beyond that is refused as such; one that merely points
outside is refused in the words of the sequence it was meant for.
-/

namespace LogicAsm.Index

/-- The number of elements in front of the indexed one, in a sequence of the given length. -/
def resolve? (length : Nat) (i : Int) : Option Nat :=
  if 0 ≤ i then if i < length then some i.toNat else none
  else if -(length : Int) ≤ i then some (i + length).toNat
  else none

/-- The least number that is too large for 64 bits with a sign. -/
def bound : Int := 9223372036854775808

def isSized (i : Int) : Bool := -bound ≤ i && i < bound

/-- Why an index that resolves to nothing is refused. -/
def refusal (outside : Fault) (i : Int) : Fault := if isSized i then outside else .indexTooLarge

/-- The number of elements in front of the indexed one, or the refusal of the index. -/
def resolve (outside : Fault) (length : Nat) (i : Int) : Except Fault Nat :=
  match resolve? length i with
  | some k => .ok k
  | none => .error (refusal outside i)

def get? (xs : List α) (i : Int) : Option α := (resolve? xs.length i).bind (xs[·]?)

def get (outside : Fault) (xs : List α) (i : Int) : Except Fault α :=
  match get? xs i with
  | some a => .ok a
  | none => .error (refusal outside i)

end LogicAsm.Index
