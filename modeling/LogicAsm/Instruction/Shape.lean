import LogicAsm.Text.Blank

/-!
# Shapes of instructions

A shape says how an instruction uses its operands.  Shapes are written as the names of the operands,
each with a mark in front that gives its role:

| Mark | Role    | Meaning                              |
|------|---------|--------------------------------------|
| `>`  | write   | a variable that receives a result    |
| `:`  | label   | a jump destination                   |
| `!`  | keyword | a fixed word                         |
| `_`  | ignored | accepted and not used                |
|      | read    | a value that is used                 |

An overloaded instruction has a *selector*, a keyword that decides what follows.  Operands in front
of the selector are the same for every selector.
-/

namespace LogicAsm

/-- How an instruction uses an operand. -/
inductive Role where
  | read
  | write
  | label
  | keyword
  | ignored
deriving DecidableEq

/-- A named operand of a shape. -/
structure Parameter where
  name : Text
  role : Role
deriving DecidableEq

namespace Parameter

/-- The role that a mark stands for. -/
def roleOf? (mark : Char) : Option Role :=
  if mark = '>' then some .write
  else if mark = ':' then some .label
  else if mark = '!' then some .keyword
  else if mark = '_' then some .ignored
  else none

/-- The parameter that a word writes.  A mark that stands alone is its own name. -/
def ofWord (word : Text) : Parameter :=
  match word with
  | [] => ⟨[], .read⟩
  | mark :: name =>
    match roleOf? mark with
    | none => ⟨word, .read⟩
    | some role => ⟨if name = [] then word else name, role⟩

def ofText (t : Text) : List Parameter := (t.words Text.isBlank).map ofWord

end Parameter

/-- What an instruction takes. -/
inductive Signature where
  | fixed (params : List Parameter)
  /-- Operands in front of a selector, and those behind it for each selector. -/
  | selected (pre : List Parameter) (variants : List (Text × List Parameter))
deriving DecidableEq

structure Shape where
  name : Text
  signature : Signature
deriving DecidableEq

namespace Shape

def fixed (name : String) (params : String) : Shape :=
  ⟨name.toList, .fixed (Parameter.ofText params.toList)⟩

/-- An instruction with a selector behind the operands `pre`. -/
def selected (name : String) (pre : String) (variants : List (String × String)) : Shape :=
  ⟨name.toList,
   .selected (Parameter.ofText pre.toList)
     (variants.map fun (selector, params) => (selector.toList, Parameter.ofText params.toList))⟩

end Shape

end LogicAsm
