import LogicAsm.Instruction.Table
import LogicAsm.Node

/-!
# Operands of an instruction

What the table says about the operands of a node.  Each operand is paired with the parameter in its
place; operands beyond the shape are ignored, and so are those behind a selector that the table does
not have.  An opcode that the table does not have resolves no operand at all.

Two instructions matter to the flow of control: `jump`, and anything that writes the program
counter.
-/

namespace LogicAsm

/-- An operand with the role that its instruction gives it. -/
structure Operand where
  token : Token
  role : Role
  name : Text
deriving DecidableEq

namespace Operand

/-- The parameters for the operands at hand. -/
def parametersFor (operands : List Token) : Signature → List Parameter
  | .fixed params => params
  | .selected pre variants =>
    match operands[pre.length]? with
    | none => pre
    | some selector =>
      pre ++ ⟨"type".toList, .keyword⟩ :: (variants.lookup selector.content).getD []

/-- Operands with the parameters in their places. -/
def assign : List Token → List Parameter → List Operand
  | [], _ => []
  | t :: ts, [] => ⟨t, .ignored, []⟩ :: assign ts []
  | t :: ts, p :: ps => ⟨t, p.role, p.name⟩ :: assign ts ps

end Operand

namespace Node

def resolvedOperands (n : Node) : List Operand :=
  match Instruction.shape? n.opcode with
  | none => []
  | some shape => Operand.assign n.operands (Operand.parametersFor n.operands shape.signature)

def isJump (n : Node) : Bool := n.isInstruction && n.opcode == "jump".toList

/-- The destination of a jump: the first operand. -/
def destination? (n : Node) : Option Token := if n.isJump then n.operands[0]? else none

/-- The word that says when a jump jumps: the second operand. -/
def condition? (n : Node) : Option Text := n.operands[1]?.map (·.content)

/-- Whether a node jumps whenever it is reached. -/
def alwaysJumps (n : Node) : Bool := n.isJump && n.condition? == some "always".toList

/-- Whether a node assigns the program counter. -/
def writesCounter (n : Node) : Bool :=
  n.isInstruction &&
    n.resolvedOperands.any fun o => o.role == .write && o.token.content == "@counter".toList

end Node

end LogicAsm
