import LogicAsm.Document
import LogicAsm.Flow.Variables
import LogicAsm.Settings
import LogicAsm.Spelling

/-!
# Checks

Everything that is looked for in a document.  Besides the lexical problems, the flow of control and
the variables there are five checks on nodes:

* `opcodes`: instructions that the table does not have;
* `lineLength`: statements with too many tokens;
* `labelUse`: labels that no jump goes to, and jumps to numbers;
* `limits`: more labels or instructions than a processor takes;
* `colors`: colour tags with an unknown name.

`Checks.run` makes all of them and lists what they find by place.
-/

namespace LogicAsm.Checks

/-! ### The five checks -/

def opcodes (nodes : List Node) : List Diagnostic :=
  nodes.filterMap fun n =>
    if n.isInstruction && !Instruction.isKnown n.opcode then
      some {
        range := n.head.range
        message :=
          s!"Unknown instruction '{String.ofList n.opcode}'." ++
            Spelling.didYouMean n.opcode Instruction.names
        severity := .warning
        code := .unknownInstruction }
    else none

/-- The report of a statement with too many tokens, from the first one over the limit on.  A limit
below zero counts tokens from the back. -/
def tooLong (maxTokens : Int) (n : Node) : Except Fault (List Diagnostic) :=
  if n.tokens.length ≤ maxTokens then .ok []
  else do
    let first ← Index.get .limitOutOfRange n.tokens maxTokens
    return [{
      range := ⟨first.start, n.last.stop⟩
      message := s!"Line too long; may only contain {maxTokens} tokens"
      severity := .error
      code := .lineTooLong }]

def lineLength (maxTokens : Int) (nodes : List Node) : Except Fault (List Diagnostic) :=
  (nodes.mapM (tooLong maxTokens)).map List.flatten

def numberedJump (destination : Token) : Diagnostic :=
  { range := destination.range
    message := "Prefer using labels instead of jump addresses"
    severity := .hint
    code := .preferJumpLabels }

def unusedLabel (name : Text) (n : Node) : Diagnostic :=
  { range := n.nameRange
    message := s!"Label '{String.ofList name}' is declared but never used"
    severity := .warning
    code := .unusedLabel
    tags := [.unnecessary] }

/-- Jumps to numbers, and then labels that no jump goes to. -/
def labelUse (nodes : List Node) (labels : LabelTable) : List Diagnostic :=
  let destinations := nodes.filterMap (·.destination?)
  let used := (destinations.filter fun t => !t.isNumber).map (·.content)
  (destinations.filter (·.isNumber)).map numberedJump ++
    labels.labels.filterMap fun (name, index) =>
      if used.contains name then none else nodes[index]?.map (unusedLabel name)

def labelOverLimit (settings : Settings) (n : Node) : Diagnostic :=
  { range := n.nameRange
    message := s!"Exceeded maximum label count of {settings.maxLabels}"
    severity := .error
    code := .tooManyLabels }

def instructionOverLimit (settings : Settings) (n : Node) : Diagnostic :=
  { range := n.range
    message := s!"Exceeded maximum instruction count of {settings.maxInstructions}"
    severity := .error
    code := .tooManyInstructions }

/-- Labels and instructions beyond the limits, where so many were counted before. -/
def limitsFrom (settings : Settings) (labels instructions : Nat) : List Node → List Diagnostic
  | [] => []
  | n :: ns =>
    match n.kind with
    | .label =>
      (if settings.maxLabels < (labels + 1 : Nat) then [labelOverLimit settings n] else []) ++
        limitsFrom settings (labels + 1) instructions ns
    | .instruction =>
      (if settings.maxInstructions < (instructions + 1 : Nat) then
        [instructionOverLimit settings n] else []) ++
        limitsFrom settings labels (instructions + 1) ns
    | .comment => limitsFrom settings labels instructions ns

def limits (settings : Settings) (nodes : List Node) : List Diagnostic :=
  limitsFrom settings 0 0 nodes

def tokenColors (t : Token) : List Diagnostic :=
  t.tags.filterMap fun tag =>
    let name := t.tagName tag
    if tag.isReset || Color.isKnownName name then none
    else some {
      range := t.tagRange tag
      message :=
        s!"Unknown color name: {String.ofList name}." ++ Spelling.didYouMean name Color.names
      severity := .warning
      code := .unknownColorName }

/-- The colour tags outside comments that have an unknown name. -/
def colors (nodes : List Node) : List Diagnostic :=
  (nodes.filter fun n => !n.isComment).flatMap fun n =>
    (n.tokens.filter fun t => t.kind == .string || t.kind == .color).flatMap tokenColors

/-! ### All checks -/

structure Findings where
  diagnostics : List Diagnostic
  /-- How many nodes the analysis of variables looked at. -/
  visits : Nat

/-- All checks of a document, listed by place. -/
def run (settings : Settings) (doc : Document) : Except Fault Findings := do
  let graph ← FlowGraph.build doc.uri doc.nodes doc.labels
  let analysis := VariableAnalysis.ofGraph graph
  let tooLong ← lineLength settings.maxTokens doc.nodes
  let found :=
    doc.problems ++ graph.problems ++ graph.unreachableProblems ++ analysis.problems ++
      opcodes doc.nodes ++ tooLong ++ labelUse doc.nodes doc.labels ++ limits settings doc.nodes ++
      colors doc.nodes
  return ⟨Diagnostic.sort found, analysis.taken.length⟩

end LogicAsm.Checks
