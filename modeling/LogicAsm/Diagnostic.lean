import LogicAsm.Fault
import LogicAsm.Json
import LogicAsm.Sorting

/-!
# Diagnostics

A diagnostic is a problem in a program: where it is, how serious it is, what it is called and what
there is to say about it.  Diagnostics are listed by place, and at one place by severity and then by
code (`Diagnostic.sort`); the order is stable, so what was found first comes first.

The JSON form of a diagnostic is the one that editors are sent.
-/

namespace LogicAsm

/-- How serious a problem is, the most serious first. -/
inductive Severity where
  | error
  | warning
  | information
  | hint
deriving DecidableEq

namespace Severity

def all : List Severity := [.error, .warning, .information, .hint]

def number : Severity → Nat
  | .error => 1
  | .warning => 2
  | .information => 3
  | .hint => 4

def ofNumber (n : Int) : Except Fault Severity :=
  match all.find? (fun s => (s.number : Int) = n) with
  | some s => .ok s
  | none => .error (.unknownSeverity (.int n))

def label : Severity → String
  | .error => "error"
  | .warning => "warning"
  | .information => "information"
  | .hint => "hint"

end Severity

/-- How an editor shows the code that a diagnostic is about. -/
inductive DiagnosticTag where
  | unnecessary
  | deprecated
deriving DecidableEq

def DiagnosticTag.number : DiagnosticTag → Nat
  | .unnecessary => 1
  | .deprecated => 2

def DiagnosticTag.ofNumber (n : Int) : Except Fault DiagnosticTag :=
  if n = 1 then .ok .unnecessary
  else if n = 2 then .ok .deprecated
  else .error (.unknownTag (.int n))

inductive Code where
  | unclosedString
  | missingSpace
  | undefinedLabel
  | labelRedeclaration
  | unusedLabel
  | unreachableCode
  | preferJumpLabels
  | outOfRangeValue
  | undefinedVariable
  | possiblyUnsetVariable
  | unusedVariable
  | unknownInstruction
  | lineTooLong
  | tooManyLabels
  | tooManyInstructions
  | unknownColorName
deriving DecidableEq

namespace Code

def all : List Code :=
  [.unclosedString, .missingSpace, .undefinedLabel, .labelRedeclaration, .unusedLabel,
   .unreachableCode, .preferJumpLabels, .outOfRangeValue, .undefinedVariable,
   .possiblyUnsetVariable, .unusedVariable, .unknownInstruction, .lineTooLong, .tooManyLabels,
   .tooManyInstructions, .unknownColorName]

def name : Code → String
  | .unclosedString => "unclosed-string"
  | .missingSpace => "missing-space"
  | .undefinedLabel => "undefined-label"
  | .labelRedeclaration => "label-redeclaration"
  | .unusedLabel => "unused-label"
  | .unreachableCode => "unreachable-code"
  | .preferJumpLabels => "prefer-jump-labels"
  | .outOfRangeValue => "out-of-range-value"
  | .undefinedVariable => "undefined-variable"
  | .possiblyUnsetVariable => "possibly-unset-variable"
  | .unusedVariable => "unused-variable"
  | .unknownInstruction => "unknown-instruction"
  | .lineTooLong => "line-too-long"
  | .tooManyLabels => "too-many-labels"
  | .tooManyInstructions => "too-many-instructions"
  | .unknownColorName => "unknown-color-name"

def ofName (name : Text) : Except Fault Code :=
  match all.find? (fun code => code.name.toList = name) with
  | some code => .ok code
  | none => .error (.unknownCode (.text name))

end Code

/-- Another place that a problem has to do with. -/
structure RelatedPlace where
  range : Range
  message : String
  uri : String
deriving DecidableEq

structure Diagnostic where
  range : Range
  message : String
  severity : Severity
  code : Code
  tags : List DiagnosticTag := []
  related : List RelatedPlace := []
  source : String := "mlog"
deriving DecidableEq

namespace Diagnostic

def isError (d : Diagnostic) : Bool := d.severity == .error

/-- Whether `a` may be listed in front of `b`: by place, then by severity, then by the name of the
code. -/
def listedBefore (a b : Diagnostic) : Bool :=
  if a.range.start ≠ b.range.start then a.range.start < b.range.start
  else if a.severity ≠ b.severity then a.severity.number < b.severity.number
  else a.code.name ≤ b.code.name

/-- The diagnostics in the order of their listing; equals keep their order. -/
def sort (ds : List Diagnostic) : List Diagnostic := Sorting.sort listedBefore ds

/-! ### JSON -/

def positionJson (p : Position) : Json :=
  .object [("line", .int p.line), ("character", .int p.character)]

def rangeJson (r : Range) : Json :=
  .object [("start", positionJson r.start), ("end", positionJson r.stop)]

def relatedJson (r : RelatedPlace) : Json :=
  .object
    [("location", .object [("uri", .string r.uri.toList), ("range", rangeJson r.range)]),
     ("message", .string r.message.toList)]

/-- A diagnostic in JSON; without tags or related places it has no such member. -/
def toJson (d : Diagnostic) : Json :=
  .object <|
    [("range", rangeJson d.range), ("severity", .int d.severity.number),
     ("code", .string d.code.name.toList), ("source", .string d.source.toList),
     ("message", .string d.message.toList)] ++
    (if d.tags.isEmpty then [] else [("tags", .array (d.tags.map fun tag => .int tag.number))]) ++
    (if d.related.isEmpty then []
     else [("relatedInformation", .array (d.related.map relatedJson))])

end Diagnostic

end LogicAsm
