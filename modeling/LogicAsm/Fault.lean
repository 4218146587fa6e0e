import LogicAsm.Position
import LogicAsm.Text.Utf8

/-!
# Faults

Problems *in a program* are diagnostics and never stop anything.  A fault is a problem with how the
library is driven, or with the world around it: a setting that cannot be honoured, edits that cover
the same text, a file that is not text, an address beyond every number.

A fault is its cause; `Fault.message` is the one place where causes are put into words.
-/

namespace LogicAsm

/-- A value as messages show it. -/
inductive ShownValue where
  | nothing
  | bool (b : Bool)
  | int (n : Int)
  | text (t : Text)
deriving DecidableEq

def ShownValue.message : ShownValue → String
  | .nothing => "None"
  | .bool true => "True"
  | .bool false => "False"
  | .int n => toString n
  | .text t => String.ofList t.quoted

/-- Why a path leads to no file. -/
inductive PathProblem where
  | missing
  | notDirectory
  | directory
  | nameTooLong
deriving DecidableEq

def PathProblem.number : PathProblem → Nat
  | .missing => 2
  | .notDirectory => 20
  | .directory => 21
  | .nameTooLong => 36

def PathProblem.description : PathProblem → String
  | .missing => "No such file or directory"
  | .notDirectory => "Not a directory"
  | .directory => "Is a directory"
  | .nameTooLong => "File name too long"

inductive Fault where
  /-- A failure of the library with a free description. -/
  | general (description : String) (hint : Option String)
  | invalidSetting (option : String) (value : ShownValue) (reason : String) (hint : Option String)
  | unknownNodeKind (kind : ShownValue)
  | overlappingEdits (first second : Range)
  /-- A number literal that no binary64 number is near to. -/
  | numberTooLarge
  | indexOutOfRange
  | indexTooLarge
  | countTooLarge
  /-- Memory that has run out, wherever that happens. -/
  | outOfMemory
  /-- An integer with more digits than are ever written. -/
  | numeralTooLong
  /-- A limit below zero that counts back beyond the first token of a statement. -/
  | limitOutOfRange
  | negativeSize
  | invalidHexadecimal (digits : Text)
  | unknownSeverity (value : ShownValue)
  | unknownCode (value : ShownValue)
  | unknownTag (value : ShownValue)
  | notUtf8 (fault : Text.Utf8.Fault)
  | noFile (problem : PathProblem) (path : Text)
  /-- A path with a null character, which no path can have. -/
  | nullInPath
  | badArgument (description : String)
  /-- A file that cannot be opened, for a described reason. -/
  | unusableFile (description : String)
  | unexpected (description : String)
deriving DecidableEq

namespace Fault

/-- An error with its hint on a line of its own; an empty hint is none. -/
def withHint (description : String) (hint : Option String) : String :=
  let line := s!"error: {description}"
  match hint with
  | none => line
  | some h => if h = "" then line else s!"{line}\nhint: {h}"

def message : Fault → String
  | .general description hint => withHint description hint
  | .invalidSetting option value reason hint =>
    withHint s!"{option} {reason} (got {value.message})" hint
  | .unknownNodeKind kind => withHint s!"unknown syntax node kind {kind.message}" none
  | .overlappingEdits first second =>
    withHint s!"edits overlap: {first.message} and {second.message}"
      (some "compute every edit from the same version of the document")
  | .numberTooLarge => "int too large to convert to float"
  | .indexOutOfRange => "list index out of range"
  | .indexTooLarge => "cannot fit 'int' into an index-sized integer"
  | .countTooLarge => "cannot fit 'int' into an index-sized integer"
  | .outOfMemory => ""
  | .numeralTooLong =>
    "Exceeds the limit (4300 digits) for integer string conversion; " ++
      "use sys.set_int_max_str_digits() to increase the limit"
  | .limitOutOfRange => "tuple index out of range"
  | .negativeSize => "__len__() should return >= 0"
  | .invalidHexadecimal digits =>
    s!"invalid literal for int() with base 16: {String.ofList digits.quoted}"
  | .unknownSeverity value => s!"{value.message} is not a valid DiagnosticSeverity"
  | .unknownCode value => s!"{value.message} is not a valid DiagnosticCode"
  | .unknownTag value => s!"{value.message} is not a valid DiagnosticTag"
  | .notUtf8 fault => fault.message
  | .noFile problem path =>
    s!"[Errno {problem.number}] {problem.description}: {String.ofList path.quoted}"
  | .nullInPath => "embedded null byte"
  | .badArgument description => description
  | .unusableFile description => description
  | .unexpected description => description

end Fault

end LogicAsm
