import LogicAsm.Count
import LogicAsm.Diagnostic
import LogicAsm.Text.Numeral

/-!
# Reports

Diagnostics for human readers: each with its place, counted from one, its severity, message and
code; under it, where the text is at hand, the line with a mark under the part that is meant.  The
last line of a report counts errors and warnings.
-/

namespace LogicAsm

/-- Diagnostics of one document, with the name and the text that reports show. -/
structure Report where
  filename : String
  source : Option Text
  diagnostics : List Diagnostic

namespace Report

/-- The lines of the text, without carriage returns at their ends. -/
def sourceLines (source : Text) : List Text := source.lines.map (Text.trimRight (· == '\r'))

/-- The width of the mark under a line: the range if it ends there, else the rest of the line. -/
def markWidth (d : Diagnostic) (line : Text) : Int :=
  let start := d.range.start
  let stop :=
    if d.range.stop.line = start.line then d.range.stop.character else (line.length : Int)
  max 1 (stop - start.character)

/-- A number as reports show it, counted from one. -/
def ordinal (n : Int) : Except Fault String :=
  match Text.ofInteger? (n + 1) with
  | some numeral => .ok numeral
  | none => .error .numeralTooLong

/-- A diagnostic in words: its place, severity, message and code. -/
def heading (filename : String) (d : Diagnostic) : Except Fault String := do
  let line ← ordinal d.range.start.line
  let character ← ordinal d.range.start.character
  return s!"{filename}:{line}:{character}: {d.severity.label}: {d.message} [{d.code.name}]"

/-- The mark under a line, as far in as the line is. -/
def mark (d : Diagnostic) (line : Text) : Except Fault Text := do
  let blanks ← Count.copies (4 + d.range.start.character) ' '
  let carets ← Count.copies (markWidth d line) '^'
  return blanks ++ carets

/-- A diagnostic in words, with its line and a mark if the line is at hand. -/
def entry (filename : String) (line : Option Text) (d : Diagnostic) : Except Fault String := do
  let heading ← heading filename d
  match line with
  | none => return heading
  | some l => return s!"{heading}\n    {String.ofList l}\n{String.ofList (← mark d l)}"

/-- The line of the text that a diagnostic starts on, counted from either end; none behind the
last. -/
def lineOf (r : Report) (d : Diagnostic) : Except Fault (Option Text) :=
  match r.source with
  | none => .ok none
  | some source =>
    let lines := sourceLines source
    let line := d.range.start.line
    if lines.length ≤ line then .ok none
    else (Index.get .indexOutOfRange lines line).map some

def count (r : Report) (severity : Severity) : Nat :=
  r.diagnostics.countP fun d => d.severity == severity

def hasErrors (r : Report) : Bool := r.diagnostics.any (·.isError)

def counted (n : Nat) (noun : String) : String := if n = 1 then s!"{n} {noun}" else s!"{n} {noun}s"

def summary (r : Report) : String :=
  s!"{counted (r.count .error) Severity.error.label}, " ++
    counted (r.count .warning) Severity.warning.label

/-- The entry of a diagnostic with the empty line behind it. -/
def paragraph (r : Report) (d : Diagnostic) : Except Fault String := do
  return (← entry r.filename (← r.lineOf d) d) ++ "\n\n"

/-- The report: the diagnostics by place, each followed by an empty line, and the summary. -/
def text (r : Report) : Except Fault String := do
  let paragraphs ← (Diagnostic.sort r.diagnostics).mapM r.paragraph
  return String.join paragraphs ++ r.summary

def toJson (r : Report) : Json := .array ((Diagnostic.sort r.diagnostics).map Diagnostic.toJson)

end Report

end LogicAsm
