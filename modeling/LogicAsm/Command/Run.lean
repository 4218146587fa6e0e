import LogicAsm.Checks
import LogicAsm.Command.Session
import LogicAsm.Layout
import LogicAsm.Report

/-!
# Commands

The commands of the program as functions on sessions.  Files are taken from left to right, and each
is read, worked on and written before the next one is read, so a file that is named twice is worked
on twice.  The first fault ends the run; what was done before it stays done.

Exit codes: 0 for success, 1 if errors were found or a file is not in canonical layout, 2 for bad
arguments, settings or files, 3 for anything else.
-/

namespace LogicAsm

structure World where
  arguments : List String
  environment : Settings.Environment
  input : Text.Bytes
  files : FileStore

/-- How a run of the program ends. -/
inductive Outcome where
  | refused (refusal : Refusal)
  | done (exitCode : Nat) (session : Session)

namespace Command

/-- How reports and messages call a file. -/
def displayName (name : String) : String :=
  if name = Arguments.standardInput then "<stdin>" else name

/-- Turn a fault into a failure in a session. -/
def within (s : Session) (x : Except Fault α) : Except Failure α :=
  match x with
  | .ok a => .ok a
  | .error fault => .error ⟨s, fault⟩

/-- Standard input cannot be written to. -/
def refuseStandardInput (inPlace : Bool) (files : List String) : Except Fault Unit :=
  if inPlace && files.contains Arguments.standardInput then
    .error (.badArgument "cannot rewrite standard input in place")
  else .ok ()

/-! ### `format` -/

/-- The settings with what the command line says about the layout. -/
def formatSettings (settings : Settings) (request : FormatRequest) (tabSize : Option Int) :
    Settings :=
  { settings with
    tabSize := tabSize.getD settings.tabSize
    insertSpaces := settings.insertSpaces && !request.useTabs
    finalNewline := settings.finalNewline && !request.noFinalNewline }

/-- Format one file, where `unformatted` files were found to need it before. -/
def formatFile (request : FormatRequest) (options : Layout.Options) (state : Session × Nat)
    (name : String) : Except Failure (Session × Nat) := do
  let (s, unformatted) := state
  let (doc, s) ← s.openDocument name
  let formatted ← within s (Layout.format options doc.nodes)
  let changed := formatted != doc.text
  if request.check then
    if changed then return (s.say s!"would reformat {displayName name}", unformatted + 1)
    else return (s, unformatted)
  else if request.inPlace then
    if changed then return ((s.write name formatted).say s!"reformatted {name}", unformatted)
    else return (s.debug s!"{name} already formatted", unformatted)
  else return (s.print (String.ofList formatted), unformatted)

def runFormat (settings : Settings) (request : FormatRequest) (tabSize : Option Int)
    (files : List String) (s : Session) : Except Failure (Nat × Session) := do
  within s (refuseStandardInput request.inPlace files)
  let settings ← within s (formatSettings settings request tabSize).validate
  let (s, unformatted) ← files.foldlM (formatFile request (.ofSettings settings)) (s, 0)
  if unformatted = 0 then return (0, s)
  else return (1, s.say s!"{unformatted} of {files.length} file(s) would be reformatted")

/-! ### `check` -/

/-- What the check of files has come to: the session, the results in JSON by file, and whether there
was an error. -/
structure CheckState where
  session : Session
  results : List (String × Json)
  hasErrors : Bool

/-- The results with those of a file, in the place of what it had. -/
def putResult (results : List (String × Json)) (name : String) (value : Json) :
    List (String × Json) :=
  if results.any (·.1 == name) then
    results.map fun entry => if entry.1 = name then (name, value) else entry
  else results ++ [(name, value)]

def checkFile (settings : Settings) (asJson : Bool) (state : CheckState) (name : String) :
    Except Failure CheckState := do
  let (doc, s) ← state.session.openDocument name
  let found ← within s (Checks.run settings doc)
  let s :=
    if doc.nodes.isEmpty then s
    else s.debug s!"Variable dataflow converged after {found.visits} node visits"
  let s := s.debug s!"Checked {name}: {found.diagnostics.length} diagnostics"
  let report : Report := ⟨displayName name, some doc.text, found.diagnostics⟩
  let hasErrors := state.hasErrors || report.hasErrors
  if asJson then
    return ⟨s, putResult state.results (displayName name) report.toJson, hasErrors⟩
  else
    let text ← within s report.text
    return ⟨s.print (text ++ "\n"), state.results, hasErrors⟩

def runCheck (settings : Settings) (request : CheckRequest) (files : List String) (s : Session) :
    Except Failure (Nat × Session) := do
  let settings ← within s settings.validate
  let state ← files.foldlM (checkFile settings request.asJson) ⟨s, [], false⟩
  let s :=
    if request.asJson then
      state.session.print (String.ofList (Json.object state.results).text ++ "\n")
    else state.session
  return (if state.hasErrors then 1 else 0, s)

/-! ### `jumps` -/

def conversionRecord (form : Jumps.Form) (c : Jumps.Conversion) : String :=
  match form with
  | .labels => s!"Labeled jumps: {c.subjects} targets, {c.edits.length} edits"
  | .numbers => s!"Numbered jumps: {c.subjects} labels removed, {c.edits.length} edits"

def jumpsFile (request : JumpsRequest) (s : Session) (name : String) : Except Failure Session := do
  let (doc, s) ← s.openDocument name
  let conversion ← within s (Jumps.convert request.form doc)
  let s := s.debug (conversionRecord request.form conversion)
  let result ← within s (Edit.applyAll doc conversion.edits)
  if request.inPlace then
    if conversion.edits.isEmpty then return s.debug s!"{name}: no jumps to convert"
    else
      return (s.write name result).say s!"rewrote {conversion.edits.length} span(s) in {name}"
  else return s.print (String.ofList result)

def runJumps (request : JumpsRequest) (files : List String) (s : Session) :
    Except Failure (Nat × Session) := do
  within s (refuseStandardInput request.inPlace files)
  let s ← files.foldlM (jumpsFile request) s
  return (0, s)

/-! ### All commands -/

def runIn (settings : Settings) (s : Session) : Command → Except Failure (Nat × Session)
  | .format request tabSize files => runFormat settings request tabSize files s
  | .check request files => runCheck settings request files s
  | .jumps request files => runJumps request files s

def versionLine : String := "mlog, version 1.0.0\n"

def run (world : World) : Outcome :=
  match Arguments.invocation world.files world.arguments with
  | .error refusal => .refused refusal
  | .ok .version =>
    .done 0 { verbose := false, files := world.files, input := world.input, stdout := versionLine }
  | .ok (.command verbose command) =>
    let (settings, warnings) := Settings.ofEnvironment world.environment
    let start : Session := { verbose, files := world.files, input := world.input }
    match command.runIn settings (warnings.foldl Session.warn start) with
    | .ok (exitCode, s) => .done exitCode s
    | .error failure => .done failure.fault.exitCode (failure.session.fail failure.fault)

end Command

end LogicAsm
