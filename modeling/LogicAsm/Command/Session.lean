import LogicAsm.Command.Arguments
import LogicAsm.Text.ControlSequence

/-!
# Sessions

What a run of the program reads and writes: files, standard input, and the two streams of output.
A session is a value; each step of a command gives the next one.

What is printed or said leaves out control sequences, each time for itself.

Log records go to the second stream too, and as they are.  A verbose session shows all of them with
their level, any other shows warnings only, bare.
-/

namespace LogicAsm

structure Session where
  verbose : Bool
  files : FileStore
  /-- What is left of standard input. -/
  input : Text.Bytes
  stdout : String := ""
  stderr : String := ""

namespace Session

/-- What is shown of a text: everything but control sequences. -/
def shown (text : String) : String := String.ofList (Text.plain text.toList)

def print (s : Session) (text : String) : Session := { s with stdout := s.stdout ++ shown text }

/-- The session after a line on the second stream. -/
def say (s : Session) (line : String) : Session :=
  { s with stderr := s.stderr ++ shown line ++ "\n" }

def log (s : Session) (record : String) : Session :=
  { s with stderr := s.stderr ++ record ++ "\n" }

/-- The session after a log record that only verbose sessions show. -/
def debug (s : Session) (record : String) : Session :=
  if s.verbose then s.log s!"DEBUG: {record}" else s

def warn (s : Session) (record : String) : Session :=
  s.log (if s.verbose then s!"WARNING: {record}" else record)

/-- Read a file, or all that is left of standard input. -/
def read (s : Session) (name : String) : Except Fault (Text × Session) :=
  if name = Arguments.standardInput then
    (FileStore.textOf s.input).map fun t => (t, { s with input := [] })
  else (s.files.read name).map fun t => (t, s)

def write (s : Session) (name : String) (t : Text) : Session :=
  { s with files := s.files.write name t }

/-- The session after the records of reading a document. -/
def noteDocument (s : Session) (doc : Document) : Session :=
  let statements := (Statement.ofText doc.text).length
  s |>.debug s!"Tokenized {statements} statements, {doc.problems.length} problems"
    |>.debug s!"Parsed {doc.nodes.length} nodes from {doc.lines.length} lines"
    |>.debug
      (s!"Document rebuilt: {doc.nodes.length} nodes, {doc.instructions.length} instructions, " ++
        s!"{doc.labels.labels.length} labels")

end Session

/-- A step that failed, with the session as it stood then. -/
structure Failure where
  session : Session
  fault : Fault

namespace Session

def openDocument (s : Session) (name : String) : Except Failure (Document × Session) :=
  match s.read name with
  | .error fault => .error ⟨s, fault⟩
  | .ok (t, s) =>
    let doc := Document.ofText name t
    .ok (doc, s.noteDocument doc)

end Session

/-! ### Faults at the end of a run -/

def Fault.exitCode : Fault → Nat
  | .invalidSetting _ _ _ _ => 2
  | .general _ _ => 1
  | .unknownNodeKind _ => 1
  | .overlappingEdits _ _ => 1
  | .badArgument _ => 2
  | .noFile .missing _ => 2
  | .noFile .directory _ => 2
  | .unusableFile _ => 2
  | .notUtf8 _ => 2
  | _ => 3

/-- What a run says about the fault that ended it. -/
def Fault.notice (f : Fault) : String :=
  match f with
  | .invalidSetting _ _ _ _ | .general _ _ | .unknownNodeKind _ | .overlappingEdits _ _ => f.message
  | .badArgument _ | .noFile .missing _ | .noFile .directory _ | .unusableFile _ =>
    s!"Error: {f.message}"
  | .notUtf8 _ => s!"Error: file is not valid UTF-8: {f.message}"
  | _ => s!"Internal error: {f.message}"

def Session.fail (s : Session) (f : Fault) : Session := s.say f.notice

end LogicAsm
