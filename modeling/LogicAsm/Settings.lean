import LogicAsm.Fault
import LogicAsm.Text.LowerCase
import LogicAsm.Text.Numeral

/-!
# Settings

What formatting and checking can be told: the indentation, the final newline, and the limits of a
processor.  Settings start from defaults; the environment changes them, and so does the command
line.  A value in the environment that cannot be read is left out with a warning.

A limit may be any integer until `Settings.validate` has accepted it.
-/

namespace LogicAsm

structure Settings where
  tabSize : Int := 4
  insertSpaces : Bool := true
  finalNewline : Bool := true
  maxInstructions : Int := 1000
  maxLabels : Int := 500
  maxTokens : Int := 16
deriving DecidableEq

namespace Settings

/-! ### The environment -/

abbrev Environment := List (String × Text)

/-- The value of a variable; an empty one counts as none. -/
def valueOf? (env : Environment) (name : String) : Option Text :=
  (env.lookup name).filter (· ≠ [])

/-- Settings, and the warnings that came up on the way. -/
abbrev Read := Settings × List String

def warn (name : String) (value : Text) (expected : String) (read : Read) : Read :=
  (read.1, read.2 ++ [s!"Ignoring {name}={String.ofList value.quoted}: not {expected}"])

/-- Change an integer of the settings if the variable is set. -/
def readInteger (env : Environment) (name : String) (change : Settings → Int → Settings)
    (read : Read) : Read :=
  match valueOf? env name with
  | none => read
  | some value =>
    match Text.integer? 10 value with
    | some n => (change read.1 n, read.2)
    | none => warn name value "an integer" read

/-- The truth value that a word stands for, in any case. -/
def truth? (value : Text) : Option Bool :=
  let word := (value.trim Text.isBlank).lower
  if (["1", "true", "yes", "on"].map String.toList).contains word then some true
  else if (["0", "false", "no", "off"].map String.toList).contains word then some false
  else none

def readSwitch (env : Environment) (name : String) (change : Settings → Bool → Settings)
    (read : Read) : Read :=
  match valueOf? env name with
  | none => read
  | some value =>
    match truth? value with
    | some b => (change read.1 b, read.2)
    | none => warn name value "a boolean" read

/-- The settings that the environment asks for, with the warnings about unreadable values. -/
def ofEnvironment (env : Environment) : Read :=
  ({}, [])
    |> readInteger env "MLOG_TAB_SIZE" (fun s n => { s with tabSize := n })
    |> readInteger env "MLOG_MAX_INSTRUCTIONS" (fun s n => { s with maxInstructions := n })
    |> readInteger env "MLOG_MAX_LABELS" (fun s n => { s with maxLabels := n })
    |> readSwitch env "MLOG_INSERT_SPACES" (fun s b => { s with insertSpaces := b })
    |> readSwitch env "MLOG_FINAL_NEWLINE" (fun s b => { s with finalNewline := b })

/-! ### Limits -/

/-- The settings themselves, if each can be honoured. -/
def validate (s : Settings) : Except Fault Settings :=
  if s.tabSize < 1 then
    .error (.invalidSetting "tab size" (.int s.tabSize) "must be at least 1"
      (some "set MLOG_TAB_SIZE or --tab-size to a positive integer"))
  else if s.maxInstructions < 1 then
    .error (.invalidSetting "instruction limit" (.int s.maxInstructions) "must be at least 1" none)
  else if s.maxLabels < 0 then
    .error (.invalidSetting "label limit" (.int s.maxLabels) "must not be negative" none)
  else if s.maxTokens < 1 then
    .error (.invalidSetting "token limit" (.int s.maxTokens) "must be at least 1" none)
  else .ok s

end Settings

end LogicAsm
