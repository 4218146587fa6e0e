import LogicAsm.FileStore
import LogicAsm.Jumps
import LogicAsm.Text.Numeral

/-!
# Arguments of the command line

What a command line asks for.  In front of the command stand the options that hold for all commands;
behind it stand its own options and its files, in any order.

* An option starts with a dash and is more than the dash.  `--name=value` gives the value of an
  option that takes one; without the `=` the next argument is the value, whatever it looks like.
* Options of one letter may share a dash.
* `--` ends the options: what follows are files.
* Of an option that is given twice the last one holds.

A command line is refused, and nothing is run for it, if it fits no command, if it names no file,
or if a file is not there.  Options are looked at before files, and files from left to right; the
first problem is the reason.
-/

namespace LogicAsm

/-- What `format` is told besides the settings. -/
structure FormatRequest where
  tabSize : Option String := none
  useTabs : Bool := false
  noFinalNewline : Bool := false
  inPlace : Bool := false
  check : Bool := false

structure CheckRequest where
  asJson : Bool := false

structure JumpsRequest where
  form : Jumps.Form := .labels
  inPlace : Bool := false

/-- A command with what it is told and its files. -/
inductive Command where
  | format (request : FormatRequest) (tabSize : Option Int) (files : List String)
  | check (request : CheckRequest) (files : List String)
  | jumps (request : JumpsRequest) (files : List String)

inductive Invocation where
  | version
  | command (verbose : Bool) (command : Command)

/-- Why a command line is refused. -/
inductive Refusal where
  | misuse
  | fault (fault : Fault)
deriving DecidableEq

namespace Arguments

/-! ### Options -/

inductive Effect (α : Type) where
  | flag (change : α → α)
  | value (change : String → α → α)

/-- An option: its name with both dashes, its letter if it has one, and its effect. -/
structure OptionRule (α : Type) where
  name : String
  letter : Option Char
  effect : Effect α

def looksLikeOption (arg : String) : Bool :=
  match arg.toList with
  | '-' :: _ :: _ => true
  | _ => false

/-- The effect of letters behind one dash; all of them must be flags. -/
def lettersEffect? (rules : List (OptionRule α)) : List Char → Option (α → α)
  | [] => some id
  | c :: cs => do
    let rule ← rules.find? fun rule => rule.letter == some c
    match rule.effect with
    | .flag change => return (← lettersEffect? rules cs) ∘ change
    | .value _ => none

/-- An argument cut at its first `=`: the name, and the value if there is one. -/
def cutValue (arg : Text) : Text × Option Text :=
  match arg.dropWhile (· != '=') with
  | _ :: value => (arg.takeWhile (· != '='), some value)
  | [] => (arg, none)

/-- The effect of an argument that is written as an option, if it is one. -/
def effectOf? (rules : List (OptionRule α)) (arg : String) : Option (Effect α) :=
  let (name, value) := cutValue arg.toList
  match rules.find? (fun rule => rule.name.toList == name), arg.toList with
  | some rule, _ =>
    match rule.effect, value with
    | .flag change, none => some (.flag change)
    | .flag _, some _ => none
    | .value change, none => some (.value change)
    | .value change, some v => some (.flag (change (String.ofList v)))
  | none, '-' :: '-' :: _ => none
  | none, _ :: letters => (lettersEffect? rules letters).map .flag
  | none, [] => none

/-- Take options off the arguments, and collect what is none.  With `mixed` options may follow what
is none; without, the first argument that is none ends them. -/
def parse (rules : List (OptionRule α)) (mixed : Bool) (request : α) (others : List String) :
    List String → Option (α × List String)
  | [] => some (request, others)
  | arg :: args =>
    if arg = "--" then some (request, others ++ args)
    else if looksLikeOption arg then
      match effectOf? rules arg with
      | none => none
      | some (.flag change) => parse rules mixed (change request) others args
      | some (.value change) =>
        match args with
        | [] => none
        | value :: args => parse rules mixed (change value request) others args
    else if mixed then parse rules mixed request (others ++ [arg]) args
    else some (request, others ++ arg :: args)

/-! ### The options of each command -/

structure SharedRequest where
  verbose : Bool := false
  version : Bool := false

def sharedRules : List (OptionRule SharedRequest) :=
  [⟨"--verbose", some 'v', .flag fun r => { r with verbose := true }⟩,
   ⟨"--version", none, .flag fun r => { r with version := true }⟩]

def formatRules : List (OptionRule FormatRequest) :=
  [⟨"--tab-size", none, .value fun v r => { r with tabSize := some v }⟩,
   ⟨"--use-tabs", none, .flag fun r => { r with useTabs := true }⟩,
   ⟨"--no-final-newline", none, .flag fun r => { r with noFinalNewline := true }⟩,
   ⟨"--in-place", some 'i', .flag fun r => { r with inPlace := true }⟩,
   ⟨"--check", none, .flag fun r => { r with check := true }⟩]

def checkRules : List (OptionRule CheckRequest) :=
  [⟨"--json", none, .flag fun r => { r with asJson := true }⟩]

def jumpsRules : List (OptionRule JumpsRequest) :=
  [⟨"--labels", none, .flag fun r => { r with form := .labels }⟩,
   ⟨"--indexes", none, .flag fun r => { r with form := .numbers }⟩,
   ⟨"--in-place", some 'i', .flag fun r => { r with inPlace := true }⟩]

/-! ### Command lines -/

/-- The name that stands for standard input. -/
def standardInput : String := "-"

/-- A missing reading of the command line is misuse. -/
def orMisuse : Option α → Except Refusal α
  | some a => .ok a
  | none => .error .misuse

/-- Refuse a file that is not there; standard input always is. -/
def requireFile (store : FileStore) (name : String) : Except Refusal Unit :=
  if name = standardInput then .ok ()
  else
    match store.resolve name with
    | .ok _ => .ok ()
    | .error (.noFile _ _) => .error .misuse
    | .error fault => .error (.fault fault)

/-- Refuse files that are none, or of which one is not there. -/
def requireFiles (store : FileStore) (names : List String) : Except Refusal Unit :=
  if names = [] then .error .misuse else names.forM (requireFile store)

def integerOf? : Option String → Option (Option Int)
  | none => some none
  | some v => (Text.integer? 10 v.toList).map some

def command (store : FileStore) (name : String) (args : List String) :
    Except Refusal Command :=
  if name = "format" then do
    let (request, names) ← orMisuse (parse formatRules true {} [] args)
    let tabSize ← orMisuse (integerOf? request.tabSize)
    requireFiles store names
    return .format request tabSize names
  else if name = "check" then do
    let (request, names) ← orMisuse (parse checkRules true {} [] args)
    requireFiles store names
    return .check request names
  else if name = "jumps" then do
    let (request, names) ← orMisuse (parse jumpsRules true {} [] args)
    requireFiles store names
    return .jumps request names
  else .error .misuse

/-- What a command line asks for, or why it is refused.  Where an option stands in the place of the
command, options are looked for once more from there on. -/
def invocation (store : FileStore) (args : List String) : Except Refusal Invocation := do
  let (shared, rest) ← orMisuse (parse sharedRules false {} [] args)
  if shared.version then return .version
  match rest with
  | [] => .error .misuse
  | name :: args =>
    if looksLikeOption name then
      let (again, _) ← orMisuse (parse sharedRules false {} [] rest)
      if again.version then return .version else .error .misuse
    else return .command shared.verbose (← command store name args)

end Arguments

end LogicAsm
