import LogicAsm.Command.Run

/-!
# The program

The command line in the real world: collect what a run is given, run it, and carry out what it did.
Everything in between is `Command.run`.
-/

namespace LogicAsm.Main

def settingNames : List String :=
  ["MLOG_TAB_SIZE", "MLOG_MAX_INSTRUCTIONS", "MLOG_MAX_LABELS", "MLOG_INSERT_SPACES",
   "MLOG_FINAL_NEWLINE"]

/-- All bytes of a stream. -/
partial def readAll (stream : IO.FS.Stream) (found : ByteArray) : IO ByteArray := do
  let more ← stream.read 65536
  if more.isEmpty then return found else readAll stream (found ++ more)

/-- The files that arguments name. -/
def readFiles (arguments : List String) : IO FileStore := do
  let mut files : FileStore := []
  for name in arguments.eraseDups do
    try
      files := files ++ [(name, (← IO.FS.readBinFile name).toList)]
    catch _ =>
      pure ()
  return files

/-- The environment as far as settings are read from it. -/
def readEnvironment : IO Settings.Environment := do
  let mut environment : Settings.Environment := []
  for name in settingNames do
    if let some value ← IO.getEnv name then
      environment := environment ++ [(name, value.toList)]
  return environment

def writeFiles (before after : FileStore) : IO Unit := do
  for (name, bytes) in after do
    unless before.lookup name == some bytes do
      IO.FS.writeBinFile name ⟨bytes.toArray⟩

end LogicAsm.Main

open LogicAsm LogicAsm.Main in
def main (arguments : List String) : IO UInt32 := do
  let input ←
    if arguments.contains Arguments.standardInput then readAll (← IO.getStdin) .empty
    else pure .empty
  let files ← readFiles arguments
  let environment ← readEnvironment
  match Command.run { arguments, environment, input := input.toList, files } with
  | .refused (.fault fault) =>
    (← IO.getStderr).putStrLn fault.message
    return 1
  | .refused .misuse =>
    (← IO.getStderr).putStrLn
      "Usage: mlog [--version] [-v] (format | check | jumps) [OPTIONS] FILES..."
    return 2
  | .done exitCode session =>
    (← IO.getStdout).putStr session.stdout
    (← IO.getStderr).putStr session.stderr
    writeFiles files session.files
    return UInt32.ofNat exitCode
