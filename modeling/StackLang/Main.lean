import StackLang.CommandLine.Execute

/-!
The command line: reads what the command needs, carries it out, and writes what it gives.
-/
namespace StackLang

/-- The source that a command reads. -/
def Command.source? : Command → Option String
  | .version => none
  | .run o => some o.file
  | .printTokens file | .printTree file | .printListing file => some file

/-- The file that holds the input of the program that a command runs. -/
def Command.inputFile? : Command → Option String
  | .run o => o.inputFile?
  | _ => none

/-- The bytes of a file, if it can be read. -/
def readFile? (name : String) : IO (Option (List UInt8)) := do
  try return some (← IO.FS.readBinFile name).toList
  catch _ => return none

/-- All bytes of a stream, after those that have been read. -/
partial def readAll (stream : IO.FS.Stream) (bytes : ByteArray) : IO ByteArray := do
  let more ← stream.read 65536
  if more.isEmpty then return bytes else readAll stream (bytes ++ more)

/-- All bytes of standard input, if they can be read. -/
def readStdin? : IO (Option (List UInt8)) := do
  try return some (← readAll (← IO.getStdin) .empty).toList
  catch _ => return none

/-- All that a command can read. What it says has no colours. -/
def Command.surroundings (command : Command) : IO Surroundings := do
  let names := command.source?.toList.filter (· ≠ "-") ++ command.inputFile?.toList
  let files ← names.mapM fun name => return (name, ← readFile? name)
  let stdin? ← if command.source? = some "-" then readStdin? else pure none
  return ⟨fun name => (files.lookup name).join, stdin?, .bare⟩

/-- Writes bytes to a stream. -/
def writeAll (stream : IO.FS.Stream) (bytes : List UInt8) : IO Unit := do
  stream.write ⟨bytes.toArray⟩
  stream.flush

end StackLang

open StackLang in
/-- Carries out the command that the arguments spell. -/
def main (args : List String) : IO UInt32 := do
  match Command.ofArguments? args with
  | none =>
    IO.eprintln "usage: ava run FILE | ava print tokens|ast|bytecode FILE | ava --version"
    return 2
  | some command =>
    match command.execute? (← command.surroundings) with
    | none => return 1
    | some effect =>
      writeAll (← IO.getStdout) effect.stdout
      writeAll (← IO.getStderr) effect.stderr
      return effect.exitCode.toUInt32
