import StackLang.Code.Listing
import StackLang.CommandLine.Options
import StackLang.Machine.Text
import StackLang.Report.Diagnosis
import StackLang.Report.Terminal
import StackLang.Text.Utf8
import StackLang.Tree.Printer

/-!
# Carrying out commands

A command reads its files and standard input and ends with an exit code and what it has written.
The code is 0 if all went well, 1 if a program ran and failed, and 2 if there was none to run.

How text is written to the user is up to a console. Help and what is said of arguments that are used
wrongly are left out, and so is that output may fail to be written: a program writes to a sink that
takes everything.
-/
namespace StackLang

/-- What a command can read, and where it says what it has to say. -/
structure Surroundings where
  /-- The bytes of a file, if it can be read. -/
  file? : String → Option (List UInt8)
  /-- The bytes of standard input, if they can be read. -/
  stdin? : Option (List UInt8)
  console : Console

/-- What a command has done. -/
structure Effect where
  exitCode : Nat
  stdout : List UInt8
  stderr : List UInt8
  deriving DecidableEq, Repr

namespace Console

/-- Pieces that stand on a line of their own. -/
def messageLine (console : Console) (pieces : List Styled) : String :=
  console.write (pieces.flatMap (Styled.parts console.codes) ++ ["\n"])

/-- A message of a title alone, as text. -/
def titleLine (console : Console) (title : String) : String :=
  console.messageLine (Message.ofTitle title).pieces

/-- A diagnosis of a source, as text. -/
def diagnosisLines (console : Console) (d : Diagnosis) (file source : String) : String :=
  console.messageLine d.message.pieces ++
    ((d.excerpt? file source).map console.messageLine).getD ""

end Console

/-- Why there is no program to work on, as text. -/
abbrev Rejected (α : Type) := Except String α

namespace Surroundings

/-- There is no such file. -/
def notFound (s : Surroundings) (file : String) : String :=
  s.console.titleLine ("File not found `" ++ file ++ "`")

/-- A source that is too long for the positions in it. -/
def tooLarge (s : Surroundings) : String := s.console.titleLine "File too large - max size 4GB"

/-- The bytes of a file. -/
def read (s : Surroundings) (file : String) : Rejected (List UInt8) :=
  match s.file? file with
  | some bytes => .ok bytes
  | none => .error (s.notFound file)

/-- The source text of a file. A file that is no text is as good as none. -/
def readFile (s : Surroundings) (file : String) : Rejected String :=
  match (s.file? file).bind textOf? with
  | none => .error (s.notFound file)
  | some source => if IsShort source then .ok source else .error s.tooLarge

/-- The source text of standard input. Whether it is too long is looked at first. -/
def readStdin (s : Surroundings) : Rejected String :=
  match s.stdin? with
  | none => .error (s.console.titleLine "Problem Reading from STDIN")
  | some bytes =>
    if bytes.length < positionLimit then
      match textOf? bytes with
      | some source => .ok source
      | none => .error (s.console.titleLine "STDIN is not valid UTF-8")
    else .error s.tooLarge

/-- A source text, from a file or, for a dash, from standard input. -/
def readSource (s : Surroundings) (file : String) : Rejected String :=
  if file = "-" then s.readStdin else s.readFile file

/-- The syntax tree of a source file. -/
def readTree (s : Surroundings) (file : String) : Rejected Tree := do
  let source ← s.readSource file
  (StackLang.readTree source).mapError (s.console.diagnosisLines · file source)

/-- The linked program of a source file. -/
def readProgram (s : Surroundings) (file : String) : Rejected Program := do
  let source ← s.readSource file
  (StackLang.readProgram source).mapError (s.console.diagnosisLines · file source)

/-- The input that a program is given. -/
def readInput (s : Surroundings) (o : RunRequest) : Rejected (List UInt8) :=
  match o.input?, o.inputFile? with
  | some input, _ => .ok (utf8 input)
  | none, some file => s.read file
  | none, none => .ok []

end Surroundings

namespace Effect

/-- Nothing was done but to say why. -/
def rejected (reason : String) : Effect := ⟨2, [], utf8 reason⟩

/-- A text was written. -/
def written (text : String) : Effect := ⟨0, utf8 text, []⟩

/-- What was written, or why nothing was. -/
def ofText : Rejected String → Effect
  | .ok text => written text
  | .error reason => rejected reason

end Effect

/-! ## Printing -/

/-- A token as a line: where it starts, its kind, and its length where that may differ. -/
def tokenLine (t : Token) : String :=
  padded ' ' .right 3 (toString t.start) ++ " │ " ++ t.kind.name ++
    (if t.kind.hasFixedLength then "" else " (length: " ++ toString t.length ++ ")") ++ "\n"

namespace Console

/-- The line above what is printed of a file: what it is, and the name of the file. -/
def headingLine (console : Console) (what file : String) : String :=
  console.write [what, sourceName file, "]\n"]

/-- The tokens of a source under the name of its file. -/
def tokensText (console : Console) (file source : String) : String :=
  console.headingLine "    ╭─[Tokens: " file ++
    String.join ((Token.scan source).map tokenLine) ++ "────╯\n"

/-- A syntax tree under the name of its file. -/
def treeText (console : Console) (file : String) (t : Tree) : String :=
  console.headingLine "╭─[Abstract Syntax Tree: " file ++ console.write [t.text] ++ "╯\n"

/-- The listing of a program. -/
def listingText (console : Console) (p : Program) : String := console.write [p.listing]

/-- What is said of how a run ended: the result of the program, or what failed and where. -/
def endText (console : Console) (p : Program) (o : Outcome) : String :=
  match o.failure? with
  | none =>
    console.messageLine
      [⟨.dimmed, "Exit code:"⟩, ⟨.plain, " " ++ toString o.machine.registers.r0⟩]
  | some f =>
    console.messageLine (Message.ofFault f.fault).pieces ++
      console.write ["at ", addressText f.address, " `", f.opcode.mnemonic, "` in function `",
        (p.functionNameAt? f.address).getD "?", "`\n"]

/-- The state of the machine between two rules. -/
def dumpText (console : Console) (m : Machine) : String :=
  console.write ["╭─[Machine State]\n"] ++ console.write [m.stateText] ++ console.write ["╯\n"]

end Console

/-- The executed instructions, a line each, which the machine writes by itself. -/
def traceText (entries : List Machine.TraceEntry) : String :=
  String.join (entries.map fun e => e.text ++ "\n")

/-! ## Running -/

/-- Runs a program with some input, if the run ends in so many turns. -/
def runEffect? (console : Console) (turns : Nat) (o : RunRequest) (p : Program)
    (input : List UInt8) : Option Effect :=
  let (told, outcome?) := (Machine.new ⟨input, o.maxSteps?⟩).watch o.trace turns p .unlimited
  outcome?.map fun outcome =>
    let dumped := if o.dumpState then console.dumpText outcome.machine else ""
    ⟨if outcome.failure?.isSome then 1 else 0, outcome.machine.output.written,
      utf8 (traceText told ++ dumped ++ console.endText p outcome)⟩

namespace Command

/-- Carries out a command, if it ends where a program is run in at most so many turns. -/
def executeWithin? (turns : Nat) (s : Surroundings) : Command → Option Effect
  | .version => some (.written "ava 0.1.0\n")
  | .printTokens file => some (.ofText ((s.readSource file).map (s.console.tokensText file)))
  | .printTree file => some (.ofText ((s.readTree file).map (s.console.treeText file)))
  | .printListing file => some (.ofText ((s.readProgram file).map s.console.listingText))
  | .run o =>
    match (do return (← s.readProgram o.file, ← s.readInput o) : Rejected (Program × List UInt8)) with
    | .error reason => some (.rejected reason)
    | .ok (p, input) => runEffect? s.console turns o p input

/-- As many turns as a run can take that has a limit on steps, and else more than there is time
for. -/
def turns : Command → Nat
  | .run o => (o.maxSteps?.map (· + 1)).getD Machine.turnLimit
  | _ => 0

/-- Carries out a command. There is no effect if a program is run that does not end. -/
def execute? (s : Surroundings) (command : Command) : Option Effect :=
  command.executeWithin? command.turns s

end Command
end StackLang
