import StackLang.Text.Decimal

/-!
# The arguments of the command line

Commands are `run FILE`, `print tokens FILE`, `print ast FILE`, `print bytecode FILE` and the
version. The options of `run` stand before or after the file, at most once each; a value stands
after an equals sign or as the next argument, where it must not look like an option.
-/
namespace StackLang

/-- What to run, and how. -/
structure RunRequest where
  /-- The source file, or a dash for standard input. -/
  file : String
  /-- The input of the program. -/
  input? : Option String
  /-- The file that holds the input of the program. -/
  inputFile? : Option String
  maxSteps? : Option Nat
  trace : Bool
  dumpState : Bool
  deriving DecidableEq, Repr, Inhabited

/-- What the command line asks for. -/
inductive Command where
  | version
  | run (options : RunRequest)
  | printTokens (file : String)
  | printTree (file : String)
  | printListing (file : String)
  deriving DecidableEq, Repr

/-! ## Arguments of one command -/

/-- An argument that has been told apart. -/
inductive Argument where
  | file (name : String)
  | option (name : List Char) (value : String)
  | flag (name : List Char)
  deriving DecidableEq, Repr

/-- An argument looks like an option if it starts with a dash and is more than that. -/
def looksLikeOption (arg : List Char) : Bool := arg.head? = some '-' && arg.length ≠ 1

/-- The names of the options that have a value. -/
def optionNames : List (List Char) := ["input".toList, "input-file".toList, "max-steps".toList]

/-- The names of the options that have none. -/
def flagNames : List (List Char) := ["trace".toList, "dump-state".toList]

/-- Tells arguments apart. After two dashes all arguments are files. -/
def Argument.read? : List String → Option (List Argument)
  | [] => some []
  | arg :: rest =>
    match arg.toList with
    | ['-', '-'] => some (rest.map .file)
    | '-' :: '-' :: cs =>
      let name := cs.takeWhile (· ≠ '=')
      if flagNames.contains cs then (read? rest).map (.flag cs :: ·)
      else if optionNames.contains name then
        if name.length < cs.length then
          (read? rest).map (.option name (String.ofList (cs.drop (name.length + 1))) :: ·)
        else
          match rest with
          | [] => none
          | value :: rest =>
            if looksLikeOption value.toList then none
            else (read? rest).map (.option name value :: ·)
      else none
    | cs => if looksLikeOption cs then none else (read? rest).map (.file arg :: ·)

/-- The value of an argument that may stand at most once. -/
def atMostOne? {α : Type} : List α → Option (Option α)
  | [] => some none
  | [a] => some (some a)
  | _ => none

namespace Argument

/-- The name of a file. -/
def file? : Argument → Option String
  | file name => some name
  | _ => none

/-- The value of an option. -/
def value? (name : String) : Argument → Option String
  | option n value => if n = name.toList then some value else none
  | _ => none

/-- The argument is a flag. -/
def isFlag (name : String) : Argument → Bool
  | flag n => n = name.toList
  | _ => false

end Argument

/-- A number below 2^64 in decimal digits, with a plus sign or without. -/
def limit? (text : String) : Option Nat :=
  let digits := match text.toList with
    | '+' :: digits => digits
    | digits => digits
  if digits.isEmpty || !digits.all Char.isDigit then none
  else
    let n := decimalValue digits
    if n < 0x10000000000000000 then some n else none

/-! ## Commands -/

/-- The one file that the arguments of a command name, if they hold nothing else. -/
def onlyFile? (args : List Argument) : Option String :=
  match args with
  | [.file name] => some name
  | _ => none

/-- The options of `run`. -/
def runRequest? (args : List Argument) : Option RunRequest := do
  let file ← (← atMostOne? (args.filterMap Argument.file?))
  let input? ← atMostOne? (args.filterMap (·.value? "input"))
  let inputFile? ← atMostOne? (args.filterMap (·.value? "input-file"))
  let maxSteps? ← atMostOne? (args.filterMap (·.value? "max-steps"))
  let trace? ← atMostOne? (args.filter (·.isFlag "trace"))
  let dumpState? ← atMostOne? (args.filter (·.isFlag "dump-state"))
  if input?.isSome && inputFile?.isSome then none
  else
    let maxSteps? ← match maxSteps? with
      | none => some none
      | some text => (limit? text).map some
    return ⟨file, input?, inputFile?, maxSteps?, trace?.isSome, dumpState?.isSome⟩

/-- The arguments ask for the version. -/
def asksVersion (arg : String) : Bool :=
  arg = "--version" || ['-', 'V'].isPrefixOf arg.toList

/-- The command that the arguments spell, if they are used rightly. -/
def Command.ofArguments? : List String → Option Command
  | "run" :: args => do return .run (← runRequest? (← Argument.read? args))
  | "print" :: "tokens" :: args => do return .printTokens (← onlyFile? (← Argument.read? args))
  | "print" :: "ast" :: args => do return .printTree (← onlyFile? (← Argument.read? args))
  | "print" :: "bytecode" :: args => do return .printListing (← onlyFile? (← Argument.read? args))
  | arg :: _ => if asksVersion arg then some .version else none
  | [] => none

end StackLang
