import StackLang.Core.AssemblyError
import StackLang.Machine.Fault
import StackLang.Report.Styled
import StackLang.Tree.SyntaxError

/-!
# Error messages

A message has a title, and may have a text and a hint, each on a line of its own.
-/
namespace StackLang

/-- What an error says to the user. -/
structure Message where
  title : String
  body : String
  hint? : Option String
  deriving DecidableEq, Repr, Inhabited

namespace Message

/-- A message of a title alone. -/
def ofTitle (title : String) : Message := ⟨title, "", none⟩

/-- What a syntax error says. -/
def ofSyntaxError (e : SyntaxError) : Message := ⟨e.title, e.message, none⟩

/-- How an error in assembling may be mended. -/
def assemblyHint? : AssemblyError → Option String
  | .missingMain => some "add a function `fun main() \x7b ... \x7d`"
  | .unsupportedDeclaration _ => some "move the variable inside a function"
  | _ => none

/-- What an error in assembling says. -/
def ofAssemblyError (e : AssemblyError) : Message := ⟨e.title, e.message, assemblyHint? e⟩

/-- How a fault may be mended. -/
def faultHint? : Fault → Option String
  | .stepLimit _ => some "raise the limit with `--max-steps`"
  | _ => none

/-- What a fault says. -/
def ofFault (f : Fault) : Message := ⟨f.title, f.message, faultHint? f⟩

/-- The pieces of a message. -/
def pieces (m : Message) : List Styled :=
  [⟨.alarm, "✕ Error"⟩, ⟨.bold, ":"⟩, ⟨.plain, " "⟩, ⟨.bold, m.title⟩, ⟨.plain, "\n"⟩] ++
  (if m.body.isEmpty then [] else [⟨.plain, m.body ++ "\n"⟩]) ++
  (match m.hint? with
    | some hint => [⟨.notice, "hint:"⟩, ⟨.plain, " " ++ hint ++ "\n"⟩]
    | none => [])

end Message
end StackLang
