import StackLang.Machine.Run
import StackLang.Text.Quoted

/-!
# The machine as text
-/
namespace StackLang

/-- Things in brackets, with commas between them. -/
def listText (items : List String) : String := "[" ++ ", ".intercalate items ++ "]"

/-- A stack in brackets, its bottom first. -/
def stackText {α : Type} [ToString α] (stack : List α) : String :=
  listText (stack.reverse.map toString)

/-- Bytes with their number, as quoted text. -/
def bytesText (name : String) (bytes : List UInt8) : String :=
  name ++ " (" ++ toString bytes.length ++ " bytes): " ++ quoted (lossyText bytes)

namespace Machine

/-- The lines that show a machine. -/
def stateLines (m : Machine) : List String := [
  "registers:" ++ String.join (Register.all.map fun r =>
    " " ++ r.name ++ "=" ++ toString (m.registers.get r)),
  "stack: " ++ stackText m.stack,
  "call stack: " ++ stackText m.calls,
  "labels:" ++ String.join (m.labels.entries.map fun (id, address) =>
    " " ++ Label.text ⟨id⟩ ++ "=" ++ addressText address),
  bytesText "heap" m.heap.bytes,
  bytesText "statics" m.statics,
  "status: " ++ m.status.name ++ " after " ++ toString m.steps ++ " steps"]

/-- A machine as text. -/
def stateText (m : Machine) : String := String.join (m.stateLines.map (· ++ "\n"))

/-- An executed instruction as a line. -/
def TraceEntry.text (e : TraceEntry) : String :=
  addressText e.address ++ " │ " ++ padded ' ' .left 20 e.instruction.text ++ " │ " ++
    stackText e.stack

end Machine
end StackLang
