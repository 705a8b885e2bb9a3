import StackLang.Code.Opcode
import StackLang.Machine.Sink
import StackLang.Text.Padding

/-!
# Why a run fails
-/
namespace StackLang

/-- The ways in which an instruction fails, with the operand or value that is at fault. -/
inductive Fault where
  | stackUnderflow
  | callStackUnderflow
  | divisionByZero
  | heapOutOfBounds (offset : Int64)
  | staticOutOfBounds (offset : Int64)
  | invalidRegister (id : Int64)
  | invalidSlot (slot : Int64)
  | unresolvedLabel (id : Int64)
  | trap
  /-- As many instructions have been executed as the run may take. -/
  | stepLimit (limit : Nat)
  | output (error : WriteError)
  deriving DecidableEq, Repr

namespace Fault

/-- A short name for what went wrong. -/
def title : Fault → String
  | stackUnderflow => "Stack Underflow"
  | callStackUnderflow => "Call Stack Underflow"
  | divisionByZero => "Division By Zero"
  | heapOutOfBounds _ => "Heap Out Of Bounds"
  | staticOutOfBounds _ => "Static Out Of Bounds"
  | invalidRegister _ => "Invalid Register"
  | invalidSlot _ => "Invalid Frame Slot"
  | unresolvedLabel _ => "Unresolved Label"
  | trap => "Trap"
  | stepLimit _ => "Step Limit Exceeded"
  | output _ => "Output Error"

/-- What went wrong, in a sentence. -/
def message : Fault → String
  | stackUnderflow => "popped from an empty stack"
  | callStackUnderflow => "returned with no caller to return to"
  | divisionByZero => "attempted to divide by zero"
  | heapOutOfBounds offset => "heap offset " ++ toString offset ++ " is outside the heap"
  | staticOutOfBounds offset => "static offset " ++ toString offset ++ " is outside the static data"
  | invalidRegister id => toString id ++ " is not a register"
  | invalidSlot slot => "slot " ++ toString slot ++ " is outside the current frame"
  | unresolvedLabel id => "label " ++ toString id ++ " has no position"
  | trap => "the program trapped"
  | stepLimit limit => "stopped after " ++ toString limit ++ " steps"
  | output error => "could not write output: " ++ error.text

end Fault

/-- A fault and the instruction that had it. -/
structure Failure where
  fault : Fault
  address : Nat
  opcode : Opcode
  deriving DecidableEq, Repr

/-- A failure in one line. -/
def Failure.text (f : Failure) : String :=
  f.fault.message ++ " (at " ++ addressText f.address ++ " `" ++ f.opcode.mnemonic ++ "`)"

end StackLang
