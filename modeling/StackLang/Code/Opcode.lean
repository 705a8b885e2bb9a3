/-!
# Operations of the machine

Each operation has a mnemonic, a role for its operand, and, if it takes two values off the stack, an
order in which it takes them: arithmetic has its left operand on top, comparisons their right one.
-/
namespace StackLang

/-- What an instruction does. -/
inductive Opcode where
  /-- Pushes the operand. -/
  | loadImmediate
  /-- Pushes a register. -/
  | load
  /-- Pops into a register. -/
  | store
  /-- Pushes a slot of the current frame. -/
  | loadSlot
  /-- Pops into a slot of the current frame. -/
  | storeSlot
  /-- Drops the top of the stack. -/
  | pop
  /-- Sets the frame pointer to the height of the stack. -/
  | setFrame
  | add | sub | mul | div | mod
  | less | greater | equal
  /-- Pops a value and pushes 1 if it was 0, else 0. -/
  | not
  | jump
  /-- Pops a value and jumps if it was 0. -/
  | jumpIfZero
  /-- Saves the next address and jumps. -/
  | call
  /-- Pushes `r0` and jumps to the address saved last. -/
  | ret
  /-- Adds 1 to a register. -/
  | increment
  /-- Does nothing; its address is that of the label. -/
  | mark
  /-- Pops an integer and prints it. -/
  | putInt
  /-- Prints a string of the static data. -/
  | putStatic
  /-- Copies a string of the static data to the heap and pushes its offset there. -/
  | newString
  /-- Pops an offset and prints the string of the heap there. -/
  | putString
  /-- Pushes the next byte of input, or -1 if there is none. -/
  | getByte
  | halt
  /-- Stops with an error. -/
  | trap
  deriving DecidableEq, Repr, Inhabited

/-- What an operand stands for. -/
inductive OperandRole where
  | unused | literal | register | slot | label | static
  deriving DecidableEq, Repr

/-- Which operand of a binary operation is on top of the stack. -/
inductive TopOperand where
  | left | right
  deriving DecidableEq, Repr

namespace Opcode

/-- All operations. -/
def all : List Opcode :=
  [loadImmediate, load, store, loadSlot, storeSlot, pop, setFrame, add, sub, mul, div, mod, less,
    greater, equal, not, jump, jumpIfZero, call, ret, increment, mark, putInt, putStatic,
    newString, putString, getByte, halt, trap]

/-- How an operation is written in listings. -/
def mnemonic : Opcode → String
  | loadImmediate => "LoadImmediate"
  | load => "Load"
  | store => "Store"
  | loadSlot => "LoadA"
  | storeSlot => "StoreA"
  | pop => "Pop"
  | setFrame => "SetFp"
  | add => "Add"
  | sub => "Sub"
  | mul => "Mul"
  | div => "Div"
  | mod => "Mod"
  | less => "Lt"
  | greater => "Gt"
  | equal => "Eq"
  | not => "Not"
  | jump => "Jmp"
  | jumpIfZero => "Jz"
  | call => "Call"
  | ret => "Ret"
  | increment => "Inc"
  | mark => "Lbl"
  | putInt => "PutInt"
  | putStatic => "PutCStr"
  | newString => "NewString"
  | putString => "PutStr"
  | getByte => "GetInt"
  | halt => "Hlt"
  | trap => "Trap"

/-- The operation with a mnemonic. -/
def ofMnemonic? (text : String) : Option Opcode := all.find? (·.mnemonic = text)

/-- What the operand of an operation stands for. -/
def operandRole : Opcode → OperandRole
  | loadImmediate => .literal
  | load | store | increment => .register
  | loadSlot | storeSlot => .slot
  | jump | jumpIfZero | call | mark => .label
  | putStatic | newString => .static
  | pop | setFrame | add | sub | mul | div | mod | less | greater | equal | not | ret | putInt
  | putString | getByte | halt | trap => .unused

/-- The order in which a binary operation finds its operands. -/
def topOperand? : Opcode → Option TopOperand
  | add | sub | mul | div | mod => some .left
  | less | greater | equal => some .right
  | _ => none

end Opcode
end StackLang
