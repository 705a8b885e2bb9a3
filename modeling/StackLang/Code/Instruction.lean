import StackLang.Code.Opcode
import StackLang.Word

/-!
# Instructions

An instruction is an operation with one 64-bit operand. Any operand can stand with any operation;
one that names no register or no label is shown with a question mark.
-/
namespace StackLang

/-! ## Registers -/

/-- The registers: four for general use, `r0` also for results, and the frame pointer, which is one
past slot 0 of the current frame. -/
inductive Register where
  | r0 | r1 | r2 | r3 | fp
  deriving DecidableEq, Repr, Inhabited

namespace Register

/-- All registers, in the order of their numbers. -/
def all : List Register := [r0, r1, r2, r3, fp]

/-- The number of a register. -/
def id : Register → Nat
  | r0 => 0
  | r1 => 1
  | r2 => 2
  | r3 => 3
  | fp => 4

/-- How a register is written. -/
def name : Register → String
  | r0 => "r0"
  | r1 => "r1"
  | r2 => "r2"
  | r3 => "r3"
  | fp => "fp"

/-- A register as an operand. -/
def operand (r : Register) : Int64 := Int64.ofNat r.id

/-- The register that an operand names. -/
def ofOperand? (operand : Int64) : Option Register := do all[← wordSize? operand]?

@[simp] theorem ofOperand?_operand (r : Register) : ofOperand? r.operand = some r := by
  cases r <;> rfl

end Register

/-! ## Labels -/

/-- A position in a program that instructions refer to by number. -/
structure Label where
  id : Nat
  deriving DecidableEq, Repr, Inhabited

namespace Label

/-- How a label without a name is written. -/
def text (l : Label) : String := "L" ++ toString l.id

/-- A label as an operand. -/
def operand (l : Label) : Int64 := Int64.ofNat l.id

/-- The label that an operand names: labels have 32-bit numbers. -/
def ofOperand? (operand : Int64) : Option Label :=
  if 0 ≤ operand.toInt ∧ operand.toInt < 0x100000000 then some ⟨operand.toInt.toNat⟩ else none

theorem ofOperand?_operand {l : Label} (h : l.id < 0x100000000) : ofOperand? l.operand = some l := by
  have : (Int64.ofNat l.id).toInt = l.id := Int64.toInt_ofNat_of_lt (by omega)
  simp only [ofOperand?, operand, this]
  rw [if_pos (by omega)]; rfl

end Label

/-! ## Instructions -/

/-- An operation and its operand, which is 0 where the operation has none. -/
structure Instruction where
  opcode : Opcode
  operand : Int64
  deriving DecidableEq, Repr, Inhabited

namespace Instruction

/-- An operation without an operand. -/
def bare (opcode : Opcode) : Instruction := ⟨opcode, 0⟩

/-- An operation on a label. -/
def ofLabel (opcode : Opcode) (l : Label) : Instruction := ⟨opcode, l.operand⟩

/-- An operation on a register. -/
def ofRegister (opcode : Opcode) (r : Register) : Instruction := ⟨opcode, r.operand⟩

/-- The label that an instruction refers to. -/
def label? (i : Instruction) : Option Label :=
  if i.opcode.operandRole = .label then Label.ofOperand? i.operand else none

/-- The label whose position an instruction marks. -/
def marked? (i : Instruction) : Option Label := if i.opcode = .mark then i.label? else none

/-- The operand as it is written after the mnemonic, if it is. -/
def operandText? (i : Instruction) : Option String :=
  let unknown := "?" ++ toString i.operand
  match i.opcode.operandRole with
  | .unused => none
  | .literal | .slot | .static => some (toString i.operand)
  | .register => some (((Register.ofOperand? i.operand).map Register.name).getD unknown)
  | .label => some ((i.label?.map Label.text).getD unknown)

/-- A mnemonic and what stands after it. -/
def textWith (opcode : Opcode) : Option String → String
  | none => opcode.mnemonic
  | some operand => opcode.mnemonic ++ " " ++ operand

/-- An instruction as text. -/
def text (i : Instruction) : String := textWith i.opcode i.operandText?

end Instruction
end StackLang
