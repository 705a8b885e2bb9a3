import StackLang.Core.Basic
import StackLang.Machine.Run
import StackLang.Proofs.Effect

/-!
# What each instruction does to a machine

`perform` of an instruction, as an equation: the stack it needs, and the machine it leaves. Most
instructions only move on and change the stack, which is `advance`. One that fails stays where it is.

The operators of the core language compute what `Arithmetic.apply?` and `Comparison.holds` say; there
is no quotient by zero.
-/
namespace StackLang

/-- The value of an operator, if it has one. -/
def Arithmetic.apply? : Arithmetic → Int64 → Int64 → Option Int64
  | add, l, r => some (l + r)
  | sub, l, r => some (l - r)
  | mul, l, r => some (l * r)
  | div, l, r => if r = 0 then none else some (l / r)
  | mod, l, r => if r = 0 then none else some (l % r)

/-- The relation that a comparison tests. -/
def Comparison.holds : Comparison → Int64 → Int64 → Bool
  | less, l, r => l < r
  | greater, l, r => l > r
  | equal, l, r => l = r

namespace Machine

open Exec Instruction

/-- The machine after an instruction that goes on at an address with a stack. -/
def advance (m : Machine) (pc : Nat) (stack : List Int64) : Machine :=
  { m with steps := m.steps + 1, pc, stack }

section

variable (m : Machine) (pc : Nat) (stack : List Int64)

@[simp] theorem advance_pc : (m.advance pc stack).pc = pc := rfl

@[simp] theorem advance_stack : (m.advance pc stack).stack = stack := rfl

@[simp] theorem advance_registers : (m.advance pc stack).registers = m.registers := rfl

@[simp] theorem advance_calls : (m.advance pc stack).calls = m.calls := rfl

@[simp] theorem advance_output : (m.advance pc stack).output = m.output := rfl

end

/-! ## Turns -/

section

variable {code : Array Instruction} {m : Machine} {i : Instruction} {limit : Nat}

/-- The next instruction is told of and executed, unless the limit is used up. -/
theorem takeTurn_of_getElem? (hi : code[m.pc]? = some i) (hl : m.spentLimit? = none) :
    m.takeTurn code = (some ⟨m.pc, i, m.stack⟩, m.perform i) := by
  simp only [takeTurn, hi, hl]

theorem takeTurn_of_spent (hi : code[m.pc]? = some i) (hl : m.spentLimit? = some limit) :
    m.takeTurn code = (none, .stopped m (some ⟨.stepLimit limit, m.pc, i.opcode⟩)) := by
  simp only [takeTurn, hi, hl]

theorem takeTurn_of_end (h : code[m.pc]? = none) : m.takeTurn code = (none, .stopped m none) := by
  simp only [takeTurn, h]

theorem turn_of_getElem? (hi : code[m.pc]? = some i) (hl : m.spentLimit? = none) :
    m.turn code = m.perform i := by
  rw [turn, takeTurn_of_getElem? hi hl]

theorem turn_of_spent (hi : code[m.pc]? = some i) (hl : m.spentLimit? = some limit) :
    m.turn code = .stopped m (some ⟨.stepLimit limit, m.pc, i.opcode⟩) := by
  rw [turn, takeTurn_of_spent hi hl]

theorem turn_of_end (h : code[m.pc]? = none) : m.turn code = .stopped m none := by
  rw [turn, takeTurn_of_end h]

end

/-! ## Words on the stack -/

variable (m : Machine) {value left right : Int64} {rest : List Int64}

theorem perform_loadImmediate (value : Int64) : m.perform ⟨.loadImmediate, value⟩ =
    .running (m.advance (m.pc + 1) (value :: m.stack)) := rfl

theorem perform_load (r : Register) : m.perform (ofRegister .load r) =
    .running (m.advance (m.pc + 1) (m.registers.get r :: m.stack)) := by
  cases r <;> rfl

theorem perform_store (h : m.stack = value :: rest) (r : Register) :
    m.perform (ofRegister .store r) =
      .running ({ m with registers := m.registers.set r value }.advance (m.pc + 1) rest) := by
  simp [perform, execute, ofRegister, register, require, setRegister, pop, h, advance]

theorem perform_loadSlot {operand : Int64} {index : Nat} (hi : m.slotIndex? operand = some index)
    (hv : m.stack[index]? = some value) : m.perform ⟨.loadSlot, operand⟩ =
      .running (m.advance (m.pc + 1) (value :: m.stack)) := by
  have : ({ m with steps := m.steps + 1 } : Machine).slotIndex? operand = some index := hi
  simp [perform, execute, require, push, this, hv, advance]

theorem perform_storeSlot {operand : Int64} {index : Nat} (h : m.stack = value :: rest)
    (hi : (m.advance m.pc rest).slotIndex? operand = some index) :
    m.perform ⟨.storeSlot, operand⟩ =
      .running (m.advance (m.pc + 1) (rest.set index value)) := by
  have : ({ m with steps := m.steps + 1, stack := rest } : Machine).slotIndex? operand =
    some index := hi
  simp [perform, execute, require, pop, h, this, advance]

/-- Where a slot is, with so many words above that on which the frame pointer is. -/
theorem slotIndex?_ofNat {top above slot : Nat} (hfp : m.registers.fp = sizeWord top)
    (hlen : m.stack.length = above + top) (hslot : slot < top)
    (hsmall : m.stack.length < 0x8000000000000000) :
    m.slotIndex? (Int64.ofNat slot) = some (above + slot) := by
  have hword : (Int64.ofNat slot).toInt = slot := Int64.toInt_ofNat_of_lt (by omega)
  have hframe : m.registers.fp.toInt = top := by rw [hfp, toInt_sizeWord (by omega)]
  have hheight : m.slotHeight? (Int64.ofNat slot) = some (top - slot - 1) := by
    rw [slotHeight?_eq_some_iff, hword, hframe]
    omega
  rw [slotIndex?, hheight, Option.map_some, hlen]
  congr 1
  omega

theorem perform_pop (h : m.stack = value :: rest) :
    m.perform (bare .pop) = .running (m.advance (m.pc + 1) rest) := by
  simp [perform, execute, bare, pop, h, advance]

theorem perform_setFrame : m.perform (bare .setFrame) =
    .running ({ m with registers := m.registers.set .fp (sizeWord m.stack.length) }.advance
      (m.pc + 1) m.stack) := rfl

/-! ## Operators -/

theorem perform_arithmetic (h : m.stack = left :: right :: rest) (op : Arithmetic) :
    m.perform (bare op.opcode) =
      match op.apply? left right with
      | some value => .running (m.advance (m.pc + 1) (value :: rest))
      | none => .stopped (m.advance m.pc rest) (some ⟨.divisionByZero, m.pc, op.opcode⟩) := by
  by_cases hz : right = 0 <;> cases op <;>
    simp [perform, execute, bare, arithmetic, division, pop, push, h, hz, Arithmetic.opcode,
      Arithmetic.apply?, advance]

theorem perform_comparison (h : m.stack = right :: left :: rest) (op : Comparison) :
    m.perform (bare op.opcode) =
      .running (m.advance (m.pc + 1) (truthWord (op.holds left right) :: rest)) := by
  cases op <;>
    simp [perform, execute, bare, comparison, pop, push, h, Comparison.opcode, Comparison.holds,
      advance]

theorem perform_not (h : m.stack = value :: rest) : m.perform (bare .not) =
    .running (m.advance (m.pc + 1) (truthWord (value = 0) :: rest)) := by
  simp [perform, execute, bare, pop, push, h, advance]

/-! ## Jumps -/

theorem perform_mark (operand : Int64) :
    m.perform ⟨.mark, operand⟩ = .running (m.advance (m.pc + 1) m.stack) := rfl

theorem perform_jump {operand : Int64} {address : Nat} (h : m.target? operand = some address) :
    m.perform ⟨.jump, operand⟩ = .running (m.advance address m.stack) := by
  have : ({ m with steps := m.steps + 1 } : Machine).target? operand = some address := h
  simp [perform, execute, jump, require, this, advance]

/-- A jump to a label that has no address fails. -/
theorem perform_jump_of_none {operand : Int64} (h : m.target? operand = none) :
    m.perform ⟨.jump, operand⟩ =
      .stopped (m.advance m.pc m.stack) (some ⟨.unresolvedLabel operand, m.pc, .jump⟩) := by
  have : ({ m with steps := m.steps + 1 } : Machine).target? operand = none := h
  simp [perform, execute, jump, require, this, advance]

theorem perform_jumpIfZero {operand : Int64} {address : Nat} (hs : m.stack = value :: rest)
    (h : m.target? operand = some address) : m.perform ⟨.jumpIfZero, operand⟩ =
      .running (m.advance (if value = 0 then address else m.pc + 1) rest) := by
  have : ({ m with steps := m.steps + 1, stack := rest } : Machine).target? operand =
    some address := h
  by_cases hz : value = 0 <;>
    simp [perform, execute, pop, jump, require, hs, this, hz, advance]

/-- A conditional jump without a value fails. -/
theorem perform_jumpIfZero_of_empty (h : m.stack = []) (operand : Int64) :
    m.perform ⟨.jumpIfZero, operand⟩ =
      .stopped (m.advance m.pc m.stack) (some ⟨.stackUnderflow, m.pc, .jumpIfZero⟩) := by
  simp [perform, execute, pop, h, advance]

/-- A conditional jump to a label that has no address fails if it jumps. -/
theorem perform_jumpIfZero_of_none {operand : Int64} (hs : m.stack = value :: rest)
    (h : m.target? operand = none) : m.perform ⟨.jumpIfZero, operand⟩ =
      if value = 0 then
        .stopped (m.advance m.pc rest) (some ⟨.unresolvedLabel operand, m.pc, .jumpIfZero⟩)
      else .running (m.advance (m.pc + 1) rest) := by
  have : ({ m with steps := m.steps + 1, stack := rest } : Machine).target? operand = none := h
  by_cases hz : value = 0 <;>
    simp [perform, execute, pop, jump, require, hs, this, hz, advance]

theorem perform_call {operand : Int64} {address : Nat} (h : m.target? operand = some address) :
    m.perform ⟨.call, operand⟩ =
      .running ({ m with calls := (m.pc + 1) :: m.calls }.advance address m.stack) := by
  have : ({ m with steps := m.steps + 1 } : Machine).target? operand = some address := h
  simp [perform, execute, jump, require, this, advance]

/-- A call of a label that has no address fails. -/
theorem perform_call_of_none {operand : Int64} (h : m.target? operand = none) :
    m.perform ⟨.call, operand⟩ =
      .stopped (m.advance m.pc m.stack) (some ⟨.unresolvedLabel operand, m.pc, .call⟩) := by
  have : ({ m with steps := m.steps + 1 } : Machine).target? operand = none := h
  simp [perform, execute, jump, require, this, advance]

theorem perform_ret {address : Nat} {calls : List Nat} (h : m.calls = address :: calls) :
    m.perform (bare .ret) =
      .running ({ m with calls }.advance address (m.registers.r0 :: m.stack)) := by
  simp [perform, execute, bare, push, h, advance]

/-- A return without a call fails. -/
theorem perform_ret_of_empty (h : m.calls = []) : m.perform (bare .ret) =
    .stopped (m.advance m.pc m.stack) (some ⟨.callStackUnderflow, m.pc, .ret⟩) := by
  simp [perform, execute, bare, h, advance]

theorem perform_halt : m.perform (bare .halt) = .stopped (m.advance m.pc m.stack) none := rfl

/-! ## Input, output and the heap -/

theorem perform_getByte : m.perform (bare .getByte) =
    match m.unread with
    | [] => .running (m.advance (m.pc + 1) (-1 :: m.stack))
    | byte :: unread => .running
      ({ m with unread }.advance (m.pc + 1) (Int64.ofNat byte.toNat :: m.stack)) := by
  cases h : m.unread <;>
    simp [perform, execute, bare, push, h, advance]

theorem perform_newString {operand : Int64} {string : List UInt8}
    (h : m.static? operand = some string) : m.perform ⟨.newString, operand⟩ =
      .running ({ m with heap := (m.heap.allocateString string).2 }.advance (m.pc + 1)
        (sizeWord m.heap.size :: m.stack)) := by
  have : ({ m with steps := m.steps + 1 } : Machine).static? operand = some string := h
  simp [perform, execute, require, push, this, Heap.allocateString, advance]

/-- The machine after some data is written, or as much of it as fits. -/
def writeThen (m : Machine) (opcode : Opcode) (data : List UInt8) (rest : List Int64) : Turn :=
  let m' := { m with output := (m.output.write data).2 }
  if (m.output.write data).1 then .running (m'.advance (m.pc + 1) rest)
  else .stopped (m'.advance m.pc rest) (some ⟨.output m.output.error, m.pc, opcode⟩)

theorem write_eq (data : List UInt8) : write data m =
    if (m.output.write data).1 then .ok () { m with output := (m.output.write data).2 }
    else .error (.output m.output.error) { m with output := (m.output.write data).2 } := rfl

theorem perform_putInt (h : m.stack = value :: rest) :
    m.perform (bare .putInt) = m.writeThen .putInt (utf8 (toString value)) rest := by
  cases hc : (m.output.write (utf8 (toString value))).1 <;>
    simp [perform, execute, bare, pop, write_eq, h, hc, advance, writeThen]

theorem perform_putStatic {operand : Int64} {data : List UInt8}
    (h : m.static? operand = some data) :
    m.perform ⟨.putStatic, operand⟩ = m.writeThen .putStatic data m.stack := by
  have : ({ m with steps := m.steps + 1 } : Machine).static? operand = some data := h
  cases hc : (m.output.write data).1 <;>
    simp [perform, execute, require, write_eq, this, hc, advance, writeThen]

theorem perform_putStatic_of_none {operand : Int64} (h : m.static? operand = none) :
    m.perform ⟨.putStatic, operand⟩ =
      .stopped (m.advance m.pc m.stack) (some ⟨.staticOutOfBounds operand, m.pc, .putStatic⟩) := by
  have : ({ m with steps := m.steps + 1 } : Machine).static? operand = none := h
  simp [perform, execute, require, this, advance]

theorem perform_putString (h : m.stack = value :: rest) : m.perform (bare .putString) =
    match (wordSize? value).bind m.heap.string? with
    | some string => m.writeThen .putString string rest
    | none => .stopped (m.advance m.pc rest) (some ⟨.heapOutOfBounds value, m.pc, .putString⟩) := by
  cases hs : (wordSize? value).bind m.heap.string? with
  | none =>
    simp [perform, execute, bare, pop, require, h, hs, advance]
  | some string =>
    cases hc : (m.output.write string).1 <;>
      simp [perform, execute, bare, pop, require, write_eq, h, hs, hc, advance, writeThen]

end Machine
end StackLang
