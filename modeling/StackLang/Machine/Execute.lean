import StackLang.Machine.Basic

/-!
# Executing one instruction

An instruction that fails keeps the state it has reached: what it popped stays popped.
-/
namespace StackLang

/-- A part of an instruction: it changes the machine and may fail. -/
abbrev Exec := EStateM Fault Machine

/-- Where execution goes on after an instruction. -/
inductive Continuation where
  | next
  | jump (address : Nat)
  | halt
  deriving DecidableEq, Repr

namespace Machine

/-- How far above the bottom of the stack a slot of the current frame is: the frame pointer is one past
slot 0 and slots go down from there. The differences are taken in words. -/
def slotHeight? (m : Machine) (slot : Int64) : Option Nat :=
  if 0 ≤ slot.toInt then
    let word? := (difference? m.registers.fp slot).bind (difference? · 1)
    (word?.bind wordSize?).filter (· < m.stack.length)
  else none

/-- No difference of words is out of range where the slot is on the stack. -/
theorem slotHeight?_eq_some_iff {m : Machine} {slot : Int64} {height : Nat} :
    m.slotHeight? slot = some height ↔
      0 ≤ slot.toInt ∧ m.registers.fp.toInt - slot.toInt - 1 = height ∧ height < m.stack.length := by
  have hone : (1 : Int64).toInt = 1 := rfl
  unfold slotHeight?
  split
  · rename_i hslot
    simp only [Option.filter_eq_some_iff, Option.bind_eq_some_iff, difference?_eq_some_iff,
      wordSize?_eq_some_iff, decide_eq_true_eq, hone, hslot, true_and]
    constructor
    · rintro ⟨⟨u, ⟨w, hw, hu⟩, hheight⟩, hlt⟩
      exact ⟨by omega, hlt⟩
    · rintro ⟨heq, hlt⟩
      have hfp := m.registers.fp.toInt_lt
      have word {n : Int} (hn : 0 ≤ n) (hle : n ≤ m.registers.fp.toInt) : (Int64.ofInt n).toInt = n :=
        Int64.toInt_ofInt_of_le (by omega) (by omega)
      refine ⟨⟨.ofInt height, ⟨.ofInt (height + 1), ?_, ?_⟩, ?_⟩, hlt⟩
      · rw [word (by omega) (by omega)]
        omega
      · rw [word (by omega) (by omega), word (by omega) (by omega)]
        omega
      · rw [word (by omega) (by omega)]
  · rename_i hslot
    simp [hslot]

/-- Where on the stack, counted from its top, a slot of the current frame is. -/
def slotIndex? (m : Machine) (slot : Int64) : Option Nat :=
  (m.slotHeight? slot).map (m.stack.length - 1 - ·)

/-- The address of the label that an operand names. -/
def target? (m : Machine) (operand : Int64) : Option Nat :=
  (Label.ofOperand? operand).bind m.labels.resolve?

/-- The string of the static data at the offset that an operand gives. -/
def static? (m : Machine) (operand : Int64) : Option (List UInt8) :=
  (wordSize? operand).bind (stringAt? m.statics)

end Machine

namespace Exec

/-- What must be there, or else a fault. -/
def require {α : Type} (value : Option α) (fault : Fault) : Exec α := fun m =>
  match value with
  | some a => .ok a m
  | none => .error fault m

/-- Puts a value on the stack. -/
def push (value : Int64) : Exec Unit := fun m => .ok () { m with stack := value :: m.stack }

/-- Takes a value off the stack. -/
def pop : Exec Int64 := fun m =>
  match m.stack with
  | [] => .error .stackUnderflow m
  | value :: rest => .ok value { m with stack := rest }

/-- The register that an operand names. -/
def register (operand : Int64) : Exec Register :=
  require (Register.ofOperand? operand) (.invalidRegister operand)

/-- Gives a register a value. -/
def setRegister (r : Register) (value : Int64) : Exec Unit :=
  modify fun m => { m with registers := m.registers.set r value }

/-- Goes on at the label that an operand names. -/
def jump (operand : Int64) : Exec Continuation := do
  return .jump (← require ((← get).target? operand) (.unresolvedLabel operand))

/-- Writes to the output. -/
def write (data : List UInt8) : Exec Unit := fun m =>
  let (complete, output) := m.output.write data
  if complete then .ok () { m with output } else .error (.output output.error) { m with output }

/-- Replaces two values by one. The left operand is on top. -/
def arithmetic (op : Int64 → Int64 → Int64) : Exec Unit := do
  let left ← pop
  let right ← pop
  push (op left right)

/-- Replaces two values by a quotient or a remainder. The left operand is on top. -/
def division (op : Int64 → Int64 → Int64) : Exec Unit := do
  let left ← pop
  let right ← pop
  if right = 0 then throw .divisionByZero else push (op left right)

/-- Replaces two values by 1 or 0. The right operand is on top. -/
def comparison (op : Int64 → Int64 → Bool) : Exec Unit := do
  let right ← pop
  let left ← pop
  push (truthWord (op left right))

end Exec

open Exec

/-- What an instruction does. Arithmetic wraps; division goes towards zero. -/
def Instruction.execute (i : Instruction) : Exec Continuation := do
  match i.opcode with
  | .loadImmediate =>
    push i.operand
    return .next
  | .load =>
    let r ← register i.operand
    push ((← get).registers.get r)
    return .next
  | .store =>
    let r ← register i.operand
    setRegister r (← pop)
    return .next
  | .loadSlot =>
    let m ← get
    push (← require ((m.slotIndex? i.operand).bind (m.stack[·]?)) (.invalidSlot i.operand))
    return .next
  | .storeSlot =>
    let value ← pop
    let index ← require ((← get).slotIndex? i.operand) (.invalidSlot i.operand)
    modify fun m => { m with stack := m.stack.set index value }
    return .next
  | .pop =>
    let _ ← pop
    return .next
  | .setFrame =>
    setRegister .fp (sizeWord (← get).stack.length)
    return .next
  | .add =>
    arithmetic (· + ·)
    return .next
  | .sub =>
    arithmetic (· - ·)
    return .next
  | .mul =>
    arithmetic (· * ·)
    return .next
  | .div =>
    division (· / ·)
    return .next
  | .mod =>
    division (· % ·)
    return .next
  | .less =>
    comparison (· < ·)
    return .next
  | .greater =>
    comparison (· > ·)
    return .next
  | .equal =>
    comparison (· = ·)
    return .next
  | .not =>
    push (truthWord ((← pop) = 0))
    return .next
  | .jump => jump i.operand
  | .jumpIfZero =>
    if (← pop) = 0 then jump i.operand else return .next
  | .call =>
    let flow ← jump i.operand
    modify fun m => { m with calls := (m.pc + 1) :: m.calls }
    return flow
  | .ret =>
    let m ← get
    match m.calls with
    | [] => throw .callStackUnderflow
    | address :: calls =>
      set { m with calls }
      push m.registers.r0
      return .jump address
  | .increment =>
    let r ← register i.operand
    setRegister r ((← get).registers.get r + 1)
    return .next
  | .mark => return .next
  | .putInt =>
    let value ← pop
    write (utf8 (toString value))
    return .next
  | .putStatic =>
    write (← require ((← get).static? i.operand) (.staticOutOfBounds i.operand))
    return .next
  | .newString =>
    let string ← require ((← get).static? i.operand) (.staticOutOfBounds i.operand)
    let (offset, heap) := (← get).heap.allocateString string
    modify fun m => { m with heap }
    push (sizeWord offset)
    return .next
  | .putString =>
    let pointer ← pop
    let heap := (← get).heap
    write (← require ((wordSize? pointer).bind heap.string?) (.heapOutOfBounds pointer))
    return .next
  | .getByte =>
    let m ← get
    match m.unread with
    | [] => push (-1)
    | byte :: unread =>
      set { m with unread }
      push (Int64.ofNat byte.toNat)
    return .next
  | .halt => return .halt
  | .trap => throw .trap

end StackLang
