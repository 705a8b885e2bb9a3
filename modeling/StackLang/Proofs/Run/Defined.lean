import StackLang.Proofs.Run.Instructions

/-!
# Instructions are defined everywhere

`Instruction.indexed` carries an instruction out on arrays: registers and slots are cells with an index,
strings are ranges of bytes, and an index out of range, a range that does not fit and a quotient by zero
are undefined. Each of them is guarded, so that an instruction fails with a fault of its own first.

Results:
* `Instruction.indexed_eq`: on arrays an instruction does what `execute` says, and no more.
* `Instruction.execute_loadSlot_eq_ok_iff`, `Instruction.execute_storeSlot_eq_ok_iff`: which slots are
  read and written, with frame pointer, slot and height as integers.
* `Instruction.execute_defined`: no instruction is undefined on any machine.
-/
namespace StackLang

/-! ## Arrays -/

/-- Gives the cell with an index a value, if there is one. -/
def setCell? {α : Type} (cells : List α) (index : Nat) (value : α) : Option (List α) :=
  if index < cells.length then some (cells.set index value) else none

/-- The cells from `start` to `stop`, if there are so many. -/
def range? {α : Type} (cells : List α) (start stop : Nat) : Option (List α) :=
  if start ≤ stop ∧ stop ≤ cells.length then some ((cells.take stop).drop start) else none

/-- The registers as cells, in the order of their numbers. -/
def Registers.cells (rs : Registers) : List Int64 := Register.all.map rs.get

/-- The registers with these cells, if there are as many. -/
def Registers.ofCells? : List Int64 → Option Registers
  | [r0, r1, r2, r3, fp] => some ⟨r0, r1, r2, r3, fp⟩
  | _ => none

namespace Registers

variable (rs : Registers) (r : Register)

theorem cells_getElem? : rs.cells[r.id]? = some (rs.get r) := by cases r <;> rfl

theorem setCell?_cells (value : Int64) :
    (setCell? rs.cells r.id value).bind ofCells? = some (rs.set r value) := by cases r <;> rfl

end Registers

/-! ## Operations that may be undefined -/

/-- Why an instruction that is carried out on arrays ends early. -/
inductive EarlyEnd where
  | fault (fault : Fault)
  /-- An operation was not defined for its arguments. -/
  | undefined
  deriving DecidableEq, Repr

/-- A part of an instruction that is carried out on arrays. -/
abbrev Indexed := EStateM EarlyEnd Machine

namespace Indexed

variable {α : Type}

/-- A part without any operation that may be undefined. -/
def ofExec (x : Exec α) : Indexed α := fun m =>
  match x m with
  | .ok a m' => .ok a m'
  | .error fault m' => .error (.fault fault) m'

/-- What an operation gives, if it is defined. -/
def defined (value? : Option α) : Indexed α := fun m =>
  match value? with
  | some a => .ok a m
  | none => .error .undefined m

/-- What is in the cell of a register. -/
def readRegister (r : Register) : Indexed Int64 := do
  defined (← get).registers.cells[r.id]?

/-- Gives the cell of a register a value. -/
def writeRegister (r : Register) (value : Int64) : Indexed Unit := do
  let registers ← defined ((setCell? (← get).registers.cells r.id value).bind Registers.ofCells?)
  modify fun m => { m with registers }

/-- The cell of a slot, counted from the bottom of the stack. -/
def slot (operand : Int64) : Indexed Nat := do
  ofExec (Exec.require ((← get).slotHeight? operand) (.invalidSlot operand))

/-- What is in the cell of a slot. -/
def readSlot (operand : Int64) : Indexed Int64 := do
  let height ← slot operand
  defined (← get).stack.reverse[height]?

/-- Gives the cell of a slot a value. -/
def writeSlot (operand value : Int64) : Indexed Unit := do
  let height ← slot operand
  let stack ← defined (setCell? (← get).stack.reverse height value)
  modify fun m => { m with stack := stack.reverse }

/-- A quotient or a remainder of words, if there is one. -/
def divide? (op : Int64 → Int64 → Int64) (left right : Int64) : Option Int64 :=
  if right = 0 then none else some (op left right)

/-- Replaces two values by a quotient or a remainder. -/
def division (op : Int64 → Int64 → Int64) : Indexed Unit := do
  let left ← ofExec Exec.pop
  let right ← ofExec Exec.pop
  if right = 0 then throw (.fault .divisionByZero)
  else ofExec (Exec.push (← defined (divide? op left right)))

/-- The bytes from an offset up to the next NUL, or to the end. -/
def string? (data : List UInt8) (offset : Nat) : Indexed (Option (List UInt8)) := do
  match range? data offset data.length with
  | none => return none
  | some [] => return none
  | some bytes =>
    let length := (bytes.findIdx? (· = 0)).getD bytes.length
    return some (← defined (range? bytes 0 length))

/-- The string at the offset that a word gives, or else a fault. -/
def requireString (data : List UInt8) (word : Int64) (fault : Fault) : Indexed (List UInt8) := do
  match wordSize? word with
  | none => throw (.fault fault)
  | some offset => ofExec (Exec.require (← string? data offset) fault)

/-- Copies data to a range of cells, which has to be as long. -/
def copy? (cells : List UInt8) (start stop : Nat) (data : List UInt8) : Option (List UInt8) :=
  if stop - start = data.length then some (cells.take start ++ data ++ cells.drop stop) else none

/-- Puts data in place of the bytes of the heap from an offset on, if all of it fits. -/
def writeHeap (offset : Nat) (data : List UInt8) : Indexed Unit := do
  let bytes := (← get).heap.bytes
  match range? bytes offset (offset + data.length) with
  | none => return ()
  | some _ =>
    let bytes ← defined (copy? bytes offset (offset + data.length) data)
    modify fun m => { m with heap := ⟨bytes⟩ }

/-- Adds zeros to the heap, and puts a string in their place. -/
def allocateString (string : List UInt8) : Indexed Nat := do
  let (offset, heap) := (← get).heap.allocate (string.length + 1)
  modify fun m => { m with heap }
  writeHeap offset string
  return offset

end Indexed

open Indexed in
/-- What an instruction does, with all that it looks up and changes in arrays, and with quotients, as
operations that may be undefined. The other instructions have none of them. -/
def Instruction.indexed (i : Instruction) : Indexed Continuation := do
  match i.opcode with
  | .load =>
    let r ← ofExec (Exec.register i.operand)
    ofExec (Exec.push (← readRegister r))
    return .next
  | .store =>
    let r ← ofExec (Exec.register i.operand)
    writeRegister r (← ofExec Exec.pop)
    return .next
  | .increment =>
    let r ← ofExec (Exec.register i.operand)
    writeRegister r ((← readRegister r) + 1)
    return .next
  | .loadSlot =>
    ofExec (Exec.push (← readSlot i.operand))
    return .next
  | .storeSlot =>
    writeSlot i.operand (← ofExec Exec.pop)
    return .next
  | .div =>
    division (· / ·)
    return .next
  | .mod =>
    division (· % ·)
    return .next
  | .putStatic =>
    ofExec (Exec.write (← requireString (← get).statics i.operand (.staticOutOfBounds i.operand)))
    return .next
  | .newString =>
    let string ← requireString (← get).statics i.operand (.staticOutOfBounds i.operand)
    ofExec (Exec.push (sizeWord (← allocateString string)))
    return .next
  | .putString =>
    let pointer ← ofExec Exec.pop
    ofExec (Exec.write (← requireString (← get).heap.bytes pointer (.heapOutOfBounds pointer)))
    return .next
  | _ => ofExec i.execute

/-! ## Each operation is defined where it is used -/

namespace Indexed

variable {α β : Type} (m : Machine)

theorem ofExec_get : ofExec get = get := rfl

theorem ofExec_bind (x : Exec α) (f : α → Exec β) :
    ofExec (x >>= f) = ofExec x >>= fun a => ofExec (f a) := by
  funext m
  rw [ofExec, Effect.bind_apply, Effect.bind_apply, ofExec]
  cases x m <;> rfl

theorem ofExec_require (value? : Option α) (fault : Fault) : ofExec (Exec.require value? fault) m =
    match value? with
    | some a => .ok a m
    | none => .error (.fault fault) m := by
  cases value? <;> rfl

theorem readRegister_eq (r : Register) :
    readRegister r = ofExec (do return (← get).registers.get r) := by
  funext m
  simp only [readRegister, Effect.bind_apply, Effect.get_apply, Registers.cells_getElem?]
  rfl

theorem writeRegister_eq (r : Register) (value : Int64) :
    writeRegister r value = ofExec (Exec.setRegister r value) := by
  funext m
  simp only [writeRegister, Effect.bind_apply, Effect.get_apply, Registers.setCell?_cells]
  rfl

/-- The cell of a slot is on the stack. -/
theorem readSlot_eq (operand : Int64) : readSlot operand = ofExec (do
    let m ← get
    Exec.require ((m.slotIndex? operand).bind (m.stack[·]?)) (.invalidSlot operand)) := by
  funext m
  simp only [readSlot, slot, ofExec_bind, ofExec_get, Effect.bind_apply, Effect.get_apply,
    ofExec_require, Machine.slotIndex?]
  cases hheight : m.slotHeight? operand with
  | none => rfl
  | some height =>
    have hlt := (Machine.slotHeight?_eq_some_iff.1 hheight).2.2
    simp only [Option.map_some, Option.bind_some, List.getElem?_reverse hlt]
    rw [List.getElem?_eq_getElem (by omega)]
    rfl

/-- A stack whose cells are counted from its bottom is changed where it is changed from its top. -/
theorem setCell?_reverse {stack : List Int64} {height : Nat} (hlt : height < stack.length)
    (value : Int64) : setCell? stack.reverse height value =
      some (stack.set (stack.length - 1 - height) value).reverse := by
  rw [setCell?, List.length_reverse, if_pos hlt]
  congr 1
  refine List.ext_getElem (by simp) fun i hi _ => ?_
  rw [List.length_set, List.length_reverse] at hi
  rw [List.getElem_set, List.getElem_reverse, List.getElem_reverse, List.getElem_set]
  simp only [List.length_set]
  by_cases heq : height = i
  · rw [if_pos heq, if_pos (by omega)]
  · rw [if_neg heq, if_neg (by omega)]

theorem writeSlot_eq (operand value : Int64) : writeSlot operand value = ofExec (do
    let index ← Exec.require ((← get).slotIndex? operand) (.invalidSlot operand)
    modify fun m => { m with stack := m.stack.set index value }) := by
  funext m
  simp only [writeSlot, slot, ofExec_bind, ofExec_get, Effect.bind_apply, Effect.get_apply,
    ofExec_require, Machine.slotIndex?]
  cases hheight : m.slotHeight? operand with
  | none => rfl
  | some height =>
    have hlt := (Machine.slotHeight?_eq_some_iff.1 hheight).2.2
    simp only [Option.map_some, setCell?_reverse hlt]
    simp [defined, ofExec, Effect.modify_apply]

theorem division_eq (op : Int64 → Int64 → Int64) : division op = ofExec (Exec.division op) := by
  simp only [division, Exec.division, ofExec_bind]
  congr 1
  funext left
  congr 1
  funext right
  split
  · rfl
  · rename_i hright
    rw [divide?, if_neg hright]
    rfl

/-! ### Strings -/

/-- A range up to the end is what comes after its start. -/
theorem range?_length (data : List α) (offset : Nat) : range? data offset data.length =
    if offset ≤ data.length then some (data.drop offset) else none := by
  simp [range?]

/-- A string ends where the first NUL is found. -/
theorem range?_findIdx? (data : List UInt8) :
    range? data 0 ((data.findIdx? (· = 0)).getD data.length) = some (data.takeWhile (· ≠ 0)) := by
  have hnot : (fun b : UInt8 => !decide (b ≠ 0)) = fun b => decide (b = 0) := by
    funext b
    simp
  rw [← List.findIdx_eq_getD_findIdx?, List.takeWhile_eq_take_findIdx_not, hnot, range?,
    if_pos ⟨Nat.zero_le _, List.findIdx_le_length⟩, List.drop_zero]

theorem string?_apply (data : List UInt8) (offset : Nat) :
    string? data offset m = .ok (stringAt? data offset) m := by
  rw [string?, range?_length]
  by_cases hle : offset ≤ data.length
  · rw [if_pos hle]
    cases hdrop : data.drop offset with
    | nil =>
      have hge := List.drop_eq_nil_iff.1 hdrop
      rw [stringAt?, if_neg (by omega)]
      rfl
    | cons b bytes =>
      have hlt : offset < data.length := by
        have := congrArg List.length hdrop
        simp only [List.length_drop, List.length_cons] at this
        omega
      rw [stringAt?, if_pos hlt, hdrop]
      simp only [range?_findIdx?]
      rfl
  · rw [if_neg hle, stringAt?, if_neg (by omega)]
    rfl

theorem requireString_eq (data : List UInt8) (word : Int64) (fault : Fault) :
    requireString data word fault =
      ofExec (Exec.require ((wordSize? word).bind (stringAt? data)) fault) := by
  funext m
  rw [requireString]
  cases wordSize? word with
  | none => rfl
  | some offset => simp only [Effect.bind_apply, string?_apply, Option.bind_some]

/-- A string fits in the zeros that it is given. -/
theorem allocateString_eq (string : List UInt8) : allocateString string = ofExec (do
    let (offset, heap) := (← get).heap.allocateString string
    modify fun m => { m with heap }
    return offset) := by
  funext m
  have hlength : (m.heap.bytes ++ List.replicate (string.length + 1) 0).length =
      m.heap.bytes.length + string.length + 1 := by simp; omega
  have hrange : range? (m.heap.bytes ++ List.replicate (string.length + 1) 0) m.heap.bytes.length
      (m.heap.bytes.length + string.length) = some (.replicate string.length 0) := by
    rw [range?, if_pos (by omega), List.take_length_add_append]
    simp
  have hcopy : copy? (m.heap.bytes ++ List.replicate (string.length + 1) 0) m.heap.bytes.length
      (m.heap.bytes.length + string.length) string = some (m.heap.bytes ++ string ++ [0]) := by
    rw [copy?, if_pos (by omega)]
    simp [List.drop_append]
  simp only [allocateString, writeHeap, Effect.bind_apply, Effect.get_apply, Effect.modify_apply,
    Heap.allocate, Heap.size, hrange, hcopy]
  rfl

end Indexed

open Indexed in
/-- On arrays an instruction does what `execute` says, and no operation of it is undefined. -/
theorem Instruction.indexed_eq (i : Instruction) : i.indexed = ofExec i.execute := by
  obtain ⟨op, operand⟩ := i
  cases op with
  | load | store | increment =>
    simp only [indexed, execute, readRegister_eq, writeRegister_eq, ofExec_bind]
    rfl
  | loadSlot | storeSlot =>
    simp only [indexed, execute, readSlot_eq, writeSlot_eq, ofExec_bind, bind_assoc]
    rfl
  | div | mod =>
    simp only [indexed, execute, division_eq, ofExec_bind]
    rfl
  | putStatic | putString =>
    simp only [indexed, execute, requireString_eq, ofExec_bind]
    rfl
  | newString =>
    simp only [indexed, execute, requireString_eq, allocateString_eq, ofExec_bind]
    rfl
  | _ => rfl

/-! ## Arithmetic and slots in integers -/

/-- What an operator computes with integers. Division goes towards zero. -/
def Arithmetic.exact : Arithmetic → Int → Int → Int
  | add, l, r => l + r
  | sub, l, r => l - r
  | mul, l, r => l * r
  | div, l, r => l.tdiv r
  | mod, l, r => l.tmod r

/-- The value of an operator is that of the integers, wrapped around. -/
theorem Arithmetic.toInt_of_apply? {op : Arithmetic} {left right value : Int64}
    (h : op.apply? left right = some value) :
    value.toInt = (op.exact left.toInt right.toInt).bmod 0x10000000000000000 := by
  cases op with
  | add => cases h; exact Int64.toInt_add left right
  | sub => cases h; exact Int64.toInt_sub left right
  | mul => cases h; exact Int64.toInt_mul left right
  | div =>
    change (if right = 0 then none else some (left / right)) = some value at h
    split at h
    · cases h
    · cases h; exact Int64.toInt_div left right
  | mod =>
    change (if right = 0 then none else some (left % right)) = some value at h
    split at h
    · cases h
    · cases h
      rw [exact, ← Int64.toInt_mod]
      exact (Int64.toInt_bmod _).symm

example : Arithmetic.div.apply? Int64.minValue (-1) = some Int64.minValue := by decide

/-- Only a quotient or a remainder by zero has no value. -/
theorem Arithmetic.apply?_eq_none_iff {op : Arithmetic} {left right : Int64} :
    op.apply? left right = none ↔ (op = .div ∨ op = .mod) ∧ right = 0 := by
  unfold Arithmetic.apply?
  cases op <;> simp

namespace Instruction

variable {m b : Machine} {k : Int64} {flow : Continuation}

theorem execute_arithmetic (op : Arithmetic) (operand : Int64) {left right : Int64}
    {rest : List Int64} (h : m.stack = left :: right :: rest) :
    execute ⟨op.opcode, operand⟩ m = match op.apply? left right with
      | some value => .ok .next { m with stack := value :: rest }
      | none => .error .divisionByZero { m with stack := rest } := by
  by_cases hz : right = 0 <;> cases op <;>
    simp [execute, Exec.arithmetic, Exec.division, Exec.pop, Exec.push, h, hz, Arithmetic.opcode,
      Arithmetic.apply?]

/-- A slot that is read is a cell of the stack. -/
theorem execute_loadSlot_eq_ok_iff : execute ⟨.loadSlot, k⟩ m = .ok flow b ↔ flow = .next ∧
    ∃ height value, m.slotHeight? k = some height ∧ m.stack.reverse[height]? = some value ∧
      b = { m with stack := value :: m.stack } := by
  cases hheight : m.slotHeight? k with
  | none => simp [execute, Exec.require, Machine.slotIndex?, hheight]
  | some height =>
    have hlt := (Machine.slotHeight?_eq_some_iff.1 hheight).2.2
    obtain ⟨value, hvalue⟩ : ∃ value, m.stack[m.stack.length - 1 - height]? = some value :=
      ⟨_, List.getElem?_eq_getElem (by omega)⟩
    have hread : execute ⟨.loadSlot, k⟩ m = .ok .next { m with stack := value :: m.stack } := by
      simp [execute, Exec.require, Exec.push, Machine.slotIndex?, hheight, hvalue]
    simp [hread, List.getElem?_reverse hlt, hvalue, eq_comm]

/-- A slot that is written is a cell of the stack without the value that is written. -/
theorem execute_storeSlot_eq_ok_iff : execute ⟨.storeSlot, k⟩ m = .ok flow b ↔ flow = .next ∧
    ∃ value rest height, m.stack = value :: rest ∧
      { m with stack := rest }.slotHeight? k = some height ∧
      b = { m with stack := (rest.reverse.set height value).reverse } := by
  cases hstack : m.stack with
  | nil => simp [execute, Exec.pop, hstack]
  | cons value rest =>
    cases hheight : { m with stack := rest }.slotHeight? k with
    | none =>
      have hfails : execute ⟨.storeSlot, k⟩ m = .error (.invalidSlot k) { m with stack := rest } := by
        simp [execute, Exec.require, Exec.pop, hstack, Machine.slotIndex?, hheight]
      simp [hfails, hheight]
    | some height =>
      have hlt := (Machine.slotHeight?_eq_some_iff.1 hheight).2.2
      have hset : rest.reverse.set height value =
          (rest.set (rest.length - 1 - height) value).reverse := by
        have := Indexed.setCell?_reverse hlt value
        rw [setCell?, if_pos (by rwa [List.length_reverse])] at this
        exact Option.some.inj this
      have hwrite : execute ⟨.storeSlot, k⟩ m =
          .ok .next { m with stack := (rest.reverse.set height value).reverse } := by
        simp [execute, Exec.require, Exec.pop, hstack, Machine.slotIndex?, hheight, hset]
      rw [hwrite]
      constructor
      · intro h
        cases h
        exact ⟨rfl, value, rest, height, rfl, hheight, rfl⟩
      · rintro ⟨rfl, value', rest', height', heq, hheight', rfl⟩
        cases heq
        cases hheight.symm.trans hheight'
        rfl

/-- The slots that can be read are those on the stack. -/
theorem reads_slot_iff (m : Machine) (k : Int64) :
    (∃ flow b, execute ⟨.loadSlot, k⟩ m = .ok flow b) ↔
      0 ≤ k.toInt ∧ 0 ≤ m.registers.fp.toInt - k.toInt - 1 ∧
        m.registers.fp.toInt - k.toInt - 1 < m.stack.length := by
  constructor
  · rintro ⟨flow, b, h⟩
    obtain ⟨-, height, value, hheight, -, -⟩ := execute_loadSlot_eq_ok_iff.1 h
    have := Machine.slotHeight?_eq_some_iff.1 hheight
    omega
  · rintro ⟨hk, hpos, hlt⟩
    obtain ⟨height, heq⟩ := Int.eq_ofNat_of_zero_le hpos
    have hheight : m.slotHeight? k = some height :=
      Machine.slotHeight?_eq_some_iff.2 ⟨hk, heq, by omega⟩
    have hcell : height < m.stack.reverse.length := by rw [List.length_reverse]; omega
    exact ⟨_, _, execute_loadSlot_eq_ok_iff.2
      ⟨rfl, height, _, hheight, List.getElem?_eq_getElem hcell, rfl⟩⟩

/-- The slots that can be written are those on the stack without the value. -/
theorem writes_slot_iff (m : Machine) (k : Int64) :
    (∃ flow b, execute ⟨.storeSlot, k⟩ m = .ok flow b) ↔
      1 ≤ m.stack.length ∧ 0 ≤ k.toInt ∧ 0 ≤ m.registers.fp.toInt - k.toInt - 1 ∧
        m.registers.fp.toInt - k.toInt - 1 < (m.stack.length : Int) - 1 := by
  constructor
  · rintro ⟨flow, b, h⟩
    obtain ⟨-, value, rest, height, hstack, hheight, -⟩ := execute_storeSlot_eq_ok_iff.1 h
    have := Machine.slotHeight?_eq_some_iff.1 hheight
    rw [hstack, List.length_cons]
    simp only at this
    omega
  · rintro ⟨hone, hk, hpos, hlt⟩
    obtain ⟨value, rest, hstack⟩ := List.exists_cons_of_length_pos hone
    obtain ⟨height, heq⟩ := Int.eq_ofNat_of_zero_le hpos
    have hheight : { m with stack := rest }.slotHeight? k = some height := by
      rw [hstack, List.length_cons] at hlt
      exact Machine.slotHeight?_eq_some_iff.2 ⟨hk, heq, by simp only; omega⟩
    exact ⟨_, _, execute_storeSlot_eq_ok_iff.2 ⟨rfl, value, rest, height, hstack, hheight, rfl⟩⟩

/-- No operation of an instruction is undefined, on any machine: each index into the registers, the
stack, the static data and the heap is in range, each string fits where it is copied to, and a quotient
is taken only where there is one. What operators compute are the integers, wrapped around. With integers
for the frame pointer, the slot and the height of the stack, the slots that can be read are those on the
stack; those that can be written are on what is left of it without the value, and no other cell
changes. -/
theorem execute_defined (m : Machine) :
    (∀ i : Instruction, i.indexed m = Indexed.ofExec i.execute m ∧
      ∀ b, i.indexed m ≠ .error .undefined b) ∧
    (∀ (op : Arithmetic) operand left right rest, m.stack = left :: right :: rest →
      if (op = .div ∨ op = .mod) ∧ right = 0 then
        execute ⟨op.opcode, operand⟩ m = .error .divisionByZero { m with stack := rest }
      else ∃ value : Int64,
        value.toInt = (op.exact left.toInt right.toInt).bmod 0x10000000000000000 ∧
        execute ⟨op.opcode, operand⟩ m = .ok .next { m with stack := value :: rest }) ∧
    ∀ (k : Int64) (height : Int), height = m.registers.fp.toInt - k.toInt - 1 →
      ((∃ flow b, execute ⟨.loadSlot, k⟩ m = .ok flow b) ↔
        0 ≤ k.toInt ∧ 0 ≤ height ∧ height < m.stack.length) ∧
      (∀ flow b, execute ⟨.loadSlot, k⟩ m = .ok flow b → flow = .next ∧
        ∃ value, m.stack.reverse[height.toNat]? = some value ∧
          b = { m with stack := value :: m.stack }) ∧
      ((∃ flow b, execute ⟨.storeSlot, k⟩ m = .ok flow b) ↔
        1 ≤ m.stack.length ∧ 0 ≤ k.toInt ∧ 0 ≤ height ∧ height < (m.stack.length : Int) - 1) ∧
      ∀ flow b, execute ⟨.storeSlot, k⟩ m = .ok flow b → flow = .next ∧
        ∃ value rest, m.stack = value :: rest ∧
          b = { m with stack := (rest.reverse.set height.toNat value).reverse } := by
  refine ⟨fun i => ?_, ?_, ?_⟩
  · rw [indexed_eq]
    refine ⟨rfl, fun b h => ?_⟩
    unfold Indexed.ofExec at h
    split at h <;> cases h
  · intro op operand left right rest hstack
    have hexecute := execute_arithmetic op operand hstack
    split
    · rename_i hzero
      rwa [Arithmetic.apply?_eq_none_iff.2 hzero] at hexecute
    · rename_i hzero
      obtain ⟨value, hvalue⟩ := Option.ne_none_iff_exists'.1 fun h =>
        hzero (Arithmetic.apply?_eq_none_iff.1 h)
      rw [hvalue] at hexecute
      exact ⟨value, Arithmetic.toInt_of_apply? hvalue, hexecute⟩
  · rintro k height rfl
    refine ⟨reads_slot_iff m k, ?_, writes_slot_iff m k, ?_⟩
    · intro flow b h
      obtain ⟨rfl, height, value, hheight, hvalue, rfl⟩ := execute_loadSlot_eq_ok_iff.1 h
      refine ⟨rfl, value, ?_, rfl⟩
      rw [(Machine.slotHeight?_eq_some_iff.1 hheight).2.1]
      exact hvalue
    · intro flow b h
      obtain ⟨rfl, value, rest, height, hstack, hheight, rfl⟩ := execute_storeSlot_eq_ok_iff.1 h
      refine ⟨rfl, value, rest, hstack, ?_⟩
      rw [show m.registers.fp.toInt - k.toInt - 1 = height from
        (Machine.slotHeight?_eq_some_iff.1 hheight).2.1, Int.toNat_natCast]

end Instruction

end StackLang
