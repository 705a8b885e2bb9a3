import StackLang.Proofs.Core.Frames
import StackLang.Proofs.Semantics.Core

/-!
# When a run agrees with a computation

A run agrees with the result of a computation if it ends in the same way and in the same world; if
the computation was not granted enough turns and calls, then the run does not end in as many turns
either. Nothing is said about a run whose stack grows higher than a word can say, for which there is
no memory.

Results:
* `Agrees.step`: a machine agrees if it agrees after its next turn.
* `Frame.At.push`, `Frame.At.arithmetic`, `Frame.At.jump` and so on, one for each instruction of a
  body but calls: a machine in a frame agrees if it agrees after its instruction.
-/
namespace StackLang

open Semantics StackLang.Core

/-- What a machine and a computation both act on. -/
def Machine.world (a : Machine) : World := ⟨a.heap.bytes, a.output.written, a.unread⟩

/-- The fault that a computation stops with, if it stops for a reason of its own. -/
def Semantics.Stop.fault? : Stop → Option Fault
  | divisionByZero => some .divisionByZero
  | heapOutOfBounds pointer => some (.heapOutOfBounds pointer)
  | undefined | unfinished => none

/-- The run from a machine ends as a computation does, or not within so many turns. -/
inductive Agrees (code : Array Instruction) (turns : Nat) (a : Machine) :
    EStateM.Result Stop World Int64 → Prop where
  | value {n : Nat} {b : Machine} (run : Machine.runFrom? code n a = some (b, none))
    (flush : b.output.flushFails = false) : Agrees code turns a (.ok b.registers.r0 b.world)
  | fault {n : Nat} {b : Machine} {failure : Failure} {s : Stop}
    (run : Machine.runFrom? code n a = some (b, some failure)) (h : s.fault? = some failure.fault) :
    Agrees code turns a (.error s b.world)
  | unfinished {w : World} (run : Machine.runFrom? code turns a = none) :
    Agrees code turns a (.error .unfinished w)
  | outgrows {n : Nat} {result : EStateM.Result Stop World Int64} (h : a.Outgrows code n) :
    Agrees code turns a result

namespace Agrees

variable {code : Array Instruction} {n k : Nat} {a b : Machine}
  {result : EStateM.Result Stop World Int64}

theorem mono (h : Agrees code n a result) (hk : k ≤ n) : Agrees code k a result := by
  cases h with
  | value run flush => exact .value run flush
  | fault run h => exact .fault run h
  | outgrows h => exact .outgrows h
  | unfinished run =>
    refine .unfinished ?_
    cases hrun : Machine.runFrom? code k a with
    | none => rfl
    | some e => rw [Machine.runFrom?_mono hrun hk] at run; cases run

/-- A machine agrees if the machine after its next turn does, with one turn less. -/
theorem step_pred (ht : a.turn code = .running b) (h : Agrees code (n - 1) b result) :
    Agrees code n a result := by
  cases h with
  | value run flush => exact .value ((Machine.runFrom?_succ_of_running ht _).trans run) flush
  | fault run h => exact .fault ((Machine.runFrom?_succ_of_running ht _).trans run) h
  | outgrows h => exact .outgrows (h.step ht)
  | unfinished run =>
    refine .unfinished ?_
    cases n with
    | zero => rfl
    | succ n => exact (Machine.runFrom?_succ_of_running ht n).trans run

/-- A machine agrees if the machine after its next turn does. -/
theorem step (ht : a.turn code = .running b) (h : Agrees code n b result) :
    Agrees code n a result := step_pred ht (h.mono (Nat.sub_le n 1))

/-- It is enough to show agreement for a stack that is not too high. -/
theorem of_small (h : a.stack.length < Machine.heightLimit → Agrees code n a result) :
    Agrees code n a result := by
  by_cases hlt : a.stack.length < Machine.heightLimit
  · exact h hlt
  · exact .outgrows ⟨0, Nat.le_refl 0, a, Machine.after?_zero a, Nat.le_of_not_lt hlt⟩

end Agrees

/-! ## Machines without limits -/

/-- A machine that runs a program without a limit, and with a sink that takes everything. -/
structure Core.Module.Ready (m : Module) (a : Machine) : Prop extends m.Loaded a where
  limit : a.settings.stepLimit? = none
  room : a.output.room? = none
  flush : a.output.flushFails = false

theorem Core.Module.Ready.turn {m : Module} {a b : Machine} (h : m.Ready a)
    {code : Array Instruction} (ht : a.turn code = .running b) : m.Ready b := by
  obtain ⟨i, -, -, hp⟩ := Machine.perform_of_turn ht
  have hfixed := congrArg (·.2) (Machine.fixed_of_perform hp)
  have hsettings : b.settings = a.settings := congrArg (·.1) hfixed
  have hroom : b.output.room?.isNone = a.output.room?.isNone := congrArg (·.2.2.2.1) hfixed
  have hflush : b.output.flushFails = a.output.flushFails := congrArg (·.2.2.2.2) hfixed
  refine { h.toLoaded.turn ht with limit := ?_, room := ?_, flush := ?_ }
  · rw [hsettings, h.limit]
  · rw [← Option.isNone_iff_eq_none, hroom, h.room]; rfl
  · rw [hflush, h.flush]

theorem Core.Module.Ready.turn_eq {m : Module} {a : Machine} (h : m.Ready a) {i : Instruction}
    (hi : m.emit[a.pc]? = some i) : a.turn m.emit.toArray = a.perform i := by
  refine Machine.turn_of_getElem? (by rw [List.getElem?_toArray]; exact hi) ?_
  rw [Machine.spentLimit?, h.limit]; rfl

/-- A label leads to where it is marked. -/
theorem Core.Module.Ready.target?_mark {m : Module} {a : Machine} (h : m.Ready a)
    (hid : m.entry.id < 0x100000000) {l : Label} (hl : l.id < 0x100000000) {address : Nat}
    (hmark : m.emit[address]? = some (.ofLabel .mark l)) : a.target? l.operand = some address := by
  rw [Machine.target?, h.labels]
  exact Module.target?_mark hid hl hmark

/-- Everything is written to a sink that has no limit. -/
theorem Machine.writeThen_of_room {a : Machine} (h : a.output.room? = none) (op : Opcode)
    (data : List UInt8) (rest : List Int64) :
    a.writeThen op data rest = .running
      ({ a with output := (a.output.write data).2 }.advance (a.pc + 1) rest) := by
  have : (a.output.write data).1 = true := by simp [Sink.write, Sink.fitting, h]
  rw [writeThen, if_pos this]

theorem Sink.written_of_room {s : Sink} (h : s.room? = none) (data : List UInt8) :
    (s.write data).2.written = s.written ++ data := by
  rw [Sink.written_write, Sink.fitting, h]

/-- A failure, whatever would have come after it. -/
theorem Agrees.of_stopped {m : Module} {n : Nat} {a b : Machine} {failure : Failure} {s : Stop}
    (ht : a.turn m.emit.toArray = .stopped b (some failure)) (hs : s.fault? = some failure.fault)
    (hworld : b.world = a.world) : Agrees m.emit.toArray n a (.error s a.world) :=
  hworld ▸ .fault (Machine.runFrom?_succ_of_stopped ht 0) hs

/-! ## Frames -/

/-- A frame on the stack: how many slots it has, and what is below them and on the call stack. -/
structure Frame where
  locals : Nat
  below : List Int64
  calls : List Nat

/-- A machine in a frame, with the values of its slots and the words above them. -/
structure Frame.At (frame : Frame) (m : Module) (pc : Nat) (above : List Int64) (slots : Slots)
    (a : Machine) : Prop where
  ready : m.Ready a
  pc : a.pc = pc
  fp : a.registers.fp = sizeWord (frame.locals + frame.below.length)
  stack : a.stack = above ++ ((List.range frame.locals).map slots ++ frame.below)
  calls : a.calls = frame.calls

/-- Where a slot's value is among those of all slots. -/
theorem getElem?_slots {locals slot : Nat} (h : slot < locals) (slots : Slots)
    (above rest : List Int64) :
    (above ++ ((List.range locals).map slots ++ rest))[above.length + slot]? = some (slots slot) := by
  rw [List.getElem?_append_right (Nat.le_add_right _ _), Nat.add_sub_cancel_left,
    List.getElem?_append_left (by simpa using h), List.getElem?_map, List.getElem?_range h]
  rfl

/-- A slot's value changes among those of all slots. -/
theorem set_slots {locals slot : Nat} (h : slot < locals) (slots : Slots) (value : Int64)
    (above rest : List Int64) :
    (above ++ ((List.range locals).map slots ++ rest)).set (above.length + slot) value =
      above ++ ((List.range locals).map (slots.set slot value) ++ rest) := by
  rw [List.set_append_right _ _ (Nat.le_add_right _ _), Nat.add_sub_cancel_left,
    List.set_append_left _ _ (by simpa using h)]
  congr 2
  refine List.ext_getElem (by simp) fun i hi _ => ?_
  simp only [List.length_set, List.length_map, List.length_range] at hi
  rw [List.getElem_set]
  by_cases heq : slot = i
  · simp [heq, Slots.set]
  · simp [heq, Slots.set, Ne.symm heq]

namespace Frame.At

variable {frame : Frame} {m : Module} {pc : Nat} {above : List Int64} {slots : Slots}
  {a b : Machine}

/-- A machine in a frame takes the turn that its instruction says. -/
theorem turn (h : frame.At m pc above slots a) {i : Instruction} (hi : m.emit[pc]? = some i) :
    a.turn m.emit.toArray = a.perform i := h.ready.turn_eq (h.pc.symm ▸ hi)

/-- A machine stays in its frame as long as the frame pointer and the call stack are kept. -/
theorem go (h : frame.At m pc above slots a) {pc' : Nat} {above' : List Int64} {slots' : Slots}
    (ht : a.turn m.emit.toArray = .running b) (hpc : b.pc = pc')
    (hstack : b.stack = above' ++ ((List.range frame.locals).map slots' ++ frame.below))
    (hfp : b.registers.fp = a.registers.fp) (hcalls : b.calls = a.calls) :
    frame.At m pc' above' slots' b :=
  ⟨h.ready.turn ht, hpc, hfp.trans h.fp, hstack, hcalls.trans h.calls⟩

theorem length_stack (h : frame.At m pc above slots a) :
    a.stack.length = above.length + (frame.locals + frame.below.length) := by
  simp [h.stack]

/-! ## Words put on the stack -/

/-- After an instruction that puts a word on the stack and changes nothing else. -/
theorem push {value : Int64} (h : frame.At m pc above slots a) {n : Nat} {k : Int64 → Eval Int64}
    (ht : a.turn m.emit.toArray = .running (a.advance (a.pc + 1) (value :: a.stack)))
    (hk : ∀ v b, frame.At m (pc + 1) (v :: above) slots b →
      Agrees m.emit.toArray n b (k v b.world)) :
    Agrees m.emit.toArray n a (k value a.world) := by
  refine .step ht (hk value _ (h.go ht ?_ ?_ rfl rfl))
  · rw [Machine.advance_pc, h.pc]
  · rw [Machine.advance_stack, h.stack]; rfl

/-- The value of a slot is put on the stack. -/
theorem loadSlot (h : frame.At m pc above slots a) {slot : Nat} (hslot : slot < frame.locals)
    {n : Nat} {k : Int64 → Eval Int64} (hi : m.emit[pc]? = some ⟨.loadSlot, Int64.ofNat slot⟩)
    (hk : ∀ v b, frame.At m (pc + 1) (v :: above) slots b →
      Agrees m.emit.toArray n b (k v b.world)) :
    Agrees m.emit.toArray n a (k (slots slot) a.world) := by
  refine .of_small fun hsmall => ?_
  have hindex := a.slotIndex?_ofNat h.fp h.length_stack
    (show slot < frame.locals + frame.below.length from Nat.lt_add_right _ hslot) hsmall
  have hvalue : a.stack[above.length + slot]? = some (slots slot) := by
    rw [h.stack]; exact getElem?_slots hslot slots above _
  exact h.push (by rw [h.turn hi, Machine.perform_loadSlot a hindex hvalue]) hk

/-- A text of the static data is copied to the heap. -/
theorem newString (h : frame.At m pc above slots a) {text : String} (ht : text ∈ m.texts)
    (hstatics : m.strings.bytes.length < 0x8000000000000000) {n : Nat} {k : Int64 → Eval Int64}
    (hi : m.emit[pc]? = some ⟨.newString, sizeWord (m.strings.offset text)⟩)
    (hk : ∀ v b, frame.At m (pc + 1) (v :: above) slots b →
      Agrees m.emit.toArray n b (k v b.world)) :
    Agrees m.emit.toArray n a ((Eval.allocate text >>= k) a.world) := by
  have hstatic : a.static? (sizeWord (m.strings.offset text)) = some (stringOf text) := by
    rw [Machine.static?, h.ready.statics]
    exact StringPool.string_word (StringPool.mem_ofList ht) hstatics
  have hturn := h.turn hi
  rw [Machine.perform_newString a hstatic] at hturn
  refine .step hturn (hk _ _ (h.go hturn (congrArg (· + 1) h.pc) ?_ rfl rfl))
  rw [Machine.advance_stack, h.stack]; rfl

/-- A byte of the input is put on the stack, or -1. -/
theorem getByte (h : frame.At m pc above slots a) {n : Nat} {k : Int64 → Eval Int64}
    (hi : m.emit[pc]? = some (.bare .getByte))
    (hk : ∀ v b, frame.At m (pc + 1) (v :: above) slots b →
      Agrees m.emit.toArray n b (k v b.world)) :
    Agrees m.emit.toArray n a ((Eval.readByte >>= k) a.world) := by
  have ht := h.turn hi
  rw [Machine.perform_getByte] at ht
  cases hunread : a.unread with
  | nil =>
    rw [hunread] at ht
    have hread : Eval.readByte a.world = .ok (-1) a.world := by
      simp [Eval.readByte, Machine.world, hunread]
    rw [Effect.bind_apply, hread]
    exact h.push ht hk
  | cons byte unread =>
    rw [hunread] at ht
    have hread : Eval.readByte a.world =
        .ok (Int64.ofNat byte.toNat) { a.world with unread } := by
      simp [Eval.readByte, Machine.world, hunread]
    rw [Effect.bind_apply, hread]
    refine .step ht (hk _ _ (h.go ht (congrArg (· + 1) h.pc) ?_ rfl rfl))
    rw [Machine.advance_stack, h.stack]; rfl

/-! ## Operators -/

/-- The two words on top of the stack are computed with, the left one first. -/
theorem arithmetic {op : Arithmetic} {l r : Int64} (h : frame.At m pc (l :: r :: above) slots a)
    {n : Nat} {k : Int64 → Eval Int64} (hi : m.emit[pc]? = some (.bare op.opcode))
    (hk : ∀ v b, frame.At m (pc + 1) (v :: above) slots b →
      Agrees m.emit.toArray n b (k v b.world)) :
    Agrees m.emit.toArray n a ((compute op l r >>= k) a.world) := by
  have ht := h.turn hi
  rw [Machine.perform_arithmetic a h.stack] at ht
  unfold compute
  cases happly : op.apply? l r with
  | none =>
    rw [happly] at ht
    exact .of_stopped ht rfl rfl
  | some v =>
    rw [happly] at ht
    exact .step ht (hk v _ (h.go ht (congrArg (· + 1) h.pc) rfl rfl rfl))

/-- The two words on top of the stack are compared, the right one first. -/
theorem comparison {op : Comparison} {l r : Int64} (h : frame.At m pc (r :: l :: above) slots a)
    {n : Nat} {k : Int64 → Eval Int64} (hi : m.emit[pc]? = some (.bare op.opcode))
    (hk : ∀ v b, frame.At m (pc + 1) (v :: above) slots b →
      Agrees m.emit.toArray n b (k v b.world)) :
    Agrees m.emit.toArray n a (k (truthWord (op.holds l r)) a.world) := by
  have ht := h.turn hi
  rw [Machine.perform_comparison a h.stack] at ht
  exact .step ht (hk _ _ (h.go ht (congrArg (· + 1) h.pc) rfl rfl rfl))

/-- The word on top of the stack is negated. -/
theorem not {v : Int64} (h : frame.At m pc (v :: above) slots a) {n : Nat}
    {k : Int64 → Eval Int64} (hi : m.emit[pc]? = some (.bare .not))
    (hk : ∀ w b, frame.At m (pc + 1) (w :: above) slots b →
      Agrees m.emit.toArray n b (k w b.world)) :
    Agrees m.emit.toArray n a (k (truthWord (v = 0)) a.world) := by
  have ht := h.turn hi
  rw [Machine.perform_not a h.stack] at ht
  exact .step ht (hk _ _ (h.go ht (congrArg (· + 1) h.pc) rfl rfl rfl))

/-! ## Marks and jumps -/

/-- Past a mark. -/
theorem mark (h : frame.At m pc above slots a) {l : Label} {n : Nat} {k : Eval Int64}
    (hi : m.emit[pc]? = some (.ofLabel .mark l))
    (hk : ∀ b, frame.At m (pc + 1) above slots b → Agrees m.emit.toArray (n - 1) b (k b.world)) :
    Agrees m.emit.toArray n a (k a.world) := by
  have ht := h.turn hi
  rw [Instruction.ofLabel, Machine.perform_mark] at ht
  exact .step_pred ht (hk _ (h.go ht (congrArg (· + 1) h.pc) h.stack rfl rfl))

/-- To where a label is marked. -/
theorem jump (h : frame.At m pc above slots a) (hid : m.entry.id < 0x100000000) {l : Label}
    (hl : l.id < 0x100000000) {n address : Nat} {k : Eval Int64}
    (hi : m.emit[pc]? = some (.ofLabel .jump l))
    (hmark : m.emit[address]? = some (.ofLabel .mark l))
    (hk : ∀ b, frame.At m address above slots b → Agrees m.emit.toArray n b (k b.world)) :
    Agrees m.emit.toArray n a (k a.world) := by
  have ht := h.turn hi
  rw [Instruction.ofLabel, Machine.perform_jump a (h.ready.target?_mark hid hl hmark)] at ht
  exact .step ht (hk _ (h.go ht rfl h.stack rfl rfl))

/-- To where a label is marked if the word on top of the stack is 0, else past the jump. -/
theorem jumpIfZero {v : Int64} (h : frame.At m pc (v :: above) slots a)
    (hid : m.entry.id < 0x100000000) {l : Label} (hl : l.id < 0x100000000) {n address : Nat}
    {k : Int64 → Eval Int64} (hi : m.emit[pc]? = some (.ofLabel .jumpIfZero l))
    (hmark : m.emit[address]? = some (.ofLabel .mark l))
    (hzero : ∀ b, frame.At m address above slots b → Agrees m.emit.toArray n b (k 0 b.world))
    (hother : v ≠ 0 → ∀ b, frame.At m (pc + 1) above slots b →
      Agrees m.emit.toArray n b (k v b.world)) :
    Agrees m.emit.toArray n a (k v a.world) := by
  have ht := h.turn hi
  rw [Instruction.ofLabel, Machine.perform_jumpIfZero a h.stack
    (h.ready.target?_mark hid hl hmark)] at ht
  by_cases hv : v = 0
  · subst hv
    rw [if_pos rfl] at ht
    exact .step ht (hzero _ (h.go ht rfl rfl rfl rfl))
  · rw [if_neg hv] at ht
    exact .step ht (hother hv _ (h.go ht (congrArg (· + 1) h.pc) rfl rfl rfl))

/-! ## Words taken from the stack -/

theorem pop {v : Int64} (h : frame.At m pc (v :: above) slots a) {n : Nat} {k : Eval Int64}
    (hi : m.emit[pc]? = some (.bare .pop))
    (hk : ∀ b, frame.At m (pc + 1) above slots b → Agrees m.emit.toArray n b (k b.world)) :
    Agrees m.emit.toArray n a (k a.world) := by
  have ht := h.turn hi
  rw [Machine.perform_pop a h.stack] at ht
  exact .step ht (hk _ (h.go ht (congrArg (· + 1) h.pc) rfl rfl rfl))

/-- The word on top of the stack becomes the value of a slot. -/
theorem storeSlot {v : Int64} (h : frame.At m pc (v :: above) slots a) {slot : Nat}
    (hslot : slot < frame.locals) {n : Nat} {k : Eval Int64}
    (hi : m.emit[pc]? = some ⟨.storeSlot, Int64.ofNat slot⟩)
    (hk : ∀ b, frame.At m (pc + 1) above (slots.set slot v) b →
      Agrees m.emit.toArray n b (k b.world)) :
    Agrees m.emit.toArray n a (k a.world) := by
  refine .of_small fun hsmall => ?_
  have hlen := h.length_stack
  rw [List.length_cons] at hlen
  have hrest : (above ++ ((List.range frame.locals).map slots ++ frame.below)).length =
      above.length + (frame.locals + frame.below.length) := by simp
  have hindex := (a.advance a.pc (above ++ ((List.range frame.locals).map slots ++
    frame.below))).slotIndex?_ofNat h.fp hrest (show slot < _ by omega)
    (by simp only [Machine.advance_stack, hrest]; simp only [Machine.heightLimit] at hsmall; omega)
  have hstack : a.stack = v :: (above ++ ((List.range frame.locals).map slots ++ frame.below)) :=
    h.stack
  have ht := h.turn hi
  rw [Machine.perform_storeSlot a hstack hindex, set_slots hslot] at ht
  exact .step ht (hk _ (h.go ht (congrArg (· + 1) h.pc) rfl rfl rfl))

/-- The word on top of the stack is printed in decimal. -/
theorem putInt {v : Int64} (h : frame.At m pc (v :: above) slots a) {n : Nat}
    {k : Unit → Eval Int64} (hi : m.emit[pc]? = some (.bare .putInt))
    (hk : ∀ b, frame.At m (pc + 1) above slots b → Agrees m.emit.toArray n b (k () b.world)) :
    Agrees m.emit.toArray n a ((Eval.printInt v >>= k) a.world) := by
  have ht := h.turn hi
  rw [Machine.perform_putInt a h.stack, Machine.writeThen_of_room h.ready.room] at ht
  have hb := hk _ (h.go ht (congrArg (· + 1) h.pc) rfl rfl rfl)
  rw [Machine.world, Machine.advance_output, Sink.written_of_room h.ready.room] at hb
  exact .step ht hb

/-- What is on the heap at the word on top of the stack is printed. -/
theorem putString {v : Int64} (h : frame.At m pc (v :: above) slots a) {n : Nat}
    {k : Unit → Eval Int64} (hi : m.emit[pc]? = some (.bare .putString))
    (hk : ∀ b, frame.At m (pc + 1) above slots b → Agrees m.emit.toArray n b (k () b.world)) :
    Agrees m.emit.toArray n a ((Eval.printString v >>= k) a.world) := by
  have ht := h.turn hi
  rw [Machine.perform_putString a h.stack] at ht
  rw [Effect.bind_apply, Eval.printString]
  cases hs : (wordSize? v).bind a.heap.string? with
  | none =>
    have hnone : (wordSize? v).bind (stringAt? a.world.heap) = none := hs
    rw [hs] at ht
    rw [hnone]
    exact .of_stopped ht rfl rfl
  | some string =>
    have hsome : (wordSize? v).bind (stringAt? a.world.heap) = some string := hs
    rw [hs] at ht
    rw [hsome]
    simp only [Machine.writeThen_of_room h.ready.room] at ht
    have hb := hk _ (h.go ht (congrArg (· + 1) h.pc) rfl rfl rfl)
    rw [Machine.world, Machine.advance_output, Sink.written_of_room h.ready.room] at hb
    exact .step ht hb

end Frame.At

end StackLang
