import StackLang.Proofs.Run.Moves

/-!
# What instructions do not look at

Instructions work on the registers, the stack, the heap, the input and the output. A change to the
rest of a machine that leaves these alone is one `aside`: it can be made before an instruction that
does not jump, call, return or read static data, or after it. Where the change also leaves the labels,
the static data and the calls alone, that is so of every instruction. A change that does not leave the
input and the output alone is only `silent`: it can be made before or after an instruction that neither
reads nor prints.

Results:
* `Instruction.commutes_of_isLocal`, `Instruction.commutes`: an instruction and a change aside can be
  made in any order.
* `Instruction.commutes_of_silent`: the same of a silent change, if reading and writing allow it.
* `Machine.perform_map`: the same of executing it at its address.
-/
namespace StackLang

/-- The instruction needs nothing but the registers, the stack, the heap, the input and the output. -/
def Opcode.isLocal : Opcode → Bool
  | jump | jumpIfZero | call | ret | putStatic | newString => false
  | _ => true

namespace Machine

/-- A change that leaves alone what instructions work on but the input and the output, and is not undone
by them. -/
structure Silent (g : Machine → Machine) : Prop where
  registers : ∀ m, (g m).registers = m.registers := by intros; rfl
  stack : ∀ m, (g m).stack = m.stack := by intros; rfl
  heap : ∀ m, (g m).heap = m.heap := by intros; rfl
  set_registers : ∀ m registers, g { m with registers } = { g m with registers } := by intros; rfl
  set_stack : ∀ m stack, g { m with stack } = { g m with stack } := by intros; rfl
  set_heap : ∀ m heap, g { m with heap } = { g m with heap } := by intros; rfl

/-- A change that leaves alone what instructions work on, and is not undone by them. -/
structure Aside (g : Machine → Machine) : Prop extends Silent g where
  unread : ∀ m, (g m).unread = m.unread := by intros; rfl
  set_unread : ∀ m unread, g { m with unread } = { g m with unread } := by intros; rfl
  output : ∀ m, (g m).output = m.output := by intros; rfl
  set_output : ∀ m output, g { m with output } = { g m with output } := by intros; rfl

/-- A silent change that also leaves alone where jumps, calls and returns lead, the static data and the
count of steps. -/
structure FarSilent (g : Machine → Machine) : Prop extends Silent g where
  labels : ∀ m, (g m).labels = m.labels := by intros; rfl
  statics : ∀ m, (g m).statics = m.statics := by intros; rfl
  pc : ∀ m, (g m).pc = m.pc := by intros; rfl
  calls : ∀ m, (g m).calls = m.calls := by intros; rfl
  steps : ∀ m, (g m).steps = m.steps := by intros; rfl
  set_pc : ∀ m pc, g { m with pc } = { g m with pc } := by intros; rfl
  set_calls : ∀ m calls, g { m with calls } = { g m with calls } := by intros; rfl
  set_steps : ∀ m steps, g { m with steps } = { g m with steps } := by intros; rfl

/-- A change aside that also leaves alone where jumps, calls and returns lead, the static data and the
count of steps. -/
structure FarAside (g : Machine → Machine) : Prop extends Aside g, FarSilent g

theorem Silent.slotIndex? {g : Machine → Machine} (hg : Silent g) (m : Machine) (slot : Int64) :
    (g m).slotIndex? slot = m.slotIndex? slot := by
  simp only [Machine.slotIndex?, Machine.slotHeight?, hg.registers, hg.stack]

end Machine

namespace Exec

variable {g : Machine → Machine} {α β : Type}

/-- The result of a computation, with its machine changed. -/
def mapMachine (g : Machine → Machine) :
    EStateM.Result Fault Machine α → EStateM.Result Fault Machine α
  | .ok a m => .ok a (g m)
  | .error e m => .error e (g m)

/-- A part of an instruction before or after which a change can be made. -/
def Commutes (g : Machine → Machine) (x : Exec α) : Prop := ∀ m, x (g m) = mapMachine g (x m)

theorem commutes_pure (a : α) : Commutes g (pure a) := fun _ => rfl

theorem commutes_throw (fault : Fault) : Commutes g (throw fault : Exec α) := fun _ => rfl

theorem commutes_bind {x : Exec α} {f : α → Exec β} (hx : Commutes g x)
    (hf : ∀ a, Commutes g (f a)) : Commutes g (x >>= f) := by
  intro m
  rw [Effect.bind_apply, Effect.bind_apply, hx m]
  cases x m with
  | ok a m' => exact hf a m'
  | error e m' => rfl

/-- What is read of a machine has to be what is read of the changed one. -/
theorem commutes_get_bind {f : Machine → Exec β} (hsame : ∀ m, f (g m) = f m)
    (hf : ∀ m, Commutes g (f m)) : Commutes g (get >>= f) := by
  intro m
  rw [Effect.bind_apply, Effect.bind_apply]
  simp only [Effect.get_apply, hsame]
  exact hf m m

theorem commutes_modify {f : Machine → Machine} (h : ∀ m, f (g m) = g (f m)) :
    Commutes g (modify f) := fun m => by
  rw [Effect.modify_apply, Effect.modify_apply, h]; rfl

theorem commutes_require (value : Option α) (fault : Fault) : Commutes g (require value fault) := by
  intro m
  cases value <;> rfl

theorem commutes_register (operand : Int64) : Commutes g (register operand) := commutes_require _ _

/-- A change that leaves the output alone can be made before writing, or after it. -/
theorem commutes_write (output : ∀ m, (g m).output = m.output)
    (set_output : ∀ m output, g { m with output } = { g m with output }) (data : List UInt8) :
    Commutes g (write data) := by
  intro m
  cases h : (m.output.write data).1 <;>
    simp [write, output m, h, mapMachine, set_output m (m.output.write data).2]

section

variable (hg : Machine.Silent g)

include hg

theorem commutes_push (value : Int64) : Commutes g (push value) := fun m => by
  simp only [push, mapMachine, hg.stack m, hg.set_stack m (value :: m.stack)]

theorem commutes_pop : Commutes g pop := by
  intro m
  cases h : m.stack with
  | nil => simp only [pop, hg.stack m, h, mapMachine]
  | cons value rest => simp only [pop, hg.stack m, h, mapMachine, hg.set_stack m rest]

theorem commutes_setRegister (r : Register) (value : Int64) : Commutes g (setRegister r value) :=
  commutes_modify fun m => by rw [hg.registers m, hg.set_registers m (m.registers.set r value)]

theorem commutes_arithmetic (op : Int64 → Int64 → Int64) : Commutes g (arithmetic op) :=
  commutes_bind (commutes_pop hg) fun _ => commutes_bind (commutes_pop hg) fun _ => commutes_push hg _

theorem commutes_comparison (op : Int64 → Int64 → Bool) : Commutes g (comparison op) :=
  commutes_bind (commutes_pop hg) fun _ => commutes_bind (commutes_pop hg) fun _ => commutes_push hg _

theorem commutes_division (op : Int64 → Int64 → Int64) : Commutes g (division op) := by
  refine commutes_bind (commutes_pop hg) fun _ => commutes_bind (commutes_pop hg) fun _ => ?_
  split
  · exact commutes_throw _
  · exact commutes_push hg _

/-- A silent change that leaves the input alone can be made before reading, or after it. -/
theorem commutes_read (unread : ∀ m, (g m).unread = m.unread)
    (set_unread : ∀ m unread, g { m with unread } = { g m with unread }) {i : Instruction}
    (hi : i.opcode = .getByte) : Commutes g i.execute := by
  obtain ⟨op, operand⟩ := i
  obtain rfl : op = .getByte := hi
  intro m
  cases h : m.unread with
  | nil =>
    have hpush := hg.set_stack m (-1 :: m.stack)
    simpa [Instruction.execute, unread m, h, push, mapMachine, hg.stack m] using hpush.symm
  | cons byte rest =>
    have hread := set_unread m rest
    have hpush := hg.set_stack { m with unread := rest } (Int64.ofNat byte.toNat :: m.stack)
    rw [hread] at hpush
    simp [Instruction.execute, unread m, h, push, mapMachine, hg.stack m, hpush]

end

end Exec

open Exec in
/-- A silent change can be made before an instruction that needs nothing else, or after it, if the
change and what the instruction reads or writes can be made in any order. -/
theorem Instruction.commutes_of_isLocal_of_silent {g : Machine → Machine} (hg : Machine.Silent g)
    {i : Instruction} (hi : i.opcode.isLocal) (hread : i.opcode = .getByte → Commutes g i.execute)
    (hwrite : i.opcode.prints → ∀ data, Commutes g (write data)) : Commutes g i.execute := by
  obtain ⟨op, operand⟩ := i
  have thenNext {α : Type} {x : Exec α} (h : Commutes g x) :
      Commutes g (x >>= fun _ => pure Continuation.next) := commutes_bind h fun _ => commutes_pure _
  cases op with
  | jump | jumpIfZero | call | ret | putStatic | newString => cases hi
  | loadImmediate => exact thenNext (commutes_push hg _)
  | load =>
    exact commutes_bind (commutes_register _) fun r => commutes_get_bind
      (fun m => by rw [hg.registers]) fun m => thenNext (commutes_push hg _)
  | store =>
    exact commutes_bind (commutes_register _) fun _ => commutes_bind (commutes_pop hg) fun _ =>
      thenNext (commutes_setRegister hg _ _)
  | loadSlot =>
    exact commutes_get_bind (fun m => by rw [hg.slotIndex?, hg.stack]) fun m =>
      commutes_bind (commutes_require _ _) fun _ => thenNext (commutes_push hg _)
  | storeSlot =>
    exact commutes_bind (commutes_pop hg) fun _ => commutes_get_bind
      (fun m => by rw [hg.slotIndex?]) fun m => commutes_bind (commutes_require _ _) fun _ =>
        thenNext (commutes_modify fun m => by rw [hg.stack m, hg.set_stack m (m.stack.set _ _)])
  | pop => exact thenNext (commutes_pop hg)
  | setFrame =>
    exact commutes_get_bind (fun m => by rw [hg.stack]) fun m =>
      thenNext (commutes_setRegister hg _ _)
  | add | sub | mul => exact thenNext (commutes_arithmetic hg _)
  | div | mod => exact thenNext (commutes_division hg _)
  | less | greater | equal => exact thenNext (commutes_comparison hg _)
  | not => exact commutes_bind (commutes_pop hg) fun _ => thenNext (commutes_push hg _)
  | increment =>
    exact commutes_bind (commutes_register _) fun r => commutes_get_bind
      (fun m => by rw [hg.registers]) fun m => thenNext (commutes_setRegister hg _ _)
  | mark | halt => exact commutes_pure _
  | putInt => exact commutes_bind (commutes_pop hg) fun _ => thenNext (hwrite rfl _)
  | putString =>
    exact commutes_bind (commutes_pop hg) fun _ => commutes_get_bind (fun m => by rw [hg.heap])
      fun m => commutes_bind (commutes_require _ _) fun _ => thenNext (hwrite rfl _)
  | getByte => exact hread rfl
  | trap => exact commutes_throw _

open Exec in
/-- A change aside can be made before an instruction that needs nothing else, or after it. -/
theorem Instruction.commutes_of_isLocal {g : Machine → Machine} (hg : Machine.Aside g)
    {i : Instruction} (hi : i.opcode.isLocal) : Commutes g i.execute :=
  commutes_of_isLocal_of_silent hg.toSilent hi (commutes_read hg.toSilent hg.unread hg.set_unread)
    fun _ => commutes_write hg.output hg.set_output

open Exec in
/-- A silent change that leaves alone all else that instructions look at can be made before one, or after
it, if the change and what the instruction reads or writes can be made in any order. -/
theorem Instruction.commutes_of_silent {g : Machine → Machine} (hg : Machine.FarSilent g)
    (i : Instruction) (hread : i.opcode = .getByte → Commutes g i.execute)
    (hwrite : i.opcode.prints → ∀ data, Commutes g (write data)) : Commutes g i.execute := by
  by_cases hi : i.opcode.isLocal
  · exact commutes_of_isLocal_of_silent hg.toSilent hi hread hwrite
  obtain ⟨op, operand⟩ := i
  have htarget (m : Machine) : (g m).target? operand = m.target? operand := by
    simp only [Machine.target?, hg.labels]
  have hstatic (m : Machine) : (g m).static? operand = m.static? operand := by
    simp only [Machine.static?, hg.statics]
  have thenNext {α : Type} {x : Exec α} (h : Commutes g x) :
      Commutes g (x >>= fun _ => pure Continuation.next) := commutes_bind h fun _ => commutes_pure _
  have hjump : Commutes g (Exec.jump operand) :=
    commutes_get_bind (fun m => by rw [htarget]) fun m =>
      commutes_bind (commutes_require _ _) fun _ => commutes_pure _
  cases op with
  | jump => exact hjump
  | jumpIfZero =>
    refine commutes_bind (commutes_pop hg.toSilent) fun value => ?_
    split
    · exact hjump
    · exact commutes_pure _
  | call =>
    refine commutes_bind hjump fun _ => commutes_bind (commutes_modify fun m => ?_) fun _ =>
      commutes_pure _
    have hcalls := hg.set_calls m ((m.pc + 1) :: m.calls)
    simpa [hg.pc m, hg.calls m] using hcalls.symm
  | ret =>
    intro m
    cases h : m.calls with
    | nil => simp [execute, hg.calls m, h, mapMachine]
    | cons address calls =>
      have hcalls := hg.set_calls m calls
      have hpush := hg.set_stack { m with calls } (m.registers.r0 :: m.stack)
      rw [hcalls] at hpush
      simp [execute, hg.calls m, h, push, mapMachine, hg.stack m, hg.registers m, hpush]
  | putStatic =>
    exact commutes_get_bind (fun m => by rw [hstatic]) fun m =>
      commutes_bind (commutes_require _ _) fun _ => thenNext (hwrite rfl _)
  | newString =>
    intro m
    cases h : m.static? operand with
    | none => simp [execute, require, hstatic m, h, mapMachine]
    | some string =>
      have hheap := hg.set_heap m (m.heap.allocateString string).2
      have hpush := hg.set_stack { m with heap := (m.heap.allocateString string).2 }
        (sizeWord (m.heap.allocateString string).1 :: m.stack)
      rw [hheap] at hpush
      simp [execute, require, hstatic m, h, push, mapMachine, hg.heap m, hg.stack m, hpush]
  | _ => exact absurd rfl hi

open Exec in
/-- A change that leaves alone all that instructions look at can be made before one, or after it. -/
theorem Instruction.commutes {g : Machine → Machine} (hg : Machine.FarAside g) (i : Instruction) :
    Commutes g i.execute :=
  i.commutes_of_silent hg.toFarSilent (commutes_read hg.toSilent hg.unread hg.set_unread)
    fun _ => commutes_write hg.output hg.set_output

/-- A turn, with its machine changed. -/
def Turn.map (g : Machine → Machine) : Turn → Turn
  | running m => .running (g m)
  | stopped m failure? => .stopped (g m) failure?

/-- A silent change can be made before an instruction is executed at its address, or after it, if it
can be made before or after the instruction. -/
theorem Machine.perform_map_of_commutes {g : Machine → Machine} (hg : FarSilent g) (m : Machine)
    {i : Instruction} (hi : Exec.Commutes g i.execute) : (g m).perform i = (m.perform i).map g := by
  have h : i.execute { g m with steps := (g m).steps + 1 } =
      Exec.mapMachine g (i.execute { m with steps := m.steps + 1 }) := by
    rw [hg.steps m, ← hg.set_steps m (m.steps + 1)]
    exact hi _
  rw [perform, perform, h, hg.pc m]
  cases i.execute { m with steps := m.steps + 1 } with
  | error fault b => rfl
  | ok flow b =>
    cases flow with
    | next => exact congrArg Turn.running (hg.set_pc b (m.pc + 1)).symm
    | jump address => exact congrArg Turn.running (hg.set_pc b address).symm
    | halt => rfl

/-- A change aside can be made before an instruction is executed, or after it. -/
theorem Machine.perform_map {g : Machine → Machine} (hg : FarAside g) (m : Machine)
    (i : Instruction) : (g m).perform i = (m.perform i).map g :=
  perform_map_of_commutes hg.toFarSilent m (i.commutes hg)

end StackLang
