import StackLang.Machine.Run
import StackLang.Proofs.Effect

/-!
# What an instruction may change

An instruction works on the registers and the stack. Only some operations also change the calls, take
input, add strings to the heap or write to the output; all else no instruction changes. What each of
these changes keeps, an instruction keeps, also when it fails; and each fails only with faults of its
own, never for the limit on steps, which is looked at before it.

Results:
* `Instruction.leads_execute`: an instruction leads only where its changes lead, or to its own faults.
* `Machine.perform_cases`: what becomes of a machine that executes an instruction.
* `Machine.turn_of_change`: what becomes of a machine in a turn.
* `Machine.written_of_turn`: output is only added to.
-/
namespace StackLang

/-- The operation writes to the output. -/
def Opcode.prints : Opcode → Bool
  | putInt | putStatic | putString => true
  | _ => false

/-- The operation takes values off the stack. -/
def Opcode.pops : Opcode → Bool
  | store | storeSlot | pop | add | sub | mul | div | mod | less | greater | equal | not | jumpIfZero
  | putInt | putString => true
  | _ => false

/-- What relates a machine to itself and to the machines that a change of an operation leaves. -/
structure Machine.Change (op : Opcode) (Q : Machine → Machine → Prop) : Prop where
  refl : ∀ m, Q m m
  trans : ∀ {a b c}, Q a b → Q b c → Q a c
  stack : ∀ m stack, Q m { m with stack }
  registers : ∀ m registers, Q m { m with registers }
  calls : op = .call ∨ op = .ret → ∀ m calls, Q m { m with calls }
  unread : op = .getByte → ∀ m unread, Q m { m with unread }
  allocate : op = .newString → ∀ m string, Q m { m with heap := (m.heap.allocateString string).2 }
  write : op.prints → ∀ m data, Q m { m with output := (m.output.write data).2 }

/-- The fault is that the limit on steps is used up. -/
def Fault.IsLimit : Fault → Prop
  | stepLimit _ => True
  | _ => False

/-- The faults that an instruction can fail with. -/
def Instruction.Fails (i : Instruction) : Fault → Prop
  | .stackUnderflow => i.opcode.pops
  | .callStackUnderflow => i.opcode = .ret
  | .divisionByZero => i.opcode = .div ∨ i.opcode = .mod
  | .heapOutOfBounds _ => i.opcode = .putString
  | .staticOutOfBounds offset => i.opcode.operandRole = .static ∧ i.operand = offset
  | .invalidRegister id => i.opcode.operandRole = .register ∧ i.operand = id
  | .invalidSlot slot => i.opcode.operandRole = .slot ∧ i.operand = slot
  | .unresolvedLabel id => (i.opcode.operandRole = .label ∧ i.opcode ≠ .mark) ∧ i.operand = id
  | .trap => i.opcode = .trap
  | .stepLimit _ => False
  | .output _ => i.opcode.prints

theorem Instruction.Fails.not_isLimit {i : Instruction} {fault : Fault} (h : i.Fails fault) :
    ¬ fault.IsLimit := by
  cases fault with
  | stepLimit => exact h.elim
  | _ => exact id

namespace Exec

variable {op : Opcode} {Q : Machine → Machine → Prop} {P : Fault → Prop} {α β : Type}

/-- A part of an instruction that relates the machine it starts with to the one it leaves, also when
it fails, and fails only with certain faults. -/
def Leads (Q : Machine → Machine → Prop) (P : Fault → Prop) (x : Exec α) : Prop :=
  ∀ m, match x m with
    | .ok _ m' => Q m m'
    | .error fault m' => Q m m' ∧ P fault

variable (hQ : Machine.Change op Q)

include hQ

theorem leads_pure (a : α) : Leads Q P (pure a) := fun m => hQ.refl m

theorem leads_get : Leads Q P get := fun m => hQ.refl m

theorem leads_throw {fault : Fault} (hf : P fault) : Leads Q P (throw fault : Exec α) :=
  fun m => ⟨hQ.refl m, hf⟩

omit hQ in
theorem leads_modify {f : Machine → Machine} (h : ∀ m, Q m (f m)) : Leads Q P (modify f) := h

theorem leads_bind {x : Exec α} {f : α → Exec β} (hx : Leads Q P x) (hf : ∀ a, Leads Q P (f a)) :
    Leads Q P (x >>= f) := by
  intro m
  have hm := hx m
  rw [Effect.bind_apply]
  cases h : x m with
  | error e m' => rw [h] at hm; exact hm
  | ok a m' =>
    rw [h] at hm
    have hm' := hf a m'
    simp only at hm ⊢
    split
    · rename_i hfa
      rw [hfa] at hm'
      exact hQ.trans hm hm'
    · rename_i hfa
      rw [hfa] at hm'
      exact ⟨hQ.trans hm hm'.1, hm'.2⟩

theorem leads_require (value : Option α) {fault : Fault} (hf : P fault) :
    Leads Q P (require value fault) := by
  intro m
  cases value with
  | none => exact ⟨hQ.refl m, hf⟩
  | some a => exact hQ.refl m

theorem leads_push (value : Int64) : Leads Q P (push value) := fun m => hQ.stack m _

theorem leads_pop (hf : P .stackUnderflow) : Leads Q P pop := by
  intro m
  cases h : m.stack with
  | nil => simp only [pop, h]; exact ⟨hQ.refl m, hf⟩
  | cons value rest => simp only [pop, h]; exact hQ.stack m rest

theorem leads_register {operand : Int64} (hf : P (.invalidRegister operand)) :
    Leads Q P (register operand) := leads_require hQ _ hf

theorem leads_setRegister (r : Register) (value : Int64) : Leads Q P (setRegister r value) :=
  leads_modify fun m => hQ.registers m _

theorem leads_jump {operand : Int64} (hf : P (.unresolvedLabel operand)) :
    Leads Q P (jump operand) :=
  leads_bind hQ (leads_get hQ) fun _ => leads_bind hQ (leads_require hQ _ hf) fun _ =>
    leads_pure hQ _

theorem leads_write (hop : op.prints) (data : List UInt8) (hf : ∀ error, P (.output error)) :
    Leads Q P (write data) := by
  intro m
  rw [write]
  cases h : (m.output.write data).1 with
  | true => simp only [h]; exact hQ.write hop m data
  | false => simp only [h]; exact ⟨hQ.write hop m data, hf _⟩

theorem leads_arithmetic (hf : P .stackUnderflow) (op : Int64 → Int64 → Int64) :
    Leads Q P (arithmetic op) :=
  leads_bind hQ (leads_pop hQ hf) fun _ => leads_bind hQ (leads_pop hQ hf) fun _ =>
    leads_push hQ _

theorem leads_comparison (hf : P .stackUnderflow) (op : Int64 → Int64 → Bool) :
    Leads Q P (comparison op) :=
  leads_bind hQ (leads_pop hQ hf) fun _ => leads_bind hQ (leads_pop hQ hf) fun _ =>
    leads_push hQ _

theorem leads_division (hf : P .stackUnderflow) (hz : P .divisionByZero)
    (op : Int64 → Int64 → Int64) : Leads Q P (division op) := by
  refine leads_bind hQ (leads_pop hQ hf) fun _ => leads_bind hQ (leads_pop hQ hf) fun _ => ?_
  split
  · exact leads_throw hQ hz
  · exact leads_push hQ _

end Exec

open Exec in
/-- An instruction leads only where its changes lead, and fails only with its own faults. -/
theorem Instruction.leads_execute {i : Instruction} {Q : Machine → Machine → Prop}
    (hQ : Machine.Change i.opcode Q) : Leads Q i.Fails i.execute := by
  obtain ⟨op, operand⟩ := i
  have thenNext {α : Type} {x : Exec α} (h : Leads Q (Fails ⟨op, operand⟩) x) :
      Leads Q (Fails ⟨op, operand⟩) (x >>= fun _ => pure Continuation.next) :=
    leads_bind hQ h fun _ => leads_pure hQ _
  cases op with
  | loadImmediate => exact thenNext (leads_push hQ _)
  | load =>
    exact leads_bind hQ (leads_register hQ ⟨rfl, rfl⟩) fun _ => leads_bind hQ (leads_get hQ) fun _ =>
      thenNext (leads_push hQ _)
  | store =>
    exact leads_bind hQ (leads_register hQ ⟨rfl, rfl⟩) fun _ =>
      leads_bind hQ (leads_pop hQ rfl) fun _ => thenNext (leads_setRegister hQ _ _)
  | loadSlot =>
    exact leads_bind hQ (leads_get hQ) fun _ =>
      leads_bind hQ (leads_require hQ _ ⟨rfl, rfl⟩) fun _ => thenNext (leads_push hQ _)
  | storeSlot =>
    exact leads_bind hQ (leads_pop hQ rfl) fun _ => leads_bind hQ (leads_get hQ) fun _ =>
      leads_bind hQ (leads_require hQ _ ⟨rfl, rfl⟩) fun _ =>
        thenNext (leads_modify fun m => hQ.stack m _)
  | pop => exact thenNext (leads_pop hQ rfl)
  | setFrame => exact leads_bind hQ (leads_get hQ) fun _ => thenNext (leads_setRegister hQ _ _)
  | add | sub | mul =>
    refine thenNext (leads_arithmetic hQ ?_ _)
    rfl
  | div =>
    refine thenNext (leads_division hQ ?_ ?_ _)
    · rfl
    · exact .inl rfl
  | mod =>
    refine thenNext (leads_division hQ ?_ ?_ _)
    · rfl
    · exact .inr rfl
  | less | greater | equal =>
    refine thenNext (leads_comparison hQ ?_ _)
    rfl
  | not => exact leads_bind hQ (leads_pop hQ rfl) fun _ => thenNext (leads_push hQ _)
  | jump => exact leads_jump hQ ⟨⟨rfl, nofun⟩, rfl⟩
  | jumpIfZero =>
    refine leads_bind hQ (leads_pop hQ rfl) fun value => ?_
    split
    · exact leads_jump hQ ⟨⟨rfl, nofun⟩, rfl⟩
    · exact leads_pure hQ _
  | call =>
    exact leads_bind hQ (leads_jump hQ ⟨⟨rfl, nofun⟩, rfl⟩) fun _ =>
      leads_bind hQ (leads_modify fun m => hQ.calls (.inl rfl) m _) fun _ => leads_pure hQ _
  | ret =>
    intro m
    cases h : m.calls with
    | nil => simp [execute, h, hQ.refl, Fails]
    | cons address calls =>
      have := hQ.trans (hQ.calls (.inr rfl) m calls)
        (hQ.stack { m with calls } (m.registers.r0 :: m.stack))
      simp [execute, h, push, this]
  | increment =>
    exact leads_bind hQ (leads_register hQ ⟨rfl, rfl⟩) fun _ => leads_bind hQ (leads_get hQ) fun _ =>
      thenNext (leads_setRegister hQ _ _)
  | mark | halt => exact leads_pure hQ _
  | putInt =>
    exact leads_bind hQ (leads_pop hQ rfl) fun _ => thenNext (leads_write hQ rfl _ fun _ => rfl)
  | putStatic =>
    exact leads_bind hQ (leads_get hQ) fun _ =>
      leads_bind hQ (leads_require hQ _ ⟨rfl, rfl⟩) fun _ =>
        thenNext (leads_write hQ rfl _ fun _ => rfl)
  | newString =>
    intro m
    cases h : m.static? operand with
    | none => simp [execute, require, h, hQ.refl, Fails, Opcode.operandRole]
    | some string =>
      have := hQ.trans (hQ.allocate rfl m string) (hQ.stack _ (sizeWord m.heap.size :: m.stack))
      simpa [execute, require, h, push, Heap.allocateString] using this
  | putString =>
    exact leads_bind hQ (leads_pop hQ rfl) fun _ => leads_bind hQ (leads_get hQ) fun _ =>
      leads_bind hQ (leads_require hQ _ rfl) fun _ => thenNext (leads_write hQ rfl _ fun _ => rfl)
  | getByte =>
    intro m
    cases h : m.unread with
    | nil => simpa [execute, h, push] using hQ.stack m (-1 :: m.stack)
    | cons byte unread =>
      have := hQ.trans (hQ.unread rfl m unread)
        (hQ.stack { m with unread } (Int64.ofNat byte.toNat :: m.stack))
      simp [execute, h, push, this]
  | trap => exact leads_throw hQ rfl

/-- The machine that a turn leaves. -/
def Turn.machine : Turn → Machine
  | running m | stopped m _ => m

namespace Machine

variable {code : Array Instruction}

/-- What becomes of a machine that executes an instruction: it goes on at some address, stops, or
fails where it stands. -/
theorem perform_cases {i : Instruction} {Q : Machine → Machine → Prop} (hQ : Change i.opcode Q)
    (m : Machine) :
    ∃ b, Q { m with steps := m.steps + 1 } b ∧ ((∃ pc, m.perform i = .running { b with pc }) ∨
      m.perform i = .stopped b none ∨
      ∃ fault, i.Fails fault ∧ m.perform i = .stopped b (some ⟨fault, m.pc, i.opcode⟩)) := by
  have h := Instruction.leads_execute hQ { m with steps := m.steps + 1 }
  unfold perform
  split
  · rename_i b hx
    rw [hx] at h
    exact ⟨b, h, .inl ⟨m.pc + 1, rfl⟩⟩
  · rename_i address b hx
    rw [hx] at h
    exact ⟨b, h, .inl ⟨address, rfl⟩⟩
  · rename_i b hx
    rw [hx] at h
    exact ⟨b, h, .inr (.inl rfl)⟩
  · rename_i fault b hx
    rw [hx] at h
    exact ⟨b, h.1, .inr (.inr ⟨fault, h.2, rfl⟩)⟩

/-- What has been written stays. -/
theorem change_written (op : Opcode) :
    Change op fun a b => a.output.written <+: b.output.written where
  refl _ := List.prefix_rfl
  trans := List.IsPrefix.trans
  stack _ _ := List.prefix_rfl
  registers _ _ := List.prefix_rfl
  calls _ _ _ := List.prefix_rfl
  unread _ _ _ := List.prefix_rfl
  allocate _ _ _ := List.prefix_rfl
  write _ m data := by rw [Sink.written_write]; exact List.prefix_append _ _

/-- What the changes of all instructions keep, a turn keeps, if the count of steps and the address do not
matter to it. -/
theorem turn_of_change {Q : Machine → Machine → Prop} (hQ : ∀ op, Change op Q)
    (steps : ∀ m steps, Q m { m with steps }) (pc : ∀ m pc, Q m { m with pc }) (m : Machine) :
    Q m (m.turn code).machine := by
  unfold turn takeTurn
  split
  · exact (hQ .halt).refl m
  · rename_i i _
    split
    · exact (hQ .halt).refl m
    · obtain ⟨b, hb, ⟨address, h⟩ | h | ⟨fault, -, h⟩⟩ := perform_cases (hQ i.opcode) m
      · have hexecuted : Q m b := (hQ i.opcode).trans (steps m _) hb
        rw [h]
        exact (hQ i.opcode).trans hexecuted (pc b address)
      · rw [h]
        exact (hQ i.opcode).trans (steps m _) hb
      · rw [h]
        exact (hQ i.opcode).trans (steps m _) hb

/-- Output is only added to. -/
theorem written_of_turn (m : Machine) : m.output.written <+: (m.turn code).machine.output.written :=
  turn_of_change change_written (fun _ _ => List.prefix_rfl) (fun _ _ => List.prefix_rfl) m

end Machine
end StackLang
