import StackLang.Proofs.Run.Instructions
import StackLang.Proofs.Run.Moves

/-!
# Where an instruction leads

Few operations decide where execution goes on. A jump leads to the address of its label, a call does the
same and saves the address after it, and a return goes back to the address that was saved last. After any
other instruction that does not halt, the next one is executed. An instruction that halts or fails stays
where it is, and leaves the calls as they are.

Results:
* `Instruction.yields_of_not_isTransfer`: where execution goes on after the other instructions.
* `Machine.goes_perform`: what becomes of the address and the calls of a machine.
* `Machine.goes_turn`: the same of a turn.
-/
namespace StackLang

/-- The operation can lead to another address than the next one. -/
def Opcode.isTransfer : Opcode → Bool
  | jump | jumpIfZero | call | ret => true
  | _ => false

namespace Exec

variable {flow : Continuation} {α : Type}

/-- An instruction, or the rest of one, after which execution goes on in one way unless it fails. -/
def Yields (flow : Continuation) (x : Exec Continuation) : Prop :=
  ∀ {m flow' b}, x m = .ok flow' b → flow' = flow

theorem yields_pure (flow : Continuation) : Yields flow (pure flow) := fun h => by cases h; rfl

theorem yields_throw (fault : Fault) : Yields flow (throw fault) := fun h => nomatch h

theorem yields_bind {x : Exec α} {f : α → Exec Continuation} (hf : ∀ a, Yields flow (f a)) :
    Yields flow (x >>= f) := by
  intro m flow' b h
  rw [Effect.bind_apply] at h
  cases hx : x m with
  | ok a c => rw [hx] at h; exact hf a h
  | error fault c => rw [hx] at h; cases h

end Exec

open Exec in
/-- Execution goes on at the next address after an instruction that cannot lead elsewhere and does not
halt. -/
theorem Instruction.yields_of_not_isTransfer {i : Instruction} (hi : i.opcode.isTransfer = false) :
    Yields (if i.opcode = .halt then .halt else .next) i.execute := by
  obtain ⟨op, operand⟩ := i
  cases op with
  | jump | jumpIfZero | call | ret => cases hi
  | mark | halt => exact yields_pure _
  | trap => exact yields_throw _
  | pop | add | sub | mul | div | mod | less | greater | equal | loadImmediate =>
    exact yields_bind fun _ => yields_pure _
  | not | putInt | setFrame => exact yields_bind fun _ => yields_bind fun _ => yields_pure _
  | load | store | loadSlot | increment | putStatic =>
    exact yields_bind fun _ => yields_bind fun _ => yields_bind fun _ => yields_pure _
  | storeSlot | putString =>
    exact yields_bind fun _ => yields_bind fun _ => yields_bind fun _ => yields_bind fun _ =>
      yields_pure _
  | newString =>
    exact yields_bind fun _ => yields_bind fun _ => yields_bind fun _ => yields_bind fun _ =>
      yields_bind fun _ => yields_pure _
  | getByte =>
    refine yields_bind fun m => ?_
    cases m.unread with
    | nil => exact yields_bind fun _ => yields_pure _
    | cons => exact yields_bind fun _ => yields_bind fun _ => yields_pure _

namespace Machine

/-- Instructions leave their address to the end. -/
theorem change_pc (op : Opcode) : Change op fun a b => b.pc = a.pc where
  refl _ := rfl
  trans hab hbc := hbc.trans hab
  stack _ _ := rfl
  registers _ _ := rfl
  calls _ _ _ := rfl
  unread _ _ _ := rfl
  allocate _ _ _ := rfl
  write _ _ _ := rfl

/-- Only calls and returns change the calls. -/
theorem change_calls {op : Opcode} (h : op.isTransfer = false) :
    Change op fun a b => b.calls = a.calls where
  refl _ := rfl
  trans hab hbc := hbc.trans hab
  stack _ _ := rfl
  registers _ _ := rfl
  calls hop := by rcases hop with rfl | rfl <;> cases h
  unread _ _ _ := rfl
  allocate _ _ _ := rfl
  write _ _ _ := rfl

/-- What becomes of the address and the calls of a machine that executes an instruction. -/
inductive Goes (m : Machine) (i : Instruction) : Turn → Prop where
  | next {b : Machine} (hi : i.opcode ∉ [.jump, .call, .ret, .halt]) (pc : b.pc = m.pc + 1)
    (calls : b.calls = m.calls) : Goes m i (.running b)
  | jumps {b : Machine} (hi : i.opcode = .jump ∨ i.opcode = .jumpIfZero)
    (target : m.target? i.operand = some b.pc) (calls : b.calls = m.calls) : Goes m i (.running b)
  | calls {b : Machine} (hi : i.opcode = .call) (target : m.target? i.operand = some b.pc)
    (calls : b.calls = (m.pc + 1) :: m.calls) : Goes m i (.running b)
  | returns {b : Machine} (hi : i.opcode = .ret) (calls : m.calls = b.pc :: b.calls) :
    Goes m i (.running b)
  | halts {b : Machine} (hi : i.opcode = .halt) (pc : b.pc = m.pc) (calls : b.calls = m.calls) :
    Goes m i (.stopped b none)
  | fails {b : Machine} {fault : Fault} (hi : i.Fails fault)
    (target : ∀ id, fault = .unresolvedLabel id → m.target? i.operand = none) (pc : b.pc = m.pc)
    (calls : b.calls = m.calls) : Goes m i (.stopped b (some ⟨fault, m.pc, i.opcode⟩))

theorem goes_of_not_isTransfer (m : Machine) {i : Instruction} (hi : i.opcode.isTransfer = false) :
    m.Goes i (m.perform i) := by
  have hpc := Instruction.leads_execute (change_pc i.opcode) { m with steps := m.steps + 1 }
  have hcalls := Instruction.leads_execute (change_calls hi) { m with steps := m.steps + 1 }
  unfold perform
  generalize hr : i.execute { m with steps := m.steps + 1 } = r at hpc hcalls ⊢
  cases r with
  | ok flow b =>
    obtain rfl := Instruction.yields_of_not_isTransfer hi hr
    by_cases hop : i.opcode = .halt
    · simp only [if_pos hop]
      exact .halts hop hpc hcalls
    · simp only [if_neg hop]
      refine .next (fun hmem => ?_) rfl hcalls
      simp only [List.mem_cons, List.not_mem_nil, or_false, hop] at hmem
      rcases hmem with h | h | h <;> rw [h] at hi <;> cases hi
  | error fault b =>
    refine .fails hpc.2 ?_ hpc.1 hcalls.1
    rintro id rfl
    obtain ⟨⟨hrole, hmark⟩, -⟩ := hpc.2
    generalize i.opcode = op at hi hrole hmark
    cases op with
    | mark => exact absurd rfl hmark
    | jump | jumpIfZero | call => cases hi
    | _ => cases hrole

/-- What becomes of the address and the calls of a machine that executes an instruction. -/
theorem goes_perform (m : Machine) (i : Instruction) : m.Goes i (m.perform i) := by
  obtain ⟨op, operand⟩ := i
  cases op with
  | jump =>
    cases h : m.target? operand with
    | some address => rw [m.perform_jump h]; exact .jumps (.inl rfl) h rfl
    | none => rw [m.perform_jump_of_none h]; exact .fails ⟨⟨rfl, nofun⟩, rfl⟩ (fun _ _ => h) rfl rfl
  | jumpIfZero =>
    cases hs : m.stack with
    | nil => rw [m.perform_jumpIfZero_of_empty hs]; exact .fails rfl (fun _ h => nomatch h) rfl rfl
    | cons value rest =>
      cases h : m.target? operand with
      | some address =>
        rw [m.perform_jumpIfZero hs h]
        split
        · exact .jumps (.inr rfl) h rfl
        · exact .next (by simp) rfl rfl
      | none =>
        rw [m.perform_jumpIfZero_of_none hs h]
        split
        · exact .fails ⟨⟨rfl, nofun⟩, rfl⟩ (fun _ _ => h) rfl rfl
        · exact .next (by simp) rfl rfl
  | call =>
    cases h : m.target? operand with
    | some address => rw [m.perform_call h]; exact .calls rfl h rfl
    | none => rw [m.perform_call_of_none h]; exact .fails ⟨⟨rfl, nofun⟩, rfl⟩ (fun _ _ => h) rfl rfl
  | ret =>
    have hret : m.perform ⟨.ret, operand⟩ = m.perform (.bare .ret) := rfl
    cases h : m.calls with
    | nil => rw [hret, m.perform_ret_of_empty h]; exact .fails rfl (fun _ h => nomatch h) rfl rfl
    | cons address calls => rw [hret, m.perform_ret h]; exact .returns rfl h
  | _ => exact m.goes_of_not_isTransfer rfl

/-- What becomes of the address and the calls of a machine in a turn. -/
theorem goes_turn {code : Array Instruction} {m : Machine} {i : Instruction}
    (hi : code[m.pc]? = some i) :
    m.Goes i (m.turn code) ∨
      ∃ limit, m.turn code = .stopped m (some ⟨.stepLimit limit, m.pc, i.opcode⟩) := by
  cases hl : m.spentLimit? with
  | none => rw [turn_of_getElem? hi hl]; exact .inl (m.goes_perform i)
  | some limit => exact .inr ⟨limit, turn_of_spent hi hl⟩

end Machine
end StackLang
