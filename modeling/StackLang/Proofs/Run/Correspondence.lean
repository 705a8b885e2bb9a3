import Mathlib.Data.List.Forall2
import StackLang.Proofs.Run.Aside
import StackLang.Proofs.Run.Control

/-!
# Programs that correspond

Two programs correspond if a relation between their addresses pairs their starts, and otherwise only
instructions that do the same and go on at addresses that are paired again. Labels and offsets of
static data may differ as long as they lead to paired addresses and to the same strings. Runs of such
programs go in lock step: after each turn the machines differ at most in their addresses, labels and
static data, and when one stops then so does the other, for the same reason.

Results:
* `Program.Corresponds.turn`: one turn of each program.
* `Program.Corresponds.runFrom?`: any number of turns.
* `Program.Corresponds.runWithin?`: whole runs.
-/
namespace StackLang

open Instruction

/-- A machine at the addresses of another one, with the labels and the static data of that one. -/
def Machine.relocate (m other : Machine) : Machine :=
  { m with pc := other.pc, calls := other.calls, labels := other.labels, statics := other.statics }

/-- Failures of two programs by the same fault of the same operation in functions of one name. -/
structure Failure.Alike (p q : Program) (f f' : Failure) : Prop where
  fault : f'.fault = f.fault
  opcode : f'.opcode = f.opcode
  name : q.functionNameAt? f'.address = p.functionNameAt? f.address

/-- Outcomes of two programs that differ in addresses, labels and static data alone. The addresses are
in functions of the same names. -/
structure Outcome.Alike (p q : Program) (o o' : Outcome) : Prop where
  machine : o'.machine = { o.machine with
    pc := o'.machine.pc, calls := o'.machine.calls, labels := q.labels, statics := q.statics }
  pc : q.functionNameAt? o'.machine.pc = p.functionNameAt? o.machine.pc
  calls : o'.machine.calls.map q.functionNameAt? = o.machine.calls.map p.functionNameAt?
  failure? : Option.Rel (Failure.Alike p q) o.failure? o'.failure?

/-! ## Corresponding code -/

/-- Instructions at two addresses that do the same and go on at addresses that are paired by `N`. -/
inductive Matches (p q : Program) (N : Nat → Nat → Prop) (a a' : Nat) :
    Instruction → Instruction → Prop where
  | same {i : Instruction} (hi : i.opcode.isLocal)
    (next : i.opcode ≠ .halt → N (a + 1) (a' + 1)) : Matches p q N a a' i i
  | mark (l l' : Int64) (next : N (a + 1) (a' + 1)) : Matches p q N a a' ⟨.mark, l⟩ ⟨.mark, l'⟩
  | jump {l l' : Int64} {t t' : Nat} (h : (Label.ofOperand? l).bind p.labels.resolve? = some t)
    (h' : (Label.ofOperand? l').bind q.labels.resolve? = some t') (target : N t t') :
    Matches p q N a a' ⟨.jump, l⟩ ⟨.jump, l'⟩
  | jumpIfZero {l l' : Int64} {t t' : Nat}
    (h : (Label.ofOperand? l).bind p.labels.resolve? = some t)
    (h' : (Label.ofOperand? l').bind q.labels.resolve? = some t') (target : N t t')
    (next : N (a + 1) (a' + 1)) : Matches p q N a a' ⟨.jumpIfZero, l⟩ ⟨.jumpIfZero, l'⟩
  | call {l l' : Int64} {t t' : Nat} (h : (Label.ofOperand? l).bind p.labels.resolve? = some t)
    (h' : (Label.ofOperand? l').bind q.labels.resolve? = some t') (target : N t t')
    (next : N (a + 1) (a' + 1)) : Matches p q N a a' ⟨.call, l⟩ ⟨.call, l'⟩
  | ret : Matches p q N a a' (bare .ret) (bare .ret)
  | newString {o o' : Int64} {string : List UInt8}
    (h : (wordSize? o).bind (stringAt? p.statics) = some string)
    (h' : (wordSize? o').bind (stringAt? q.statics) = some string) (next : N (a + 1) (a' + 1)) :
    Matches p q N a a' ⟨.newString, o⟩ ⟨.newString, o'⟩

/-- A relation between the addresses of two programs that pairs their starts, and otherwise only
matching instructions in functions of the same name. -/
structure Program.Corresponds (p q : Program) (N : Nat → Nat → Prop) : Prop where
  start : N p.start q.start
  code : ∀ {a a' : Nat}, N a a' →
    ∃ i i', p.code[a]? = some i ∧ q.code[a']? = some i' ∧ Matches p q N a a' i i'
  name : ∀ {a a' : Nat}, N a a' → q.functionNameAt? a' = p.functionNameAt? a

/-! ## Instructions that do not look at addresses, labels or static data -/

/-- A local instruction leads nowhere but to the next address. -/
theorem Opcode.not_isTransfer_of_isLocal {op : Opcode} (h : op.isLocal) : op.isTransfer = false := by
  cases op with
  | jump | jumpIfZero | call | ret => cases h
  | _ => rfl

theorem Machine.aside_relocate (other : Machine) : Aside (·.relocate other) := {}

/-! ## Machines in lock step -/

/-- Machines that run two programs and differ in addresses, which are paired, labels and static data
alone. -/
structure Mirrors (p q : Program) (N : Nat → Nat → Prop) (m m' : Machine) : Prop where
  same : m' = m.relocate m'
  labels : m.labels = p.labels
  labels' : m'.labels = q.labels
  statics : m.statics = p.statics
  statics' : m'.statics = q.statics
  pc : N m.pc m'.pc
  calls : List.Forall₂ N m.calls m'.calls

/-- Turns that leave machines in lock step, and stop them for the same reason if at all. -/
inductive Turn.Alike (p q : Program) (N : Nat → Nat → Prop) : Turn → Turn → Prop where
  | running {m m' : Machine} (h : Mirrors p q N m m') : Alike p q N (.running m) (.running m')
  | stopped {m m' : Machine} {failure? failure'? : Option Failure} (h : Mirrors p q N m m')
    (hf : Option.Rel (Failure.Alike p q) failure? failure'?) :
    Alike p q N (.stopped m failure?) (.stopped m' failure'?)

section

variable {p q : Program} {N : Nat → Nat → Prop} {m m' : Machine}

namespace Mirrors

variable (h : Mirrors p q N m m')

include h

theorem stack_eq : m'.stack = m.stack := by rw [h.same]; rfl

theorem heap_eq : m'.heap = m.heap := by rw [h.same]; rfl

theorem registers_eq : m'.registers = m.registers := by rw [h.same]; rfl

theorem output_eq : m'.output = m.output := by rw [h.same]; rfl

theorem spentLimit?_eq : m'.spentLimit? = m.spentLimit? := by rw [h.same]; rfl

/-- Both machines go to addresses that are paired. -/
theorem goto {a a' : Nat} (ha : N a a') : Mirrors p q N { m with pc := a } { m' with pc := a' } := by
  obtain ⟨same, labels, labels', statics, statics', -, calls⟩ := h
  refine ⟨?_, labels, labels', statics, statics', ha, calls⟩
  exact congrArg (fun b : Machine => { b with pc := a' }) same

/-- Both machines are to return to other addresses, which are paired. -/
theorem set_calls {calls calls' : List Nat} (hcalls : List.Forall₂ N calls calls') :
    Mirrors p q N { m with calls } { m' with calls := calls' } := by
  obtain ⟨same, labels, labels', statics, statics', pc, -⟩ := h
  refine ⟨?_, labels, labels', statics, statics', pc, hcalls⟩
  exact congrArg (fun b : Machine => { b with calls := calls' }) same

/-- A change that is made to both machines, where they do not differ. -/
theorem map {g : Machine → Machine} (hg : ∀ other, (g m).relocate other = g (m.relocate other))
    (hm : g m = (g m).relocate m) : Mirrors p q N (g m) (g m') := by
  obtain ⟨same, labels, labels', statics, statics', pc, calls⟩ := h
  have hm' : g m' = (g m).relocate m' := by rw [hg, ← same]
  rw [hm', hm]
  exact ⟨rfl, labels, labels', statics, statics', pc, calls⟩

/-- Both machines count a step and go on at addresses that are paired, with the same stack. -/
theorem advance {a a' : Nat} (ha : N a a') (stack : List Int64) :
    Mirrors p q N (m.advance a stack) (m'.advance a' stack) :=
  (h.map (g := fun b => { b with steps := b.steps + 1, stack }) (fun _ => rfl) rfl).goto ha

/-- A local instruction does the same in both machines. -/
theorem execute {i : Instruction} (hi : i.opcode.isLocal) :
    (∃ flow b b', i.execute m = .ok flow b ∧ i.execute m' = .ok flow b' ∧ Mirrors p q N b b' ∧
      flow = if i.opcode = .halt then .halt else .next) ∨
    ∃ fault b b', i.execute m = .error fault b ∧ i.execute m' = .error fault b' ∧
      Mirrors p q N b b' := by
  have hkept : i.execute m = Exec.mapMachine (·.relocate m) (i.execute m) :=
    i.commutes_of_isLocal (Machine.aside_relocate m) hi m
  have hsame : i.execute m' = Exec.mapMachine (·.relocate m') (i.execute m) := by
    conv => lhs; rw [h.same]
    exact i.commutes_of_isLocal (Machine.aside_relocate m') hi m
  have hboth (b : Machine) : Mirrors p q N (b.relocate m) (b.relocate m') :=
    h.map (g := fun other => b.relocate other) (fun _ => rfl) rfl
  cases hx : i.execute m with
  | ok flow b =>
    rw [hx] at hkept hsame
    exact .inl ⟨flow, b.relocate m, b.relocate m', hkept, hsame, hboth b,
      Instruction.yields_of_not_isTransfer (Opcode.not_isTransfer_of_isLocal hi) hx⟩
  | error fault b =>
    rw [hx] at hkept hsame
    exact .inr ⟨fault, b.relocate m, b.relocate m', hkept, hsame, hboth b⟩

end Mirrors

namespace Program.Corresponds

variable (h : p.Corresponds q N) (hm : Mirrors p q N m m')

include h hm

/-- Both machines fail where they stand. -/
theorem failure (fault : Fault) (opcode : Opcode) :
    Option.Rel (Failure.Alike p q) (some ⟨fault, m.pc, opcode⟩) (some ⟨fault, m'.pc, opcode⟩) :=
  .some ⟨rfl, rfl, h.name hm.pc⟩

/-- Both machines execute the same local instruction. -/
theorem perform_same {i : Instruction} (hi : i.opcode.isLocal)
    (next : i.opcode ≠ .halt → N (m.pc + 1) (m'.pc + 1)) :
    Turn.Alike p q N (m.perform i) (m'.perform i) := by
  have hcount : Mirrors p q N { m with steps := m.steps + 1 } { m' with steps := m'.steps + 1 } :=
    hm.map (g := fun b => { b with steps := b.steps + 1 }) (fun _ => rfl) rfl
  rcases hcount.execute hi with ⟨flow, b, b', hb, hb', hboth, rfl⟩ | ⟨fault, b, b', hb, hb', hboth⟩
  · by_cases hop : i.opcode = .halt
    · simp only [Machine.perform, hb, hb', if_pos hop]
      exact .stopped hboth .none
    · simp only [Machine.perform, hb, hb', if_neg hop]
      exact .running (hboth.goto (next hop))
  · simp only [Machine.perform, hb, hb']
    exact .stopped hboth (h.failure hm fault i.opcode)

/-- Both machines execute matching instructions. -/
theorem perform {i i' : Instruction} (hi : Matches p q N m.pc m'.pc i i') :
    Turn.Alike p q N (m.perform i) (m'.perform i') := by
  cases hi with
  | same hlocal next => exact h.perform_same hm hlocal next
  | mark l l' next =>
    rw [Machine.perform_mark, Machine.perform_mark, hm.stack_eq]
    exact .running (hm.advance next _)
  | @jump l l' t t' ht ht' target =>
    rw [← hm.labels] at ht
    rw [← hm.labels'] at ht'
    rw [Machine.perform_jump m ht, Machine.perform_jump m' ht', hm.stack_eq]
    exact .running (hm.advance target _)
  | @jumpIfZero l l' t t' ht ht' target next =>
    rw [← hm.labels] at ht
    rw [← hm.labels'] at ht'
    cases hstack : m.stack with
    | nil =>
      rw [Machine.perform_jumpIfZero_of_empty m hstack,
        Machine.perform_jumpIfZero_of_empty m' (hm.stack_eq.trans hstack), hm.stack_eq]
      exact .stopped (hm.advance hm.pc _) (h.failure hm _ _)
    | cons value rest =>
      rw [Machine.perform_jumpIfZero m hstack ht,
        Machine.perform_jumpIfZero m' (hm.stack_eq.trans hstack) ht']
      refine .running (hm.advance ?_ _)
      split
      · exact target
      · exact next
  | @call l l' t t' ht ht' target next =>
    rw [← hm.labels] at ht
    rw [← hm.labels'] at ht'
    rw [Machine.perform_call m ht, Machine.perform_call m' ht', hm.stack_eq]
    exact .running ((hm.set_calls (.cons next hm.calls)).advance target _)
  | ret =>
    have hcalls := hm.calls
    generalize hc : m.calls = calls at hcalls
    generalize hc' : m'.calls = calls' at hcalls
    cases hcalls with
    | nil =>
      rw [Machine.perform_ret_of_empty m hc, Machine.perform_ret_of_empty m' hc', hm.stack_eq]
      exact .stopped (hm.advance hm.pc _) (h.failure hm _ _)
    | cons target hcalls =>
      have hresult : m'.registers.r0 = m.registers.r0 := congrArg Registers.r0 hm.registers_eq
      rw [Machine.perform_ret m hc, Machine.perform_ret m' hc', hm.stack_eq, hresult]
      exact .running ((hm.set_calls hcalls).advance target _)
  | @newString o o' string ho ho' next =>
    rw [← hm.statics] at ho
    rw [← hm.statics'] at ho'
    rw [Machine.perform_newString m ho, Machine.perform_newString m' ho', hm.stack_eq, hm.heap_eq]
    have hheap := hm.map (g := fun b => { b with heap := (m.heap.allocateString string).2 })
      (fun _ => rfl) rfl
    exact .running (hheap.advance next _)

/-- One turn of each program. -/
theorem turn : Turn.Alike p q N (m.turn p.code) (m'.turn q.code) := by
  obtain ⟨i, i', hi, hi', hmatches⟩ := h.code hm.pc
  cases hlimit : m.spentLimit? with
  | none =>
    rw [Machine.turn_of_getElem? hi hlimit,
      Machine.turn_of_getElem? hi' (hm.spentLimit?_eq.trans hlimit)]
    exact h.perform hm hmatches
  | some limit =>
    rw [Machine.turn_of_spent hi hlimit, Machine.turn_of_spent hi' (hm.spentLimit?_eq.trans hlimit)]
    have hop : i'.opcode = i.opcode := by cases hmatches <;> rfl
    rw [hop]
    exact .stopped hm (h.failure hm _ _)

/-- Any number of turns of each program. -/
theorem runFrom? (turns : Nat) :
    Option.Rel (fun e e' => Mirrors p q N e.1 e'.1 ∧ Option.Rel (Failure.Alike p q) e.2 e'.2)
      (Machine.runFrom? p.code turns m) (Machine.runFrom? q.code turns m') := by
  induction turns generalizing m m' with
  | zero => exact .none
  | succ turns ih =>
    have hturn := h.turn hm
    rw [Machine.runFrom?_succ, Machine.runFrom?_succ]
    generalize m.turn p.code = t at hturn
    generalize m'.turn q.code = t' at hturn
    cases hturn with
    | running hm' => exact ih hm'
    | stopped hm' hf => exact .some ⟨hm', hf⟩

/-- The ends of two runs. -/
theorem finish {failure? failure'? : Option Failure}
    (hf : Option.Rel (Failure.Alike p q) failure? failure'?) :
    Outcome.Alike p q (m.finish failure?) (m'.finish failure'?) := by
  have hfailure : Option.Rel (Failure.Alike p q) (m.finish failure?).failure?
      (m'.finish failure'?).failure? := by
    cases hf with
    | some hf => exact .some hf
    | none =>
      simp only [Machine.finish, hm.output_eq]
      split
      · exact h.failure hm _ _
      · exact .none
  have hstatus : (m'.finish failure'?).machine.status = (m.finish failure?).machine.status := by
    have : ∀ {o o' : Option Failure}, Option.Rel (Failure.Alike p q) o o' → o'.isSome = o.isSome :=
      fun h => by cases h <;> rfl
    simp only [Machine.finish] at hfailure ⊢
    rw [this hfailure]
  have hname : Relator.LiftFun N Eq p.functionNameAt? q.functionNameAt? :=
    fun _ _ hpair => (h.name hpair).symm
  have hcalls : List.Forall₂ Eq (m.calls.map p.functionNameAt?) (m'.calls.map q.functionNameAt?) :=
    List.rel_map hname hm.calls
  rw [List.forall₂_eq_eq_eq] at hcalls
  have hmachine : m' = { m with
      pc := m'.pc, calls := m'.calls, labels := q.labels, statics := q.statics } := by
    rw [← hm.labels', ← hm.statics']
    exact hm.same
  refine ⟨?_, h.name hm.pc, hcalls.symm, hfailure⟩
  exact congr (congrArg (fun b status => { b with status }) hmachine) hstatus

omit hm in
/-- Whole runs of two programs that correspond. -/
theorem runWithin? (vm : Machine) (output : Sink) (turns : Nat) :
    Option.Rel (Outcome.Alike p q) (vm.runWithin? turns p output) (vm.runWithin? turns q output) := by
  have hload : Mirrors p q N (vm.load p output) (vm.load q output) :=
    ⟨rfl, rfl, rfl, rfl, rfl, h.start, .nil⟩
  have hrun := h.runFrom? hload turns
  unfold Machine.runWithin?
  generalize Machine.runFrom? p.code turns _ = e at hrun
  generalize Machine.runFrom? q.code turns _ = e' at hrun
  cases hrun with
  | none => exact .none
  | some hends => exact .some (h.finish hends.1 hends.2)

end Program.Corresponds

end

end StackLang
