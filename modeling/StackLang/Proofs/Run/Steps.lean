import StackLang.Proofs.Run.Moves
import StackLang.Proofs.Run.Turns

/-!
# What no instruction changes

No part of an instruction changes the count of steps, the settings, the labels or the static data, or
whether the sink has a limit and flushes; only the start of an instruction counts.

Results:
* `keeps_execute`: what an instruction leaves as it was, also when it fails.
* `steps_of_after?`: a machine has counted the turns that were taken.
* `Passes.induction`: what each turn keeps, holds wherever a run passes.
* `exists_passes_of_runWithin?`: a run ends at a machine that it passes through.
-/
namespace StackLang

/-- What only the start of an instruction or of a run changes. -/
def Machine.fixed (m : Machine) : Nat × Settings × Labels × List UInt8 × Bool × Bool :=
  (m.steps, m.settings, m.labels, m.statics, m.output.room?.isNone, m.output.flushFails)

namespace Exec

variable {α : Type}

/-- A part of an instruction that leaves the fixed part of the machine, also when it fails. -/
def Keeps (x : Exec α) : Prop :=
  ∀ m, match x m with
    | .ok _ m' | .error _ m' => m'.fixed = m.fixed

end Exec

/-- No change of an instruction is one of what only the start of an instruction or of a run changes. -/
theorem Machine.change_fixed (op : Opcode) : Change op fun a b => b.fixed = a.fixed where
  refl _ := rfl
  trans hab hbc := hbc.trans hab
  stack _ _ := rfl
  registers _ _ := rfl
  calls _ _ _ := rfl
  unread _ _ _ := rfl
  allocate _ _ _ := rfl
  write _ m data := by
    have hroom : (m.output.write data).2.room?.isNone = m.output.room?.isNone := Option.isNone_map
    have hflush : (m.output.write data).2.flushFails = m.output.flushFails := rfl
    simp [Machine.fixed, hroom, hflush]

/-- What an instruction leaves as it was, also when it fails. -/
theorem Instruction.keeps_execute (i : Instruction) : Exec.Keeps i.execute := by
  intro m
  have h := Instruction.leads_execute (Machine.change_fixed i.opcode) m
  split at h <;> simp_all

namespace Machine

variable {code : Array Instruction}

/-- An instruction that is executed counts one step and keeps all else that is fixed. -/
theorem fixed_of_perform {m m' : Machine} {i : Instruction} (h : m.perform i = .running m') :
    m'.fixed = (m.steps + 1, m.fixed.2) := by
  have hkeeps := i.keeps_execute { m with steps := m.steps + 1 }
  unfold perform at h
  split at h
  · rename_i hx
    rw [hx] at hkeeps
    cases h; exact hkeeps
  · rename_i hx
    rw [hx] at hkeeps
    cases h; exact hkeeps
  · cases h
  · cases h

/-- A turn that goes on executes the instruction at its address. -/
theorem perform_of_turn {m m' : Machine} (h : m.turn code = .running m') :
    ∃ i, code[m.pc]? = some i ∧ m.spentLimit? = none ∧ m.perform i = .running m' := by
  unfold turn takeTurn at h
  split at h
  · cases h
  · rename_i i hi
    split at h
    · cases h
    · rename_i hl
      exact ⟨i, hi, hl, h⟩

/-- A turn that goes on counts one step. -/
theorem steps_of_turn {m m' : Machine} (h : m.turn code = .running m') : m'.steps = m.steps + 1 := by
  obtain ⟨i, -, -, hp⟩ := perform_of_turn h
  exact congrArg (·.1) (fixed_of_perform hp)

/-- No turn changes where labels lead. -/
theorem labels_of_after? {n : Nat} {m m' : Machine} (h : m.after? code n = some m') :
    m'.labels = m.labels := by
  refine after?_induction (P := fun a => a.labels = m.labels) rfl (fun a b ha ht => ?_) h
  obtain ⟨i, -, -, hp⟩ := perform_of_turn ht
  exact (congrArg (·.2.2.1) (fixed_of_perform hp)).trans ha

/-- A machine has counted the turns that were taken. -/
theorem steps_of_after? {n : Nat} {m m' : Machine} (h : m.after? code n = some m') :
    m'.steps = m.steps + n := by
  induction n generalizing m' with
  | zero => cases h; rfl
  | succ n ih =>
    obtain ⟨m₁, h₁, ht⟩ := after?_succ_eq_some_iff.1 h
    rw [steps_of_turn ht, ih h₁, Nat.add_assoc]

/-- A machine that a run of a program passes through. A run that takes more turns than there is time
for is only followed as long as a word can say how high its stack is. -/
def Passes (m : Machine) (p : Program) (output : Sink) (m' : Machine) : Prop :=
  ∃ n, (m.load p output).after? p.code n = some m' ∧
    (turnLimit ≤ n → ¬ (m.load p output).Outgrows p.code n)

variable {m m' m'' : Machine} {p : Program} {output : Sink}

/-- The stack of a machine that a run passes through is not too high, if no turn pushes more than a
word. -/
theorem Passes.stack_lt (h : m.Passes p output m') (height : m'.stack.length ≤ m'.steps) :
    m'.stack.length < heightLimit := by
  obtain ⟨n, hn, hsmall⟩ := h
  have hsteps : m'.steps = n := (steps_of_after? hn).trans (Nat.zero_add n)
  by_cases hlt : n < turnLimit
  · simp only [turnLimit, heightLimit] at hlt ⊢
    omega
  · exact Nat.lt_of_not_le fun hle => hsmall (Nat.le_of_not_lt hlt) ⟨n, Nat.le_refl n, m', hn, hle⟩

/-- A run passes through the machines that come before one that it passes through. -/
theorem Passes.of_turn (h : m.Passes p output m'') {n : Nat}
    (hn : (m.load p output).after? p.code n = some m') (ht : m'.turn p.code = .running m'') :
    m.Passes p output m' := by
  obtain ⟨k, hk, hsmall⟩ := h
  have hsteps := steps_of_turn ht
  rw [steps_of_after? hk, steps_of_after? hn] at hsteps
  obtain rfl : k = n + 1 := by omega
  exact ⟨n, hn, fun hle hout => hsmall (Nat.le_succ_of_le hle) (hout.mono (Nat.le_succ n))⟩

/-- What holds of a program's first machine, bounds the stack and is kept by each turn, holds wherever
a run passes. -/
theorem Passes.induction {P : Machine → Prop} (h : m.Passes p output m') (start : P (m.load p output))
    (height : ∀ a, P a → a.stack.length ≤ a.steps)
    (turn : ∀ a b, a.stack.length < heightLimit → P a → a.turn p.code = .running b → P b) :
    P m' := by
  obtain ⟨n, hn, hsmall⟩ := id h
  clear hsmall
  induction n generalizing m' with
  | zero => cases hn; exact start
  | succ n ih =>
    obtain ⟨a, ha, ht⟩ := after?_succ_eq_some_iff.1 hn
    have hpass := h.of_turn ha ht
    have hP := ih hpass ha
    exact turn a m' (hpass.stack_lt (height a hP)) hP ht

/-- A run ends at a machine that it passes through. -/
theorem exists_passes_of_runWithin? {turns : Nat} {o : Outcome}
    (h : m.runWithin? turns p output = some o)
    (hsmall : turnLimit < turns → ¬ (m.load p output).Outgrows p.code turns) :
    ∃ a b failure?, m.Passes p output a ∧ a.turn p.code = .stopped b failure? ∧
      o = b.finish failure? := by
  obtain ⟨k, hk, a, b, failure?, ha, hs, ho⟩ := exists_after?_of_runWithin? h
  refine ⟨a, b, failure?, ⟨k, ha, fun hle hout => ?_⟩, hs, ho⟩
  exact hsmall (Nat.lt_of_le_of_lt hle hk) (hout.mono (Nat.le_of_lt hk))

end Machine
end StackLang
