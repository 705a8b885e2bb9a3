import StackLang.Proofs.Core.Activation

/-!
# Assembled programs do not go wrong

Whatever the input, the limit on steps and the sink, a run of an assembled program fails only by a
division by zero, by a string pointer outside the heap, by its limit or by its output. It always
stands at an instruction, goes from function to function by calls and returns alone, and if it
succeeds it has stopped at the last instruction with nothing left over.

Results:
* `run_of_assemble`: how the runs of an assembled program end, and where they go.
-/
namespace StackLang

open Instruction

/-- A program is assembled by way of a core program. -/
theorem Tree.assemble_eq_ok {t : Tree} {p : Program} (h : t.assemble = .ok p) :
    ∃ m, t.resolve = .ok m ∧ m.assemble = .ok p := Effect.except_bind_eq_ok.1 h

/-- The address that the code of an assembled program has as its last. -/
theorem Core.Module.size_emit (m : Core.Module) : m.emit.toArray.size = m.entryStart + 4 := by
  rw [List.size_toArray, Core.Module.length_emit]

/-- A run that is over has failed as expected, or has stopped at the last instruction, a `halt`, with
both stacks empty and with the frame pointer and the registers but `r0` at 0. -/
def Outcome.Clean (o : Outcome) (code : Array Instruction) : Prop :=
  match o.failure? with
  | some failure => failure.fault.Expected
  | none => o.machine.pc + 1 = code.size ∧ code[o.machine.pc]? = some (bare .halt) ∧
    o.machine.stack = [] ∧ o.machine.calls = [] ∧ o.machine.registers.fp = 0 ∧
    o.machine.registers.r1 = 0 ∧ o.machine.registers.r2 = 0 ∧ o.machine.registers.r3 = 0

theorem Machine.clean_finish_of_view {m : Core.Module} {b : Machine} (h : Core.Sound m b)
    (hview : b.view = ⟨m.entryStart + 3, 0, [], []⟩) :
    (b.finish none).Clean m.emit.toArray := by
  obtain ⟨hpc, hfp, hstack, hcalls⟩ := View.mk.inj hview
  unfold Outcome.Clean finish
  cases hflush : b.output.flushFails with
  | true => trivial
  | false =>
    refine ⟨?_, ?_, hstack, hcalls, hfp, h.r1, h.r2, h.r3⟩
    · rw [m.size_emit]; exact congrArg (· + 1) hpc
    · rw [List.getElem?_toArray, show b.pc = m.entryStart + 3 from hpc]
      exact m.holds_entry.tail.tail.tail.head

/-- How the runs of an assembled program end, and where they go: each machine that a run passes
through stands at an instruction, and goes past the start of a function only by a call or a return.
With `turnLimit` turns, which are those of `run?`, no stack is too high. -/
theorem run_of_assemble {t : Tree} {p : Program} (h : t.assemble = .ok p) (vm : Machine)
    (output : Sink) :
    (∀ turns o, vm.runWithin? turns p output = some o →
      (Machine.turnLimit < turns → ¬ (vm.load p output).Outgrows p.code turns) → o.Clean p.code) ∧
      ∃ m, t.resolve = .ok m ∧ ∀ a, vm.Passes p output a →
        ∃ i, p.code[a.pc]? = some i ∧ ∀ b, a.turn p.code = .running b →
          i.opcode = .call ∨ i.opcode = .ret ∨ m.SameFunction a.pc b.pc := by
  obtain ⟨m, hm, hp⟩ := Tree.assemble_eq_ok h
  have hv := Tree.valid_of_resolve hm
  have hid := (Core.Module.assemble_eq_ok hp).2
  have hcode : p.code = m.emit.toArray := by rw [(Core.Module.assemble_eq_ok hp).1]
  have hturn (a : Machine) (ha : vm.Passes p output a) :
      ∃ i, p.code[a.pc]? = some i ∧ Core.Continues m a i (a.turn p.code) := by
    have hsound := Core.sound_of_passes hv hp ha
    obtain ⟨i, hi, hcont⟩ := hsound.turn hv hid (ha.stack_lt hsound.height)
    rw [hcode, List.getElem?_toArray]
    exact ⟨i, hi, hcont⟩
  constructor
  · intro turns o ho hsmall
    obtain ⟨a, b, failure?, ha, hstop, rfl⟩ := Machine.exists_passes_of_runWithin? ho hsmall
    obtain ⟨i, -, hcont⟩ := hturn a ha
    rw [hstop] at hcont
    cases hcont with
    | fails hf => exact hf
    | ends hs hview => rw [hcode]; exact Machine.clean_finish_of_view hs hview
  · refine ⟨m, hm, fun a ha => ?_⟩
    obtain ⟨i, hi, hcont⟩ := hturn a ha
    refine ⟨i, hi, fun b hb => ?_⟩
    rw [hb] at hcont
    cases hcont with
    | runs _ hsame =>
      by_cases hc : i.opcode = .call
      · exact .inl hc
      · by_cases hr : i.opcode = .ret
        · exact .inr (.inl hr)
        · exact .inr (.inr (hsame hc hr))

/-- A program that adds 1 to the next byte of its input. It reads the byte in a function that returns
from within a loop, while the 1 is on the stack. -/
def Tree.successor : Tree :=
  let here : Span := ⟨0, 0⟩
  let name (text : String) : Lexeme := ⟨text, here⟩
  let read : Expr := .reference (name "x")
  let main : Function := ⟨name "main", ⟨[.giveBack (some (.operator (name "+")
    [.call (name "next") [] here, .integer 1 here] here)) here], here⟩, here⟩
  let next : Function := ⟨name "next",
    ⟨[.declare ⟨"x", some (.call (name "getint") [] here), here⟩,
      .loop read ⟨[.giveBack (some read) here], here⟩ here], here⟩, here⟩
  ⟨[.function main, .function next]⟩

theorem successor_runs_clean : ∃ p, Tree.successor.assemble = .ok p ∧
    ∀ (vm : Machine) output o, vm.run? p output = some o → o.Clean p.code := by
  obtain ⟨p, hp⟩ : ∃ p, Tree.successor.assemble = .ok p := ⟨_, rfl⟩
  exact ⟨p, hp, fun vm output o ho =>
    (run_of_assemble hp vm output).1 Machine.turnLimit o ho fun h => absurd h (Nat.lt_irrefl _)⟩

end StackLang
