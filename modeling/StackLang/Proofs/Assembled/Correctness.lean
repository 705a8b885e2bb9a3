import StackLang.Proofs.Assembled.Safety
import StackLang.Proofs.Semantics.Resolved
import StackLang.Proofs.Simulation.Function

/-!
# Assembled programs do what their trees mean

Without a limit on steps and with a sink that takes everything, the run of an assembled program ends
as the evaluation of its tree does: with the same value, output, heap and rest of the input, or with
the same fault after the same output. As long as the evaluation is not finished, neither is the run.

Results:
* `Module.agrees_load`: the run of a program agrees with its main function.
* `run_agrees_of_assemble`: the run of an assembled program agrees with its tree.
-/
namespace StackLang

open Semantics Instruction StackLang.Core

/-- The outcome of a run is the result of a computation: its value, or its fault, and the world that
it has reached. -/
def Outcome.Shows (o : Outcome) : EStateM.Result Stop World Int64 → Prop
  | .ok value w => o.failure? = none ∧ o.machine.registers.r0 = value ∧ o.machine.world = w
  | .error s w => (∃ failure, o.failure? = some failure ∧ s.fault? = some failure.fault) ∧
    o.machine.world = w

/-- The evaluation was not granted enough turns and calls. -/
def Unfinished (result : EStateM.Result Stop World Int64) : Prop := ∃ w, result = .error .unfinished w

/-- The run of a program agrees with its main function. -/
theorem Core.Module.agrees_load {m : Module} (hv : m.Valid) {p : Program} (h : m.assemble = .ok p)
    (hstatics : p.statics.length < 0x8000000000000000) (bound : Nat) (input : List UInt8) :
    Agrees m.emit.toArray bound ((Machine.new ⟨input, none⟩).load p .unlimited)
      (m.calls bound m.main ⟨[], [], input⟩) := by
  obtain ⟨hpc, hfp, hstack, hcalls⟩ := View.mk.inj (view_load h (.new ⟨input, none⟩) .unlimited)
  have hloaded := (sound_load h (.new ⟨input, none⟩) .unlimited).loaded
  obtain ⟨rfl, hid⟩ := Module.assemble_eq_ok h
  have hready : m.Ready (Machine.load (.new ⟨input, none⟩) _ .unlimited) :=
    { hloaded with limit := rfl, room := rfl, flush := rfl }
  have hcode := m.holds_entry
  have hg := List.getElem?_eq_getElem hv.main
  have hmark := hready.turn_eq (by rw [hpc]; exact hcode.head)
  rw [ofLabel, Machine.perform_mark] at hmark
  refine .step hmark ?_
  have ha := hready.turn hmark
  have hcall := ha.turn_eq (i := ofLabel .call ⟨m.main⟩) (by
    rw [Machine.advance_pc, hpc]; exact hcode.tail.head)
  rw [ha.perform_call hid hv.main] at hcall
  refine .step hcall ?_
  rw [← bind_pure (m.calls bound m.main)]
  refine m.callsAgree hv hid hstatics bound bound (Nat.le_refl bound) m.main _ hg _ _ _ pure
    (ha.turn hcall) rfl rfl fun v b hb hview => ?_
  obtain ⟨hbpc, hbfp, hbstack, hbcalls⟩ := View.mk.inj hview
  have hstore := hb.turn_eq (i := ofRegister .store .r0) (by
    rw [hbpc, Machine.advance_pc, hpc]; exact hcode.tail.tail.head)
  rw [Machine.perform_store b hbstack] at hstore
  refine .step hstore ?_
  have hc := hb.turn hstore
  have hhalt := hc.turn_eq (i := bare .halt) (by
    rw [Machine.advance_pc, hbpc, Machine.advance_pc, hpc]; exact hcode.tail.tail.tail.head)
  rw [Machine.perform_halt] at hhalt
  exact .value (Machine.runFrom?_succ_of_stopped hhalt 0) hc.flush

/-- What a run that agrees with a computation comes to. -/
theorem Agrees.run {vm : Machine} {p : Program} {output : Sink} {bound : Nat}
    {result : EStateM.Result Stop World Int64}
    (h : Agrees p.code bound (vm.load p output) result) :
    (∃ turns o, vm.runWithin? turns p output = some o ∧ o.Shows result) ∨
      (Unfinished result ∧ vm.runWithin? bound p output = none) ∨
      ∃ n, (vm.load p output).Outgrows p.code n := by
  cases h with
  | @value n b run flush =>
    refine .inl ⟨n, b.finish none, by rw [Machine.runWithin?, run]; rfl, ?_, rfl, rfl⟩
    simp [Machine.finish, flush]
  | @fault n b failure s run hs =>
    exact .inl ⟨n, b.finish (some failure), by rw [Machine.runWithin?, run]; rfl,
      ⟨failure, rfl, hs⟩, rfl⟩
  | @unfinished w run => exact .inr (.inl ⟨⟨w, rfl⟩, by rw [Machine.runWithin?, run]; rfl⟩)
  | outgrows h => exact .inr (.inr ⟨_, h⟩)

/-- A run that ends in time has a stack that is never too high. -/
theorem Core.Module.not_outgrows_of_run? {m : Module} (hv : m.Valid) {p : Program}
    (h : m.assemble = .ok p) {vm : Machine} {output : Sink} {o : Outcome}
    (hrun : vm.run? p output = some o) (n : Nat) : ¬ (vm.load p output).Outgrows p.code n := by
  rintro ⟨k, -, b, hb, hheight⟩
  obtain ⟨e, he, -⟩ := Option.map_eq_some_iff.1 hrun
  by_cases hlt : k < Machine.turnLimit
  · have hpass : vm.Passes p output b := ⟨k, hb, fun hle => absurd hlt (Nat.not_lt.2 hle)⟩
    have := hpass.stack_lt (sound_of_passes hv h hpass).height
    omega
  · rw [Machine.after?_eq_none_of_runFrom? he (Nat.le_of_not_lt hlt)] at hb
    cases hb

/-- The run of an assembled program agrees with its tree. However many turns and calls the evaluation
of the tree is granted: if it finishes, then the run ends with what it shows, and if it does not,
then the run does not end in as many turns; unless the stack outgrows all memory. For a run that ends
in the time there is, no exception is needed, and it shows what the evaluation finishes with. The
static data are a vector of bytes, and no vector has more of them than a word can say. -/
theorem run_agrees_of_assemble {t : Tree} {p : Program} (h : t.assemble = .ok p)
    (hstatics : p.statics.length < 0x8000000000000000) (input : List UInt8) :
    (∀ bound,
      (∃ turns o, (Machine.new ⟨input, none⟩).runWithin? turns p .unlimited = some o ∧
        o.Shows (t.evaluate bound input)) ∨
      (Unfinished (t.evaluate bound input) ∧
        (Machine.new ⟨input, none⟩).runWithin? bound p .unlimited = none) ∨
      ∃ n, ((Machine.new ⟨input, none⟩).load p .unlimited).Outgrows p.code n) ∧
    ∀ o, (Machine.new ⟨input, none⟩).run? p .unlimited = some o →
      o.Shows (t.evaluate Machine.turnLimit input) ∧
      ∀ bound, o.Shows (t.evaluate bound input) ∨ Unfinished (t.evaluate bound input) := by
  obtain ⟨m, hm, hp⟩ := Tree.assemble_eq_ok h
  have hcode : p.code = m.emit.toArray := by rw [(Core.Module.assemble_eq_ok hp).1]
  have hagrees (bound : Nat) : Agrees p.code bound ((Machine.new ⟨input, none⟩).load p .unlimited)
      (t.evaluate bound input) := by
    rw [hcode, Tree.evaluate_of_resolve hm]
    exact Core.Module.agrees_load (Tree.valid_of_resolve hm) hp hstatics bound input
  refine ⟨fun bound => (hagrees bound).run, fun o ho => ?_⟩
  have hshows (bound : Nat) : o.Shows (t.evaluate bound input) ∨
      Unfinished (t.evaluate bound input) ∧
        (Machine.new ⟨input, none⟩).runWithin? bound p .unlimited = none := by
    rcases (hagrees bound).run with ⟨turns, o', ho', hshows⟩ | hunfinished | ⟨n, hout⟩
    · rw [Machine.runWithin?_unique ho ho']
      exact .inl hshows
    · exact .inr hunfinished
    · exact absurd hout (Core.Module.not_outgrows_of_run? (Tree.valid_of_resolve hm) hp ho n)
  refine ⟨(hshows _).resolve_right fun hnone => ?_, fun bound => (hshows bound).imp_right And.left⟩
  rw [Machine.run?, hnone.2] at ho
  cases ho

theorem successor_run_agrees : ∃ p o, Tree.successor.assemble = .ok p ∧
    p.statics.length < 0x8000000000000000 ∧
    (Machine.new ⟨[65], none⟩).run? p .unlimited = some o ∧
    o.Shows (Tree.successor.evaluate Machine.turnLimit [65]) ∧ o.machine.registers.r0 = 66 :=
  ⟨_, _, rfl, by decide, rfl, ((run_agrees_of_assemble rfl (by decide) [65]).2 _ rfl).1, rfl⟩

end StackLang
