import StackLang.Proofs.Assembled.Safety
import StackLang.Proofs.Core.Chain

/-!
# Errors are reported in the function that is executed

In a run of an assembled program each address to return to was saved by a call of a declared function,
and the next address lies in the function that was called last. So the function that is named for the
address of an error is the one that was executed.

Results:
* `control_flow_of_assemble`: where the runs of an assembled program stand, and the names of their
  functions.
-/
namespace StackLang

open StackLang.Core Instruction

/-- The functions of a resolved program have the names that are declared, in order. -/
theorem Tree.map_name_of_resolve {t : Tree} {m : Core.Module} (h : t.resolve = .ok m) :
    m.functions.map (·.name) = t.functions.map (·.name.text) := by
  obtain ⟨names, -, -, -, hmap⟩ := Tree.resolve_eq_ok h
  obtain ⟨hlength, hget⟩ := mapM_eq_ok hmap
  refine List.ext_getElem? fun index => ?_
  rw [List.getElem?_map, List.getElem?_map]
  cases hf : t.functions[index]? with
  | some f =>
    obtain ⟨c, hc, hresolve⟩ := hget index f hf
    obtain ⟨body, -, rfl⟩ := Function.resolve_eq_ok hresolve
    rw [hc]
    rfl
  | none =>
    rw [List.getElem?_eq_none (hlength ▸ List.getElem?_eq_none_iff.1 hf)]
    rfl

/-- A run that is over has stopped at a machine that follows its chain of calls, and its error is at the
address of that machine. -/
theorem Core.follows_of_runWithin? {m : Core.Module} {p : Program} (h : m.assemble = .ok p)
    (hv : m.Valid) {vm : Machine} {output : Sink} {turns : Nat} {o : Outcome}
    (ho : vm.runWithin? turns p output = some o) :
    Follows p m o.machine.calls o.machine.pc ∧
      ∀ failure ∈ o.failure?, failure.address = o.machine.pc := by
  obtain ⟨n, -, a, b, failure?, ha, hs, rfl⟩ := Machine.exists_after?_of_runWithin? ho
  have hfollows := (follows_of_after? h hv ha).2
  have hkeeps := hfollows.turn h hv (follows_of_after? h hv ha).1
  rw [hs] at hkeeps
  cases hkeeps with
  | stopped pc calls address =>
    constructor
    · show Follows p m b.calls b.pc
      rw [pc, calls]
      exact hfollows
    · intro failure hfailure
      rcases Machine.cases_of_finish hfailure with hfailure | ⟨-, -, rfl⟩
      · exact (address failure hfailure).trans pc.symm
      · rfl

/-- Where the runs of an assembled program stand, and the names of their functions. Every address of the
program lies in a function or in the entry, and the name that is found for it is the one with which the
function was declared, or that of the entry. Every machine that a run gets to, and the one that it ends
with, follows its chain of calls: what is to be returned to was called from there, and the machine stands
in the function that was called last. The error that a run ends with is in that function, too. -/
theorem control_flow_of_assemble {t : Tree} {p : Program} (h : t.assemble = .ok p) (vm : Machine)
    (output : Sink) :
    ∃ m : Core.Module, t.resolve = .ok m ∧
      m.functions.map (·.name) = t.functions.map (·.name.text) ∧
      m.partName? (some m.main) = some "main" ∧
      (∀ a < p.code.size, ∃ part?, m.Covers part? a) ∧
      (∀ part? a, m.Covers part? a → p.functionNameAt? a = m.partName? part?) ∧
      (∀ n a, (vm.load p output).after? p.code n = some a → Follows p m a.calls a.pc) ∧
      ∀ turns o, vm.runWithin? turns p output = some o →
        ∃ part?, Chain p m o.machine.calls part? ∧ m.Covers part? o.machine.pc ∧
          ∀ failure ∈ o.failure?, failure.address = o.machine.pc ∧
            p.functionNameAt? failure.address = m.partName? part? := by
  obtain ⟨m, hm, hp⟩ := Tree.assemble_eq_ok h
  have hv := Tree.valid_of_resolve hm
  have hsize : p.code.size = m.emit.length := by
    rw [(Core.Module.assemble_eq_ok hp).1, List.size_toArray]
  have hnames := Tree.map_name_of_resolve hm
  refine ⟨m, hm, hnames, ?_, ?_, ?_, ?_, ?_⟩
  · obtain ⟨names, rfl, -, hmain, -⟩ := Tree.resolve_eq_ok hm
    rw [Core.Module.partName?, ← List.getElem?_map, hnames]
    exact getElem?_of_idxOf?_eq_some hmain
  · intro a ha
    rw [hsize] at ha
    exact Core.Module.exists_covers ha
  · intro part? a ha
    exact Core.Module.functionNameAt?_of_covers hp ha
  · intro n a ha
    exact (follows_of_after? hp hv ha).2
  · intro turns o ho
    obtain ⟨⟨part?, hchain, hcovers⟩, haddress⟩ := Core.follows_of_runWithin? hp hv ho
    refine ⟨part?, hchain, hcovers, ?_⟩
    intro failure hfailure
    refine ⟨haddress failure hfailure, ?_⟩
    rw [haddress failure hfailure]
    exact Core.Module.functionNameAt?_of_covers hp hcovers

/-- A limit of 12 steps stops the program in the function that its main function calls. -/
theorem successor_stopped_in_next : ∃ p m o failure part?, Tree.successor.assemble = .ok p ∧
    Tree.successor.resolve = .ok m ∧
    (Machine.new ⟨[65], some 12⟩).run? p .unlimited = some o ∧ o.failure? = some failure ∧
    o.machine.calls.length = 2 ∧ Chain p m o.machine.calls part? ∧
    m.Covers part? failure.address ∧ p.functionNameAt? failure.address = some "next" ∧
    m.partName? part? = some "next" := by
  obtain ⟨p, o, failure, hp, ho, hfailure, hcalls, hname⟩ : ∃ p o failure,
      Tree.successor.assemble = .ok p ∧ (Machine.new ⟨[65], some 12⟩).run? p .unlimited = some o ∧
      o.failure? = some failure ∧ o.machine.calls.length = 2 ∧
      p.functionNameAt? failure.address = some "next" := ⟨_, _, _, rfl, rfl, rfl, rfl, by decide⟩
  obtain ⟨m, hm, -, -, -, -, -, hends⟩ := control_flow_of_assemble hp (.new ⟨[65], some 12⟩) .unlimited
  obtain ⟨part?, hchain, hcovers, hat⟩ := hends Machine.turnLimit o ho
  obtain ⟨haddress, hpart⟩ := hat failure hfailure
  exact ⟨p, m, o, failure, part?, hp, hm, ho, hfailure, hcalls, hchain, haddress ▸ hcovers, hname,
    hpart ▸ hname⟩

end StackLang
