import StackLang.Proofs.Code.Link
import StackLang.Proofs.Run.Control
import StackLang.Proofs.Run.Steps

/-!
# Labels at run time

A draft is linked only if each label that its code refers to has an address. But an operand of 64 bits
need not be the number of a label, and such an operand is passed over when the labels are looked for. A
jump to it is found out only when it is executed. So the runs of a linked program can fail for a label
that has no address, but only for one that has no number either.

Results:
* `Machine.unresolved_of_turn`: when a turn fails for a label.
* `Draft.unresolvedLabel_of_link`: for which labels the runs of a linked program fail.
-/
namespace StackLang

/-- A turn fails for a label if it executes a jump or call to one that has no address. -/
theorem Machine.unresolved_of_turn {code : Array Instruction} {a b : Machine} {failure : Failure}
    {id : Int64} (h : a.turn code = .stopped b (some failure))
    (hf : failure.fault = .unresolvedLabel id) :
    code[failure.address]? = some ⟨failure.opcode, id⟩ ∧ failure.opcode.operandRole = .label ∧
      failure.opcode ≠ .mark ∧ a.target? id = none := by
  cases hi : code[a.pc]? with
  | none =>
    rw [turn_of_end hi] at h
    cases h
  | some i =>
    rcases goes_turn hi with hgoes | ⟨limit, hlimit⟩
    · rw [h] at hgoes
      cases hgoes with
      | fails hfails target =>
        cases hf
        obtain ⟨⟨hrole, hmark⟩, rfl⟩ := hfails
        exact ⟨hi, hrole, hmark, target _ rfl⟩
    · rw [hlimit] at h
      cases h
      cases hf

namespace Draft

/-- The instruction of a linked draft whose label has no address has an operand that is not the number
of a label. -/
theorem ofOperand?_of_link {d : Draft} {entry : Label} {p : Program} (h : d.link entry = .ok p)
    {i : Instruction} {address : Nat} (hi : p.code[address]? = some i)
    (hrole : i.opcode.operandRole = .label)
    (hnone : (Label.ofOperand? i.operand).bind p.labels.resolve? = none) :
    Label.ofOperand? i.operand = none := by
  cases hl : Label.ofOperand? i.operand with
  | none => rfl
  | some l =>
    obtain ⟨rfl, hresolve⟩ := link_ok h
    rw [hl] at hnone
    have hmem : i ∈ d.code.toList := Array.mem_toList_iff.2 (Array.mem_of_getElem? hi)
    exact absurd hnone (hresolve i hmem l (by rw [Instruction.label?, if_pos hrole, hl]))

/-- The runs of a linked draft, whatever the draft, fail only for labels of jumps and calls whose operands
are not the number of a label. So where all operands for labels are such numbers, no run fails for a
label. -/
theorem unresolvedLabel_of_link {d : Draft} {entry : Label} {p : Program} (h : d.link entry = .ok p)
    (vm : Machine) (output : Sink) {turns : Nat} {o : Outcome}
    (ho : vm.runWithin? turns p output = some o) :
    (∀ failure ∈ o.failure?, ∀ id, failure.fault = .unresolvedLabel id →
      d.code[failure.address]? = some ⟨failure.opcode, id⟩ ∧ failure.opcode.operandRole = .label ∧
        failure.opcode ≠ .mark ∧ ¬ (0 ≤ id.toInt ∧ id.toInt < 0x100000000)) ∧
    ((∀ i ∈ d.code, i.opcode.operandRole = .label →
      0 ≤ i.operand.toInt ∧ i.operand.toInt < 0x100000000) →
        ∀ failure ∈ o.failure?, ∀ id, failure.fault ≠ .unresolvedLabel id) := by
  have hcode : p.code = d.code := by rw [(link_ok h).1]
  have hfails : ∀ failure ∈ o.failure?, ∀ id, failure.fault = .unresolvedLabel id →
      d.code[failure.address]? = some ⟨failure.opcode, id⟩ ∧ failure.opcode.operandRole = .label ∧
        failure.opcode ≠ .mark ∧ ¬ (0 ≤ id.toInt ∧ id.toInt < 0x100000000) := by
    intro failure hfailure id hfault
    obtain ⟨n, -, a, b, failure?, ha, hs, rfl⟩ := Machine.exists_after?_of_runWithin? ho
    rcases Machine.cases_of_finish hfailure with hfailure | ⟨-, -, rfl⟩
    · rw [hfailure] at hs
      obtain ⟨hi, hrole, hmark, htarget⟩ := Machine.unresolved_of_turn hs hfault
      have hlabels : a.labels = p.labels := Machine.labels_of_after? ha
      rw [Machine.target?, hlabels] at htarget
      have hnumber := ofOperand?_of_link h hi hrole htarget
      rw [hcode] at hi
      refine ⟨hi, hrole, hmark, ?_⟩
      intro hrange
      rw [Label.ofOperand?, if_pos hrange] at hnumber
      cases hnumber
    · cases hfault
  refine ⟨hfails, ?_⟩
  intro hnumbers failure hfailure id hfault
  obtain ⟨hi, hrole, -, hrange⟩ := hfails failure hfailure id hfault
  exact hrange (hnumbers _ (Array.mem_of_getElem? hi) hrole)

/-- A draft that marks its entry and then jumps to an operand. -/
def jumpingTo (operand : Int64) : Draft := (empty.newLabel.2.mark ⟨0⟩).add ⟨.jump, operand⟩

/-- A jump to a negative number is linked, and then fails for a label that has no address. -/
theorem jumpingTo_negative_unresolved : ∃ p o failure, (jumpingTo (-1)).link ⟨0⟩ = .ok p ∧
    (Machine.new ⟨[], none⟩).run? p .unlimited = some o ∧ o.failure? = some failure ∧
    failure.fault = .unresolvedLabel (-1) :=
  ⟨_, _, _, rfl, rfl, rfl, rfl⟩

/-- That jump is the one that fails, and its operand is not the number of a label. A jump to the entry
does not fail for its label. -/
theorem jumpingTo_fails_only_beyond_labels :
    (∃ p o failure, (jumpingTo (-1)).link ⟨0⟩ = .ok p ∧
      (Machine.new ⟨[], none⟩).run? p .unlimited = some o ∧ o.failure? = some failure ∧
      (jumpingTo (-1)).code[failure.address]? = some ⟨.jump, -1⟩ ∧
      ¬ (0 ≤ (-1 : Int64).toInt ∧ (-1 : Int64).toInt < 0x100000000)) ∧
    ∃ p o, (jumpingTo 0).link ⟨0⟩ = .ok p ∧
      (Machine.new ⟨[], some 3⟩).run? p .unlimited = some o ∧ o.machine.steps = 3 ∧
      ∀ failure ∈ o.failure?, ∀ id, failure.fault ≠ .unresolvedLabel id := by
  constructor
  · obtain ⟨p, o, failure, hp, ho, hfailure, hfault, hopcode⟩ : ∃ p o failure,
        (jumpingTo (-1)).link ⟨0⟩ = .ok p ∧
        (Machine.new ⟨[], none⟩).run? p .unlimited = some o ∧ o.failure? = some failure ∧
        failure.fault = .unresolvedLabel (-1) ∧ failure.opcode = .jump :=
      ⟨_, _, _, rfl, rfl, rfl, rfl, rfl⟩
    obtain ⟨hi, -, -, hrange⟩ :=
      (unresolvedLabel_of_link hp (.new ⟨[], none⟩) .unlimited ho).1 failure hfailure (-1) hfault
    rw [hopcode] at hi
    exact ⟨p, o, failure, hp, ho, hfailure, hi, hrange⟩
  · obtain ⟨p, o, hp, ho, hsteps⟩ : ∃ p o, (jumpingTo 0).link ⟨0⟩ = .ok p ∧
        (Machine.new ⟨[], some 3⟩).run? p .unlimited = some o ∧ o.machine.steps = 3 :=
      ⟨_, _, rfl, rfl, rfl⟩
    have hnone := (unresolvedLabel_of_link hp (.new ⟨[], some 3⟩) .unlimited ho).2 (by decide)
    exact ⟨p, o, hp, ho, hsteps, hnone⟩

end Draft
end StackLang
