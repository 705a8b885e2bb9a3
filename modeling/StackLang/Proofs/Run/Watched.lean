import StackLang.Machine.Text
import StackLang.Proofs.Code.Listing
import StackLang.Proofs.Run.Limits

/-!
# What is seen of a run

The trace of a run has as many entries as the machine has counted steps: one for each instruction that was
executed, in that order, the one that halted or failed among them. An instruction that the limit on steps
does not allow is neither counted nor seen. Each entry is shown on a line of its own. A run with a limit on
steps ends after at most one turn more, and whether it is traced does not matter to how it ends.

Results:
* `tells_of_traceFrom`: an entry tells of the machine that was about to execute an instruction.
* `steps_of_runFrom?`: there is an entry for each step.
* `watch_eq`, `exists_runWithin?_of_limit`: runs that are traced, and runs with a limit.
* `TraceEntry.newline_notMem_text`: an entry is one line.
-/
namespace StackLang
namespace Machine

variable {code : Array Instruction}

/-- The entry tells of a machine that is about to execute an instruction. -/
structure TraceEntry.Tells (code : Array Instruction) (e : TraceEntry) (a : Machine) : Prop where
  address : e.address = a.pc
  instruction : code[a.pc]? = some e.instruction
  stack : e.stack = a.stack

/-- What is seen of a turn that goes on. -/
theorem traceFrom_of_running {m m' : Machine} (h : m.turn code = .running m') (n : Nat) :
    ∃ e, e.Tells code m ∧ traceFrom code (n + 1) m = e :: traceFrom code n m' := by
  obtain ⟨i, hi, hlimit, -⟩ := perform_of_turn h
  refine ⟨⟨m.pc, i, m.stack⟩, ⟨rfl, hi, rfl⟩, ?_⟩
  rw [traceFrom_succ, takeTurn_of_getElem? hi hlimit, h]
  rfl

/-- What is seen of a turn that stops: nothing, unless an instruction has halted or failed. -/
theorem traceFrom_of_stopped {m m' : Machine} {failure? : Option Failure}
    (h : m.turn code = .stopped m' failure?) (n : Nat) :
    (m' = m ∧ traceFrom code (n + 1) m = []) ∨
      m'.steps = m.steps + 1 ∧ ∃ e, e.Tells code m ∧ traceFrom code (n + 1) m = [e] := by
  have hseen : traceFrom code (n + 1) m = (m.takeTurn code).1.toList := by
    rw [traceFrom_succ, h]
    exact List.append_nil _
  cases hi : code[m.pc]? with
  | none =>
    rw [takeTurn_of_end hi] at hseen
    rw [turn_of_end hi] at h
    cases h
    exact .inl ⟨rfl, hseen⟩
  | some i =>
    cases hlimit : m.spentLimit? with
    | some limit =>
      rw [takeTurn_of_spent hi hlimit] at hseen
      rw [turn_of_spent hi hlimit] at h
      cases h
      exact .inl ⟨rfl, hseen⟩
    | none =>
      rw [takeTurn_of_getElem? hi hlimit] at hseen
      rw [turn_of_getElem? hi hlimit] at h
      refine .inr ⟨?_, _, ⟨rfl, hi, rfl⟩, hseen⟩
      obtain ⟨b, hfixed, ⟨pc, hb⟩ | hb | ⟨fault, -, hb⟩⟩ := perform_cases (change_fixed i.opcode) m
      · rw [hb] at h; cases h
      · rw [hb] at h; cases h; exact congrArg (·.1) hfixed
      · rw [hb] at h; cases h; exact congrArg (·.1) hfixed

/-- The entries tell, one after the other, of the machines that a run gets to. -/
theorem tells_of_traceFrom {n k : Nat} {m : Machine} {e : TraceEntry}
    (h : (traceFrom code n m)[k]? = some e) : ∃ a, m.after? code k = some a ∧ e.Tells code a := by
  induction n generalizing k m with
  | zero => simp at h
  | succ n ih =>
    cases hturn : m.turn code with
    | running m' =>
      obtain ⟨first, htells, hseen⟩ := traceFrom_of_running hturn n
      rw [hseen] at h
      cases k with
      | zero => cases h; exact ⟨m, rfl, htells⟩
      | succ k =>
        rw [after?_succ_of_running hturn]
        exact ih h
    | stopped m' failure? =>
      rcases traceFrom_of_stopped hturn n with ⟨-, hseen⟩ | ⟨-, first, htells, hseen⟩
      · rw [hseen] at h; cases h
      · rw [hseen] at h
        cases k with
        | zero => cases h; exact ⟨m, rfl, htells⟩
        | succ k => cases h

/-- There is an entry for each step that a run has counted when it ends. -/
theorem steps_of_runFrom? {n : Nat} {m m' : Machine} {failure? : Option Failure}
    (h : runFrom? code n m = some (m', failure?)) :
    m'.steps = m.steps + (traceFrom code n m).length := by
  induction n generalizing m with
  | zero => cases h
  | succ n ih =>
    cases hturn : m.turn code with
    | running b =>
      rw [runFrom?_succ_of_running hturn] at h
      obtain ⟨first, -, hseen⟩ := traceFrom_of_running hturn n
      rw [ih h, steps_of_turn hturn, hseen, List.length_cons]
      omega
    | stopped b f =>
      rw [runFrom?_succ_of_stopped hturn] at h
      cases h
      rcases traceFrom_of_stopped hturn n with ⟨rfl, hseen⟩ | ⟨hsteps, first, -, hseen⟩
      · rw [hseen]
        rfl
      · rw [hsteps, hseen]
        rfl

/-! ## Programs -/

variable {vm : Machine} {p : Program} {output : Sink} {turns : Nat} {o : Outcome}

/-- A run that is traced ends as it does otherwise, and tells what it executes. -/
theorem watch_eq (traced : Bool) (turns : Nat) (vm : Machine) (p : Program) (output : Sink) :
    vm.watch traced turns p output =
      (if traced then vm.trace turns p output else [], vm.runWithin? turns p output) := by
  rw [watch, follow_eq]
  rfl

/-- What is seen of a run that ends: an entry for each step, in order. -/
theorem trace_of_runWithin? (h : vm.runWithin? turns p output = some o) :
    (vm.trace turns p output).length = o.machine.steps ∧
      ∀ (k : Nat) e, (vm.trace turns p output)[k]? = some e →
        ∃ a, (vm.load p output).after? p.code k = some a ∧ e.Tells p.code a := by
  obtain ⟨⟨b, failure?⟩, hrun, rfl⟩ := Option.map_eq_some_iff.1 h
  have hsteps := steps_of_runFrom? hrun
  exact ⟨(hsteps.trans (Nat.zero_add _)).symm, fun _ _ => tells_of_traceFrom⟩

/-- A run with a limit ends, however many steps the limit is. -/
theorem exists_runWithin?_of_limit (p : Program) (input : List UInt8) (output : Sink) {limit : Nat}
    (hturns : limit < turns) : ∃ o, (new ⟨input, some limit⟩).runWithin? turns p output = some o := by
  have hnone : ((new ⟨input, none⟩).load p output).settings.stepLimit? = none := rfl
  rcases stops_or_reaches hnone limit with ⟨n, a, b, failure?, ha, hs, hle⟩ | ⟨a, i, ha, hi⟩
  · exact ⟨_, (cutShort_of_stopped ha hs (Nat.le_trans hle (Nat.le_of_eq (Nat.zero_add limit)))).ends
      turns hturns⟩
  · exact ⟨_, (cutShort_of_reached ha hi).ends turns hturns⟩

end Machine

/-! ## Lines -/

theorem newline_notMem_stackText (stack : List Int64) : '\n' ∉ (stackText stack).toList := by
  have hitems : '\n' ∉ (", ".intercalate (stack.reverse.map toString)).toList := by
    rw [String.toList_intercalate]
    refine notMem_intercalate (by decide) fun part hpart => ?_
    obtain ⟨item, hitem, rfl⟩ := List.mem_map.1 hpart
    obtain ⟨x, -, rfl⟩ := List.mem_map.1 hitem
    exact notMem_toString_int64 rfl (by decide) x
  simp only [stackText, listText, String.toList_append, List.mem_append, not_or]
  exact ⟨⟨by decide, hitems⟩, by decide⟩

theorem Instruction.newline_notMem_text (i : Instruction) : '\n' ∉ i.text.toList := by
  have hmnemonic := (Opcode.mnemonic_plain i.opcode).2
  have hword (x : Int64) : '\n' ∉ (toString x).toList := notMem_toString_int64 rfl (by decide) x
  have hoperand : ∀ shown ∈ i.operandText?, '\n' ∉ shown.toList := by
    intro shown h
    unfold operandText? at h
    split at h
    · cases h
    · cases h; exact hword _
    · cases h; exact hword _
    · cases h; exact hword _
    · cases h
      cases Register.ofOperand? i.operand <;> simp [hword, (Register.name_plain _).2]
    · cases h
      cases i.label? <;> simp [hword, Program.newline_notMem_text]
  unfold text
  cases h : i.operandText? with
  | none => exact hmnemonic
  | some shown => simp [textWith, hmnemonic, hoperand shown h]

/-- An entry is shown on one line. -/
theorem Machine.TraceEntry.newline_notMem_text (e : TraceEntry) : '\n' ∉ e.text.toList := by
  have haddress : '\n' ∉ (addressText e.address).toList := notMem_addressText rfl e.address
  have hinstruction : '\n' ∉ (padded ' ' .left 20 e.instruction.text).toList :=
    notMem_padded (by decide) e.instruction.newline_notMem_text
  simp [TraceEntry.text, haddress, hinstruction, newline_notMem_stackText]

end StackLang
