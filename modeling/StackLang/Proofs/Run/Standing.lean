import StackLang.Proofs.Run.Labels

/-!
# Where machines stand

Whatever its code, a machine that runs a program stands at an instruction or at the end of the code, and
what it is to return to are addresses right after calls: labels lead to marks, and only calls save
addresses. So the failure that stops a run is at an instruction of the operation that it names. Output
that cannot be flushed is found out after the run, where a `halt` or the end of the code has stopped it.

Results:
* `Stands.turn`: where a turn leads.
* `pointsAt_of_stopped`: what a failure points at.
* `stands_of_made`: the runs of any program.
-/
namespace StackLang

/-! ## Programs -/

/-- How a program is made: of instructions alone, or by linking a draft. -/
inductive Program.Made : Program → Prop where
  | ofCode (code : List Instruction) (statics : List UInt8) : Made (.ofCode code statics)
  | link {d : Draft} {entry : Label} {p : Program} (h : d.link entry = .ok p) : Made p

theorem Program.Made.labels_eq {p : Program} (h : p.Made) :
    p.labels = StackLang.link p.code.toList := by
  cases h with
  | ofCode code statics => rfl
  | link h => rw [(Draft.link_ok h).1]

theorem lt_of_resolve?_link {code : Array Instruction} {l : Label} {a : Nat}
    (h : (link code.toList).resolve? l = some a) : a < code.size := by
  obtain ⟨i, hi, -⟩ := Option.bind_eq_some_iff.1 (resolve?_link_eq_some_iff.1 h).1
  exact (List.getElem?_eq_some_iff.1 hi).1

/-- A run starts at an instruction, or else at the end of code that has none. -/
theorem Program.Made.start_le {p : Program} (h : p.Made) : p.start ≤ p.code.size := by
  rw [start]
  cases hentry : p.entry?.bind p.labels.resolve? with
  | none => exact Nat.zero_le _
  | some a =>
    obtain ⟨l, -, hl⟩ := Option.bind_eq_some_iff.1 hentry
    rw [h.labels_eq] at hl
    exact Nat.le_of_lt (lt_of_resolve?_link hl)

/-! ## Turns -/

/-- An address of some code that is right after a call. -/
def AfterCall (code : Array Instruction) (r : Nat) : Prop :=
  1 ≤ r ∧ r ≤ code.size ∧ ∃ i, code[r - 1]? = some i ∧ i.opcode = .call

/-- The machine stands at an instruction or at the end of the code, and is to return to addresses right
after calls. -/
structure Machine.Stands (code : Array Instruction) (m : Machine) : Prop where
  pc_le : m.pc ≤ code.size
  calls : ∀ r ∈ m.calls, AfterCall code r

/-- What the failure of a run points at, if the run was stopped by another one or by none, and its output
has gone to a sink. -/
inductive Failure.PointsAt (code : Array Instruction) (output : Sink) :
    Option Failure → Failure → Prop where
  /-- The failure has stopped the run, at an instruction of its operation. -/
  | instruction {failure : Failure} {i : Instruction} (hi : code[failure.address]? = some i)
    (opcode : i.opcode = failure.opcode) : PointsAt code output (some failure) failure
  /-- A `halt` has stopped the run, and the output could not be flushed. -/
  | halt {address : Nat} {i : Instruction} (hflush : output.flushFails) (hi : code[address]? = some i)
    (opcode : i.opcode = .halt) : PointsAt code output none ⟨.output output.error, address, .halt⟩
  /-- The end of the code has stopped the run, and the output could not be flushed. -/
  | codeEnd (hflush : output.flushFails) :
    PointsAt code output none ⟨.output output.error, code.size, .halt⟩

namespace Machine

variable {code : Array Instruction} {m a b : Machine}

theorem lt_of_target? (hlabels : m.labels = link code.toList) {operand : Int64} {t : Nat}
    (h : m.target? operand = some t) : t < code.size := by
  obtain ⟨l, -, hl⟩ := Option.bind_eq_some_iff.1 h
  rw [hlabels] at hl
  exact lt_of_resolve?_link hl

theorem Stands.goto (h : m.Stands code) (pc_le : b.pc ≤ code.size) (calls : b.calls = m.calls) :
    b.Stands code := by
  refine ⟨pc_le, ?_⟩
  rw [calls]
  exact h.calls

/-- A turn leads to an instruction or to the end of the code, whatever the instruction. -/
theorem Stands.turn (h : m.Stands code) (hlabels : m.labels = link code.toList) :
    (m.turn code).machine.Stands code := by
  cases hi : code[m.pc]? with
  | none =>
    rw [turn_of_end hi]
    exact h
  | some i =>
    have hlt : m.pc < code.size := (Array.getElem?_eq_some_iff.1 hi).1
    rcases goes_turn hi with hgoes | ⟨limit, hlimit⟩
    · generalize m.turn code = t at hgoes
      cases hgoes with
      | next hop pc calls => exact h.goto (pc ▸ hlt) calls
      | jumps hop target calls => exact h.goto (Nat.le_of_lt (lt_of_target? hlabels target)) calls
      | @calls b hop target calls =>
        refine ⟨Nat.le_of_lt (lt_of_target? hlabels target), ?_⟩
        show ∀ r ∈ b.calls, AfterCall code r
        rw [calls]
        -- the address that is saved comes after this call
        exact List.forall_mem_cons.2 ⟨⟨Nat.succ_pos _, hlt, i, hi, hop⟩, h.calls⟩
      | @returns b hop calls =>
        have hcalls := h.calls
        rw [calls] at hcalls
        obtain ⟨⟨-, hle, -⟩, hlater⟩ := List.forall_mem_cons.1 hcalls
        exact ⟨hle, hlater⟩
      | halts hop pc calls => exact h.goto (pc ▸ h.pc_le) calls
      | fails hop target pc calls => exact h.goto (pc ▸ h.pc_le) calls
    · rw [hlimit]
      exact h

/-- What the failure of a run points at that has stopped at a machine. -/
theorem pointsAt_of_stopped (hle : a.pc ≤ code.size) {failure? : Option Failure} {failure : Failure}
    (hs : a.turn code = .stopped b failure?) (hf : failure ∈ (b.finish failure?).failure?) :
    failure.address = b.pc ∧ failure.PointsAt code b.output failure? := by
  cases hi : code[a.pc]? with
  | none =>
    rw [turn_of_end hi] at hs
    cases hs
    have hsize : a.pc = code.size := Nat.le_antisymm hle (Array.getElem?_eq_none_iff.1 hi)
    rcases cases_of_finish hf with hf | ⟨-, hflush, rfl⟩
    · cases hf
    · rw [hsize]
      exact ⟨rfl, .codeEnd hflush⟩
  | some i =>
    rcases goes_turn hi with hgoes | ⟨limit, hlimit⟩
    · rw [hs] at hgoes
      cases hgoes with
      | halts hop pc calls =>
        rcases cases_of_finish hf with hf | ⟨-, hflush, rfl⟩
        · cases hf
        · rw [← pc] at hi
          exact ⟨rfl, .halt hflush hi hop⟩
      | fails hop target pc calls =>
        rcases cases_of_finish hf with hf | ⟨hnone, -⟩
        · cases hf
          exact ⟨pc.symm, .instruction hi rfl⟩
        · cases hnone
    · rw [hlimit] at hs
      cases hs
      rcases cases_of_finish hf with hf | ⟨hnone, -⟩
      · cases hf
        exact ⟨rfl, .instruction hi rfl⟩
      · cases hnone

/-! ## Runs -/

variable {p : Program} {vm : Machine} {output : Sink}

/-- Wherever a run gets to, the machine stands at an instruction or at the end of the code. -/
theorem stands_of_after? (hp : p.Made) {n : Nat}
    (ha : (vm.load p output).after? p.code n = some a) : a.Stands p.code := by
  have hstands : a.Stands p.code ∧ a.labels = link p.code.toList := by
    refine after?_induction (P := fun a => a.Stands p.code ∧ a.labels = link p.code.toList)
      ⟨⟨hp.start_le, fun r hr => absurd hr List.not_mem_nil⟩, hp.labels_eq⟩ (fun b c hb ht => ?_) ha
    have hturn := hb.1.turn hb.2
    obtain ⟨i, -, -, hperform⟩ := perform_of_turn ht
    rw [ht] at hturn
    exact ⟨hturn, (congrArg (·.2.2.1) (fixed_of_perform hperform)).trans hb.2⟩
  exact hstands.1

/-- Where the runs of a program stand, whatever its instructions and their operands. The machines that a
run gets to, and the one that it ends with, stand at an instruction or at the end of the code, and are to
return to addresses right after calls. If the run fails, then at the address of the failure is an
instruction of the operation that it names; or nothing else has failed, the output could not be flushed,
and the address is that of the `halt` that has stopped the run, or the end of the code. -/
theorem stands_of_made (hp : p.Made) (vm : Machine) (output : Sink) :
    (∀ n a, (vm.load p output).after? p.code n = some a → a.Stands p.code) ∧
    ∀ turns o, vm.runWithin? turns p output = some o → o.machine.Stands p.code ∧
      ∃ n a b stopped?, (vm.load p output).after? p.code n = some a ∧
        a.turn p.code = .stopped b stopped? ∧ o = b.finish stopped? ∧
        ∀ failure ∈ o.failure?, failure.address = o.machine.pc ∧
          failure.PointsAt p.code o.machine.output stopped? := by
  refine ⟨fun n a ha => stands_of_after? hp ha, ?_⟩
  intro turns o ho
  obtain ⟨n, -, a, b, stopped?, ha, hs, rfl⟩ := exists_after?_of_runWithin? ho
  have hstands := stands_of_after? hp ha
  have hlabels : a.labels = link p.code.toList := (labels_of_after? ha).trans hp.labels_eq
  have hlast := hstands.turn hlabels
  rw [hs] at hlast
  refine ⟨⟨hlast.pc_le, hlast.calls⟩, n, a, b, stopped?, ha, hs, rfl, fun failure hf => ?_⟩
  have hpoints := pointsAt_of_stopped hstands.pc_le hs hf
  exact hpoints

/-- A program that calls a function as its last instruction. The function returns to the end of the
code. -/
def callAtEnd : Program := .ofCode [.ofLabel .jump ⟨1⟩, .ofLabel .mark ⟨0⟩, .bare .ret,
  .ofLabel .mark ⟨1⟩, .ofLabel .call ⟨0⟩] []

/-- The output of that program cannot be flushed, which is found out at the end of the code. -/
theorem callAtEnd_stands : callAtEnd.Made ∧
    (∃ a, ((new ⟨[], none⟩).load callAtEnd .unlimited).after? callAtEnd.code 3 = some a ∧
      a.calls = [5] ∧ a.Stands callAtEnd.code) ∧
    ∃ o failure, (new ⟨[], none⟩).run? callAtEnd ⟨[], none, .brokenPipe, true⟩ = some o ∧
      o.failure? = some failure ∧ failure = ⟨.output .brokenPipe, callAtEnd.code.size, .halt⟩ ∧
      o.machine.Stands callAtEnd.code ∧ ∃ stopped?,
        failure.PointsAt callAtEnd.code o.machine.output stopped? := by
  have hmade : callAtEnd.Made := .ofCode _ _
  refine ⟨hmade, ?_, ?_⟩
  · obtain ⟨a, ha, hcalls⟩ : ∃ a,
        ((new ⟨[], none⟩).load callAtEnd .unlimited).after? callAtEnd.code 3 = some a ∧
        a.calls = [5] := ⟨_, rfl, rfl⟩
    exact ⟨a, ha, hcalls, (stands_of_made hmade (.new ⟨[], none⟩) .unlimited).1 3 a ha⟩
  · obtain ⟨o, failure, ho, hfailure, heq⟩ : ∃ o failure,
        (new ⟨[], none⟩).run? callAtEnd ⟨[], none, .brokenPipe, true⟩ = some o ∧
        o.failure? = some failure ∧ failure = ⟨.output .brokenPipe, callAtEnd.code.size, .halt⟩ :=
      ⟨_, _, rfl, rfl, rfl⟩
    obtain ⟨hstands, n, a, b, stopped?, -, -, -, hpoints⟩ :=
      (stands_of_made hmade (.new ⟨[], none⟩) ⟨[], none, .brokenPipe, true⟩).2 turnLimit o ho
    exact ⟨o, failure, ho, hfailure, heq, hstands, stopped?, (hpoints failure hfailure).2⟩

end Machine
end StackLang
