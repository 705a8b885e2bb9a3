import StackLang.Proofs.Run.Aside
import StackLang.Proofs.Run.Limits

/-!
# Runs whose output is cut

A sink that keeps so many bytes makes no difference to a run until an instruction writes beyond them. That
instruction fails, after it has done all that it does, but for going on to the next address; and the
output is cut where the sink is full.

Results:
* `perform_capped`, `perform_capped_beyond`: executing an instruction with such a sink.
* `after?_capped`: as long as the sink is not full, the machines differ in their sinks alone.
* `run_limited`: whole runs.
-/
namespace StackLang

namespace Sink

/-- A sink that keeps so many bytes and fails at the next one. -/
def limited (w : Nat) (e : WriteError) : Sink := ⟨[], some w, e, false⟩

/-- A sink with the output of another one, that keeps so many bytes in all. -/
def capped (w : Nat) (e : WriteError) (s : Sink) : Sink :=
  { s with room? := some (w - s.written.length), error := e }

variable {w : Nat} {e : WriteError} {s : Sink} {data : List UInt8}

theorem fitting_nil (s : Sink) : s.fitting [] = [] := by
  unfold fitting
  cases s.room? with
  | none => rfl
  | some room => exact List.take_nil

theorem write_of_unlimited (h : s.room? = none) (data : List UInt8) :
    s.write data = (true, { s with chunks := data :: s.chunks }) := by
  simp [write, fitting, h]

theorem written_cons (s : Sink) (data : List UInt8) :
    ({ s with chunks := data :: s.chunks } : Sink).written = s.written ++ data := by
  simp [written]

/-- What fits is written. -/
theorem write_capped_of_le (h : s.room? = none) (hfit : s.written.length + data.length ≤ w) :
    (s.capped w e).write data = (true, (s.write data).2.capped w e) := by
  have hdata : data.take (w - s.written.length) = data := List.take_of_length_le (by omega)
  have hroom : w - s.written.length - data.length = w - (s.written ++ data).length := by
    rw [List.length_append, Nat.sub_add_eq]
  rw [write_of_unlimited h]
  simp only [write, fitting, capped, hdata, Option.map_some, hroom, written_cons, decide_true]

/-- Of what does not fit, the first bytes are written. -/
theorem write_capped_of_lt (hle : s.written.length ≤ w) (hcut : w < s.written.length + data.length) :
    ((s.capped w e).write data).1 = false := by
  refine decide_eq_false fun heq => ?_
  simp only [fitting, capped, List.length_take] at heq
  omega

theorem written_write_capped (hle : s.written.length ≤ w) :
    ((s.capped w e).write data).2.written = (s.written ++ data).take w := by
  rw [written_write, List.take_append, List.take_of_length_le hle]
  rfl

end Sink

namespace Machine

open Exec Instruction

/-- The machine with a sink that keeps so many bytes in all. -/
def capped (w : Nat) (e : WriteError) (m : Machine) : Machine :=
  { m with output := m.output.capped w e }

variable {w : Nat} {e : WriteError} {code : Array Instruction}

/-! ## Instructions that do not print -/

theorem farSilent_output (output : Sink) : FarSilent ({ · with output }) := {}

theorem change_output {op : Opcode} (h : op.prints = false) :
    Change op fun a b => b.output = a.output where
  refl _ := rfl
  trans hab hbc := hbc.trans hab
  stack _ _ := rfl
  registers _ _ := rfl
  calls _ _ _ := rfl
  unread _ _ _ := rfl
  allocate _ _ _ := rfl
  write hop := by rw [h] at hop; cases hop

theorem output_of_not_prints {i : Instruction} (h : i.opcode.prints = false) (m : Machine) :
    (m.perform i).machine.output = m.output := by
  obtain ⟨b, hb, ⟨pc, hp⟩ | hp | ⟨fault, -, hp⟩⟩ := perform_cases (change_output h) m <;>
    rw [hp] <;> exact hb

/-- An instruction that does not print does the same whatever the sink. -/
theorem perform_capped_of_not_prints {i : Instruction} (h : i.opcode.prints = false) (m : Machine) :
    (m.capped w e).perform i = (m.perform i).map (capped w e) := by
  have hmap : (m.capped w e).perform i =
      (m.perform i).map ({ · with output := m.output.capped w e }) :=
    perform_map_of_commutes (farSilent_output _) m (i.commutes_of_silent (farSilent_output _)
      (Exec.commutes_read (farSilent_output _).toSilent (fun _ => rfl) fun _ _ => rfl)
      fun hop => by rw [h] at hop; cases hop)
  have hkept := output_of_not_prints h m
  rw [hmap]
  generalize m.perform i = t at hkept
  cases t with
  | running b | stopped b failure? =>
    have hb : b.output = m.output := hkept
    simp only [Turn.map, capped, hb]

/-! ## Instructions that print -/

/-- What an instruction that prints does, whatever the sink: it fails before it writes, or it writes some
data and goes on. -/
inductive Prints (m : Machine) (i : Instruction) : Prop where
  | fails (fault : Fault) (rest : List Int64)
    (h : ∀ output, ({ m with output } : Machine).perform i =
      .stopped (({ m with output } : Machine).advance m.pc rest) (some ⟨fault, m.pc, i.opcode⟩))
  | writes (data : List UInt8) (rest : List Int64)
    (h : ∀ output, ({ m with output } : Machine).perform i =
      ({ m with output } : Machine).writeThen i.opcode data rest)

theorem prints_of_prints (m : Machine) {i : Instruction} (hi : i.opcode.prints) : m.Prints i := by
  obtain ⟨op, operand⟩ := i
  cases op with
  | putInt =>
    cases hs : m.stack with
    | nil =>
      refine .fails .stackUnderflow [] fun output => ?_
      simp [perform, execute, pop, hs, advance]
    | cons value rest => exact .writes _ rest fun output => perform_putInt { m with output } hs
  | putString =>
    cases hs : m.stack with
    | nil =>
      refine .fails .stackUnderflow [] fun output => ?_
      simp [perform, execute, pop, hs, advance]
    | cons value rest =>
      have hput (output : Sink) := perform_putString { m with output } hs
      cases hstring : (wordSize? value).bind m.heap.string? with
      | none =>
        refine .fails (.heapOutOfBounds value) rest fun output => ?_
        have := hput output
        rwa [hstring] at this
      | some string =>
        refine .writes string rest fun output => ?_
        have := hput output
        rwa [hstring] at this
  | putStatic =>
    cases hdata : m.static? operand with
    | none =>
      exact .fails (.staticOutOfBounds operand) m.stack fun output =>
        perform_putStatic_of_none { m with output } hdata
    | some data => exact .writes data m.stack fun output => perform_putStatic { m with output } hdata
  | _ => cases hi

section

variable {m : Machine} {i : Instruction} (hroom : m.output.room? = none)

include hroom

/-- With room for all, what is to be written is written. -/
theorem writeThen_of_unlimited (opcode : Opcode) (data : List UInt8) (rest : List Int64) :
    m.writeThen opcode data rest = .running
      ({ m with output := { m.output with chunks := data :: m.output.chunks } }.advance
        (m.pc + 1) rest) := by
  simp [writeThen, Sink.write_of_unlimited hroom]

/-- An instruction whose output there is room for. -/
theorem perform_capped (hle : (m.perform i).machine.output.written.length ≤ w) :
    (m.capped w e).perform i = (m.perform i).map (capped w e) := by
  cases hprints : i.opcode.prints with
  | false => exact perform_capped_of_not_prints hprints m
  | true =>
    cases m.prints_of_prints hprints with
    | fails fault rest h =>
      have hplain := h m.output
      have hcapped := h (m.output.capped w e)
      exact hcapped.trans (congrArg (Turn.map (capped w e)) hplain).symm
    | writes data rest h =>
      have hplain := (h m.output).trans (writeThen_of_unlimited hroom i.opcode data rest)
      have hcapped := h (m.output.capped w e)
      rw [show m.perform i = _ from hplain] at hle ⊢
      have hfit : m.output.written.length + data.length ≤ w := by
        rw [← List.length_append, ← Sink.written_cons]
        exact hle
      refine hcapped.trans ?_
      simp only [writeThen, Sink.write_capped_of_le hroom hfit, if_true,
        Sink.write_of_unlimited hroom]
      rfl

/-- An instruction whose output there is not room for. -/
theorem perform_capped_beyond (hle : m.output.written.length ≤ w)
    (hbeyond : w < (m.perform i).machine.output.written.length) :
    ∃ b output, m.perform i = .running b ∧ output.written = b.output.written.take w ∧
      (m.capped w e).perform i =
        .stopped { b with pc := m.pc, output } (some ⟨.output e, m.pc, i.opcode⟩) := by
  cases hprints : i.opcode.prints with
  | false =>
    rw [output_of_not_prints hprints] at hbeyond
    exact absurd hle (Nat.not_le_of_lt hbeyond)
  | true =>
    cases m.prints_of_prints hprints with
    | fails fault rest h =>
      have hplain : m.perform i = _ := h m.output
      rw [hplain] at hbeyond
      exact absurd hle (Nat.not_le_of_lt hbeyond)
    | writes data rest h =>
      have hplain : m.perform i = _ :=
        (h m.output).trans (writeThen_of_unlimited hroom i.opcode data rest)
      have hcapped := h (m.output.capped w e)
      rw [hplain] at hbeyond
      have hcut : w < m.output.written.length + data.length := by
        rw [← List.length_append, ← Sink.written_cons]
        exact hbeyond
      refine ⟨_, ((m.output.capped w e).write data).2, hplain, ?_, hcapped.trans ?_⟩
      · rw [Sink.written_write_capped hle]
        exact congrArg (List.take w) (Sink.written_cons m.output data).symm
      · simp only [writeThen, Sink.write_capped_of_lt hle hcut]
        rfl

/-! ## Turns -/

/-- With room for all, a turn that stops writes nothing. -/
theorem output_of_stopped {b : Machine} {failure? : Option Failure}
    (h : m.turn code = .stopped b failure?) : b.output = m.output := by
  cases hi : code[m.pc]? with
  | none =>
    rw [turn_of_end hi] at h
    cases h
    rfl
  | some i =>
    cases hlimit : m.spentLimit? with
    | some limit =>
      rw [turn_of_spent hi hlimit] at h
      cases h
      rfl
    | none =>
      rw [turn_of_getElem? hi hlimit] at h
      cases hprints : i.opcode.prints with
      | false =>
        have hkept := output_of_not_prints hprints m
        rwa [h] at hkept
      | true =>
        cases m.prints_of_prints hprints with
        | fails fault rest hfails =>
          cases h.symm.trans (hfails m.output)
          rfl
        | writes data rest hwrites =>
          have hruns := (hwrites m.output).trans (writeThen_of_unlimited hroom i.opcode data rest)
          cases h.symm.trans hruns

/-- A turn whose output there is room for. -/
theorem turn_capped (hle : (m.turn code).machine.output.written.length ≤ w) :
    (m.capped w e).turn code = (m.turn code).map (capped w e) := by
  cases hi : code[m.pc]? with
  | none => rw [turn_of_end hi, turn_of_end (m := m.capped w e) hi]; rfl
  | some i =>
    cases hlimit : m.spentLimit? with
    | some limit => rw [turn_of_spent hi hlimit, turn_of_spent (m := m.capped w e) hi hlimit]; rfl
    | none =>
      rw [turn_of_getElem? hi hlimit] at hle ⊢
      rw [turn_of_getElem? (m := m.capped w e) hi hlimit, perform_capped hroom hle]

/-! ## Runs -/

/-- A sink that has room for all keeps it. -/
theorem room?_of_after? {n : Nat} {a : Machine} (ha : m.after? code n = some a) :
    a.output.room? = none := by
  refine after?_induction (P := fun a => a.output.room? = none) hroom (fun b c hb ht => ?_) ha
  obtain ⟨i, -, -, hp⟩ := perform_of_turn ht
  have hfixed : c.output.room?.isNone = b.output.room?.isNone :=
    congrArg (·.2.2.2.2.1) (fixed_of_perform hp)
  rw [hb] at hfixed
  exact Option.isNone_iff_eq_none.1 hfixed

/-- As long as the sink is not full, the machines differ in their sinks alone. -/
theorem after?_capped {n : Nat} {a : Machine} (ha : m.after? code n = some a)
    (hle : a.output.written.length ≤ w) :
    (m.capped w e).after? code n = some (a.capped w e) := by
  induction n generalizing a with
  | zero => cases ha; rfl
  | succ n ih =>
    obtain ⟨b, hb, ht⟩ := after?_succ_eq_some_iff.1 ha
    have hwritten : b.output.written <+: (b.turn code).machine.output.written := written_of_turn b
    have hturn : (b.turn code).machine.output.written.length ≤ w := by
      rw [ht]
      exact hle
    refine after?_succ_eq_some_iff.2 ⟨_, ih hb (Nat.le_trans hwritten.length_le hturn), ?_⟩
    rw [turn_capped (room?_of_after? hroom hb) hturn, ht]
    rfl

/-- If the sink is never full, it makes no difference. -/
theorem runFrom?_capped
    (hall : ∀ n a, m.after? code n = some a → a.output.written.length ≤ w) (turns : Nat) :
    runFrom? code turns (m.capped w e) =
      (runFrom? code turns m).map fun x => (x.1.capped w e, x.2) := by
  induction turns generalizing m with
  | zero => rfl
  | succ turns ih =>
    cases ht : m.turn code with
    | running b =>
      have hstep (n : Nat) : m.after? code (n + 1) = b.after? code n := after?_succ_of_running ht n
      have hb : m.after? code 1 = some b := hstep 0
      have hle : (m.turn code).machine.output.written.length ≤ w := by
        rw [ht]
        exact hall 1 b hb
      have hcapped := turn_capped (e := e) hroom hle
      rw [ht] at hcapped
      rw [runFrom?_succ_of_running ht, runFrom?_succ_of_running hcapped]
      exact ih (room?_of_after? hroom hb) fun n a ha => hall (n + 1) a ((hstep n).trans ha)
    | stopped b failure? =>
      have hle : (m.turn code).machine.output.written.length ≤ w := by
        rw [ht]
        show b.output.written.length ≤ w
        rw [output_of_stopped hroom ht]
        exact hall 0 m rfl
      have hcapped := turn_capped (e := e) hroom hle
      rw [ht] at hcapped
      rw [runFrom?_succ_of_stopped ht, runFrom?_succ_of_stopped hcapped]
      rfl

end

/-- The turn that takes the output of a run beyond so many bytes: the instruction that is executed in it,
and the machines before and after it. -/
structure Overruns (code : Array Instruction) (m : Machine) (w n : Nat) (a b : Machine)
    (i : Instruction) : Prop where
  reached : m.after? code n = some a
  within : a.output.written.length ≤ w
  instruction : code[a.pc]? = some i
  turn : a.turn code = .running b
  beyond : w < b.output.written.length

/-- Output that goes beyond so many bytes is taken there by some turn. -/
theorem exists_overruns {m c : Machine} {k : Nat} (hstart : m.output.written.length ≤ w)
    (hc : m.after? code k = some c) (hbeyond : w < c.output.written.length) :
    ∃ n a b i, Overruns code m w n a b i := by
  induction k generalizing c with
  | zero =>
    cases hc
    exact absurd hstart (Nat.not_le_of_lt hbeyond)
  | succ k ih =>
    obtain ⟨a, ha, ht⟩ := after?_succ_eq_some_iff.1 hc
    by_cases hle : a.output.written.length ≤ w
    · obtain ⟨i, hi, -, -⟩ := perform_of_turn ht
      exact ⟨k, a, c, i, ha, hle, hi, ht, hbeyond⟩
    · exact ih ha (Nat.lt_of_not_le hle)

/-- Where the output of a run goes beyond what a sink keeps, the run with that sink stops. -/
theorem Overruns.turn_capped {m a b : Machine} {n : Nat} {i : Instruction}
    (h : Overruns code m w n a b i) (hroom : m.output.room? = none) :
    ∃ output, output.written = b.output.written.take w ∧ (a.capped w e).turn code =
      .stopped { b with pc := a.pc, output } (some ⟨.output e, a.pc, i.opcode⟩) := by
  obtain ⟨j, hj, hlimit, hperform⟩ := perform_of_turn h.turn
  obtain rfl : i = j := Option.some.inj (h.instruction.symm.trans hj)
  have hbeyond : w < (a.perform i).machine.output.written.length := by
    rw [hperform]
    exact h.beyond
  obtain ⟨b', output, hb, hwritten, hstop⟩ := perform_capped_beyond (e := e)
    (room?_of_after? hroom h.reached) h.within hbeyond
  cases hperform.symm.trans hb
  refine ⟨output, hwritten, ?_⟩
  rw [turn_of_getElem? (m := a.capped w e) h.instruction hlimit]
  exact hstop

end Machine

/-- The outcome of a run with a sink that keeps so many bytes in all. -/
def Outcome.capped (w : Nat) (e : WriteError) (o : Outcome) : Outcome :=
  { o with machine := o.machine.capped w e }

namespace Machine

variable {p : Program} {vm : Machine} {w : Nat} {e : WriteError}

/-- A program that is loaded with a sink that keeps so many bytes. -/
theorem load_limited (p : Program) (vm : Machine) (w : Nat) (e : WriteError) :
    vm.load p (.limited w e) = (vm.load p .unlimited).capped w e := rfl

/-- No flush fails in a run whose sink does not fail. -/
theorem flushFails_of_after? {n : Nat} {a : Machine}
    (ha : (vm.load p .unlimited).after? p.code n = some a) : a.output.flushFails = false := by
  refine after?_induction (P := fun a => a.output.flushFails = false) rfl (fun b c hb ht => ?_) ha
  obtain ⟨i, -, -, hp⟩ := perform_of_turn ht
  exact (congrArg (·.2.2.2.2.2) (fixed_of_perform hp)).trans hb

/-- The output of a run is within so many bytes if it is so wherever the run gets to. -/
theorem within_iff {turns : Nat} {o : Outcome} (ho : vm.runWithin? turns p .unlimited = some o) :
    (∀ n a, (vm.load p .unlimited).after? p.code n = some a → a.output.written.length ≤ w) ↔
      o.machine.output.written.length ≤ w := by
  constructor
  · intro hall
    obtain ⟨n, -, a, b, failure?, ha, hs, rfl⟩ := exists_after?_of_runWithin? ho
    show b.output.written.length ≤ w
    rw [output_of_stopped (room?_of_after? rfl ha) hs]
    exact hall n a ha
  · intro hle n a ha
    exact Nat.le_trans (written_of_runWithin? ha ho).length_le hle

theorem finish_capped {b : Machine} (h : b.output.flushFails = false) (failure? : Option Failure) :
    (b.capped w e).finish failure? = (b.finish failure?).capped w e := by
  simp [finish, h, Outcome.capped, capped, Sink.capped]

/-- If the sink is never full, the run ends as it does with one that does not fail. -/
theorem runWithin?_capped
    (hall : ∀ n a, (vm.load p .unlimited).after? p.code n = some a → a.output.written.length ≤ w)
    (turns : Nat) : vm.runWithin? turns p (.limited w e) =
      (vm.runWithin? turns p .unlimited).map (Outcome.capped w e) := by
  rw [runWithin?, runWithin?, load_limited, runFrom?_capped rfl hall, Option.map_map, Option.map_map]
  cases hrun : runFrom? p.code turns (vm.load p .unlimited) with
  | none => rfl
  | some x =>
    obtain ⟨b, failure?⟩ := x
    obtain ⟨k, -, a, ha, hs⟩ := runFrom?_eq_some_iff.1 hrun
    have hflush : b.output.flushFails = false := by
      rw [output_of_stopped (room?_of_after? rfl ha) hs]
      exact flushFails_of_after? ha
    exact congrArg some (finish_capped hflush failure?)

/-- The run stops where its output goes beyond what the sink keeps. -/
theorem Overruns.runWithin? {n : Nat} {a b : Machine} {i : Instruction}
    (h : Overruns p.code (vm.load p .unlimited) w n a b i) :
    ∃ output : Sink, output.written = b.output.written.take w ∧ ∀ turns, n < turns →
      vm.runWithin? turns p (.limited w e) =
        some ⟨{ b with pc := a.pc, output, status := .trapped },
          some ⟨.output e, a.pc, i.opcode⟩⟩ := by
  obtain ⟨output, hwritten, hstop⟩ := h.turn_capped (e := e) rfl
  refine ⟨output, hwritten, fun turns hturns => ?_⟩
  have hreach := after?_capped (e := e) rfl h.reached h.within
  have hrun := runFrom?_eq_some_iff.2 ⟨n, hturns, _, hreach, hstop⟩
  rw [Machine.runWithin?, load_limited, hrun]
  rfl

/-- What a sink that keeps so many bytes does to the runs of a program, compared with one that does not
fail. If the output stays within these bytes wherever the run gets to, then the run with the limited sink
ends in as many turns with the same result, output and state. Else some turn takes the output beyond
them, and the run with the limited sink ends there, with the error of the sink at the instruction that is
executed and with the state after it, but for the next address; and its output is the bytes that are
kept, of the output after the turn and of the output of the whole run. A run that ends has stayed within
the bytes just if its output in the end has. Nothing can always be written, whatever the sink. -/
theorem run_limited (p : Program) (vm : Machine) (w : Nat) (e : WriteError) :
    ((∀ n a, (vm.load p .unlimited).after? p.code n = some a → a.output.written.length ≤ w) →
      ∀ turns, vm.runWithin? turns p (.limited w e) =
        (vm.runWithin? turns p .unlimited).map (Outcome.capped w e)) ∧
    ((∃ n a, (vm.load p .unlimited).after? p.code n = some a ∧ w < a.output.written.length) →
      ∃ n a b i, Overruns p.code (vm.load p .unlimited) w n a b i) ∧
    (∀ n a b i, Overruns p.code (vm.load p .unlimited) w n a b i →
      ∃ output : Sink, output.written = b.output.written.take w ∧
        (∀ turns o, vm.runWithin? turns p .unlimited = some o →
          output.written = o.machine.output.written.take w) ∧
        ∀ turns, n < turns → vm.runWithin? turns p (.limited w e) =
          some ⟨{ b with pc := a.pc, output, status := .trapped },
            some ⟨.output e, a.pc, i.opcode⟩⟩) ∧
    (∀ turns o, vm.runWithin? turns p .unlimited = some o →
      ((∀ n a, (vm.load p .unlimited).after? p.code n = some a → a.output.written.length ≤ w) ↔
        o.machine.output.written.length ≤ w)) ∧
    ∀ m : Machine, ∃ m', Exec.write [] m = .ok () m' ∧ m'.output.written = m.output.written := by
  refine ⟨runWithin?_capped, ?_, ?_, fun turns o => within_iff, ?_⟩
  · rintro ⟨n, a, ha, hbeyond⟩
    exact exists_overruns (Nat.zero_le w) ha hbeyond
  · intro n a b i h
    obtain ⟨output, hwritten, hruns⟩ := h.runWithin? (e := e)
    refine ⟨output, hwritten, ?_, hruns⟩
    -- what is written after the turn comes after the bytes that are kept
    intro turns o ho
    have hb := after?_succ_eq_some_iff.2 ⟨a, h.reached, h.turn⟩
    obtain ⟨later, hlater⟩ := written_of_runWithin? hb ho
    rw [hwritten, ← hlater, List.take_append_of_le_length (Nat.le_of_lt h.beyond)]
  · intro m
    refine ⟨_, by rw [write_eq, if_pos m.output.write_nil], ?_⟩
    rw [Sink.written_write, Sink.fitting_nil, List.append_nil]

/-- A program that prints a number of three digits. -/
def numberProgram : Program := .ofCode [⟨.loadImmediate, 123⟩, .bare .putInt, .bare .halt] []

/-- A sink that keeps two bytes fails within the number. -/
theorem numberProgram_cut : ∃ o,
    (Machine.new ⟨[], none⟩).run? numberProgram (.limited 2 .brokenPipe) = some o ∧
      o.failure? = some ⟨.output .brokenPipe, 1, .putInt⟩ ∧ o.machine.output.written = [49, 50] ∧
      o.machine.stack = [] ∧ o.machine.steps = 2 := by
  obtain ⟨a, b, h, hpc, hb, hstack, hsteps⟩ : ∃ a b,
      Overruns numberProgram.code (Machine.load (.new ⟨[], none⟩) numberProgram .unlimited) 2 1 a b
        (.bare .putInt) ∧ a.pc = 1 ∧ b.output.written = [49, 50, 51] ∧ b.stack = [] ∧ b.steps = 2 :=
    ⟨_, _, ⟨rfl, by decide, rfl, rfl, by decide⟩, rfl, by decide, rfl, rfl⟩
  obtain ⟨output, hwritten, -, hruns⟩ :=
    (run_limited numberProgram (.new ⟨[], none⟩) 2 .brokenPipe).2.2.1 1 a b _ h
  rw [hb] at hwritten
  exact ⟨_, hruns turnLimit (by decide), by rw [hpc]; rfl, hwritten, hstack, hsteps⟩

end Machine
end StackLang
