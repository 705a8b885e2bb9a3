import StackLang.Proofs.Run.Aside
import StackLang.Proofs.Run.Watched

/-!
# Input is read in order, and no further

Each `getByte` of a run gives the next byte of the input, or -1 where there is none left. What has not been
read makes no difference: two inputs that agree as far as a run on one of them reads, past its end included,
have the same run.

Results:
* `unread_of_after?`: what is left of the input after some turns.
* `turn_given`: a turn on another input.
* `after?_given`, `runFrom?_given`: a run on another input.
* `input_read_in_order`: what a run makes of its input.
-/
namespace StackLang

/-- How many of the instructions that are executed read the input. -/
def reads (entries : List Machine.TraceEntry) : Nat :=
  entries.countP (·.instruction.opcode = .getByte)

@[simp] theorem reads_nil : reads [] = 0 := rfl

theorem reads_cons (e : Machine.TraceEntry) (entries : List Machine.TraceEntry) :
    reads (e :: entries) =
      (if e.instruction.opcode = .getByte then 1 else 0) + reads entries := by
  rw [reads, List.countP_cons, Nat.add_comm]
  simp only [decide_eq_true_eq]
  rfl

theorem reads_append (x y : List Machine.TraceEntry) : reads (x ++ y) = reads x + reads y :=
  List.countP_append

/-- What the reading of an input gives that has been read so many times before: a byte, or -1. -/
def inputWord (input : List UInt8) (position : Nat) : Int64 :=
  match input[position]? with
  | some byte => Int64.ofNat byte.toNat
  | none => -1

namespace Machine

variable {code : Array Instruction}

/-- The machine with another input, of which some is not yet read. -/
def given (input unread : List UInt8) (m : Machine) : Machine :=
  { m with settings := { m.settings with input }, unread }

theorem farSilent_given (input unread : List UInt8) : FarSilent (given input unread) := {}

/-! ## What is executed -/

theorem traceFrom_one {m : Machine} {i : Instruction} (hi : code[m.pc]? = some i)
    (hlimit : m.spentLimit? = none) : traceFrom code 1 m = [⟨m.pc, i, m.stack⟩] := by
  rw [traceFrom_succ, takeTurn_of_getElem? hi hlimit]
  cases m.turn code <;> rfl

theorem traceFrom_add {m a : Machine} {n : Nat} (h : m.after? code n = some a) (k : Nat) :
    traceFrom code (n + k) m = traceFrom code n m ++ traceFrom code k a := by
  induction n generalizing m with
  | zero =>
    cases h
    rw [Nat.zero_add]
    rfl
  | succ n ih =>
    cases hturn : m.turn code with
    | running b =>
      rw [after?_succ_of_running hturn] at h
      rw [Nat.succ_add, traceFrom_succ, traceFrom_succ]
      simp only [hturn, ih h, List.append_assoc]
    | stopped b failure? =>
      rw [after?_succ_of_stopped hturn] at h
      cases h

/-! ## Turns -/

/-- How often a turn reads the input: once or not at all. -/
def readsNext (code : Array Instruction) (m : Machine) : Nat := reads (traceFrom code 1 m)

theorem readsNext_eq {m : Machine} {i : Instruction} (hi : code[m.pc]? = some i)
    (hlimit : m.spentLimit? = none) :
    m.readsNext code = if i.opcode = .getByte then 1 else 0 := by
  rw [readsNext, traceFrom_one hi hlimit, reads_cons]
  rfl

theorem reads_succ_of_running {m b : Machine} (h : m.turn code = .running b) (n : Nat) :
    reads (traceFrom code (n + 1) m) = m.readsNext code + reads (traceFrom code n b) := by
  have hb : m.after? code 1 = some b := after?_succ_of_running h 0
  rw [Nat.add_comm n 1, traceFrom_add hb, reads_append]
  rfl

/-- A turn that reads takes a byte, if there is one, and puts a word on the stack. -/
theorem turn_of_reads {m : Machine} {i : Instruction} (hi : code[m.pc]? = some i)
    (hop : i.opcode = .getByte) (hlimit : m.spentLimit? = none) : m.turn code =
      .running ({ m with unread := m.unread.drop 1 }.advance (m.pc + 1)
        (inputWord m.unread 0 :: m.stack)) := by
  obtain ⟨op, operand⟩ := i
  obtain rfl : op = .getByte := hop
  have hperform : m.perform ⟨.getByte, operand⟩ = _ := perform_getByte m
  rw [turn_of_getElem? hi hlimit, hperform]
  cases hunread : m.unread with
  | nil =>
    have hsame : { m with unread := [] } = m := by rw [← hunread]
    rw [List.drop_nil, hsame]
    rfl
  | cons byte unread => rfl

theorem reads_succ_of_stopped {m b : Machine} {failure? : Option Failure}
    (h : m.turn code = .stopped b failure?) (n : Nat) : reads (traceFrom code (n + 1) m) = 0 := by
  rw [traceFrom_succ, h]
  cases hi : code[m.pc]? with
  | none => rw [takeTurn_of_end hi]; rfl
  | some i =>
    cases hlimit : m.spentLimit? with
    | some limit => rw [takeTurn_of_spent hi hlimit]; rfl
    | none =>
      have hop : i.opcode ≠ .getByte := fun hop => by
        rw [turn_of_reads hi hop hlimit] at h
        cases h
      rw [takeTurn_of_getElem? hi hlimit, Option.toList_some, List.append_nil, reads_cons, if_neg hop]
      rfl

/-- An instruction that does not read does the same on any input. -/
theorem perform_given {i : Instruction} (hop : i.opcode ≠ .getByte) (m : Machine)
    (input unread : List UInt8) :
    (m.given input unread).perform i = (m.perform i).map (given input unread) :=
  perform_map_of_commutes (farSilent_given input unread) m
    (i.commutes_of_silent (farSilent_given input unread) (absurd · hop)
      fun _ => Exec.commutes_write (fun _ => rfl) fun _ _ => rfl)

/-- A turn does the same on another input, if it does not read or reads the same there. -/
theorem turn_given {m : Machine} (input : List UInt8) {unread : List UInt8}
    (h : ∀ j < m.readsNext code, m.unread[j]? = unread[j]?) : (m.given input unread).turn code =
      (m.turn code).map (given input (unread.drop (m.readsNext code))) := by
  cases hi : code[m.pc]? with
  | none =>
    have hnone : m.readsNext code = 0 := reads_succ_of_stopped (turn_of_end hi) 0
    rw [hnone, turn_of_end hi, turn_of_end (m := m.given input unread) hi]
    rfl
  | some i =>
    cases hlimit : m.spentLimit? with
    | some limit =>
      have hnone : m.readsNext code = 0 := reads_succ_of_stopped (turn_of_spent hi hlimit) 0
      rw [hnone, turn_of_spent hi hlimit, turn_of_spent (m := m.given input unread) hi hlimit]
      rfl
    | none =>
      have hreads := readsNext_eq hi hlimit
      by_cases hop : i.opcode = .getByte
      · rw [if_pos hop] at hreads
        rw [hreads] at h ⊢
        have hword : inputWord unread 0 = inputWord m.unread 0 := by
          rw [inputWord, inputWord, h 0 Nat.one_pos]
        rw [turn_of_reads hi hop hlimit, turn_of_reads (m := m.given input unread) hi hop hlimit]
        simp only [Turn.map, given, hword]
        rfl
      · rw [if_neg hop] at hreads
        rw [hreads, turn_of_getElem? hi hlimit,
          turn_of_getElem? (m := m.given input unread) hi hlimit, perform_given hop]
        rfl

/-- A turn takes as many bytes as it reads. -/
theorem unread_of_turn {m b : Machine} (h : m.turn code = .running b) :
    b.unread = m.unread.drop (m.readsNext code) := by
  -- the machine is given its own input
  have hown : (m.given m.settings.input m.unread).turn code = _ :=
    turn_given m.settings.input fun _ _ => rfl
  have hsame : m.given m.settings.input m.unread = m := rfl
  rw [hsame, h] at hown
  exact congrArg unread (Turn.running.inj hown)

/-! ## Runs -/

/-- What is left of the input after some turns. -/
theorem unread_of_after? {m a : Machine} {n : Nat} (h : m.after? code n = some a) :
    a.unread = m.unread.drop (reads (traceFrom code n m)) := by
  induction n generalizing m with
  | zero => cases h; rfl
  | succ n ih =>
    cases hturn : m.turn code with
    | running b =>
      rw [after?_succ_of_running hturn] at h
      rw [ih h, unread_of_turn hturn, List.drop_drop, reads_succ_of_running hturn]
    | stopped b failure? =>
      rw [after?_succ_of_stopped hturn] at h
      cases h

/-- Inputs that agree as far as two parts of a run read, agree as far as the first part does, and what
is left of them as far as the second part does. -/
theorem agree_add {α : Type} {x y : List α} {n k : Nat} (h : ∀ j < n + k, x[j]? = y[j]?) :
    (∀ j < n, x[j]? = y[j]?) ∧ ∀ j < k, (x.drop n)[j]? = (y.drop n)[j]? := by
  refine ⟨fun j hj => h j (Nat.lt_add_right k hj), fun j hj => ?_⟩
  rw [List.getElem?_drop, List.getElem?_drop]
  exact h (n + j) (Nat.add_lt_add_left hj n)

/-- A turn that goes on, on another input: what is left of it agrees as far as the later turns read. -/
theorem turn_given_of_running {m b : Machine} {n : Nat} (hturn : m.turn code = .running b)
    (input : List UInt8) {unread : List UInt8}
    (h : ∀ j < reads (traceFrom code (n + 1) m), m.unread[j]? = unread[j]?) :
    (m.given input unread).turn code = .running (b.given input (unread.drop (m.readsNext code))) ∧
      ∀ j < reads (traceFrom code n b), b.unread[j]? = (unread.drop (m.readsNext code))[j]? := by
  rw [reads_succ_of_running hturn] at h
  obtain ⟨hfirst, hlater⟩ := agree_add h
  rw [← unread_of_turn hturn] at hlater
  have hgiven := turn_given input hfirst
  rw [hturn] at hgiven
  exact ⟨hgiven, hlater⟩

/-- Where a run gets to on another input that agrees with its own as far as it has read. -/
theorem after?_given {m a : Machine} {n : Nat} (ha : m.after? code n = some a)
    (input : List UInt8) {unread : List UInt8}
    (h : ∀ j < reads (traceFrom code n m), m.unread[j]? = unread[j]?) :
    (m.given input unread).after? code n =
      some (a.given input (unread.drop (reads (traceFrom code n m)))) := by
  induction n generalizing m unread with
  | zero => cases ha; rfl
  | succ n ih =>
    cases hturn : m.turn code with
    | running b =>
      rw [after?_succ_of_running hturn] at ha
      obtain ⟨hgiven, hlater⟩ := turn_given_of_running hturn input h
      rw [after?_succ_of_running hgiven, ih ha hlater, List.drop_drop, reads_succ_of_running hturn]
    | stopped b failure? =>
      rw [after?_succ_of_stopped hturn] at ha
      cases ha

/-- How a run ends on another input that agrees with its own as far as it reads. -/
theorem runFrom?_given {m : Machine} {turns : Nat} (input : List UInt8) {unread : List UInt8}
    (h : ∀ j < reads (traceFrom code turns m), m.unread[j]? = unread[j]?) :
    runFrom? code turns (m.given input unread) = (runFrom? code turns m).map fun x =>
      (x.1.given input (unread.drop (reads (traceFrom code turns m))), x.2) := by
  induction turns generalizing m unread with
  | zero => rfl
  | succ turns ih =>
    cases hturn : m.turn code with
    | running b =>
      obtain ⟨hgiven, hlater⟩ := turn_given_of_running hturn input h
      rw [runFrom?_succ_of_running hturn, runFrom?_succ_of_running hgiven, ih hlater, List.drop_drop,
        reads_succ_of_running hturn]
    | stopped b failure? =>
      have hnone : m.readsNext code = 0 := reads_succ_of_stopped hturn 0
      have hagree (j : Nat) (hj : j < m.readsNext code) : m.unread[j]? = unread[j]? :=
        absurd (hnone ▸ hj) (Nat.not_lt_zero j)
      have hgiven := turn_given input hagree
      rw [hturn, hnone] at hgiven
      rw [reads_succ_of_stopped hturn, runFrom?_succ_of_stopped hturn,
        runFrom?_succ_of_stopped hgiven]
      rfl

/-- A run has executed an instruction in each of the turns that it has taken. -/
theorem length_traceFrom_of_after? {m a : Machine} {n : Nat} (h : m.after? code n = some a) :
    (traceFrom code n m).length = n := by
  induction n generalizing m with
  | zero => rfl
  | succ n ih =>
    cases hturn : m.turn code with
    | running b =>
      rw [after?_succ_of_running hturn] at h
      obtain ⟨e, -, hseen⟩ := traceFrom_of_running hturn n
      rw [hseen, List.length_cons, ih h]
    | stopped b failure? =>
      rw [after?_succ_of_stopped hturn] at h
      cases h

/-- An instruction is only executed while there is no limit that is used up. -/
theorem spentLimit?_of_traceFrom {m a : Machine} {n : Nat} {e : TraceEntry}
    (ha : m.after? code n = some a) (he : (traceFrom code (n + 1) m)[n]? = some e) :
    a.spentLimit? = none := by
  rw [traceFrom_add ha, List.getElem?_append_right (Nat.le_of_eq (length_traceFrom_of_after? ha)),
    length_traceFrom_of_after? ha, Nat.sub_self] at he
  rw [traceFrom_succ] at he
  cases hi : code[a.pc]? with
  | none => simp [takeTurn_of_end hi, turn_of_end hi] at he
  | some i =>
    cases hlimit : a.spentLimit? with
    | none => rfl
    | some limit => simp [takeTurn_of_spent hi hlimit, turn_of_spent hi hlimit] at he

end Machine

/-- The outcome of a run on another input, of which some is not read. -/
def Outcome.given (input unread : List UInt8) (o : Outcome) : Outcome :=
  { o with machine := o.machine.given input unread }

namespace Machine

theorem load_given (p : Program) (input input' : List UInt8) (limit? : Option Nat) (output : Sink) :
    (new ⟨input', limit?⟩).load p output = ((new ⟨input, limit?⟩).load p output).given input' input' :=
  rfl

/-- What is left of the input when a run has ended. -/
theorem unread_of_runWithin? {m : Machine} {p : Program} {turns : Nat} {output : Sink} {o : Outcome}
    (h : m.runWithin? turns p output = some o) :
    o.machine.unread = m.settings.input.drop (reads (m.trace turns p output)) := by
  obtain ⟨x, hx, rfl⟩ := Option.map_eq_some_iff.1 h
  -- the machine is given its own input
  have hown : runFrom? p.code turns ((m.load p output).given m.settings.input m.settings.input) = _ :=
    runFrom?_given m.settings.input fun _ _ => rfl
  have hsame : (m.load p output).given m.settings.input m.settings.input = m.load p output := rfl
  rw [hsame, hx] at hown
  exact congrArg (·.1.unread) (Option.some.inj hown)

/-- Inputs that agree as far as they are read, past their ends included, are of one length that far. -/
theorem min_length_of_agree {α : Type} {x y : List α} {n : Nat} (h : ∀ j < n, x[j]? = y[j]?) :
    min n x.length = min n y.length := by
  have hends (j : Nat) (hj : j < n) : x.length ≤ j ↔ y.length ≤ j := by
    rw [← List.getElem?_eq_none_iff, ← List.getElem?_eq_none_iff, h j hj]
  have hx := hends x.length
  have hy := hends y.length
  omega

theorem drop_min_length {α : Type} (x : List α) (n : Nat) : x.drop (min n x.length) = x.drop n := by
  rcases Nat.le_total n x.length with h | h
  · rw [Nat.min_eq_left h]
  · rw [Nat.min_eq_right h, List.drop_length, List.drop_of_length_le h]

/-- What a run makes of its input, whatever its program. An instruction that reads, and is executed after
some others have been, puts on the stack what the input has at the place that is their number of reads, or
-1 if it is not as long. Another input that has the same at all places below the number of reads in some
turns, or is over there too, leads to the same machines in as many turns, and to the same outcome if the run
has ended: as many bytes of the other input are taken, and all but the input itself is the same, the result,
the output and the count of steps included. -/
theorem input_read_in_order (p : Program) (input : List UInt8) (limit? : Option Nat) (output : Sink) :
    (∀ k e, ((new ⟨input, limit?⟩).trace (k + 1) p output)[k]? = some e →
      e.instruction.opcode = .getByte →
      ∃ a b, ((new ⟨input, limit?⟩).load p output).after? p.code k = some a ∧ e.Tells p.code a ∧
        a.turn p.code = .running b ∧
        b.stack = inputWord input (reads ((new ⟨input, limit?⟩).trace k p output)) :: a.stack) ∧
    ∀ input' turns,
      (∀ j < reads ((new ⟨input, limit?⟩).trace turns p output), input[j]? = input'[j]?) →
      ∃ taken, taken ≤ input.length ∧ taken ≤ input'.length ∧
        (∀ a, ((new ⟨input, limit?⟩).load p output).after? p.code turns = some a →
          a.unread = input.drop taken ∧
          ((new ⟨input', limit?⟩).load p output).after? p.code turns =
            some (a.given input' (input'.drop taken))) ∧
        (∀ o, (new ⟨input, limit?⟩).runWithin? turns p output = some o →
          o.machine.unread = input.drop taken) ∧
        (new ⟨input', limit?⟩).runWithin? turns p output =
          ((new ⟨input, limit?⟩).runWithin? turns p output).map
            (Outcome.given input' (input'.drop taken)) := by
  constructor
  · intro k e he hop
    obtain ⟨a, ha, htells⟩ := tells_of_traceFrom he
    have hturn := turn_of_reads htells.instruction hop (spentLimit?_of_traceFrom ha he)
    refine ⟨a, _, ha, htells, hturn, ?_⟩
    -- what is left of the input starts after what has been read
    have hunread : a.unread = input.drop (reads ((new ⟨input, limit?⟩).trace k p output)) :=
      unread_of_after? ha
    have hword : inputWord a.unread 0 =
        inputWord input (reads ((new ⟨input, limit?⟩).trace k p output)) := by
      rw [inputWord, inputWord, hunread, List.getElem?_drop, Nat.add_zero]
    rw [advance_stack, hword]
  · intro input' turns hagree
    have hlength := min_length_of_agree hagree
    refine ⟨min (reads ((new ⟨input, limit?⟩).trace turns p output)) input.length, Nat.min_le_right _ _,
      hlength ▸ Nat.min_le_right _ _, ?_⟩
    have hdrop' := drop_min_length input' (reads ((new ⟨input, limit?⟩).trace turns p output))
    rw [← hlength] at hdrop'
    rw [drop_min_length, hdrop', load_given p input]
    refine ⟨fun a ha => ⟨unread_of_after? ha, after?_given ha input' hagree⟩,
      fun o ho => unread_of_runWithin? ho, ?_⟩
    rw [runWithin?, runWithin?, load_given p input, runFrom?_given input' hagree, Option.map_map,
      Option.map_map]
    rfl

/-- A program that reads up to a zero, or to the end of the input, and prints what it reads next. -/
def skipsToZero : Program := .ofCode [.ofLabel .mark ⟨0⟩, .bare .getByte, .ofLabel .jumpIfZero ⟨1⟩,
  .ofLabel .jump ⟨0⟩, .ofLabel .mark ⟨1⟩, .bare .getByte, .bare .putInt, .bare .halt] []

/-- The program reads three bytes of these inputs, and prints the third one. Where there is none, it is
-1. -/
theorem skipsToZero_reads_three :
    (∃ o, (new ⟨[7, 0, 65], none⟩).runWithin? 20 skipsToZero .unlimited = some o ∧
      o.machine.output.written = [54, 53] ∧ o.machine.unread = [] ∧
      (new ⟨[7, 0, 65, 8, 9], none⟩).runWithin? 20 skipsToZero .unlimited =
        some (o.given [7, 0, 65, 8, 9] [8, 9])) ∧
    ∃ e a b, ((new ⟨[7, 0], none⟩).trace 9 skipsToZero .unlimited)[8]? = some e ∧
      e.instruction = .bare .getByte ∧ e.Tells skipsToZero.code a ∧
      a.turn skipsToZero.code = .running b ∧ b.stack = (-1 : Int64) :: a.stack := by
  constructor
  · obtain ⟨o, ho, hwritten⟩ : ∃ o,
        (new ⟨[7, 0, 65], none⟩).runWithin? 20 skipsToZero .unlimited = some o ∧
        o.machine.output.written = [54, 53] := ⟨_, rfl, by decide⟩
    have hreads : reads ((new ⟨[7, 0, 65], none⟩).trace 20 skipsToZero .unlimited) = 3 := by decide
    have hagree : ∀ j < 3, ([7, 0, 65] : List UInt8)[j]? = ([7, 0, 65, 8, 9] : List UInt8)[j]? := by
      decide
    obtain ⟨taken, hle, -, -, hleft, hends⟩ :=
      (input_read_in_order skipsToZero [7, 0, 65] none .unlimited).2 [7, 0, 65, 8, 9] 20
        (by rwa [hreads])
    have hunread : o.machine.unread = [] := by
      cases ho
      rfl
    have htaken : taken = 3 := by
      have hrest := List.drop_eq_nil_iff.1 ((hleft o ho).symm.trans hunread)
      exact Nat.le_antisymm hle hrest
    rw [ho, htaken] at hends
    exact ⟨o, ho, hwritten, hunread, hends⟩
  · obtain ⟨e, he, hop⟩ : ∃ e, ((new ⟨[7, 0], none⟩).trace 9 skipsToZero .unlimited)[8]? = some e ∧
        e.instruction = .bare .getByte := ⟨_, rfl, rfl⟩
    obtain ⟨a, b, -, htells, hturn, hstack⟩ :=
      (input_read_in_order skipsToZero [7, 0] none .unlimited).1 8 e he (by rw [hop]; rfl)
    have hreads : reads ((new ⟨[7, 0], none⟩).trace 8 skipsToZero .unlimited) = 2 := by decide
    rw [hreads] at hstack
    exact ⟨e, a, b, he, hop, htells, hturn, hstack⟩

end Machine
end StackLang
