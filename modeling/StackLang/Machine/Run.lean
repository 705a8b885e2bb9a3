import StackLang.Machine.Execute

/-!
# Running a program

A run goes from instruction to instruction until one of them halts or fails, until the code ends,
or until as many instructions have been executed as the settings allow. The end of the code is
looked for first, so that a program which stops there is not stopped by the limit. If the run is
traced, it tells of each instruction before executing it; what the limit refuses is not told of.

Runs are bounded by a number of turns, one for each instruction and one for the end; a run that
needs more has no outcome. `Machine.run?` grants more turns than there is time for.

* `follow_eq`: tracing a run does not change its outcome.
* `runFrom?_mono`: more turns do not change an outcome.
-/
namespace StackLang

/-- What one turn leaves: a machine that goes on, or one that has stopped, with the reason if it is
a failure. -/
inductive Turn where
  | running (m : Machine)
  | stopped (m : Machine) (failure? : Option Failure)
  deriving DecidableEq, Repr

/-- How a run ended. -/
structure Outcome where
  machine : Machine
  failure? : Option Failure
  deriving DecidableEq, Repr

namespace Machine

/-- An instruction that is executed, its address, and the stack before it, top first. -/
structure TraceEntry where
  address : Nat
  instruction : Instruction
  stack : List Int64
  deriving DecidableEq, Repr

/-- The limit on steps, if it is used up. -/
def spentLimit? (m : Machine) : Option Nat := m.settings.stepLimit?.filter (· ≤ m.steps)

/-- Executes an instruction. -/
def perform (m : Machine) (i : Instruction) : Turn :=
  match i.execute { m with steps := m.steps + 1 } with
  | .ok .next m' => .running { m' with pc := m.pc + 1 }
  | .ok (.jump address) m' => .running { m' with pc := address }
  | .ok .halt m' => .stopped m' none
  | .error fault m' => .stopped m' (some ⟨fault, m.pc, i.opcode⟩)

/-- One turn: the next instruction, unless the code or the limit has come to its end. The
instruction is told of if it is executed. -/
def takeTurn (m : Machine) (code : Array Instruction) : Option TraceEntry × Turn :=
  match code[m.pc]? with
  | none => (none, .stopped m none)
  | some i =>
    match m.spentLimit? with
    | some limit => (none, .stopped m (some ⟨.stepLimit limit, m.pc, i.opcode⟩))
    | none => (some ⟨m.pc, i, m.stack⟩, m.perform i)

/-- What one turn leaves. -/
def turn (m : Machine) (code : Array Instruction) : Turn := (m.takeTurn code).2

/-- Takes turns until the machine stops, at most as many as given. A run that is traced adds what it
tells to what has been told before, the last of it first. -/
def follow (code : Array Instruction) (traced : Bool) (told : List TraceEntry) :
    Nat → Machine → List TraceEntry × Option (Machine × Option Failure)
  | 0, _ => (told.reverse, none)
  | n + 1, m =>
    let (executed?, turn) := m.takeTurn code
    let told := if traced then executed?.toList ++ told else told
    match turn with
    | .running m' => follow code traced told n m'
    | .stopped m' failure? => (told.reverse, some (m', failure?))

/-- How the machine stops, if it does in so many turns. -/
def runFrom? (code : Array Instruction) (turns : Nat) (m : Machine) :
    Option (Machine × Option Failure) :=
  (follow code false [] turns m).2

/-- The instructions that are executed in so many turns. -/
def traceFrom (code : Array Instruction) (turns : Nat) (m : Machine) : List TraceEntry :=
  (follow code true [] turns m).1

/-- The end of a run: output is flushed, which is an error only if nothing else failed. -/
def finish (m : Machine) (failure? : Option Failure) : Outcome :=
  let flushed := if m.output.flushFails then some ⟨.output m.output.error, m.pc, .halt⟩ else none
  let failure? := failure? <|> flushed
  ⟨{ m with status := if failure?.isSome then .trapped else .halted }, failure?⟩

/-- Runs a program in at most so many turns. -/
def runWithin? (turns : Nat) (m : Machine) (p : Program) (output : Sink) : Option Outcome :=
  (runFrom? p.code turns (m.load p output)).map fun (m', failure?) => m'.finish failure?

/-- More turns than any run has time for. -/
def turnLimit : Nat := 0x4000000000000000

/-- Runs a program. -/
def run? (m : Machine) (p : Program) (output : Sink) : Option Outcome :=
  m.runWithin? turnLimit p output

/-- The first instructions that are executed when a program is run. -/
def trace (turns : Nat) (m : Machine) (p : Program) (output : Sink) : List TraceEntry :=
  traceFrom p.code turns (m.load p output)

/-- Runs a program in at most so many turns, and tells what is executed if the run is traced. -/
def watch (traced : Bool) (turns : Nat) (m : Machine) (p : Program) (output : Sink) :
    List TraceEntry × Option Outcome :=
  let (told, end?) := follow p.code traced [] turns (m.load p output)
  (told, end?.map fun (m', failure?) => m'.finish failure?)

/-! ## One turn after the other -/

section

variable {code : Array Instruction}

@[simp] theorem runFrom?_zero (m : Machine) : runFrom? code 0 m = none := rfl

@[simp] theorem traceFrom_zero (m : Machine) : traceFrom code 0 m = [] := rfl

theorem reverse_toList {α : Type} (a? : Option α) : a?.toList.reverse = a?.toList := by
  cases a? <;> rfl

theorem runFrom?_succ (n : Nat) (m : Machine) : runFrom? code (n + 1) m =
    match m.turn code with
    | .running m' => runFrom? code n m'
    | .stopped m' failure? => some (m', failure?) := by
  rw [runFrom?, follow, turn]
  rcases m.takeTurn code with ⟨executed?, turn⟩
  cases turn <;> rfl

/-- What a run tells comes after what has been told before, and whether it tells anything makes no
difference to how it ends. -/
theorem follow_eq (traced : Bool) (told : List TraceEntry) (n : Nat) (m : Machine) :
    follow code traced told n m =
      (told.reverse ++ if traced then traceFrom code n m else [], runFrom? code n m) := by
  induction n generalizing traced told m with
  | zero => cases traced <;> simp [follow]
  | succ n ih =>
    rw [traceFrom, runFrom?, follow, follow, follow]
    rcases m.takeTurn code with ⟨executed?, turn⟩
    cases turn <;> cases traced <;> simp [ih, reverse_toList]

theorem traceFrom_succ (n : Nat) (m : Machine) : traceFrom code (n + 1) m =
    (m.takeTurn code).1.toList ++ match m.turn code with
      | .running m' => traceFrom code n m'
      | .stopped .. => [] := by
  rw [traceFrom, follow, turn]
  rcases m.takeTurn code with ⟨executed?, turn⟩
  cases turn <;> simp [follow_eq, reverse_toList]

theorem runFrom?_mono {n k : Nat} {m : Machine} {end? : Machine × Option Failure}
    (h : runFrom? code n m = some end?) (hk : n ≤ k) : runFrom? code k m = some end? := by
  induction n generalizing k m with
  | zero => cases h
  | succ n ih =>
    obtain ⟨j, rfl⟩ : ∃ j, k = j + 1 := ⟨k - 1, by omega⟩
    rw [runFrom?_succ] at h ⊢
    split <;> simp_all

end

end Machine
end StackLang
