import Mathlib.Data.List.Forall2
import StackLang.Proofs.Run.Limits

/-!
# Runs one after the other

One machine can run several programs, one after the other. To load a program is to forget all of the
machine but its settings, and no turn changes these. So each run goes as it does on a new machine,
however the runs before it have ended and whatever they have left behind.

Results:
* `load_eq_load_iff`: only the settings of a machine matter to the programs that are loaded.
* `settings_of_ends`, `status_of_ends`: the settings and the status after a run.
* `session_iff_alone`: any number of runs.
-/
namespace StackLang

/-- A program to run, and where its output goes. -/
structure Job where
  program : Program
  output : Sink

namespace Machine

variable {code : Array Instruction} {m m' : Machine} {p : Program} {output : Sink} {o : Outcome}

/-- The outcomes of programs that are run one after the other: each run starts on the machine that the
last one has left. -/
inductive Session : Machine → List Job → List Outcome → Prop where
  | nil (m : Machine) : Session m [] []
  | cons {m : Machine} {job : Job} {o : Outcome} {jobs : List Job} {outcomes : List Outcome}
    (ends : m.Ends job.program job.output o) (later : Session o.machine jobs outcomes) :
    Session m (job :: jobs) (o :: outcomes)

/-! ## What a run leaves of a machine -/

/-- A machine that is about to run a program has kept its settings and nothing else. -/
theorem load_eq_load_iff : m.load p output = m'.load p output ↔ m.settings = m'.settings := by
  constructor
  · intro h
    have hsettings : (m.load p output).settings = (m'.load p output).settings := by rw [h]
    exact hsettings
  · intro h
    rw [load, load, h]

/-- How a run ends depends on the settings of the machine alone. -/
theorem ends_congr (h : m.settings = m'.settings) : m.Ends p output o ↔ m'.Ends p output o := by
  simp only [Ends, runWithin?, load_eq_load_iff.2 h]

/-- No turn changes the settings, also when it stops the machine. -/
theorem settings_turn (m : Machine) : (m.turn code).machine.settings = m.settings := by
  refine turn_of_change (Q := fun a b => b.settings = a.settings) (fun op => ?_) (fun _ _ => rfl)
    (fun _ _ => rfl) m
  exact {
    refl := fun _ => rfl
    trans := fun hab hbc => hbc.trans hab
    stack := fun _ _ => rfl
    registers := fun _ _ => rfl
    calls := fun _ _ _ => rfl
    unread := fun _ _ _ => rfl
    allocate := fun _ _ _ => rfl
    write := fun _ _ _ => rfl }

/-- A run leaves the settings as they were. -/
theorem settings_of_ends (h : m.Ends p output o) : o.machine.settings = m.settings := by
  obtain ⟨turns, h⟩ := h
  obtain ⟨n, -, a, b, failure?, ha, hs, rfl⟩ := exists_after?_of_runWithin? h
  have hturn : (a.turn p.code).machine.settings = a.settings := settings_turn a
  rw [hs] at hturn
  calc b.settings
    _ = a.settings := hturn
    _ = (m.load p output).settings := settings_of_after? ha
    _ = m.settings := rfl

/-- After a run the status says whether it has failed. -/
theorem status_of_ends (h : m.Ends p output o) :
    o.machine.status = if o.failure? = none then .halted else .trapped := by
  obtain ⟨turns, h⟩ := h
  obtain ⟨n, -, a, b, failure?, -, -, rfl⟩ := exists_after?_of_runWithin? h
  cases hf : (b.finish failure?).failure? with
  | none => simp only [finish] at hf ⊢; rw [hf]; rfl
  | some failure => simp only [finish] at hf ⊢; rw [hf]; rfl

/-! ## Sessions -/

/-- What each run of a session leaves: the settings, and a status that says whether it has failed. -/
theorem Session.left {jobs : List Job} {outcomes : List Outcome} (h : Session m jobs outcomes) :
    ∀ o ∈ outcomes, o.machine.settings = m.settings ∧
      o.machine.status = if o.failure? = none then .halted else .trapped := by
  induction h with
  | nil m => exact fun o ho => nomatch ho
  | cons ends later ih =>
    intro o ho
    rcases List.mem_cons.1 ho with rfl | ho
    · exact ⟨settings_of_ends ends, status_of_ends ends⟩
    · obtain ⟨hsettings, hstatus⟩ := ih o ho
      exact ⟨hsettings.trans (settings_of_ends ends), hstatus⟩

/-- A session on a machine is a session on any machine with the same settings, each program alone. -/
theorem session_iff_of_settings (h : m.settings = m'.settings) (jobs : List Job)
    (outcomes : List Outcome) :
    Session m jobs outcomes ↔
      List.Forall₂ (fun job o => m'.Ends job.program job.output o) jobs outcomes := by
  induction jobs generalizing m outcomes with
  | nil =>
    constructor
    · rintro ⟨⟩
      exact .nil
    · rintro ⟨⟩
      exact .nil m
  | cons job jobs ih =>
    constructor
    · rintro (_ | ⟨ends, later⟩)
      have hleft := (settings_of_ends ends).trans h
      exact .cons ((ends_congr h).1 ends) ((ih hleft _).1 later)
    · rintro (_ | ⟨ends, later⟩)
      have ends := (ends_congr h).2 ends
      have hleft := (settings_of_ends ends).trans h
      exact .cons ends ((ih hleft _).2 later)

/-- Programs that are run one after the other on a machine end just as each of them does alone, on a new
machine with the same settings: with the same failure, if any, and the same machine, its output
included. After each run the status says whether the run has failed, and a program that is loaded next
starts as on a new machine, so that the two runs are the same also if they do not end. -/
theorem session_iff_alone (settings : Settings) (jobs : List Job) (outcomes : List Outcome) :
    (Session (new settings) jobs outcomes ↔
      List.Forall₂ (fun job o => (new settings).Ends job.program job.output o) jobs outcomes) ∧
    (Session (new settings) jobs outcomes → ∀ o ∈ outcomes,
      o.machine.status = (if o.failure? = none then .halted else .trapped) ∧
      ∀ p output, o.machine.load p output = (new settings).load p output) := by
  refine ⟨session_iff_of_settings rfl jobs outcomes, ?_⟩
  intro h o ho
  obtain ⟨hsettings, hstatus⟩ := h.left o ho
  exact ⟨hstatus, fun p output => load_eq_load_iff.2 hsettings⟩

/-- Programs that leave much behind: one traps after it has read a byte and put a string on the heap, one
comes to the limit on steps, one has no room for its output, and one cannot flush it. The last one
returns the first byte of its input. -/
def untidyJobs : List Job :=
  let readByte : List Instruction := [.bare .getByte, .ofRegister .store .r0, .bare .halt]
  [⟨.ofCode [.bare .getByte, ⟨.newString, 0⟩, .bare .trap] [104, 105, 0], .unlimited⟩,
    ⟨.ofCode [.ofLabel .mark ⟨0⟩, .ofLabel .jump ⟨0⟩] [], .unlimited⟩,
    ⟨.ofCode [.bare .getByte, .bare .putInt, .bare .halt] [], ⟨[], some 1, .brokenPipe, false⟩⟩,
    ⟨.ofCode readByte [], ⟨[], none, .other, true⟩⟩,
    ⟨.ofCode readByte [], .unlimited⟩]

/-- Run one after the other, these programs end as each of them does alone. -/
theorem untidyJobs_end_alone : ∃ outcomes, Session (new ⟨[65, 66], some 5⟩) untidyJobs outcomes ∧
    List.Forall₂ (fun job o => (new ⟨[65, 66], some 5⟩).Ends job.program job.output o) untidyJobs
      outcomes ∧
    outcomes.map (·.failure?.map Failure.fault) =
      [some .trap, some (.stepLimit 5), some (.output .brokenPipe), some (.output .other), none] ∧
    outcomes.map (·.machine.registers.r0) = [0, 0, 0, 65, 65] ∧
    ∀ o ∈ outcomes, o.machine.status = if o.failure? = none then .halted else .trapped := by
  obtain ⟨outcomes, h, hfaults, hresults⟩ : ∃ outcomes,
      Session (new ⟨[65, 66], some 5⟩) untidyJobs outcomes ∧
      outcomes.map (·.failure?.map Failure.fault) =
        [some .trap, some (.stepLimit 5), some (.output .brokenPipe), some (.output .other), none] ∧
      outcomes.map (·.machine.registers.r0) = [0, 0, 0, 65, 65] :=
    ⟨_, .cons ⟨9, rfl⟩ (.cons ⟨9, rfl⟩ (.cons ⟨9, rfl⟩ (.cons ⟨9, rfl⟩ (.cons ⟨9, rfl⟩ (.nil _))))),
      rfl, rfl⟩
  obtain ⟨halone, hleft⟩ := session_iff_alone ⟨[65, 66], some 5⟩ untidyJobs outcomes
  exact ⟨outcomes, h, halone.1 h, hfaults, hresults, fun o ho => (hleft h o ho).1⟩

end Machine
end StackLang
