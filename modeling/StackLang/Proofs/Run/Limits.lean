import StackLang.Proofs.Run.Aside
import StackLang.Proofs.Run.Instructions
import StackLang.Proofs.Run.Steps

/-!
# Limits on steps

A limit on steps cuts a run short and does nothing else. Up to where a limit is used up, a run goes
through the machines of the run without a limit. That run either stops after no more steps than the
limit, and then the limit does not matter, or it comes to a machine that has taken as many steps and
has an instruction left, and there the limit stops it.

Results:
* `turn_underLimit`, `after?_underLimit`: a limit that is not used up does not matter.
* `stops_or_reaches`: the two ways in which a run meets a limit.
* `run_cutShort`: a limit does nothing but cut a run short.
-/
namespace StackLang

/-- There is no limit, or it is not below a number of steps. -/
def AtLeast (steps : Nat) (limit? : Option Nat) : Prop := ∀ limit ∈ limit?, steps ≤ limit

theorem atLeast_none (k : Nat) : AtLeast k none := nofun

theorem atLeast_some (k : Nat) : AtLeast k (some k) := fun _ h => Nat.le_of_eq (Option.some.inj h)

theorem AtLeast.mono {n k : Nat} {limit? : Option Nat} (h : AtLeast k limit?) (hn : n ≤ k) :
    AtLeast n limit? := fun limit hlimit => Nat.le_trans hn (h limit hlimit)

namespace Machine

variable {code : Array Instruction}

/-- The machine with another limit on steps. -/
def underLimit (limit? : Option Nat) (m : Machine) : Machine :=
  { m with settings := { m.settings with stepLimit? := limit? } }

theorem farAside_underLimit (limit? : Option Nat) : FarAside (underLimit limit?) := {}

theorem farAside_status (status : Status) : FarAside fun m => { m with status } := {}

theorem settings_of_turn {m m' : Machine} (h : m.turn code = .running m') :
    m'.settings = m.settings := by
  obtain ⟨i, -, -, hp⟩ := perform_of_turn h
  exact congrArg (·.2.1) (fixed_of_perform hp)

theorem settings_of_after? {n : Nat} {m m' : Machine} (h : m.after? code n = some m') :
    m'.settings = m.settings :=
  after?_induction (P := fun a => a.settings = m.settings) rfl
    (fun _ _ ha ht => (settings_of_turn ht).trans ha) h

theorem written_of_after? {n : Nat} {m m' : Machine} (h : m.after? code n = some m') :
    m.output.written <+: m'.output.written := by
  refine after?_induction (P := fun a => m.output.written <+: a.output.written) List.prefix_rfl
    (fun a b ha ht => ha.trans ?_) h
  have hturn : a.output.written <+: (a.turn code).machine.output.written := written_of_turn a
  rwa [ht] at hturn

/-- A machine without a limit that stops has come to the end of the code, or has taken one more
step. -/
theorem cases_of_stopped {m b : Machine} {failure? : Option Failure}
    (hm : m.settings.stepLimit? = none) (h : m.turn code = .stopped b failure?) :
    (code[m.pc]? = none ∧ b = m ∧ failure? = none) ∨
      (b.steps = m.steps + 1 ∧ ∀ failure ∈ failure?, ¬ failure.fault.IsLimit) := by
  cases hi : code[m.pc]? with
  | none =>
    rw [turn_of_end hi] at h
    cases h
    exact .inl ⟨rfl, rfl, rfl⟩
  | some i =>
    rw [turn_of_getElem? hi (by rw [spentLimit?, hm]; rfl)] at h
    obtain ⟨c, hc, ⟨pc, hp⟩ | hp | ⟨fault, hf, hp⟩⟩ := perform_cases (change_fixed i.opcode) m
    · rw [hp] at h; cases h
    · rw [hp] at h
      cases h
      exact .inr ⟨congrArg (·.1) hc, fun failure hfailure => nomatch hfailure⟩
    · rw [hp] at h
      cases h
      exact .inr ⟨congrArg (·.1) hc, fun failure hfailure => by cases hfailure; exact hf.not_isLimit⟩

/-! ## Limits that are not used up -/

theorem turn_underLimit {m : Machine} (hm : m.settings.stepLimit? = none) {limit? : Option Nat}
    (h : AtLeast (m.steps + 1) limit?) :
    (m.underLimit limit?).turn code = (m.turn code).map (underLimit limit?) := by
  cases hi : code[m.pc]? with
  | none => rw [turn_of_end hi, turn_of_end (m := m.underLimit limit?) hi]; rfl
  | some i =>
    have hspent : (m.underLimit limit?).spentLimit? = none := by
      rw [spentLimit?, Option.filter_eq_none_iff]
      intro limit hlimit hle
      have := h limit hlimit
      have : limit ≤ m.steps := of_decide_eq_true hle
      omega
    rw [turn_of_getElem? hi (by rw [spentLimit?, hm]; rfl),
      turn_of_getElem? (m := m.underLimit limit?) hi hspent, perform_map (farAside_underLimit limit?)]

/-- As long as a limit is not used up, it does not matter. -/
theorem after?_underLimit {n : Nat} {m : Machine} (hm : m.settings.stepLimit? = none)
    {limit? : Option Nat} (h : AtLeast (m.steps + n) limit?) :
    (m.underLimit limit?).after? code n = (m.after? code n).map (underLimit limit?) := by
  induction n generalizing m with
  | zero => rfl
  | succ n ih =>
    have hturn : (m.underLimit limit?).turn code = (m.turn code).map (underLimit limit?) :=
      turn_underLimit hm (h.mono (by omega))
    cases ht : m.turn code with
    | stopped b failure? =>
      rw [ht] at hturn
      rw [after?_succ_of_stopped ht, after?_succ_of_stopped hturn]
      rfl
    | running b =>
      rw [ht] at hturn
      rw [after?_succ_of_running ht, after?_succ_of_running hturn]
      refine ih (by rw [settings_of_turn ht]; exact hm) (h.mono ?_)
      rw [steps_of_turn ht]
      omega

/-- A run that stops within a limit stops there with the limit, too. -/
theorem runFrom?_underLimit {m a b : Machine} (hm : m.settings.stepLimit? = none) {n : Nat}
    {failure? : Option Failure} (ha : m.after? code n = some a)
    (hs : a.turn code = .stopped b failure?) {limit? : Option Nat} (h : AtLeast b.steps limit?) :
    runFrom? code (n + 1) (m.underLimit limit?) = some (b.underLimit limit?, failure?) := by
  have hsteps := steps_of_after? ha
  have ha0 : a.settings.stepLimit? = none := by rw [settings_of_after? ha]; exact hm
  have hle : a.steps ≤ b.steps := by
    rcases cases_of_stopped ha0 hs with ⟨-, rfl, -⟩ | ⟨heq, -⟩ <;> omega
  refine runFrom?_eq_some_iff.2 ⟨n, Nat.lt_succ_self n, a.underLimit limit?, ?_, ?_⟩
  · rw [after?_underLimit hm (h.mono (by omega)), ha]
    rfl
  · rcases cases_of_stopped ha0 hs with ⟨hend, rfl, rfl⟩ | ⟨heq, -⟩
    · exact turn_of_end (m := b.underLimit limit?) hend
    · rw [turn_underLimit ha0 (h.mono (Nat.le_of_eq heq.symm)), hs]
      rfl

/-! ## Limits that are used up -/

theorem turn_underLimit_spent {m : Machine} {i : Instruction} (hi : code[m.pc]? = some i) :
    (m.underLimit (some m.steps)).turn code =
      .stopped (m.underLimit (some m.steps)) (some ⟨.stepLimit m.steps, m.pc, i.opcode⟩) := by
  refine turn_of_spent (m := m.underLimit (some m.steps)) hi ?_
  simp [spentLimit?, underLimit]

/-- A run without a limit stops within a number of steps, or it gets to a machine that has taken as
many and has an instruction to execute. -/
theorem stops_or_reaches {m : Machine} (hm : m.settings.stepLimit? = none) (k : Nat) :
    (∃ n a b failure?, m.after? code n = some a ∧ a.turn code = .stopped b failure? ∧
      b.steps ≤ m.steps + k) ∨
      ∃ a i, m.after? code k = some a ∧ code[a.pc]? = some i := by
  induction k with
  | zero =>
    cases hi : code[m.pc]? with
    | none => exact .inl ⟨0, m, m, none, rfl, turn_of_end hi, Nat.le_refl _⟩
    | some i => exact .inr ⟨m, i, rfl, hi⟩
  | succ k ih =>
    rcases ih with ⟨n, a, b, failure?, ha, hs, hle⟩ | ⟨a, i, ha, hi⟩
    · exact .inl ⟨n, a, b, failure?, ha, hs, Nat.le_succ_of_le hle⟩
    · have hsteps := steps_of_after? ha
      have ha0 : a.settings.stepLimit? = none := by rw [settings_of_after? ha]; exact hm
      cases ht : a.turn code with
      | stopped b failure? =>
        rcases cases_of_stopped ha0 ht with ⟨hend, -⟩ | ⟨heq, -⟩
        · rw [hi] at hend; cases hend
        · exact .inl ⟨k, a, b, failure?, ha, ht, by omega⟩
      | running b =>
        have hb := after?_succ_eq_some_iff.2 ⟨a, ha, ht⟩
        cases hj : code[b.pc]? with
        | none =>
          exact .inl ⟨k + 1, b, b, none, hb, turn_of_end hj, Nat.le_of_eq (steps_of_after? hb)⟩
        | some j => exact .inr ⟨b, j, hb, hj⟩

/-- A run that gets so far and has an instruction left stops no earlier. -/
theorem exists_after?_of_stopped {m a : Machine} {k n : Nat} {c b : Machine}
    {failure? : Option Failure} (ha : m.after? code k = some a) (hc : m.after? code n = some c)
    (hs : c.turn code = .stopped b failure?) : ∃ d, n = k + d ∧ a.after? code d = some c := by
  by_cases hlt : n < k
  · have hrun := runFrom?_eq_some_iff.2 ⟨n, hlt, c, hc, hs⟩
    rw [after?_eq_none_of_runFrom? hrun (Nat.le_refl k)] at ha
    cases ha
  · obtain ⟨d, rfl⟩ : ∃ d, n = k + d := ⟨n - k, by omega⟩
    rw [after?_add, ha, Option.bind_some] at hc
    exact ⟨d, rfl, hc⟩

/-- What has been written where a run gets to begins what it writes in all. -/
theorem written_of_runWithin? {m a : Machine} {p : Program} {output : Sink} {n turns : Nat}
    {o : Outcome} (ha : (m.load p output).after? p.code n = some a)
    (ho : m.runWithin? turns p output = some o) :
    a.output.written <+: o.machine.output.written := by
  obtain ⟨k, -, c, b, failure?, hc, hs, rfl⟩ := exists_after?_of_runWithin? ho
  obtain ⟨d, -, hd⟩ := exists_after?_of_stopped ha hc hs
  have hlast : c.output.written <+: (c.turn p.code).machine.output.written := written_of_turn c
  rw [hs] at hlast
  exact (written_of_after? hd).trans hlast

/-! ## Outcomes -/

/-- The run of a program ends with an outcome. -/
def Ends (m : Machine) (p : Program) (output : Sink) (o : Outcome) : Prop :=
  ∃ turns, m.runWithin? turns p output = some o

end Machine

/-- The outcome with another limit on steps in the settings of its machine. -/
def Outcome.underLimit (limit? : Option Nat) (o : Outcome) : Outcome :=
  ⟨o.machine.underLimit limit?, o.failure?⟩

/-- How a run ends whose limit is used up after a turn. -/
def Turn.last (code : Array Instruction) (limit : Nat) : Turn → Outcome
  | stopped m failure? => m.finish failure?
  | running m => m.finish (code[m.pc]?.map fun i => ⟨.stepLimit limit, m.pc, i.opcode⟩)

namespace Machine

variable {p : Program} {input : List UInt8} {output : Sink}

/-- The limit of a run is no more than a setting of its first machine. -/
theorem load_new (input : List UInt8) (limit? : Option Nat) (p : Program) (output : Sink) :
    (Machine.new ⟨input, limit?⟩).load p output =
      ((Machine.new ⟨input, none⟩).load p output).underLimit limit? := rfl

theorem isLimit_of_finish {m : Machine} {failure? : Option Failure} {failure : Failure}
    (h : failure ∈ (m.finish failure?).failure?) (hf : ∀ f ∈ failure?, ¬ f.fault.IsLimit) :
    ¬ failure.fault.IsLimit := by
  rcases cases_of_finish h with h | ⟨-, -, rfl⟩
  · exact hf failure h
  · exact id

/-- What a run comes to within a limit, whatever larger limit it has. -/
theorem ends_of_stopped {n : Nat} {a b : Machine} {failure? : Option Failure}
    (ha : ((Machine.new ⟨input, none⟩).load p output).after? p.code n = some a)
    (hs : a.turn p.code = .stopped b failure?) {limit? : Option Nat} (h : AtLeast b.steps limit?) :
    (Machine.new ⟨input, limit?⟩).runWithin? (n + 1) p output =
      some ((b.finish failure?).underLimit limit?) := by
  rw [runWithin?, load_new, runFrom?_underLimit rfl ha hs h]
  rfl

/-- A machine that a run gets to, under a limit that is not used up by then. -/
theorem reaches_underLimit {k : Nat} {a : Machine}
    (ha : ((Machine.new ⟨input, none⟩).load p output).after? p.code k = some a)
    {limit? : Option Nat} (h : AtLeast k limit?) :
    (((Machine.new ⟨input, none⟩).load p output).underLimit limit?).after? p.code k =
      some (a.underLimit limit?) := by
  rw [after?_underLimit rfl (h.mono (Nat.le_of_eq (Nat.zero_add k))), ha]
  rfl

/-- What a run comes to whose limit stops it. -/
theorem ends_of_reached {k : Nat} {a : Machine} {i : Instruction}
    (ha : ((Machine.new ⟨input, none⟩).load p output).after? p.code k = some a)
    (hi : p.code[a.pc]? = some i) :
    (Machine.new ⟨input, some k⟩).runWithin? (k + 1) p output =
      some ((a.underLimit (some k)).finish (some ⟨.stepLimit k, a.pc, i.opcode⟩)) := by
  have hsteps : a.steps = k := (steps_of_after? ha).trans (Nat.zero_add k)
  have hreach := reaches_underLimit ha (atLeast_some k)
  have hspent := turn_underLimit_spent hi
  rw [hsteps] at hspent
  rw [runWithin?, load_new, runFrom?_eq_some_iff.2 ⟨k, Nat.lt_succ_self k, _, hreach, hspent⟩]
  rfl

/-- One more step of a run whose limit stops it. -/
theorem ends_of_one_more {k : Nat} {a : Machine} {i : Instruction}
    (ha : ((Machine.new ⟨input, none⟩).load p output).after? p.code k = some a)
    (hi : p.code[a.pc]? = some i) :
    (Machine.new ⟨input, some (k + 1)⟩).Ends p output
      (((a.underLimit (some (k + 1))).perform i).last p.code (k + 1)) := by
  have hsteps : a.steps = k := (steps_of_after? ha).trans (Nat.zero_add k)
  have ha0 : a.settings.stepLimit? = none := by rw [settings_of_after? ha]; rfl
  have hturn : a.turn p.code = a.perform i := turn_of_getElem? hi (by rw [spentLimit?, ha0]; rfl)
  rw [perform_map (farAside_underLimit _), ← hturn]
  cases ht : a.turn p.code with
  | stopped b failure? =>
    have hle : b.steps ≤ k + 1 := by
      rcases cases_of_stopped ha0 ht with ⟨-, rfl, -⟩ | ⟨heq, -⟩ <;> omega
    exact ⟨_, ends_of_stopped ha ht ((atLeast_some (k + 1)).mono hle)⟩
  | running b =>
    have hb := after?_succ_eq_some_iff.2 ⟨a, ha, ht⟩
    cases hj : p.code[b.pc]? with
    | some j =>
      have := ends_of_reached hb hj
      simp only [Turn.map, Turn.last]
      rw [show p.code[(b.underLimit (some (k + 1))).pc]? = some j from hj]
      exact ⟨_, this⟩
    | none =>
      have hle : b.steps ≤ k + 1 := by rw [steps_of_turn ht]; omega
      have := ends_of_stopped hb (turn_of_end hj) (atLeast_some (k + 1) |>.mono hle)
      simp only [Turn.map, Turn.last]
      rw [show p.code[(b.underLimit (some (k + 1))).pc]? = none from hj]
      exact ⟨_, this⟩

theorem written_of_ends {k : Nat} {a : Machine}
    (ha : ((Machine.new ⟨input, none⟩).load p output).after? p.code k = some a)
    {limit? : Option Nat} (hlimit : AtLeast k limit?) {o : Outcome}
    (ho : (Machine.new ⟨input, limit?⟩).Ends p output o) :
    a.output.written <+: o.machine.output.written := by
  obtain ⟨turns, ho⟩ := ho
  have hreach := reaches_underLimit ha hlimit
  rw [← load_new] at hreach
  have hwritten := written_of_runWithin? hreach ho
  exact hwritten

/-! ## Runs with a limit -/

/-- What a limit on steps does to the runs of a program: the run with this limit ends as said, within
the limit. If the limit did not stop it, no larger limit and no absence of one makes a difference. If
the limit did stop it, then as many steps were taken, what it has written begins what any run with a
larger limit writes, and the run with one more step ends as if from here the instruction at the address
of the failure were executed. If no limit is needed, this one does not matter. -/
structure CutShort (p : Program) (input : List UInt8) (output : Sink) (k : Nat) (o : Outcome) :
    Prop where
  ends : ∀ turns, k < turns → (Machine.new ⟨input, some k⟩).runWithin? turns p output = some o
  steps_le : o.machine.steps ≤ k
  unlimited : (∀ failure ∈ o.failure?, ¬ failure.fault.IsLimit) → ∀ limit?, AtLeast k limit? →
    (Machine.new ⟨input, limit?⟩).Ends p output (o.underLimit limit?)
  limited : ∀ failure ∈ o.failure?, failure.fault.IsLimit →
    failure.fault = .stepLimit k ∧ o.machine.steps = k ∧
      (∀ limit?, AtLeast k limit? → ∀ o', (Machine.new ⟨input, limit?⟩).Ends p output o' →
        o.machine.output.written <+: o'.machine.output.written) ∧
      ∃ i, p.code[failure.address]? = some i ∧ failure.address = o.machine.pc ∧
        failure.opcode = i.opcode ∧ (Machine.new ⟨input, some (k + 1)⟩).Ends p output
          (((o.machine.underLimit (some (k + 1))).perform i).last p.code (k + 1))
  unneeded : ∀ o', (Machine.new ⟨input, none⟩).Ends p output o' → o'.machine.steps ≤ k →
    o = o'.underLimit (some k)

/-- The status of a machine does not matter to how its run ends. -/
theorem last_of_status (m : Machine) (status : Status) (i : Instruction) (limit : Nat) :
    ((({ m with status } : Machine).perform i).last p.code limit) =
      (m.perform i).last p.code limit := by
  rw [perform_map (farAside_status status)]
  cases m.perform i <;> rfl

theorem cutShort_of_stopped {k n : Nat} {a b : Machine} {failure? : Option Failure}
    (ha : ((Machine.new ⟨input, none⟩).load p output).after? p.code n = some a)
    (hs : a.turn p.code = .stopped b failure?) (hle : b.steps ≤ k) :
    CutShort p input output k ((b.finish failure?).underLimit (some k)) := by
  have ha0 : a.settings.stepLimit? = none := by rw [settings_of_after? ha]; rfl
  have hsteps : a.steps = n := (steps_of_after? ha).trans (Nat.zero_add n)
  have hwithin : n ≤ k := by
    rcases cases_of_stopped ha0 hs with ⟨-, rfl, -⟩ | ⟨heq, -⟩ <;> omega
  have hfaults : ∀ failure ∈ (b.finish failure?).failure?, ¬ failure.fault.IsLimit := by
    refine fun failure hfailure => isLimit_of_finish hfailure ?_
    rcases cases_of_stopped ha0 hs with ⟨-, -, rfl⟩ | ⟨-, hf⟩
    · exact fun f hf => nomatch hf
    · exact hf
  refine ⟨fun turns hturns => ?_, hle, fun _ limit? hlimit => ⟨n + 1, ?_⟩, ?_, ?_⟩
  · have hends := ends_of_stopped ha hs ((atLeast_some k).mono hle)
    obtain ⟨e, he, hfinish⟩ := Option.map_eq_some_iff.1 hends
    rw [runWithin?, runFrom?_mono he (by omega), Option.map_some, hfinish]
  · exact ends_of_stopped ha hs (hlimit.mono hle)
  · exact fun failure hfailure hlimit => absurd hlimit (hfaults failure hfailure)
  · rintro o' ⟨turns, ho'⟩ -
    have hends := ends_of_stopped ha hs (atLeast_none b.steps)
    rw [runWithin?_unique ho' hends]
    rfl

theorem cutShort_of_reached {k : Nat} {a : Machine} {i : Instruction}
    (ha : ((Machine.new ⟨input, none⟩).load p output).after? p.code k = some a)
    (hi : p.code[a.pc]? = some i) :
    CutShort p input output k
      ((a.underLimit (some k)).finish (some ⟨.stepLimit k, a.pc, i.opcode⟩)) := by
  have ha0 : a.settings.stepLimit? = none := by rw [settings_of_after? ha]; rfl
  have hsteps : a.steps = k := (steps_of_after? ha).trans (Nat.zero_add k)
  refine ⟨fun turns hturns => ?_, Nat.le_of_eq hsteps, fun h => ?_, ?_, ?_⟩
  · obtain ⟨e, he, hfinish⟩ := Option.map_eq_some_iff.1 (ends_of_reached ha hi)
    rw [runWithin?, runFrom?_mono he hturns, Option.map_some, hfinish]
  · exact absurd trivial (h _ rfl)
  · rintro failure ⟨⟩ -
    refine ⟨rfl, hsteps, fun limit? hlimit o' ho' => written_of_ends ha hlimit ho',
      i, hi, rfl, rfl, ?_⟩
    have hstatus := last_of_status (p := p) (a.underLimit (some (k + 1))) .trapped i (k + 1)
    exact hstatus ▸ ends_of_one_more ha hi
  · -- a run that has an instruction left after `k` steps takes more
    rintro o' ⟨turns, ho'⟩ hle
    obtain ⟨⟨b, failure?⟩, hrun, rfl⟩ := Option.map_eq_some_iff.1 ho'
    obtain ⟨n, -, c, hc, hs⟩ := runFrom?_eq_some_iff.1 hrun
    obtain ⟨d, -, hd⟩ := exists_after?_of_stopped ha hc hs
    have hc0 : c.settings.stepLimit? = none := by rw [settings_of_after? hd]; exact ha0
    have hcsteps := steps_of_after? hd
    have hb : b.steps ≤ k := hle
    rcases cases_of_stopped hc0 hs with ⟨hend, rfl, -⟩ | ⟨heq, -⟩
    · obtain rfl : d = 0 := by omega
      cases hd
      rw [hi] at hend
      cases hend
    · omega

/-- A limit on steps does nothing but cut a run short. -/
theorem run_cutShort (p : Program) (input : List UInt8) (output : Sink) (k : Nat) :
    ∃ o, CutShort p input output k o := by
  have hnone : ((Machine.new ⟨input, none⟩).load p output).settings.stepLimit? = none := rfl
  rcases stops_or_reaches hnone k with ⟨n, a, b, failure?, ha, hs, hle⟩ | ⟨a, i, ha, hi⟩
  · exact ⟨_, cutShort_of_stopped ha hs (Nat.le_trans hle (Nat.le_of_eq (Nat.zero_add k)))⟩
  · exact ⟨_, cutShort_of_reached ha hi⟩

end Machine

end StackLang
