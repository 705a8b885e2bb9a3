import StackLang.Machine.Run

/-!
# Runs, turn by turn

`after?` follows a machine for a number of turns, as long as it does not stop. A run that ends is
such a walk and one more turn that stops, so what every turn keeps holds wherever a run gets to.

Results:
* `runFrom?_eq_some_iff`: a run ends if it gets to a machine that stops on its next turn.
* `after?_induction`: what each turn keeps, holds after any number of turns.
* `after?_eq_none_of_runFrom?`: a run that ends goes no further.
* `exists_after?_of_runWithin?`, `cases_of_finish`: where a run stops, and what it fails with.
* `Outgrows.mono`, `Outgrows.step`: when a stack gets higher than a word can say.
-/
namespace StackLang.Machine

variable {code : Array Instruction}

/-- The machine after so many turns, if it has not stopped by then. -/
def after? (code : Array Instruction) : Nat → Machine → Option Machine
  | 0, m => some m
  | n + 1, m =>
    match m.turn code with
    | .running m' => after? code n m'
    | .stopped .. => none

@[simp] theorem after?_zero (m : Machine) : m.after? code 0 = some m := rfl

theorem after?_succ_of_running {m m' : Machine} (h : m.turn code = .running m') (n : Nat) :
    m.after? code (n + 1) = m'.after? code n := by
  rw [after?, h]

theorem after?_succ_of_stopped {m m' : Machine} {f : Option Failure}
    (h : m.turn code = .stopped m' f) (n : Nat) : m.after? code (n + 1) = none := by
  rw [after?, h]

theorem after?_add (n k : Nat) (m : Machine) :
    m.after? code (n + k) = (m.after? code n).bind fun m' => m'.after? code k := by
  induction n generalizing m with
  | zero => simp
  | succ n ih =>
    rw [Nat.succ_add]
    cases h : m.turn code with
    | running m' => rw [after?_succ_of_running h, after?_succ_of_running h, ih]
    | stopped m' f => rw [after?_succ_of_stopped h, after?_succ_of_stopped h, Option.bind_none]

/-- The last of the turns, taken apart from those before it. -/
theorem after?_succ_eq_some_iff {n : Nat} {m m'' : Machine} :
    m.after? code (n + 1) = some m'' ↔
      ∃ m', m.after? code n = some m' ∧ m'.turn code = .running m'' := by
  rw [after?_add, Option.bind_eq_some_iff]
  have last (m' : Machine) : m'.after? code 1 = some m'' ↔ m'.turn code = .running m'' := by
    cases h : m'.turn code with
    | running m₁ => rw [after?_succ_of_running h]; simp
    | stopped m₁ f => rw [after?_succ_of_stopped h]; simp
  simp only [last]

/-- What holds at first and is kept by each turn that goes on, holds after any number of turns. -/
theorem after?_induction {P : Machine → Prop} {m : Machine} (start : P m)
    (turn : ∀ m₁ m₂, P m₁ → m₁.turn code = .running m₂ → P m₂) {n : Nat} {m' : Machine}
    (h : m.after? code n = some m') : P m' := by
  induction n generalizing m' with
  | zero => cases h; exact start
  | succ n ih =>
    obtain ⟨m₁, h₁, ht⟩ := after?_succ_eq_some_iff.1 h
    exact turn m₁ m' (ih h₁) ht

theorem runFrom?_succ_of_running {m m' : Machine} (h : m.turn code = .running m') (n : Nat) :
    runFrom? code (n + 1) m = runFrom? code n m' := by
  rw [runFrom?_succ, h]

theorem runFrom?_succ_of_stopped {m m' : Machine} {f : Option Failure}
    (h : m.turn code = .stopped m' f) (n : Nat) : runFrom? code (n + 1) m = some (m', f) := by
  rw [runFrom?_succ, h]

/-- A run ends in so many turns just if it gets, in fewer, to a machine that stops. -/
theorem runFrom?_eq_some_iff {n : Nat} {m m' : Machine} {f : Option Failure} :
    runFrom? code n m = some (m', f) ↔
      ∃ k < n, ∃ m₁, m.after? code k = some m₁ ∧ m₁.turn code = .stopped m' f := by
  induction n generalizing m with
  | zero => simp
  | succ n ih =>
    cases h : m.turn code with
    | running m₂ =>
      rw [runFrom?_succ_of_running h, ih]
      constructor
      · rintro ⟨k, hk, m₁, h₁, hs⟩
        exact ⟨k + 1, by omega, m₁, by rw [after?_succ_of_running h, h₁], hs⟩
      · rintro ⟨k, hk, m₁, h₁, hs⟩
        cases k with
        | zero => cases h₁; rw [h] at hs; cases hs
        | succ k => exact ⟨k, by omega, m₁, by rwa [after?_succ_of_running h] at h₁, hs⟩
    | stopped m₂ f₂ =>
      rw [runFrom?_succ_of_stopped h]
      constructor
      · rintro ⟨⟩
        exact ⟨0, by omega, m, rfl, h⟩
      · rintro ⟨k, hk, m₁, h₁, hs⟩
        cases k with
        | zero => cases h₁; rw [h] at hs; cases hs; rfl
        | succ k => rw [after?_succ_of_stopped h] at h₁; cases h₁

/-- A run that ends does not go on for as many turns as it was granted. -/
theorem after?_eq_none_of_runFrom? {n k : Nat} {m : Machine} {e : Machine × Option Failure}
    (h : runFrom? code n m = some e) (hk : n ≤ k) : m.after? code k = none := by
  obtain ⟨m', f⟩ := e
  obtain ⟨j, hj, m₁, h₁, hs⟩ := runFrom?_eq_some_iff.1 h
  obtain ⟨i, rfl⟩ : ∃ i, k = j + (i + 1) := ⟨k - j - 1, by omega⟩
  rw [after?_add, h₁, Option.bind_some, after?_succ_of_stopped hs]

/-- A run has one outcome, however many turns it is granted. -/
theorem runWithin?_unique {m : Machine} {p : Program} {output : Sink} {n k : Nat} {o o' : Outcome}
    (h : m.runWithin? n p output = some o) (h' : m.runWithin? k p output = some o') : o = o' := by
  obtain ⟨e, he, rfl⟩ := Option.map_eq_some_iff.1 h
  obtain ⟨e', he', rfl⟩ := Option.map_eq_some_iff.1 h'
  have hmax := runFrom?_mono he (Nat.le_max_left n k)
  rw [runFrom?_mono he' (Nat.le_max_right n k)] at hmax
  rw [Option.some.inj hmax]

/-- The failure that a run ends with is the one that stopped it, or else one to flush the output. -/
theorem cases_of_finish {m : Machine} {failure? : Option Failure} {failure : Failure}
    (h : failure ∈ (m.finish failure?).failure?) :
    failure ∈ failure? ∨
      failure? = none ∧ m.output.flushFails ∧ failure = ⟨.output m.output.error, m.pc, .halt⟩ := by
  cases failure? with
  | some f => exact .inl h
  | none =>
    cases hflush : m.output.flushFails with
    | false => simp [finish, hflush] at h
    | true =>
      simp only [finish, hflush, if_true, Option.mem_def] at h
      cases h
      exact .inr ⟨rfl, rfl, rfl⟩

/-- A run that is over has stopped at a machine that it got to. -/
theorem exists_after?_of_runWithin? {m : Machine} {p : Program} {output : Sink} {turns : Nat}
    {o : Outcome} (h : m.runWithin? turns p output = some o) :
    ∃ n < turns, ∃ a b failure?, (m.load p output).after? p.code n = some a ∧
      a.turn p.code = .stopped b failure? ∧ o = b.finish failure? := by
  obtain ⟨⟨b, failure?⟩, hrun, rfl⟩ := Option.map_eq_some_iff.1 h
  obtain ⟨n, hn, a, ha, hs⟩ := runFrom?_eq_some_iff.1 hrun
  exact ⟨n, hn, a, b, failure?, ha, hs, rfl⟩

/-! ## Stacks that are too high -/

/-- How high a stack can get before a word cannot say it. There is no memory for so many words. -/
def heightLimit : Nat := 0x8000000000000000

/-- The stack gets higher than a word can say in at most so many turns. -/
def Outgrows (code : Array Instruction) (n : Nat) (m : Machine) : Prop :=
  ∃ k ≤ n, ∃ m', m.after? code k = some m' ∧ heightLimit ≤ m'.stack.length

theorem Outgrows.mono {n k : Nat} {m : Machine} (h : m.Outgrows code n) (hk : n ≤ k) :
    m.Outgrows code k := by
  obtain ⟨j, hj, hm⟩ := h
  exact ⟨j, Nat.le_trans hj hk, hm⟩

theorem Outgrows.step {n : Nat} {m m' : Machine} (ht : m.turn code = .running m')
    (h : m'.Outgrows code n) : m.Outgrows code (n + 1) := by
  obtain ⟨j, hj, b, hb, hheight⟩ := h
  exact ⟨j + 1, Nat.succ_le_succ hj, b, (after?_succ_of_running ht j).trans hb, hheight⟩

end StackLang.Machine
