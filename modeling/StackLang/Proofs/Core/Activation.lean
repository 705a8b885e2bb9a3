import StackLang.Proofs.Core.Frames

/-!
# The chain of calls

`Active` is the chain of the calls that have not returned, each within its function and on top of the
one before it. What the chain starts from is left open: for a whole run it is the call in the entry
code, and for the run of one call it is where that call was made.

Results:
* `Sound.turn`: one turn of a sound machine leaves a sound machine, or ends as expected.
* `sound_of_passes`: every machine that a run passes through is sound.
-/
namespace StackLang.Core

open Instruction

variable {m : Module}

/-- A chain of so many calls, above a view that the chain starts from. -/
inductive Active (m : Module) (base : View → Prop) : Nat → View → Prop where
  | base {v : View} (h : base v) : Active m base 0 v
  | call {depth index j : Nat} {caller v : View} {f : Function} {own : List Int64}
    (outer : Active m base depth caller)
    (hcall : m.emit[caller.pc]? = some (ofLabel .call ⟨index⟩))
    (within : Within m caller index f j own v) : Active m base (depth + 1) v

/-- Where a call in a function has returned, the function goes on. -/
theorem Within.returned {caller v : View} {index j callee : Nat} {f : Function} {own : List Int64}
    (h : Within m caller index f j own v) (hv : m.Valid)
    (hcall : m.emit[v.pc]? = some (ofLabel .call ⟨callee⟩)) (result : Int64) :
    Within m caller index f (j + 1) (result :: own) (v.returned result) := by
  obtain ⟨i, hi, hpc⟩ := h.instruction
  obtain rfl : i = ofLabel .call ⟨callee⟩ := Option.some.inj (hpc.symm.trans hcall)
  have hfits := Module.fits_placeAt hv h.function hi
  obtain ⟨k, hs⟩ : ∃ k, m.placeAt index f j = .inside f.locals k := by
    generalize m.placeAt index f j = s at hfits
    generalize heq : ofLabel .call ⟨callee⟩ = i at hfits
    cases hfits with
    | call k => exact ⟨k, rfl⟩
    | arithmetic _ op => cases op <;> cases heq
    | comparison _ op => cases op <;> cases heq
    | _ => cases heq
  exact h.push hi hs rfl (by simp [ofLabel]) result rfl rfl rfl rfl

/-- Where a call has returned, the chain goes on below it. -/
theorem Active.returned {base : View → Prop} {depth callee : Nat} {v : View}
    (h : Active m base (depth + 1) v) (hv : m.Valid)
    (hcall : m.emit[v.pc]? = some (ofLabel .call ⟨callee⟩)) (result : Int64) :
    Active m base (depth + 1) (v.returned result) := by
  cases h with
  | call outer ho within => exact .call outer ho (within.returned hv hcall result)

/-- The stacks of what a chain starts from are the lower part of those above it. -/
theorem Active.suffix {base : View → Prop} {depth : Nat} {v : View}
    (h : Active m base (depth + 1) v) :
    ∃ b, base b ∧ b.stack <:+ v.stack ∧ (b.pc + 1) :: b.calls <:+ v.calls := by
  induction depth generalizing v with
  | zero =>
    cases h with
    | @call _ _ _ caller _ _ own outer _ within =>
      cases outer with
      | base hb =>
        refine ⟨caller, hb, ?_, ?_⟩
        · rw [within.stack]; exact List.suffix_append own _
        · simp only [within.calls, List.suffix_rfl]
  | succ depth ih =>
    cases h with
    | @call _ _ _ caller _ _ own outer _ within =>
      obtain ⟨b, hb, hstack, hcalls⟩ := ih outer
      refine ⟨b, hb, hstack.trans ?_, hcalls.trans ?_⟩
      · rw [within.stack]; exact List.suffix_append own _
      · rw [within.calls]; exact List.suffix_cons _ _

/-! ## Whole runs -/

/-- The view from the call in the entry code. -/
def Module.entryView (m : Module) : View := ⟨m.entryStart + 1, 0, [], []⟩

/-- The views from the entry code: its four instructions, with the result on the stack at the
third. -/
inductive Module.AtEntry (m : Module) : View → Prop where
  | mark : m.AtEntry ⟨m.entryStart, 0, [], []⟩
  | call : m.AtEntry m.entryView
  | store (result : Int64) : m.AtEntry (m.entryView.returned result)
  | halt : m.AtEntry ⟨m.entryStart + 3, 0, [], []⟩

/-- A machine that runs a program as it should: it stands in the entry code, or in a chain of calls
that starts there. -/
structure Sound (m : Module) (a : Machine) : Prop where
  loaded : m.Loaded a
  r1 : a.registers.r1 = 0
  r2 : a.registers.r2 = 0
  r3 : a.registers.r3 = 0
  height : a.stack.length ≤ a.steps
  place : m.AtEntry a.view ∨ ∃ depth, Active m (· = m.entryView) (depth + 1) a.view

/-- No function, and not the entry, starts between two addresses. -/
def Module.SameFunction (m : Module) (a b : Nat) : Prop :=
  ∀ index ≤ m.functions.length, m.start index ≤ a ↔ m.start index ≤ b

/-- Addresses of one function. -/
theorem Module.sameFunction_add {index j k : Nat} {f : Function} (h : m.functions[index]? = some f)
    (hj : j < (m.functionCode index f).length) (hk : k < (m.functionCode index f).length) :
    m.SameFunction (m.start index + j) (m.start index + k) := by
  intro i hi
  by_cases hle : i ≤ index
  · have := start_le_start hle (Nat.le_of_lt (lt_of_getElem? h))
    omega
  · have := start_add_length_le h (Nat.lt_of_not_le hle) hi
    omega

/-- Addresses of the entry. -/
theorem Module.sameFunction_entry (m : Module) (j k : Nat) :
    m.SameFunction (m.entryStart + j) (m.entryStart + k) := by
  intro i hi
  have : m.start i ≤ m.entryStart := start_le_start hi (Nat.le_refl _)
  omega

/-- What a turn makes of a sound machine. -/
inductive Continues (m : Module) (a : Machine) (i : Instruction) : Turn → Prop where
  | runs {b : Machine} (sound : Sound m b)
    (same : i.opcode ≠ .call → i.opcode ≠ .ret → m.SameFunction a.pc b.pc) :
    Continues m a i (.running b)
  | fails {b : Machine} {failure : Failure} (h : failure.fault.Expected) :
    Continues m a i (.stopped b (some failure))
  | ends {b : Machine} (sound : Sound m b) (view : b.view = ⟨m.entryStart + 3, 0, [], []⟩) :
    Continues m a i (.stopped b none)

variable {a b : Machine} {i : Instruction}

/-- A sound machine stays sound if its next place is one that a sound machine may have. -/
theorem Sound.step (h : Sound m a) (loaded : m.Loaded b) (kept : a.Kept b)
    (steps : b.steps = a.steps + 1)
    (place : m.AtEntry b.view ∨ ∃ depth, Active m (· = m.entryView) (depth + 1) b.view) :
    Sound m b where
  loaded := loaded
  r1 := kept.r1.trans h.r1
  r2 := kept.r2.trans h.r2
  r3 := kept.r3.trans h.r3
  height := by
    have := kept.height
    have := h.height
    omega
  place := place

/-- The instructions of the entry code. -/
theorem Sound.perform_entry (h : Sound m a) (hv : m.Valid) (hid : m.entry.id < 0x100000000)
    (hentry : m.AtEntry a.view) :
    ∃ i, m.emit[a.pc]? = some i ∧ Continues m a i (a.perform i) := by
  have hcode := m.holds_entry
  have hloaded : ∀ a' : Machine, a'.labels = a.labels → a'.statics = a.statics → m.Loaded a' :=
    fun a' hl hs => ⟨hl.trans h.loaded.labels, hs.trans h.loaded.statics⟩
  generalize hview : a.view = v at hentry
  cases hentry with
  | mark =>
    obtain ⟨hpc, hfp, hstack, hcalls⟩ := View.mk.inj hview
    refine ⟨_, by rw [hpc]; exact hcode.head, ?_⟩
    have hnext : (a.advance (a.pc + 1) a.stack).view = m.entryView := by
      rw [Module.entryView, ← hpc, ← hfp, ← hcalls]; exact congrArg (View.mk _ _ · _) hstack
    refine .runs (h.step (hloaded _ rfl rfl) (.advance a _ (Nat.le_succ _)) rfl
      (.inl (hnext ▸ .call))) fun _ _ => ?_
    simpa [hpc] using m.sameFunction_entry 0 1
  | call =>
    obtain ⟨hpc, hfp, hstack, hcalls⟩ := View.mk.inj hview
    have hcall : m.emit[a.pc]? = some (ofLabel .call ⟨m.main⟩) := by rw [hpc]; exact hcode.tail.head
    refine ⟨_, hcall, ?_⟩
    rw [h.loaded.perform_call hid hv.main]
    refine .runs (h.step (hloaded _ rfl rfl) ⟨rfl, rfl, rfl, Nat.le_succ _⟩ rfl (.inr ⟨0, ?_⟩))
      fun hc _ => absurd rfl hc
    exact .call (.base hview) hcall (Within.enter a.view (List.getElem?_eq_getElem hv.main))
  | store result =>
    obtain ⟨hpc, hfp, hstack, hcalls⟩ := View.mk.inj hview
    refine ⟨_, by rw [hpc]; exact hcode.tail.tail.head, ?_⟩
    rw [Machine.perform_store a hstack]
    refine .runs (h.step (hloaded _ rfl rfl) ⟨rfl, rfl, rfl, Nat.zero_le _⟩ rfl (.inl ?_))
      fun _ _ => ?_
    · show m.AtEntry ⟨a.pc + 1, a.registers.fp, [], a.calls⟩
      rw [hpc, hfp, hcalls]
      exact .halt
    · simpa [show a.pc = m.entryStart + 2 from hpc] using m.sameFunction_entry 2 3
  | halt =>
    obtain ⟨hpc, hfp, hstack, hcalls⟩ := View.mk.inj hview
    refine ⟨_, by rw [hpc]; exact hcode.tail.tail.tail.head, ?_⟩
    rw [Machine.perform_halt]
    exact .ends (h.step (hloaded _ rfl rfl) (.advance a _ (Nat.le_succ _)) rfl
      (.inl (show m.AtEntry a.view from hview ▸ .halt))) hview

/-- One turn of a sound machine leaves a sound machine, or ends as expected. -/
theorem Sound.turn (h : Sound m a) (hv : m.Valid) (hid : m.entry.id < 0x100000000)
    (hsmall : a.stack.length < Machine.heightLimit) :
    ∃ i, m.emit[a.pc]? = some i ∧ Continues m a i (a.turn m.emit.toArray) := by
  rcases h.place with hentry | ⟨depth, hactive⟩
  · obtain ⟨i, hi, hperform⟩ := h.perform_entry hv hid hentry
    have hcode : m.emit.toArray[a.pc]? = some i := by rw [List.getElem?_toArray]; exact hi
    refine ⟨i, hi, ?_⟩
    cases hlimit : a.spentLimit? with
    | none => rw [Machine.turn_of_getElem? hcode hlimit]; exact hperform
    | some limit => rw [Machine.turn_of_spent hcode hlimit]; exact .fails trivial
  · cases hactive with
    | @call _ _ _ caller _ _ _ outer hcall within =>
      obtain ⟨i, hi, hadv⟩ := within.turn hv hid h.loaded hsmall
      refine ⟨i, hi, ?_⟩
      generalize hturn : a.turn m.emit.toArray = t at hadv
      cases hadv with
      | stays hc hr kept within' =>
        refine .runs (h.step (h.loaded.turn hturn) kept (Machine.steps_of_turn hturn)
          (.inr ⟨depth, .call outer hcall within'⟩)) fun _ _ => ?_
        have hsame := Module.sameFunction_add within.function within.bound within'.bound
        rw [← within.pc, ← within'.pc] at hsame
        exact hsame
      | calls hop kept within' =>
        refine .runs (h.step (h.loaded.turn hturn) kept (Machine.steps_of_turn hturn)
          (.inr ⟨depth + 1, .call (.call outer hcall within) ?_ within'⟩)) fun hc _ => ?_
        · exact hop ▸ hi
        · exact absurd (congrArg (·.opcode) hop) hc
      | returns hop kept view =>
        refine .runs (h.step (h.loaded.turn hturn) kept (Machine.steps_of_turn hturn) ?_)
          fun _ hr => absurd (congrArg (·.opcode) hop) hr
        rw [view]
        cases depth with
        | zero =>
          cases outer with
          | base hbase => rw [hbase]; exact .inl (.store _)
        | succ depth => exact .inr ⟨depth, outer.returned hv hcall _⟩
      | fails hf => exact .fails hf

/-- A sound machine that goes on is sound after its turn, as long as its stack cannot be higher than
a word can say. -/
theorem Sound.running (h : Sound m a) (hv : m.Valid) (hid : m.entry.id < 0x100000000)
    (hturn : a.turn m.emit.toArray = .running b) (hsmall : a.stack.length < Machine.heightLimit) :
    Sound m b := by
  obtain ⟨i, -, hcont⟩ := h.turn hv hid hsmall
  rw [hturn] at hcont
  cases hcont with
  | runs sound => exact sound

/-! ## What a run passes through -/

/-- A program starts at its entry, with both stacks empty. -/
theorem view_load {p : Program} (h : m.assemble = .ok p) (vm : Machine) (output : Sink) :
    (vm.load p output).view = ⟨m.entryStart, 0, [], []⟩ :=
  congrArg (View.mk · 0 [] []) (Module.start_of_assemble h)

/-- A program's first machine is sound. -/
theorem sound_load {p : Program} (h : m.assemble = .ok p) (vm : Machine) (output : Sink) :
    Sound m (vm.load p output) := by
  have hview := view_load h vm output
  obtain ⟨rfl, -⟩ := Module.assemble_eq_ok h
  exact ⟨⟨rfl, rfl⟩, rfl, rfl, rfl, Nat.le_refl 0, .inl (hview ▸ .mark)⟩

/-- Every machine that a run passes through is sound. -/
theorem sound_of_passes (hv : m.Valid) {p : Program} (h : m.assemble = .ok p) {vm : Machine}
    {output : Sink} (ha : vm.Passes p output a) : Sound m a := by
  have hcode : p.code = m.emit.toArray := by rw [(Module.assemble_eq_ok h).1]
  have hid := (Module.assemble_eq_ok h).2
  refine ha.induction (sound_load h vm output) (fun _ hsound => hsound.height)
    fun a b hsmall hsound hturn => ?_
  rw [hcode] at hturn
  exact hsound.running hv hid hturn hsmall

end StackLang.Core
