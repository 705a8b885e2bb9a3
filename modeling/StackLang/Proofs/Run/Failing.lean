import StackLang.Proofs.Run.Limits
import StackLang.Proofs.Run.Strings

/-!
# What an instruction that fails leaves

An instruction checks before it changes. Up to the last of its checks it has only looked at the machine
and taken operands off the stack, two at most; so that is all there is to see of it where a check fails.
What it prints comes last, and a sink that does not take all of it has taken a part from the front.

Results:
* `Exec.backs_bind`: looking and popping, and then a part that backs out.
* `Instruction.backs_execute`: the instructions that do not print.
* `Instruction.execute_of_prints`: the instructions that do, up to the printing.
* `Instruction.failed_execute`: what an instruction that fails leaves.
-/
namespace StackLang

/-- The machine is left as it was, but that at most so many values have been taken off its stack. -/
structure Machine.Popped (n : Nat) (m b : Machine) : Prop where
  stack : ∃ popped, popped.length ≤ n ∧ m.stack = popped ++ b.stack
  rest : b = { m with stack := b.stack }

namespace Machine.Popped

variable {m a b : Machine} {n k : Nat}

theorem refl (n : Nat) (m : Machine) : m.Popped n m := ⟨⟨[], Nat.zero_le n, rfl⟩, rfl⟩

theorem trans (h : m.Popped n a) (h' : a.Popped k b) : m.Popped (n + k) b := by
  obtain ⟨⟨popped, hn, hm⟩, ha⟩ := h
  obtain ⟨⟨popped', hk, ha'⟩, hb⟩ := h'
  refine ⟨⟨popped ++ popped', ?_, ?_⟩, ?_⟩
  · rw [List.length_append]
    exact Nat.add_le_add hn hk
  · rw [hm, ha', List.append_assoc]
  · rw [hb, ha]

theorem mono (h : m.Popped n b) (hn : n ≤ k) : m.Popped k b := by
  obtain ⟨⟨popped, hlength, hm⟩, hb⟩ := h
  exact ⟨⟨popped, Nat.le_trans hlength hn, hm⟩, hb⟩

theorem cons {value : Int64} {rest : List Int64} (h : m.stack = value :: rest) :
    m.Popped 1 { m with stack := rest } := ⟨⟨[value], Nat.le_refl 1, h⟩, rfl⟩

end Machine.Popped

namespace Exec

open Machine

variable {α β : Type} {n k : Nat}

/-! ## Parts of an instruction -/

/-- The part only looks and takes at most so many values off the stack, whether it fails or not. -/
def Looks (n : Nat) (x : Exec α) : Prop :=
  ∀ m, match x m with
    | .ok _ b | .error _ b => m.Popped n b

/-- Where the part fails, it has only taken at most so many values off the stack. -/
def Backs (n : Nat) (x : Exec α) : Prop := ∀ ⦃m fault b⦄, x m = .error fault b → m.Popped n b

/-- The part does not fail. -/
def Succeeds (x : Exec α) : Prop := ∀ m, ∃ a b, x m = .ok a b

theorem Looks.backs {x : Exec α} (h : Looks n x) : Backs n x := by
  intro m fault b hx
  have hm := h m
  rwa [hx] at hm

theorem Succeeds.backs {x : Exec α} (h : Succeeds x) : Backs n x := by
  intro m fault b hx
  obtain ⟨a, c, hok⟩ := h m
  rw [hok] at hx
  cases hx

theorem Backs.mono {x : Exec α} (h : Backs n x) (hn : n ≤ k) : Backs k x :=
  fun _ _ _ hx => (h hx).mono hn

theorem looks_pure (a : α) : Looks 0 (pure a) := Popped.refl 0

theorem looks_get : Looks 0 get := Popped.refl 0

theorem backs_throw (fault : Fault) : Backs n (throw fault : Exec α) :=
  Looks.backs (Popped.refl n)

theorem looks_require (value : Option α) (fault : Fault) : Looks 0 (require value fault) := by
  intro m
  cases value with
  | none => exact Popped.refl 0 m
  | some a => exact Popped.refl 0 m

theorem looks_pop : Looks 1 pop := by
  intro m
  cases h : m.stack with
  | nil =>
    simp only [pop, h]
    exact Popped.refl 1 m
  | cons value rest =>
    simp only [pop, h]
    exact Popped.cons h

theorem looks_bind {x : Exec α} {f : α → Exec β} (hx : Looks n x) (hf : ∀ a, Looks k (f a)) :
    Looks (n + k) (x >>= f) := by
  intro m
  have hm := hx m
  rw [Effect.bind_apply]
  cases h : x m with
  | error fault b =>
    rw [h] at hm
    exact hm.mono (Nat.le_add_right n k)
  | ok a c =>
    rw [h] at hm
    have hc := hf a c
    simp only at hm ⊢
    generalize f a c = result at hc ⊢
    cases result with
    | ok | error => exact hm.trans hc

/-- Looking and popping, and then a part that backs out. -/
theorem backs_bind {x : Exec α} {f : α → Exec β} (hx : Looks n x) (hf : ∀ a, Backs k (f a)) :
    Backs (n + k) (x >>= f) := by
  intro m fault b h
  have hm := hx m
  rw [Effect.bind_apply] at h
  cases hxm : x m with
  | error e c =>
    rw [hxm] at hm h
    cases h
    exact hm.mono (Nat.le_add_right n k)
  | ok a c =>
    rw [hxm] at hm h
    exact hm.trans (hf a h)

/-- A part that backs out, and then one that does not fail. -/
theorem backs_bind_succeeds {x : Exec α} {f : α → Exec β} (hx : Backs n x)
    (hf : ∀ a, Succeeds (f a)) : Backs n (x >>= f) := by
  intro m fault b h
  rw [Effect.bind_apply] at h
  cases hxm : x m with
  | error e c =>
    rw [hxm] at h
    cases h
    exact hx hxm
  | ok a c =>
    rw [hxm] at h
    obtain ⟨a', c', hok⟩ := hf a c
    cases hok.symm.trans h

theorem succeeds_pure (a : α) : Succeeds (pure a) := fun m => ⟨a, m, rfl⟩

theorem succeeds_push (value : Int64) : Succeeds (push value) := fun _ => ⟨_, _, rfl⟩

theorem succeeds_modify (f : Machine → Machine) : Succeeds (modify f) := fun _ => ⟨_, _, rfl⟩

theorem succeeds_bind {x : Exec α} {f : α → Exec β} (hx : Succeeds x) (hf : ∀ a, Succeeds (f a)) :
    Succeeds (x >>= f) := by
  intro m
  obtain ⟨a, c, hxm⟩ := hx m
  obtain ⟨a', c', hfa⟩ := hf a c
  refine ⟨a', c', ?_⟩
  rw [Effect.bind_apply, hxm]
  exact hfa

theorem looks_jump (operand : Int64) : Looks 0 (jump operand) :=
  looks_bind looks_get fun _ => looks_bind (looks_require _ _) fun _ => looks_pure _

theorem backs_arithmetic (op : Int64 → Int64 → Int64) : Backs 2 (arithmetic op) :=
  backs_bind looks_pop fun _ => backs_bind (k := 0) looks_pop fun _ => (succeeds_push _).backs

theorem backs_comparison (op : Int64 → Int64 → Bool) : Backs 2 (comparison op) :=
  backs_bind looks_pop fun _ => backs_bind (k := 0) looks_pop fun _ => (succeeds_push _).backs

theorem backs_division (op : Int64 → Int64 → Int64) : Backs 2 (division op) := by
  refine backs_bind looks_pop fun _ => backs_bind (k := 0) looks_pop fun _ => ?_
  split
  · exact backs_throw _
  · exact (succeeds_push _).backs

end Exec

namespace Instruction

open Exec Machine

variable {i : Instruction} {m b : Machine} {fault : Fault}

/-- An instruction that does not print backs out where it fails. -/
theorem backs_execute (hprints : i.opcode.prints = false) : Backs 2 i.execute := by
  obtain ⟨op, operand⟩ := i
  have next {α : Type} {x : Exec α} (hx : Backs 2 x) :
      Backs 2 (x >>= fun _ => pure Continuation.next) :=
    backs_bind_succeeds hx fun _ => succeeds_pure _
  have nextAfter {α : Type} {x : Exec α} (hx : Succeeds x) :
      Succeeds (x >>= fun _ => pure Continuation.next) :=
    succeeds_bind hx fun _ => succeeds_pure _
  cases op with
  | loadImmediate => exact (nextAfter (succeeds_push _)).backs
  | load =>
    exact backs_bind (k := 2) (looks_require _ _) fun _ => backs_bind (k := 2) looks_get fun _ =>
      (nextAfter (succeeds_push _)).backs
  | store =>
    exact backs_bind (k := 2) (looks_require _ _) fun _ => backs_bind (k := 1) looks_pop fun _ =>
      (nextAfter (succeeds_modify _)).backs
  | loadSlot =>
    exact backs_bind (k := 2) looks_get fun _ => backs_bind (k := 2) (looks_require _ _) fun _ =>
      (nextAfter (succeeds_push _)).backs
  | storeSlot =>
    exact backs_bind (k := 1) looks_pop fun _ => backs_bind (k := 1) looks_get fun _ =>
      backs_bind (k := 1) (looks_require _ _) fun _ => (nextAfter (succeeds_modify _)).backs
  | pop => exact next (looks_pop.backs.mono (by decide))
  | setFrame =>
    exact backs_bind (k := 2) looks_get fun _ => (nextAfter (succeeds_modify _)).backs
  | add | sub | mul => exact next (backs_arithmetic _)
  | div | mod => exact next (backs_division _)
  | less | greater | equal => exact next (backs_comparison _)
  | not => exact backs_bind (k := 1) looks_pop fun _ => (nextAfter (succeeds_push _)).backs
  | jump => exact (looks_jump operand).backs.mono (Nat.zero_le 2)
  | jumpIfZero =>
    refine backs_bind (k := 1) looks_pop fun value => ?_
    split
    · exact (looks_jump operand).backs.mono (Nat.zero_le 1)
    · exact (succeeds_pure _).backs
  | call =>
    exact backs_bind (k := 2) (looks_jump operand) fun _ =>
      (succeeds_bind (succeeds_modify _) fun _ => succeeds_pure _).backs
  | ret =>
    refine backs_bind (k := 2) looks_get fun m => ?_
    cases m.calls with
    | nil => exact backs_throw _
    | cons address calls =>
      exact (succeeds_bind (succeeds_modify _) fun _ => succeeds_bind (succeeds_push _) fun _ =>
        succeeds_pure _).backs
  | increment =>
    exact backs_bind (k := 2) (looks_require _ _) fun _ => backs_bind (k := 2) looks_get fun _ =>
      (nextAfter (succeeds_modify _)).backs
  | mark | halt => exact (succeeds_pure _).backs
  | newString =>
    exact backs_bind (k := 2) looks_get fun _ => backs_bind (k := 2) (looks_require _ _) fun _ =>
      backs_bind (k := 2) looks_get fun _ =>
        (succeeds_bind (succeeds_modify _) fun _ => nextAfter (succeeds_push _)).backs
  | getByte =>
    refine backs_bind (k := 2) looks_get fun m => ?_
    cases m.unread with
    | nil => exact (nextAfter (succeeds_push _)).backs
    | cons byte unread =>
      exact (succeeds_bind (succeeds_modify _) fun _ => nextAfter (succeeds_push _)).backs
  | trap => exact backs_throw _
  | putInt | putStatic | putString => cases hprints

/-! ## Printing -/

/-- The instruction gets as far as printing: some data, with the operands that are left. -/
inductive Prints (m : Machine) : Instruction → List UInt8 → List Int64 → Prop
  | putInt {operand value : Int64} {rest : List Int64} (hstack : m.stack = value :: rest) :
    Prints m ⟨.putInt, operand⟩ (utf8 (toString value)) rest
  | putStatic {operand : Int64} {data : List UInt8} (hdata : m.static? operand = some data) :
    Prints m ⟨.putStatic, operand⟩ data m.stack
  | putString {operand pointer : Int64} {rest : List Int64} {data : List UInt8}
    (hstack : m.stack = pointer :: rest)
    (hdata : (wordSize? pointer).bind m.heap.string? = some data) :
    Prints m ⟨.putString, operand⟩ data rest

variable {data : List UInt8} {rest : List Int64}

/-- What is printed does not depend on where output goes. -/
theorem Prints.redirect (h : Prints m i data rest) (output : Sink) :
    Prints { m with output } i data rest := by
  cases h with
  | putInt hstack => exact .putInt hstack
  | putStatic hdata => exact .putStatic hdata
  | putString hstack hdata => exact .putString hstack hdata

theorem Prints.popped (h : Prints m i data rest) : m.Popped 1 { m with stack := rest } := by
  cases h with
  | putInt hstack | putString hstack => exact .cons hstack
  | putStatic => exact (Popped.refl 0 m).mono (Nat.zero_le 1)

/-- An instruction that gets as far as printing fails only if not all of it is written. -/
theorem execute_of_prints (h : Prints m i data rest) : i.execute m =
    if (m.output.write data).1 then
      .ok .next { m with stack := rest, output := (m.output.write data).2 }
    else .error (.output m.output.error)
      { m with stack := rest, output := (m.output.write data).2 } := by
  cases hw : (m.output.write data).1
  all_goals
    cases h with
    | putInt hstack => simp [execute, pop, hstack, write_eq, hw]
    | putStatic hdata => simp [execute, require, hdata, write_eq, hw]
    | putString hstack hdata => simp [execute, pop, require, hstack, hdata, write_eq, hw]

/-- An instruction that prints gets as far as that, or backs out. -/
theorem prints_or_popped (hprints : i.opcode.prints) (h : i.execute m = .error fault b) :
    (∃ data rest, Prints m i data rest) ∨ m.Popped 2 b ∧ ∀ error, fault ≠ .output error := by
  obtain ⟨op, operand⟩ := i
  cases op with
  | putInt =>
    cases hstack : m.stack with
    | cons value rest => exact .inl ⟨_, _, .putInt hstack⟩
    | nil =>
      simp only [execute, Effect.bind_apply, pop, hstack] at h
      cases h
      refine .inr ⟨.refl 2 m, ?_⟩
      rintro error ⟨⟩
  | putStatic =>
    cases hdata : m.static? operand with
    | some data => exact .inl ⟨_, _, .putStatic hdata⟩
    | none =>
      simp only [execute, Effect.bind_apply, Effect.get_apply, require, hdata] at h
      cases h
      refine .inr ⟨.refl 2 m, ?_⟩
      rintro error ⟨⟩
  | putString =>
    cases hstack : m.stack with
    | nil =>
      simp only [execute, Effect.bind_apply, pop, hstack] at h
      cases h
      refine .inr ⟨.refl 2 m, ?_⟩
      rintro error ⟨⟩
    | cons pointer rest =>
      cases hdata : (wordSize? pointer).bind m.heap.string? with
      | some data => exact .inl ⟨_, _, .putString hstack hdata⟩
      | none =>
        simp only [execute, Effect.bind_apply, Effect.get_apply, pop, require, hstack, hdata] at h
        cases h
        refine .inr ⟨(Popped.cons hstack).mono (by decide), ?_⟩
        rintro error ⟨⟩
  | _ => cases hprints

end Instruction

/-! ## Failing -/

/-- A sink that takes everything from now on. -/
def Sink.unbounded (s : Sink) : Sink := { s with room? := none }

/-- What does not fit in a sink is written up to where the sink is full. -/
theorem Sink.written_of_not_write {s : Sink} {data : List UInt8} (h : ¬ (s.write data).1) :
    ∃ part, part <+: data ∧ part ≠ data ∧ (s.write data).2.written = s.written ++ part := by
  refine ⟨s.fitting data, ?_, ?_, s.written_write data⟩
  · unfold fitting
    split
    · exact List.prefix_rfl
    · exact List.take_prefix _ _
  · exact fun heq => h (decide_eq_true (congrArg List.length heq))

theorem Sink.write_unbounded (s : Sink) (data : List UInt8) :
    (s.unbounded.write data).1 ∧ (s.unbounded.write data).2.written = s.written ++ data :=
  ⟨decide_eq_true rfl, s.unbounded.written_write data⟩

/-- An instruction that fails has taken at most two values off the stack, and has changed nothing else
but the output, which it changes only if the fault is that of the output. What it prints is what it adds
to the output where the sink takes everything; as much of that as there was room for is written, which is
not all of it. -/
theorem Instruction.failed_execute {i : Instruction} {m b : Machine} {fault : Fault}
    (h : i.execute m = .error fault b) :
    (∃ popped, popped.length ≤ 2 ∧ m.stack = popped ++ b.stack) ∧
      b = { m with stack := b.stack, output := b.output } ∧
      ((∀ error, fault ≠ .output error) → b.output = m.output) ∧
      ∀ error, fault = .output error → ∃ data part c,
        i.execute { m with output := m.output.unbounded } = .ok .next c ∧
        c.output.written = m.output.written ++ data ∧
        b.output.written = m.output.written ++ part ∧ part <+: data ∧ part ≠ data ∧
        b.output = (m.output.write data).2 ∧ error = m.output.error := by
  have of_popped (hb : m.Popped 2 b) : b = { m with stack := b.stack, output := b.output } ∧
      b.output = m.output := by
    have houtput : b.output = m.output := by rw [hb.rest]
    refine ⟨?_, houtput⟩
    rw [houtput]
    exact hb.rest
  by_cases hprints : i.opcode.prints
  · obtain ⟨data, rest, hdata⟩ | ⟨hb, hfault⟩ := prints_or_popped hprints h
    · -- the printing itself failed
      have hfit := execute_of_prints (hdata.redirect m.output.unbounded)
      rw [if_pos (m.output.write_unbounded data).1] at hfit
      rw [execute_of_prints hdata] at h
      split at h
      · cases h
      · next hwrite =>
        obtain ⟨part, hpart, hne, hwritten⟩ := Sink.written_of_not_write hwrite
        cases h
        refine ⟨(hdata.popped.mono (by decide)).stack, rfl, fun hfault => absurd rfl (hfault _), ?_⟩
        rintro error ⟨⟩
        exact ⟨data, part, _, hfit, (m.output.write_unbounded data).2, hwritten, hpart, hne, rfl, rfl⟩
    · exact ⟨hb.stack, (of_popped hb).1, fun _ => (of_popped hb).2, fun error he =>
        absurd he (hfault error)⟩
  · have hb : m.Popped 2 b := backs_execute (Bool.not_eq_true _ ▸ hprints) h
    have hfails := leads_execute (Machine.change_written i.opcode) m
    rw [h] at hfails
    refine ⟨hb.stack, (of_popped hb).1, fun _ => (of_popped hb).2, ?_⟩
    rintro error rfl
    exact absurd hfails.2 hprints

/-- Where there is room for one byte, a string of two is written up to the first. -/
theorem Instruction.failed_execute_putString :
    let m := { Machine.new default with
      stack := [0, 7], heap := ⟨[65, 66, 0]⟩, output := ⟨[], some 1, .brokenPipe, false⟩ }
    ∃ b, (⟨.putString, 0⟩ : Instruction).execute m = .error (.output .brokenPipe) b ∧
      b.output.written = [65] ∧ (∃ popped, popped.length ≤ 2 ∧ m.stack = popped ++ b.stack) ∧
      b = { m with stack := b.stack, output := b.output } := by
  intro m
  obtain ⟨b, hb⟩ : ∃ b, (⟨.putString, 0⟩ : Instruction).execute m = .error (.output .brokenPipe) b :=
    ⟨_, rfl⟩
  have hfailed := failed_execute hb
  refine ⟨b, hb, ?_, hfailed.1, hfailed.2.1⟩
  cases hb
  decide

end StackLang
