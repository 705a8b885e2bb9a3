import StackLang.Proofs.Core.Frames
import StackLang.Proofs.Core.Names
import StackLang.Proofs.Run.Control

/-!
# Which function is executed

The code of a program falls into parts: one for each function, and the entry. The addresses to return to
say which calls have not returned, and so which part is executed: each was saved by a call, to which it
returns in the part that made the call. No jump leads out of its part and none of them runs into the
next, so the next address always lies in the part that was called last.

Results:
* `Module.sited`: what the instruction at an address may be.
* `Follows.turn`: a turn keeps to the chain of calls.
* `Module.functionNameAt?_of_covers`: the name that is found for an address is that of its part.
-/
namespace StackLang.Core

open Instruction

/-! ## Parts of a program -/

/-- The address lies in the code of the function with this number, or in the entry if there is none. -/
def Module.Covers (m : Module) (part? : Option Nat) (a : Nat) : Prop :=
  match part? with
  | some index => ∃ f, m.functions[index]? = some f ∧ m.start index ≤ a ∧
    a < m.start index + (m.functionCode index f).length
  | none => m.entryStart ≤ a ∧ a < m.entryStart + m.entryCode.length

/-- The name of a part. -/
def Module.partName? (m : Module) : Option Nat → Option String
  | some index => m.functions[index]?.map (·.name)
  | none => some "<entry>"

/-- The calls that have not returned, by their addresses to return to, the last call first; and the part
that the last call is of, the entry if there is no call. The entry calls the main function. -/
inductive Chain (p : Program) (m : Module) : List Nat → Option Nat → Prop where
  | entry : Chain p m [] none
  | call {calls : List Nat} {caller? : Option Nat} {a callee : Nat} (outer : Chain p m calls caller?)
    (site : m.Covers caller? a) (back : m.Covers caller? (a + 1))
    (first : caller? = none → a = m.entryStart + 1 ∧ callee = m.main)
    (function : callee < m.functions.length) (instruction : p.code[a]? = some (ofLabel .call ⟨callee⟩))
    (target : (Label.ofOperand? (Label.mk callee).operand).bind p.labels.resolve? =
      some (m.start callee)) :
    Chain p m ((a + 1) :: calls) (some callee)

/-- Calls that have not returned, and an address in the part that the last of them is of. -/
def Follows (p : Program) (m : Module) (calls : List Nat) (a : Nat) : Prop :=
  ∃ part?, Chain p m calls part? ∧ m.Covers part? a

/-! ## Instructions in their parts -/

/-- What the instruction at an address of a part may be: only a jump, a return or a halt is not followed
by another one of the part, a jump leads to the part, and what is called is a function. The only call in
the entry is the one of the main function. -/
structure Module.Sited (m : Module) (part? : Option Nat) (a : Nat) (i : Instruction) : Prop where
  next : i.opcode ∉ [.jump, .ret, .halt] → m.Covers part? (a + 1)
  jump : i.opcode = .jump ∨ i.opcode = .jumpIfZero →
    ∀ b, (Label.ofOperand? i.operand).bind (link m.emit).resolve? = some b → m.Covers part? b
  call : i.opcode = .call → ∃ callee < m.functions.length, i = ofLabel .call ⟨callee⟩ ∧
    (part? = none → a = m.entryStart + 1 ∧ callee = m.main)

variable {m : Module} {index : Nat} {f : Function} {s : Place} {i : Instruction}

/-- A jump of a function is to one of its labels. -/
theorem Fits.label (h : Fits m index f s i) (hop : i.opcode = .jump ∨ i.opcode = .jumpIfZero) :
    ∃ l ∈ labelsFrom (m.firstLabel index) f.labels, i.operand = l.operand := by
  cases h with
  | jump h | jumpIfZero h => exact ⟨_, h.mem, rfl⟩
  | giveBack => exact ⟨_, m.end_mem index f, rfl⟩
  | arithmetic _ op | comparison _ op => cases op <;> rcases hop with hop | hop <;> cases hop
  | _ => rcases hop with hop | hop <;> cases hop

/-- A call of a function is of a function. -/
theorem Fits.callee (h : Fits m index f s i) (hop : i.opcode = .call) :
    ∃ callee < m.functions.length, i = ofLabel .call ⟨callee⟩ := by
  cases h with
  | call _ h => exact ⟨_, h, rfl⟩
  | arithmetic _ op | comparison _ op => cases op <;> cases hop
  | _ => cases hop

namespace Module

theorem covers_add (hf : m.functions[index]? = some f) {j : Nat}
    (hj : j < (m.functionCode index f).length) : m.Covers (some index) (m.start index + j) :=
  ⟨f, hf, Nat.le_add_right _ _, Nat.add_lt_add_left hj _⟩

theorem covers_start {callee : Nat} (h : callee < m.functions.length) :
    m.Covers (some callee) (m.start callee) :=
  covers_add (j := 0) (List.getElem?_eq_getElem h)
    (by simp [functionCode, Function.emit, Function.prologue])

/-- The instruction at an address of a function. -/
theorem sited_function (hv : m.Valid) (hid : m.entry.id < 0x100000000)
    (hf : m.functions[index]? = some f) {j : Nat} (hi : (m.functionCode index f)[j]? = some i) :
    m.Sited (some index) (m.start index + j) i where
  next hop := by
    refine covers_add hf (lt_length_of_ne_ret hi ?_)
    rintro rfl
    exact hop (by simp [bare])
  jump hop b hb := by
    obtain ⟨l, hl, heq⟩ := (fits_placeAt hv hf hi).label hop
    obtain ⟨k, hk, htarget⟩ := target?_label hid hf hl
    rw [heq, htarget] at hb
    obtain rfl := Option.some.inj hb
    exact covers_add hf (List.getElem?_eq_some_iff.1 hk).1
  call hop := by
    obtain ⟨callee, hcallee, heq⟩ := (fits_placeAt hv hf hi).callee hop
    refine ⟨callee, hcallee, heq, ?_⟩
    intro h
    cases h

/-- The instructions of the entry. -/
theorem sited_entry (hv : m.Valid) {j : Nat} (hi : m.entryCode[j]? = some i) :
    m.Sited none (m.entryStart + j) i := by
  have next (hj : j < 3) : m.Covers none (m.entryStart + j + 1) := by
    refine ⟨by omega, ?_⟩
    simp only [entryCode, List.length_cons, List.length_nil]
    omega
  have hmain := hv.main
  rcases j with _ | _ | _ | _ | j
  · cases hi
    exact ⟨fun _ => next (by decide), by simp [ofLabel], by simp [ofLabel]⟩
  · cases hi
    exact ⟨fun _ => next (by decide), by simp [ofLabel],
      fun _ => ⟨m.main, hmain, rfl, fun _ => ⟨rfl, rfl⟩⟩⟩
  · cases hi
    exact ⟨fun _ => next (by decide), by simp [ofRegister], by simp [ofRegister]⟩
  · cases hi
    exact ⟨by simp [bare], by simp [bare], by simp [bare]⟩
  · cases hi

/-- Each address of a part has an instruction that may stand there. -/
theorem sited (hv : m.Valid) (hid : m.entry.id < 0x100000000) {part? : Option Nat} {a : Nat}
    (h : m.Covers part? a) : ∃ i, m.emit[a]? = some i ∧ m.Sited part? a i := by
  cases part? with
  | some index =>
    obtain ⟨f, hf, hlow, hhigh⟩ := h
    obtain ⟨j, rfl⟩ := Nat.exists_eq_add_of_le hlow
    have hj : j < (m.functionCode index f).length := Nat.lt_of_add_lt_add_left hhigh
    refine ⟨_, ?_, sited_function hv hid hf (List.getElem?_eq_getElem hj)⟩
    rw [(holds_function hf).getElem? hj, List.getElem?_eq_getElem hj]
  | none =>
    obtain ⟨j, rfl⟩ := Nat.exists_eq_add_of_le h.1
    have hj : j < m.entryCode.length := Nat.lt_of_add_lt_add_left h.2
    refine ⟨_, ?_, sited_entry hv (List.getElem?_eq_getElem hj)⟩
    rw [m.holds_entry.getElem? hj, List.getElem?_eq_getElem hj]

/-- Each address of a program lies in one of its parts. -/
theorem exists_covers {a : Nat} (h : a < m.emit.length) : ∃ part?, m.Covers part? a := by
  by_cases hentry : a < m.entryStart
  · obtain ⟨index, f, j, hf, hj, rfl⟩ := exists_function hentry
    exact ⟨some index, covers_add hf hj⟩
  · rw [length_emit] at h
    exact ⟨none, Nat.le_of_not_lt hentry, h⟩

/-- The name that is found for an address is that of its part. -/
theorem functionNameAt?_of_covers {p : Program} (h : m.assemble = .ok p) {part? : Option Nat} {a : Nat}
    (ha : m.Covers part? a) : p.functionNameAt? a = m.partName? part? := by
  cases part? with
  | some index =>
    obtain ⟨f, hf, hlow, hhigh⟩ := ha
    obtain ⟨j, rfl⟩ := Nat.exists_eq_add_of_le hlow
    rw [functionNameAt?_function h hf (Nat.lt_of_add_lt_add_left hhigh), partName?, hf]
    rfl
  | none =>
    obtain ⟨j, rfl⟩ := Nat.exists_eq_add_of_le ha.1
    exact functionNameAt?_entry h j

end Module

/-! ## Turns -/

variable {p : Program} {a : Machine}

/-- A program starts in its entry, without calls. -/
theorem follows_load (h : m.assemble = .ok p) (vm : Machine) (output : Sink) :
    Follows p m (vm.load p output).calls (vm.load p output).pc := by
  refine ⟨none, .entry, Nat.le_of_eq (Module.start_of_assemble h).symm, ?_⟩
  have hstart : (vm.load p output).pc = m.entryStart := Module.start_of_assemble h
  rw [hstart]
  exact Nat.lt_add_of_pos_right (Nat.zero_lt_succ _)

/-- Whether a machine that has taken a turn still follows the calls. One that stops has not moved. -/
inductive Keeps (p : Program) (m : Module) (a : Machine) : Turn → Prop where
  | running {b : Machine} (h : Follows p m b.calls b.pc) : Keeps p m a (.running b)
  | stopped {b : Machine} {failure? : Option Failure} (pc : b.pc = a.pc) (calls : b.calls = a.calls)
    (address : ∀ failure ∈ failure?, failure.address = a.pc) : Keeps p m a (.stopped b failure?)

/-- An instruction keeps to the chain of calls. -/
theorem Follows.goes (h : m.assemble = .ok p) (hloaded : m.Loaded a) {part? : Option Nat}
    (hchain : Chain p m a.calls part?) (hcovers : m.Covers part? a.pc)
    (hi : m.emit[a.pc]? = some i) (hsited : m.Sited part? a.pc i) {t : Turn} (ht : a.Goes i t) :
    Keeps p m a t := by
  obtain ⟨rfl, hid⟩ := Module.assemble_eq_ok h
  cases ht with
  | next hop pc calls =>
    have hnext : i.opcode ∉ [.jump, .ret, .halt] := by
      simp only [List.mem_cons, not_or] at hop ⊢
      exact ⟨hop.1, hop.2.2⟩
    rw [← calls] at hchain
    refine .running ⟨part?, hchain, ?_⟩
    rw [pc]
    exact hsited.next hnext
  | jumps hop target calls =>
    rw [Machine.target?, hloaded.labels] at target
    rw [← calls] at hchain
    exact .running ⟨part?, hchain, hsited.jump hop _ target⟩
  | @calls b hop target calls =>
    obtain ⟨callee, hcallee, rfl, hfirst⟩ := hsited.call hop
    have hstart := Module.target?_function hid (List.getElem?_eq_getElem hcallee)
    rw [Machine.target?, hloaded.labels] at target
    have hpc : b.pc = m.start callee := Option.some.inj (target.symm.trans hstart)
    refine .running ⟨some callee, ?_, hpc ▸ Module.covers_start hcallee⟩
    rw [calls]
    exact .call hchain hcovers (hsited.next (by simp [ofLabel])) hfirst hcallee
      (by rw [List.getElem?_toArray]; exact hi) hstart
  | @returns b hop calls =>
    rw [calls] at hchain
    refine .running ?_
    generalize b.pc = r at hchain ⊢
    cases hchain with
    | call outer _ back => exact ⟨_, outer, back⟩
  | halts hop pc calls =>
    refine .stopped pc calls fun failure hfailure => ?_
    cases hfailure
  | fails hf target pc calls =>
    refine .stopped pc calls fun failure hfailure => ?_
    cases hfailure
    rfl

/-- A turn keeps to the chain of calls. -/
theorem Follows.turn (h : m.assemble = .ok p) (hv : m.Valid) (hloaded : m.Loaded a)
    (ha : Follows p m a.calls a.pc) : Keeps p m a (a.turn p.code) := by
  obtain ⟨part?, hchain, hcovers⟩ := ha
  obtain ⟨i, hi, hsited⟩ := Module.sited hv (Module.assemble_eq_ok h).2 hcovers
  have hcode : p.code[a.pc]? = some i := by
    rw [(Module.assemble_eq_ok h).1, List.getElem?_toArray]
    exact hi
  rcases Machine.goes_turn hcode with hgoes | ⟨limit, hspent⟩
  · exact Follows.goes h hloaded hchain hcovers hi hsited hgoes
  · rw [hspent]
    refine .stopped rfl rfl fun failure hfailure => ?_
    cases hfailure
    rfl

/-- Every machine that a run gets to follows the chain of calls. -/
theorem follows_of_after? (h : m.assemble = .ok p) (hv : m.Valid) {vm : Machine} {output : Sink}
    {n : Nat} (ha : (vm.load p output).after? p.code n = some a) :
    m.Loaded a ∧ Follows p m a.calls a.pc := by
  have hloaded : m.Loaded (vm.load p output) := by
    obtain ⟨rfl, -⟩ := Module.assemble_eq_ok h
    exact ⟨rfl, rfl⟩
  refine Machine.after?_induction (P := fun a => m.Loaded a ∧ Follows p m a.calls a.pc)
    ⟨hloaded, follows_load h vm output⟩ (fun b c hb ht => ⟨hb.1.turn ht, ?_⟩) ha
  have hkeeps := Follows.turn h hv hb.1 hb.2
  rw [ht] at hkeeps
  cases hkeeps with
  | running hc => exact hc

end StackLang.Core
