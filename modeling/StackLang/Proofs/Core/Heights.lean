import StackLang.Proofs.Core.Activation

/-!
# The height that an address stands for

The place of an address in its function says how many words of the stack belong to the call that is
executed there. So the address alone says it, for every function and for the entry: `heightAt` finds the
function that an address lies in and the place there.

Results:
* `Stmt.above_emitAll`: the code of statements leaves the frame in place.
* `Module.partAt?_function`, `Module.partAt?_entry`: each address lies in one part of a program.
* `Within.length_stack`, `Module.AtEntry.length_stack`: an address stands for the height above the caller.
* `Active.length_stack_le`: how high a chain of calls can be.
* `Within.fp_of_inBody`: the frame pointer in the body of a function.
-/
namespace StackLang.Core

open Instruction

/-! ## Code above the slots -/

/-- Code that leaves the frame and its slots in place: each instruction finds words above the slots and
leaves some there. -/
def Above (locals : Nat) : Nat → List Instruction → Nat → Prop
  | k, [], k' => k = k'
  | k, i :: code, k' =>
    ∃ l, (Place.inside locals k).after locals i = .inside locals l ∧ Above locals l code k'

namespace Above

variable {locals k k' k'' : Nat}

theorem single {i : Instruction} (h : (Place.inside locals k).after locals i = .inside locals k') :
    Above locals k [i] k' := ⟨k', h, rfl⟩

theorem append {x y : List Instruction} (hx : Above locals k x k') (hy : Above locals k' y k'') :
    Above locals k (x ++ y) k'' := by
  induction x generalizing k with
  | nil => cases hx; exact hy
  | cons i x ih =>
    obtain ⟨l, hl, hx⟩ := hx
    exact ⟨l, hl, ih hx⟩

/-- Wherever such code has got to, its frame is still there. -/
theorem exists_foldl {code : List Instruction} (h : Above locals k code k') (j : Nat) :
    ∃ l, (code.take j).foldl (Place.after locals) (.inside locals k) = .inside locals l := by
  induction code generalizing k j with
  | nil => exact ⟨k, by rw [List.take_nil]; rfl⟩
  | cons i code ih =>
    obtain ⟨l, hl, hcode⟩ := h
    cases j with
    | zero => exact ⟨k, rfl⟩
    | succ j =>
      rw [List.take_succ_cons, List.foldl_cons, hl]
      exact ih hcode j

end Above

/-- The code of an expression adds one word. -/
theorem Expr.above_emit (locals : Nat) (offset : String → Nat) (e : Expr) (k : Nat) :
    Above locals k (e.emit offset) (k + 1) := by
  induction e generalizing k with
  | literal | text | slot | call | getByte => exact .single rfl
  | not operand ih => exact (ih k).append (.single rfl)
  | arithmetic op left right ihl ihr =>
    exact ((ihr k).append (ihl (k + 1))).append (.single (by cases op <;> rfl))
  | comparison op left right ihl ihr =>
    exact ((ihl k).append (ihr (k + 1))).append (.single (by cases op <;> rfl))

namespace Stmt

mutual

/-- The code of a statement leaves nothing above the slots, wherever it jumps to. -/
theorem above_emit (locals : Nat) (offset : String → Nat) (done next : Nat) : ∀ (s : Stmt),
    Above locals 0 (emit offset done next s) 0
  | .store _ value | .discard value | .putInt value | .putString value | .giveBack value =>
    (value.above_emit locals offset 0).append (.single rfl)
  | .loop condition body =>
    have hcondition : Above locals 0 (ofLabel .mark ⟨next⟩ :: condition.emit offset) 1 :=
      ⟨0, rfl, condition.above_emit locals offset 0⟩
    have hbody := above_emitAll locals offset done (next + 2) body
    have back : Above locals 0 [ofLabel .jump ⟨next⟩, ofLabel .mark ⟨next + 1⟩] 0 :=
      ⟨0, rfl, 0, rfl, rfl⟩
    ((hcondition.append (.single rfl)).append hbody).append back
  | .ifThen condition body =>
    have hcondition := condition.above_emit locals offset 0
    have hbody := above_emitAll locals offset done (next + 1) body
    ((hcondition.append (.single rfl)).append hbody).append (.single rfl)
  | .ifElse condition body other =>
    have hcondition := condition.above_emit locals offset 0
    have hbody := above_emitAll locals offset done (next + 1) body
    have hother := above_emitAll locals offset done (next + 1 + labelsOfAll body + 1) other
    have between : Above locals 0
        [ofLabel .jump ⟨next + 1 + labelsOfAll body⟩, ofLabel .mark ⟨next⟩] 0 := ⟨0, rfl, 0, rfl, rfl⟩
    ((((hcondition.append (.single rfl)).append hbody).append between).append hother).append
      (.single rfl)

/-- The code of statements leaves nothing above the slots. -/
theorem above_emitAll (locals : Nat) (offset : String → Nat) (done next : Nat) :
    ∀ (ss : List Stmt), Above locals 0 (emitAll offset done next ss) 0
  | [] => rfl
  | s :: ss => (above_emit locals offset done next s).append
    (above_emitAll locals offset done (next + labels s) ss)

end

end Stmt

/-- What code leaves is where it fits to. -/
theorem Flow.foldl_eq {m : Module} {index : Nat} {f : Function} {s t : Place} {code : List Instruction}
    (h : Flow m index f s code t) : code.foldl (Place.after f.locals) s = t := by
  induction code generalizing s with
  | nil => exact h
  | cons i code ih => exact ih h.2

namespace Module

variable {m : Module} {index j : Nat} {f : Function}

/-! ## Addresses and their places -/

/-- The function that an address lies in; none for the entry. -/
def partAt? (m : Module) (a : Nat) : Option Nat :=
  (List.range m.functions.length).find? fun index => a < m.start (index + 1)

/-- How many words of the stack belong to the call that is executed at an address. In the entry it is one
after the main function has returned, and none otherwise. -/
def heightAt (m : Module) (a : Nat) : Nat :=
  match m.partAt? a with
  | some index =>
    m.functions[index]?.elim 0 fun f => (m.placeAt index f (a - m.start index)).height
  | none => if a = m.entryStart + 2 then 1 else 0

theorem partAt?_function (h : m.functions[index]? = some f)
    (hj : j < (m.functionCode index f).length) : m.partAt? (m.start index + j) = some index := by
  rw [partAt?, List.find?_range_eq_some]
  have hstart := start_succ h
  refine ⟨by simp; omega, List.mem_range.2 (lt_of_getElem? h), fun i hi => ?_⟩
  have : m.start (i + 1) ≤ m.start index := start_le_start hi (Nat.le_of_lt (lt_of_getElem? h))
  simp
  omega

theorem partAt?_entry (m : Module) (j : Nat) : m.partAt? (m.entryStart + j) = none := by
  rw [partAt?, List.find?_range_eq_none]
  intro i hi
  have : m.start (i + 1) ≤ m.entryStart := start_le_start hi (Nat.le_refl _)
  simp
  omega

theorem heightAt_function (h : m.functions[index]? = some f)
    (hj : j < (m.functionCode index f).length) :
    m.heightAt (m.start index + j) = (m.placeAt index f j).height := by
  rw [heightAt, partAt?_function h hj]
  simp only [h, Option.elim_some, Nat.add_sub_cancel_left]

/-- In the entry, an address stands for the whole height of the stack. -/
theorem AtEntry.length_stack {v : View} (h : m.AtEntry v) : v.stack.length = m.heightAt v.pc := by
  rw [heightAt]
  cases h with
  | mark => rw [show m.partAt? m.entryStart = none from m.partAt?_entry 0]; simp
  | call => rw [show m.partAt? m.entryView.pc = none from m.partAt?_entry 1]; simp [entryView]
  | store result =>
    rw [show m.partAt? (m.entryView.returned result).pc = none from m.partAt?_entry 2]
    simp [entryView, View.returned]
  | halt => rw [show m.partAt? (m.entryStart + 3) = none from m.partAt?_entry 3]; simp

/-- The entry is executed without calls, and lies at the end of the program. -/
theorem AtEntry.calls_eq_nil {v : View} (h : m.AtEntry v) : v.calls = [] ∧ v.pc < m.emit.length := by
  rw [length_emit]
  cases h <;> simp [entryView, View.returned]

/-! ## Bodies -/

/-- The address lies in the body of a function, between the code that sets up its frame and the code that
takes it down. -/
def InBody (m : Module) (index a : Nat) : Prop :=
  ∃ f, m.functions[index]? = some f ∧ m.start index + (f.prologue index).length ≤ a ∧
    a + (f.epilogue (m.firstLabel index)).length ≤ m.start index + (m.functionCode index f).length

/-- In a body the frame is set up. -/
theorem exists_placeAt_eq_inside (hlow : (f.prologue index).length ≤ j)
    (hhigh : j + (f.epilogue (m.firstLabel index)).length ≤ (m.functionCode index f).length) :
    ∃ k, m.placeAt index f j = .inside f.locals k := by
  have hprologue : Flow m index f .outside (f.prologue index) (.inside f.locals 0) :=
    Function.flow_prologue
  have hbody : Above f.locals 0 (Stmt.emitAll m.strings.offset (m.firstLabel index)
      (m.firstLabel index + 1) f.body ++ [⟨.loadImmediate, 0⟩]) 1 :=
    (Stmt.above_emitAll _ _ _ _ f.body).append (.single rfl)
  obtain ⟨k, rfl⟩ := Nat.exists_eq_add_of_le hlow
  simp only [functionCode, Function.emit, List.append_assoc, List.length_append] at hhigh
  obtain ⟨l, hl⟩ := hbody.exists_foldl k
  refine ⟨l, ?_⟩
  rw [placeAt, functionCode, Function.emit, List.append_assoc, List.append_assoc,
    List.take_length_add_append, List.foldl_append, hprologue.foldl_eq, ← List.append_assoc,
    List.take_append_of_le_length (by simp only [List.length_append]; omega), hl]

end Module

/-! ## Calls -/

section

variable {m : Module} {caller v : View} {index j : Nat} {f : Function} {own : List Int64}

/-- In a function, an address stands for the height of the stack above that of the caller. -/
theorem Within.length_stack (h : Within m caller index f j own v) :
    v.stack.length = caller.stack.length + m.heightAt v.pc := by
  rw [h.stack, List.length_append, h.height, h.pc, Module.heightAt_function h.function h.bound,
    Nat.add_comm]

theorem Within.pc_lt (h : Within m caller index f j own v) : v.pc < m.emit.length := by
  have hend := Module.start_add_length_le h.function (Module.lt_of_getElem? h.function)
    (Nat.le_refl _)
  have hbound := h.bound
  rw [h.pc, Module.length_emit, Module.entryStart]
  omega

/-- In the body of a function, the frame pointer is that of the call. -/
theorem Within.fp_of_inBody (h : Within m caller index f j own v) {index' : Nat}
    (hbody : m.InBody index' v.pc) :
    index' = index ∧ v.fp = sizeWord (caller.stack.length + (1 + f.locals)) ∧
      caller.stack.length + (1 + f.locals) ≤ v.stack.length := by
  obtain ⟨g, hg, hlow, hhigh⟩ := hbody
  obtain ⟨k, hk⟩ := Nat.exists_eq_add_of_le (Nat.le_of_add_right_le hlow)
  have hepilogue : 0 < (g.epilogue (m.firstLabel index')).length := by simp [Function.epilogue]
  rw [hk] at hlow hhigh
  -- an address lies in one function only
  have hpart := Module.partAt?_function hg (show k < _ by omega)
  rw [← hk, h.pc, Module.partAt?_function h.function h.bound] at hpart
  obtain rfl := Option.some.inj hpart
  obtain rfl := Option.some.inj (hg.symm.trans h.function)
  obtain rfl : j = k := Nat.add_left_cancel (h.pc.symm.trans hk)
  obtain ⟨l, hplace⟩ : ∃ l, m.placeAt index g j = .inside g.locals l :=
    Module.exists_placeAt_eq_inside (by omega) (by omega)
  have hheight : own.length = 1 + g.locals + l := by rw [h.height, hplace]; rfl
  refine ⟨rfl, by rw [h.fp, hplace]; rfl, ?_⟩
  rw [h.stack, List.length_append, hheight]
  omega

/-- A chain of calls is no higher than each of them, and what it starts from, can be by itself. -/
theorem Active.length_stack_le {depth : Nat} (h : Active m (· = m.entryView) depth v) {most : Nat}
    (hmost : ∀ a < m.emit.length, m.heightAt a ≤ most) :
    v.stack.length ≤ (depth + 1) * most ∧ v.calls.length = depth := by
  induction h with
  | base hbase => rw [hbase]; exact ⟨Nat.zero_le _, rfl⟩
  | @call depth _ _ caller v _ _ outer hcall within ih =>
    obtain ⟨hstack, hcalls⟩ := ih
    refine ⟨?_, by rw [within.calls, List.length_cons, hcalls]⟩
    have := hmost v.pc within.pc_lt
    rw [within.length_stack, Nat.succ_mul (depth + 1)]
    omega

end

end StackLang.Core
