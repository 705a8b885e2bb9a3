import StackLang.Proofs.Simulation.Agreement

/-!
# The code of expressions

What an expression's code does, whatever comes after it: if the machines behind the code, with the
value on the stack, agree with what a computation does with the value, then the machine before the
code agrees with the computation that first evaluates the expression.

Results:
* `CallsAgree.call`: a call, given what the functions do.
* `Expr.simulates`: the code of an expression.
* `Expr.branches`: the code of a condition and the jump behind it.
-/
namespace StackLang

open Semantics Instruction

namespace Core

/-- Functions that do what their code does: wherever a function is called, the machine agrees if it
agrees after the call, with the value on the stack and all else as it was. -/
def CallsAgree (m : Module) (bound : Nat) (calls : Calls) : Prop :=
  ∀ n ≤ bound, ∀ index f, m.functions[index]? = some f →
    ∀ (a : Machine) (back : Nat) (rest : List Nat) (k : Int64 → Eval Int64), m.Ready a →
    a.pc = m.start index → a.calls = back :: rest →
    (∀ v b, m.Ready b → b.view = ⟨back, a.registers.fp, v :: a.stack, rest⟩ →
      Agrees m.emit.toArray n b (k v b.world)) →
    Agrees m.emit.toArray n a ((calls index >>= k) a.world)

section

variable {m : Module} {n : Nat} {calls : Calls} {frame : Frame} {slots : Slots}

/-- A call puts the value of the function on the stack. -/
theorem CallsAgree.call (hcalls : CallsAgree m n calls) (hid : m.entry.id < 0x100000000)
    {callee pc : Nat} (hg : callee < m.functions.length) {above : List Int64} {a : Machine}
    {k : Int64 → Eval Int64} (ha : frame.At m pc above slots a)
    (hi : m.emit[pc]? = some (ofLabel .call ⟨callee⟩))
    (hk : ∀ v b, frame.At m (pc + 1) (v :: above) slots b →
      Agrees m.emit.toArray n b (k v b.world)) :
    Agrees m.emit.toArray n a ((calls callee >>= k) a.world) := by
  have hturn := ha.turn hi
  rw [ha.ready.perform_call hid hg] at hturn
  refine .step hturn (hcalls n (Nat.le_refl n) callee _ (List.getElem?_eq_getElem hg) _ _ _ k
    (ha.ready.turn hturn) rfl rfl fun v b hb hview => ?_)
  obtain ⟨hpc, hfp, hstack, hbcalls⟩ := View.mk.inj hview
  refine hk v b ⟨hb, ?_, hfp.trans ha.fp, ?_, hbcalls.trans ha.calls⟩
  · rw [hpc, ha.pc]
  · rw [hstack]; exact congrArg _ ha.stack

/-- The code of an expression. -/
theorem Expr.simulates (hid : m.entry.id < 0x100000000)
    (hstatics : m.strings.bytes.length < 0x8000000000000000) (hcalls : CallsAgree m n calls) :
    ∀ (e : Expr), e.Valid frame.locals m.functions.length → (∀ text ∈ e.texts, text ∈ m.texts) →
    ∀ {pc : Nat} {above : List Int64} {a : Machine} {k : Int64 → Eval Int64},
    Holds m.emit pc (e.emit m.strings.offset) → frame.At m pc above slots a →
    (∀ v b, frame.At m (pc + (e.emit m.strings.offset).length) (v :: above) slots b →
      Agrees m.emit.toArray n b (k v b.world)) →
    Agrees m.emit.toArray n a ((e.value calls slots >>= k) a.world) := by
  intro e hv ht pc above a k hcode ha hk
  induction e generalizing pc above a k with
  | literal value =>
    exact ha.push (by rw [ha.turn hcode.head, Machine.perform_loadImmediate]) hk
  | text value => exact ha.newString (ht value (List.mem_singleton_self value)) hstatics hcode.head hk
  | slot slot => exact ha.loadSlot hv hcode.head hk
  | getByte => exact ha.getByte hcode.head hk
  | call callee => exact hcalls.call hid hv ha hcode.head hk
  | not operand ih =>
    rw [value, bind_assoc]
    refine ih hv ht hcode.left ha fun v b hb => hb.not hcode.right.head fun w c hc => hk w c ?_
    rwa [emit, List.length_append, ← Nat.add_assoc]
  | arithmetic op left right ihl ihr =>
    rw [value, bind_assoc]
    refine ihr hv.2 (fun text h => ht text (List.mem_append_left _ h)) hcode.left.left ha
      fun r b hb => ?_
    rw [bind_assoc]
    refine ihl hv.1 (fun text h => ht text (List.mem_append_right _ h)) hcode.left.right hb
      fun l c hc => ?_
    rw [Nat.add_assoc, ← List.length_append] at hc
    refine hc.arithmetic hcode.right.head fun v d hd => hk v d ?_
    rwa [emit, List.length_append, ← Nat.add_assoc]
  | comparison op left right ihl ihr =>
    rw [value, bind_assoc]
    refine ihl hv.1 (fun text h => ht text (List.mem_append_left _ h)) hcode.left.left ha
      fun l b hb => ?_
    rw [bind_assoc]
    refine ihr hv.2 (fun text h => ht text (List.mem_append_right _ h)) hcode.left.right hb
      fun r c hc => ?_
    rw [Nat.add_assoc, ← List.length_append] at hc
    refine hc.comparison hcode.right.head fun v d hd => hk v d ?_
    rwa [emit, List.length_append, ← Nat.add_assoc]

/-- The code of a condition, and the jump behind it: to where a label is marked if the condition is
0, else past the jump. -/
theorem Expr.branches (hid : m.entry.id < 0x100000000)
    (hstatics : m.strings.bytes.length < 0x8000000000000000) (hcalls : CallsAgree m n calls)
    {e : Expr} (hv : e.Valid frame.locals m.functions.length) (ht : ∀ text ∈ e.texts, text ∈ m.texts)
    {pc address : Nat} {l : Label} {a : Machine} {k : Int64 → Eval Int64}
    (hl : l.id < 0x100000000)
    (hcode : Holds m.emit pc (e.emit m.strings.offset ++ [ofLabel .jumpIfZero l]))
    (hmark : m.emit[address]? = some (ofLabel .mark l)) (ha : frame.At m pc [] slots a)
    (hzero : ∀ b, frame.At m address [] slots b → Agrees m.emit.toArray n b (k 0 b.world))
    (hother : ∀ v ≠ 0, ∀ b, frame.At m (pc + (e.emit m.strings.offset).length + 1) [] slots b →
      Agrees m.emit.toArray n b (k v b.world)) :
    Agrees m.emit.toArray n a ((e.value calls slots >>= k) a.world) := by
  refine Expr.simulates hid hstatics hcalls e hv ht hcode.left ha fun v b hb => ?_
  exact hb.jumpIfZero hid hl hcode.right.head hmark hzero (hother v)

end

end Core
end StackLang
