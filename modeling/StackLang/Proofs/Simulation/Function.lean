import StackLang.Proofs.Simulation.Statement

/-!
# The code of functions

What a function's code does around its body: it saves the frame pointer, makes a frame whose slots are
all 0, and at its end moves the result to `r0` and takes the frame down again.

Results:
* `Function.simulates`: the code of a function.
* `Module.callsAgree`: every function of a program does what its code does.
-/
namespace StackLang

open Semantics Instruction

namespace Core

section

variable {m : Module} {n : Nat} {result : EStateM.Result Stop World Int64}

/-- Words of 0 are put on the stack. -/
theorem agrees_zeros (count : Nat) {pc : Nat} {a : Machine} (ha : m.Ready a) (hpc : a.pc = pc)
    (hcode : Holds m.emit pc (.replicate count ⟨.loadImmediate, 0⟩))
    (h : ∀ b, m.Ready b → b.view = ⟨pc + count, a.registers.fp, .replicate count 0 ++ a.stack,
      a.calls⟩ → b.world = a.world → Agrees m.emit.toArray n b result) :
    Agrees m.emit.toArray n a result := by
  induction count generalizing pc a with
  | zero => exact h a ha (by rw [Machine.view, hpc]; rfl) rfl
  | succ count ih =>
    have hturn := ha.turn_eq (hpc.symm ▸ hcode.head)
    rw [Machine.perform_loadImmediate] at hturn
    refine .step hturn
      (ih (ha.turn hturn) (congrArg (· + 1) hpc) hcode.tail fun b hb hview hworld => ?_)
    refine h b hb ?_ hworld
    rw [hview, List.replicate_succ', List.append_assoc]
    simp only [Machine.advance_registers, Machine.advance_stack, Machine.advance_calls,
      List.singleton_append]
    congr 1
    omega

/-- Words are dropped from the stack. -/
theorem agrees_pops (words : List Int64) {rest : List Int64} {pc : Nat} {a : Machine} (ha : m.Ready a)
    (hpc : a.pc = pc) (hstack : a.stack = words ++ rest)
    (hcode : Holds m.emit pc (.replicate words.length (bare .pop)))
    (h : ∀ b, m.Ready b → b.view = ⟨pc + words.length, a.registers.fp, rest, a.calls⟩ →
      b.registers.r0 = a.registers.r0 → b.world = a.world → Agrees m.emit.toArray n b result) :
    Agrees m.emit.toArray n a result := by
  induction words generalizing pc a with
  | nil => exact h a ha (by rw [Machine.view, hpc, hstack]; rfl) rfl rfl
  | cons word words ih =>
    have hturn := ha.turn_eq (hpc.symm ▸ hcode.head)
    rw [Machine.perform_pop a hstack] at hturn
    refine .step hturn (ih (ha.turn hturn) (congrArg (· + 1) hpc) rfl hcode.tail
      fun b hb hview hr0 hworld => ?_)
    refine h b hb ?_ hr0 hworld
    rw [hview, List.length_cons]
    simp only [Machine.advance_registers, Machine.advance_calls]
    congr 1
    omega

/-- A function's frame, on top of the stack of its caller. -/
def Function.frame (f : Function) (fp : Int64) (stack : List Int64) (calls : List Nat) : Frame :=
  ⟨f.locals, fp :: stack, calls⟩

/-- The start of a function leads to a frame whose slots are all 0. -/
theorem Function.agrees_prologue {f : Function} {index pc : Nat} {a : Machine} (ha : m.Ready a)
    (hpc : a.pc = pc) (hcode : Holds m.emit pc (f.prologue index)) {k : Eval Int64}
    (hk : ∀ b, (f.frame a.registers.fp a.stack a.calls).At m (pc + (f.prologue index).length) []
      (fun _ => 0) b → Agrees m.emit.toArray (n - 1) b (k b.world)) :
    Agrees m.emit.toArray n a (k a.world) := by
  have hmark := ha.turn_eq (hpc.symm ▸ hcode.head)
  rw [ofLabel, Machine.perform_mark] at hmark
  refine .step_pred hmark ?_
  have hb := ha.turn hmark
  have hsave := hb.turn_eq (i := ofRegister .load .fp) (by
    rw [Machine.advance_pc, hpc]; exact hcode.left.tail.head)
  rw [Machine.perform_load] at hsave
  refine .step hsave ?_
  have hnext : a.pc + 1 + 1 = pc + 2 := congrArg (· + 2) hpc
  refine agrees_zeros f.locals (hb.turn hsave) hnext hcode.left.tail.tail fun c hc hview hworld => ?_
  obtain ⟨hcpc, hcfp, hcstack, hccalls⟩ := View.mk.inj hview
  have hsetAt := hcode.right.head
  rw [List.length_append, List.length_replicate, ← Nat.add_assoc] at hsetAt
  have hset := hc.turn_eq (i := bare .setFrame) (by rw [hcpc]; exact hsetAt)
  rw [Machine.perform_setFrame] at hset
  refine .step hset ?_
  have hlen : c.stack.length = f.locals + (a.stack.length + 1) := by
    rw [hcstack, List.length_append, List.length_replicate]; rfl
  have hd := hk _ ⟨hc.turn hset, ?_, congrArg sizeWord hlen, ?_, hccalls⟩
  · rw [show a.world = c.world from hworld.symm]; exact hd
  · rw [Machine.advance_pc, hcpc, prologue]
    simp only [List.length_append, List.length_cons, List.length_nil, List.length_replicate]
    omega
  · rw [Machine.advance_stack, hcstack]
    simp only [frame, List.map_const', List.length_range]
    rfl

/-- The end of a function returns the word on top of its frame. -/
theorem Function.agrees_epilogue {f : Function} {done pc back : Nat} {fp v : Int64}
    {stack : List Int64} {rest : List Nat} {slots : Slots} {a : Machine}
    (ha : (f.frame fp stack (back :: rest)).At m pc [v] slots a)
    (hcode : Holds m.emit pc (f.epilogue done)) {k : Int64 → Eval Int64}
    (hk : ∀ v b, m.Ready b → b.view = ⟨back, fp, v :: stack, rest⟩ →
      Agrees m.emit.toArray n b (k v b.world)) :
    Agrees m.emit.toArray n a (k v a.world) := by
  refine ha.mark (k := k v) hcode.head fun b hb => Agrees.mono (n := n) ?_ (Nat.sub_le n 1)
  have hstore := hb.turn hcode.tail.head
  rw [Machine.perform_store b hb.stack] at hstore
  refine .step hstore ?_
  have hc := hb.ready.turn hstore
  have hslots : ((List.range f.locals).map slots).length = f.locals := by simp
  refine agrees_pops ((List.range f.locals).map slots) hc (congrArg (· + 1) hb.pc) rfl
    (by rw [hslots]; exact hcode.left.tail.tail)
    fun d hd hview hr0 hworld => ?_
  obtain ⟨hdpc, hdfp, hdstack, hdcalls⟩ := View.mk.inj hview
  rw [hslots] at hdpc
  have hleaveAt := hcode.right.head
  have hretAt := hcode.right.tail.head
  rw [List.length_append, List.length_replicate, ← Nat.add_assoc] at hleaveAt hretAt
  obtain ⟨e, hleave, heview, her0, heworld⟩ : ∃ e, d.turn m.emit.toArray = .running e ∧
      e.view = ⟨d.pc + 1, fp, stack, d.calls⟩ ∧ e.registers.r0 = d.registers.r0 ∧
      e.world = d.world := by
    have ht := hd.turn_eq (by rw [hdpc]; exact hleaveAt)
    rw [Machine.perform_store d hdstack] at ht
    exact ⟨_, ht, rfl, rfl, rfl⟩
  obtain ⟨hepc, hefp, hestack, hecalls⟩ := View.mk.inj heview
  have he := hd.turn hleave
  obtain ⟨r, hret, hrview, hrworld⟩ : ∃ r, e.turn m.emit.toArray = .running r ∧
      r.view = ⟨back, e.registers.fp, e.registers.r0 :: e.stack, rest⟩ ∧ r.world = e.world := by
    have ht := he.turn_eq (by rw [hepc, hdpc]; exact hretAt)
    rw [Machine.perform_ret e (hecalls.trans (hdcalls.trans hb.calls))] at ht
    exact ⟨_, ht, rfl, rfl⟩
  have hv : e.registers.r0 = v := by rw [her0, hr0]; rfl
  have hw : r.world = b.world := hrworld.trans (heworld.trans hworld)
  refine .step hleave (.step hret ?_)
  rw [← hw]
  exact hk v r (he.turn hret) (by rw [hrview, hefp, hv, hestack])

/-! ## Whole functions -/

/-- The code of a function. -/
theorem Function.simulates (hv : m.Valid) (hid : m.entry.id < 0x100000000)
    (hstatics : m.strings.bytes.length < 0x8000000000000000) {bound index : Nat} {f : Function}
    (hf : m.functions[index]? = some f) (hcalls : CallsAgree m bound (m.calls bound))
    (hn : n ≤ bound + 1) {a : Machine} {back : Nat} {rest : List Nat} {k : Int64 → Eval Int64}
    (ha : m.Ready a) (hpc : a.pc = m.start index) (hback : a.calls = back :: rest)
    (hk : ∀ v b, m.Ready b → b.view = ⟨back, a.registers.fp, v :: a.stack, rest⟩ →
      Agrees m.emit.toArray n b (k v b.world)) :
    Agrees m.emit.toArray n a ((f.run (m.calls bound) bound >>= k) a.world) := by
  have hmem := List.mem_of_getElem? hf
  have hlabels := Module.firstLabel_add_labels_le_entry hf
  simp only [labels] at hlabels
  have hcode := Module.holds_function hf
  have hbody := hcode.left.left.right
  have hzero := hcode.left.right.head
  have hend := hcode.right
  rw [List.length_append, ← Nat.add_assoc] at hzero
  simp only [List.length_append, ← Nat.add_assoc, List.length_singleton] at hend
  have hdone : (Label.mk (m.firstLabel index)).id < 0x100000000 := by simp only; omega
  have back (c : Machine) (v : Int64) (slots : Slots)
      (hc : (f.frame a.registers.fp a.stack (back :: rest)).At m _ [v] slots c) :
      Agrees m.emit.toArray (n - 1) c (k v c.world) :=
    agrees_epilogue hc hend fun v b hb hview => (hk v b hb hview).mono (Nat.sub_le n 1)
  rw [run, bind_assoc]
  refine agrees_prologue ha hpc hcode.left.left.left fun b hb => ?_
  rw [hback] at hb
  refine Stmt.simulatesAll hid hstatics hcalls hdone hend.head f.body (hv.functions f hmem)
    (fun text h => List.mem_flatMap.2 ⟨f, hmem, h⟩) _ (by omega) (by omega) hbody b _ hb ?_ ?_
  · intro slots c hc
    have hturn := hc.turn hzero
    rw [Machine.perform_loadImmediate] at hturn
    exact .step hturn (back _ 0 slots (hc.go hturn (congrArg (· + 1) hc.pc)
      (congrArg (List.cons 0) hc.stack) rfl rfl))
  · exact fun v slots c hc => back c v slots hc

/-- Every function of a program does what its code does. -/
theorem Module.callsAgree (hv : m.Valid) (hid : m.entry.id < 0x100000000)
    (hstatics : m.strings.bytes.length < 0x8000000000000000) (bound : Nat) :
    CallsAgree m bound (m.calls bound) := by
  induction bound with
  | zero =>
    intro n hn index f hf a back rest k ha hpc hback hk
    obtain rfl : n = 0 := Nat.le_zero.1 hn
    exact .unfinished rfl
  | succ bound ih =>
    intro n hn index f hf a back rest k ha hpc hback hk
    rw [calls, hf]
    exact Function.simulates hv hid hstatics hf ih hn ha hpc hback hk

end

end Core
end StackLang
