import StackLang.Proofs.Core.Places
import StackLang.Proofs.Run.Instructions
import StackLang.Proofs.Run.Steps

/-!
# Calls and their parts of the stack

A `View` is what calls and returns depend on. A call is `Within` a function when the stack is the
words of its own on top of its caller's, with the caller's frame pointer saved below them, as far as
the place of its address says. One turn stays within the function, or starts a call of another
function on top of it, or returns to the caller; or it ends the run with an expected fault.

Results:
* `Within.turn`: what one turn of a call does.
-/
namespace StackLang

open Instruction

/-- The faults that can end the run of a program that is put together well. -/
def Fault.Expected : Fault → Prop
  | divisionByZero | heapOutOfBounds _ | stepLimit _ | output _ => True
  | stackUnderflow | callStackUnderflow | staticOutOfBounds _ | invalidRegister _ | invalidSlot _
  | unresolvedLabel _ | trap => False

/-- The next address, the frame pointer and both stacks of a machine. -/
structure View where
  pc : Nat
  fp : Int64
  stack : List Int64
  calls : List Nat
  deriving DecidableEq, Repr

/-- The next address, the frame pointer and both stacks of a machine. -/
def Machine.view (a : Machine) : View := ⟨a.pc, a.registers.fp, a.stack, a.calls⟩

/-- The view after the call at which it stands has returned a value. -/
def View.returned (v : View) (result : Int64) : View :=
  ⟨v.pc + 1, v.fp, result :: v.stack, v.calls⟩

/-- The registers that a turn of emitted code keeps, and how much higher it can make the stack. -/
structure Machine.Kept (a b : Machine) : Prop where
  r1 : b.registers.r1 = a.registers.r1
  r2 : b.registers.r2 = a.registers.r2
  r3 : b.registers.r3 = a.registers.r3
  height : b.stack.length ≤ a.stack.length + 1

theorem Machine.Kept.advance (a : Machine) (pc : Nat) {stack : List Int64}
    (h : stack.length ≤ a.stack.length + 1) : a.Kept (a.advance pc stack) :=
  ⟨rfl, rfl, rfl, h⟩

namespace Core

/-- A machine with the labels and the static data of a program. -/
structure Module.Loaded (m : Module) (a : Machine) : Prop where
  labels : a.labels = link m.emit
  statics : a.statics = m.strings.bytes

theorem Module.Loaded.turn {m : Module} {a b : Machine} (h : m.Loaded a)
    {code : Array Instruction} (ht : a.turn code = .running b) : m.Loaded b := by
  obtain ⟨i, -, -, hp⟩ := Machine.perform_of_turn ht
  have := congrArg (·.2.2) (Machine.fixed_of_perform hp)
  exact ⟨(congrArg (·.1) this).trans h.labels, (congrArg (·.2.1) this).trans h.statics⟩

/-- A call of a function leads to its start. -/
theorem Module.Loaded.perform_call {m : Module} {a : Machine} (h : m.Loaded a)
    (hid : m.entry.id < 0x100000000) {callee : Nat} (hcallee : callee < m.functions.length) :
    a.perform (ofLabel .call ⟨callee⟩) =
      .running ({ a with calls := (a.pc + 1) :: a.calls }.advance (m.start callee) a.stack) := by
  have htarget : a.target? (Label.mk callee).operand = some (m.start callee) := by
    rw [Machine.target?, h.labels]
    exact Module.target?_function hid (List.getElem?_eq_getElem hcallee)
  rw [ofLabel, Machine.perform_call a htarget]

/-- Words of a call with the caller's frame pointer below all others, unless there are none yet. -/
def Saved (fp : Int64) (own : List Int64) : Prop := own = [] ∨ ∃ above, own = above ++ [fp]

namespace Saved

variable {fp x : Int64} {own : List Int64}

theorem tail (h : Saved fp (x :: own)) : Saved fp own := by
  rcases h with h | ⟨above, h⟩
  · cases h
  · cases above with
    | nil => exact .inl (List.cons.inj h).2
    | cons y above => exact .inr ⟨above, (List.cons.inj h).2⟩

theorem cons (h : Saved fp own) (hne : 0 < own.length) (x : Int64) : Saved fp (x :: own) := by
  rcases h with rfl | ⟨above, rfl⟩
  · cases hne
  · exact .inr ⟨x :: above, rfl⟩

/-- A word above the lowest one may change. -/
theorem set (h : Saved fp own) {n : Nat} (hn : n + 1 < own.length) (x : Int64) :
    Saved fp (own.set n x) := by
  rcases h with rfl | ⟨above, rfl⟩
  · exact .inl rfl
  · rw [List.length_append, List.length_singleton] at hn
    exact .inr ⟨above.set n x, List.set_append_left n x (by omega)⟩

/-- Of a single word. -/
theorem eq_of_length (h : Saved fp own) (hlen : own.length = 1) : own = [fp] := by
  rcases h with rfl | ⟨above, rfl⟩
  · cases hlen
  · rw [List.length_append, List.length_singleton] at hlen
    obtain rfl : above = [] := List.eq_nil_of_length_eq_zero (by omega)
    rfl

end Saved

/-- A view from within a function, `j` instructions from its start, that was called where `caller`
stands. The words of its own are the upper part of the stack. -/
structure Within (m : Module) (caller : View) (index : Nat) (f : Function) (j : Nat)
    (own : List Int64) (v : View) : Prop where
  function : m.functions[index]? = some f
  bound : j < (m.functionCode index f).length
  height : own.length = (m.placeAt index f j).height
  saved : Saved caller.fp own
  pc : v.pc = m.start index + j
  fp : v.fp = if (m.placeAt index f j).framed then sizeWord (caller.stack.length + (1 + f.locals))
    else caller.fp
  stack : v.stack = own ++ caller.stack
  calls : v.calls = (caller.pc + 1) :: caller.calls

/-- What a turn of a call makes of the machine. -/
inductive Advances (m : Module) (caller : View) (index : Nat) (f : Function) (a : Machine)
    (i : Instruction) : Turn → Prop where
  | stays {b : Machine} {j : Nat} {own : List Int64} (hc : i.opcode ≠ .call) (hr : i.opcode ≠ .ret)
    (kept : a.Kept b) (within : Within m caller index f j own b.view) :
    Advances m caller index f a i (.running b)
  | calls {b : Machine} {callee : Nat} {g : Function} (hi : i = ofLabel .call ⟨callee⟩)
    (kept : a.Kept b) (within : Within m a.view callee g 0 [] b.view) :
    Advances m caller index f a i (.running b)
  | returns {b : Machine} (hi : i = bare .ret) (kept : a.Kept b)
    (view : b.view = caller.returned a.registers.r0) : Advances m caller index f a i (.running b)
  | fails {b : Machine} {failure : Failure} (h : failure.fault.Expected) :
    Advances m caller index f a i (.stopped b (some failure))

namespace Within

variable {m : Module} {caller : View} {index j : Nat} {f : Function} {own : List Int64} {v : View}

/-- The instruction at which a call stands. -/
theorem instruction (h : Within m caller index f j own v) :
    ∃ i, (m.functionCode index f)[j]? = some i ∧ m.emit[v.pc]? = some i := by
  refine ⟨_, List.getElem?_eq_getElem h.bound, ?_⟩
  rw [h.pc, (Module.holds_function h.function).getElem? h.bound, List.getElem?_eq_getElem h.bound]

/-- A function that has just been called. -/
theorem enter (caller : View) (h : m.functions[index]? = some f) :
    Within m caller index f 0 [] ⟨m.start index, caller.fp, caller.stack,
      (caller.pc + 1) :: caller.calls⟩ where
  function := h
  bound := by simp [Module.functionCode, Function.emit, Function.prologue]
  height := rfl
  saved := .inl rfl
  pc := rfl
  fp := rfl
  stack := rfl
  calls := rfl

/-- From an instruction to the next one. -/
theorem move (h : Within m caller index f j own v) {i : Instruction} (own' : List Int64) {v' : View}
    (hi : (m.functionCode index f)[j]? = some i) (hr : i.opcode ≠ .ret)
    (height : own'.length = ((m.placeAt index f j).after f.locals i).height)
    (saved : Saved caller.fp own') (pc : v'.pc = v.pc + 1)
    (fp : v'.fp = if ((m.placeAt index f j).after f.locals i).framed then
      sizeWord (caller.stack.length + (1 + f.locals)) else caller.fp)
    (stack : v'.stack = own' ++ caller.stack) (calls : v'.calls = v.calls) :
    Within m caller index f (j + 1) own' v' where
  function := h.function
  bound := Module.lt_length_of_ne_ret hi fun e => hr (by rw [e]; rfl)
  height := by rw [height, Module.placeAt_succ hi]
  saved := saved
  pc := by rw [pc, h.pc, Nat.add_assoc]
  fp := by rw [fp, Module.placeAt_succ hi]
  stack := stack
  calls := calls.trans h.calls

/-- From an instruction to the next one, where the frame is set up before and after. -/
theorem next (h : Within m caller index f j own v) {i : Instruction} {k : Nat} (k' : Nat)
    {own' : List Int64} {v' : View} (hi : (m.functionCode index f)[j]? = some i)
    (hs : m.placeAt index f j = .inside f.locals k)
    (hs' : (Place.inside f.locals k).after f.locals i = .inside f.locals k')
    (hr : i.opcode ≠ .ret) (height : own'.length = 1 + f.locals + k') (saved : Saved caller.fp own')
    (pc : v'.pc = v.pc + 1) (fp : v'.fp = v.fp) (stack : v'.stack = own' ++ caller.stack)
    (calls : v'.calls = v.calls) : Within m caller index f (j + 1) own' v' := by
  refine h.move own' hi hr ?_ saved pc ?_ stack calls
  · rw [hs, hs']; exact height
  · rw [hs, hs', fp, h.fp, hs]; rfl

/-- From a jump to where it leads. -/
theorem jumped (h : Within m caller index f j own v) {k k' j' : Nat} {own' : List Int64} {v' : View}
    (hs : m.placeAt index f j = .inside f.locals k)
    (hs' : m.placeAt index f j' = .inside f.locals k') (bound : j' < (m.functionCode index f).length)
    (height : own'.length = 1 + f.locals + k') (saved : Saved caller.fp own')
    (pc : v'.pc = m.start index + j') (fp : v'.fp = v.fp) (stack : v'.stack = own' ++ caller.stack)
    (calls : v'.calls = v.calls) : Within m caller index f j' own' v' where
  function := h.function
  bound := bound
  height := by rw [height, hs']; rfl
  saved := saved
  pc := pc
  fp := by rw [fp, h.fp, hs, hs']; rfl
  stack := stack
  calls := calls.trans h.calls

/-- After an instruction that puts a word on the stack. -/
theorem push (h : Within m caller index f j own v) {i : Instruction} {k : Nat} {v' : View}
    (hi : (m.functionCode index f)[j]? = some i) (hs : m.placeAt index f j = .inside f.locals k)
    (hs' : (Place.inside f.locals k).after f.locals i = .inside f.locals (k + 1))
    (hr : i.opcode ≠ .ret) (value : Int64) (pc : v'.pc = v.pc + 1) (fp : v'.fp = v.fp)
    (stack : v'.stack = value :: v.stack) (calls : v'.calls = v.calls) :
    Within m caller index f (j + 1) (value :: own) v' := by
  have hlen : own.length = 1 + f.locals + k := by rw [h.height, hs]; rfl
  have hne : 0 < own.length := by omega
  refine h.next (k + 1) hi hs hs' hr ?_ (h.saved.cons hne value) pc fp ?_ calls
  · rw [List.length_cons, hlen]; rfl
  · rw [stack, h.stack]; rfl

/-- The words that an instruction finds above the slots. -/
theorem exists_cons (h : Within m caller index f j own v) {k : Nat}
    (hs : m.placeAt index f j = .inside f.locals (k + 1)) :
    ∃ x rest, own = x :: rest ∧ rest.length = 1 + f.locals + k ∧ Saved caller.fp rest ∧
      v.stack = x :: (rest ++ caller.stack) := by
  have hlen : own.length = 1 + f.locals + k + 1 := by rw [h.height, hs]; rfl
  cases own with
  | nil => cases hlen
  | cons x rest => exact ⟨x, rest, rfl, Nat.succ.inj hlen, h.saved.tail, h.stack⟩

theorem exists_cons_cons (h : Within m caller index f j own v) {k : Nat}
    (hs : m.placeAt index f j = .inside f.locals (k + 2)) :
    ∃ x y rest, own = x :: y :: rest ∧ rest.length = 1 + f.locals + k ∧ Saved caller.fp rest ∧
      v.stack = x :: y :: (rest ++ caller.stack) := by
  obtain ⟨x, rest, rfl, hlen, hsaved, hstack⟩ := h.exists_cons hs
  cases rest with
  | nil => cases hlen
  | cons y rest => exact ⟨x, y, rest, rfl, Nat.succ.inj hlen, hsaved.tail, hstack⟩

end Within

/-! ## One instruction -/

section

variable {m : Module} {caller : View} {index j : Nat} {f : Function} {own : List Int64}
  {a : Machine} {i : Instruction}

/-- An instruction that writes, with the rest of the stack in place. -/
theorem Advances.write {op : Opcode} {data : List UInt8} {rest : List Int64} {j' : Nat}
    {own' : List Int64} (hc : i.opcode ≠ .call) (hr : i.opcode ≠ .ret)
    (hlen : rest.length ≤ a.stack.length)
    (h : Within m caller index f j' own' ⟨a.pc + 1, a.registers.fp, rest, a.calls⟩) :
    Advances m caller index f a i (a.writeThen op data rest) := by
  unfold Machine.writeThen
  split
  · exact .stays hc hr ⟨rfl, rfl, rfl, by simp only [Machine.advance_stack]; omega⟩ h
  · exact .fails trivial

namespace Within

section

variable (h : Within m caller index f j own a.view) {k : Nat}
include h

/-- The frame pointer of a call, where nothing is set up. -/
theorem fp_of_outside (hs : m.placeAt index f j = .outside) : a.registers.fp = caller.fp := by
  rw [show a.registers.fp = _ from h.fp, hs]; rfl

/-- The frame pointer of a call, where the frame is set up. -/
theorem fp_of_inside (hs : m.placeAt index f j = .inside f.locals k) :
    a.registers.fp = sizeWord (caller.stack.length + (1 + f.locals)) := by
  rw [show a.registers.fp = _ from h.fp, hs]; rfl

/-- The stack of a call, where the frame is set up. -/
theorem length_of_inside (hs : m.placeAt index f j = .inside f.locals k) :
    a.stack.length = k + (caller.stack.length + (1 + f.locals)) := by
  have hheight : own.length = 1 + f.locals + k := by rw [h.height, hs]; rfl
  rw [show a.stack = _ from h.stack, List.length_append, hheight]
  omega

/-! ### Setting up a frame -/

theorem perform_enter (hi : (m.functionCode index f)[j]? = some (ofLabel .mark ⟨index⟩))
    (hs : m.placeAt index f j = .outside) :
    Advances m caller index f a (ofLabel .mark ⟨index⟩) (a.perform (ofLabel .mark ⟨index⟩)) := by
  have hheight := h.height
  rw [hs] at hheight
  obtain rfl := List.eq_nil_of_length_eq_zero hheight
  refine .stays (by simp [ofLabel]) (by simp [ofLabel]) (.advance a _ (Nat.le_succ _))
    (h.move [] hi (by simp [ofLabel]) ?_ h.saved rfl ?_ h.stack rfl)
  · rw [hs]; rfl
  · rw [hs]; exact hs ▸ h.fp

theorem perform_saveFrame (hi : (m.functionCode index f)[j]? = some (ofRegister .load .fp))
    (hs : m.placeAt index f j = .outside) :
    Advances m caller index f a (ofRegister .load .fp) (a.perform (ofRegister .load .fp)) := by
  have hheight := h.height
  have hfp := h.fp_of_outside hs
  rw [hs] at hheight
  obtain rfl := List.eq_nil_of_length_eq_zero hheight
  rw [Machine.perform_load]
  refine .stays (by simp [ofRegister]) (by simp [ofRegister]) (.advance a _ (by simp))
    (h.move [caller.fp] hi (by simp [ofRegister]) ?_ (.inr ⟨[], rfl⟩) rfl ?_ ?_ rfl)
  · rw [hs]; rfl
  · rw [hs]; exact hfp
  · exact congr (congrArg List.cons hfp) h.stack

theorem perform_makeRoom (hi : (m.functionCode index f)[j]? = some ⟨.loadImmediate, 0⟩)
    (hs : m.placeAt index f j = ⟨1 + k, false⟩) :
    Advances m caller index f a ⟨.loadImmediate, 0⟩ (a.perform ⟨.loadImmediate, 0⟩) := by
  have hheight : own.length = 1 + k := by rw [h.height, hs]
  refine .stays (by simp) (by simp) (.advance a _ (by simp))
    (h.move (0 :: own) hi (by simp) ?_ (h.saved.cons (by omega) 0) rfl ?_ ?_ rfl)
  · rw [hs, List.length_cons, hheight]; rfl
  · rw [hs]; exact hs ▸ h.fp
  · exact congrArg _ h.stack

theorem perform_setFrame (hi : (m.functionCode index f)[j]? = some (bare .setFrame))
    (hs : m.placeAt index f j = ⟨1 + f.locals, false⟩) :
    Advances m caller index f a (bare .setFrame) (a.perform (bare .setFrame)) := by
  have hheight : own.length = 1 + f.locals := by rw [h.height, hs]
  have hlen : a.stack.length = caller.stack.length + (1 + f.locals) := by
    rw [show a.stack = _ from h.stack, List.length_append, hheight]
    exact Nat.add_comm _ _
  rw [Machine.perform_setFrame]
  refine .stays (by simp [bare]) (by simp [bare]) ⟨rfl, rfl, rfl, Nat.le_succ _⟩
    (h.move own hi (by simp [bare]) ?_ h.saved rfl ?_ h.stack rfl)
  · rw [hs, hheight]; rfl
  · rw [hs, ← hlen]; rfl

/-! ### Pushing -/

theorem perform_literal {value : Int64}
    (hi : (m.functionCode index f)[j]? = some ⟨.loadImmediate, value⟩)
    (hs : m.placeAt index f j = .inside f.locals k) :
    Advances m caller index f a ⟨.loadImmediate, value⟩ (a.perform ⟨.loadImmediate, value⟩) := by
  rw [Machine.perform_loadImmediate]
  exact .stays (by simp) (by simp) (.advance a _ (by simp))
    (h.push hi hs rfl (by simp) value rfl rfl rfl rfl)

theorem perform_text (loaded : m.Loaded a) {text : String} (htext : text ∈ m.texts)
    (hi : (m.functionCode index f)[j]? = some ⟨.newString, sizeWord (m.strings.offset text)⟩)
    (hs : m.placeAt index f j = .inside f.locals k) :
    Advances m caller index f a ⟨.newString, sizeWord (m.strings.offset text)⟩
      (a.perform ⟨.newString, sizeWord (m.strings.offset text)⟩) := by
  obtain ⟨string, hstring⟩ := Option.isSome_iff_exists.1
    (StringPool.isSome_string_word (StringPool.mem_ofList htext))
  rw [Machine.perform_newString a (by rw [Machine.static?, loaded.statics]; exact hstring)]
  exact .stays (by simp) (by simp) ⟨rfl, rfl, rfl, by simp⟩
    (h.push hi hs rfl (by simp) _ rfl rfl rfl rfl)

theorem perform_slot (hsmall : a.stack.length < Machine.heightLimit) {slot : Nat}
    (hslot : slot < f.locals)
    (hi : (m.functionCode index f)[j]? = some ⟨.loadSlot, Int64.ofNat slot⟩)
    (hs : m.placeAt index f j = .inside f.locals k) :
    Advances m caller index f a ⟨.loadSlot, Int64.ofNat slot⟩
      (a.perform ⟨.loadSlot, Int64.ofNat slot⟩) := by
  have hlen := h.length_of_inside hs
  have hin : k + slot < a.stack.length := by omega
  rw [Machine.perform_loadSlot a
    (Machine.slotIndex?_ofNat a (h.fp_of_inside hs) hlen (by omega) hsmall)
    (List.getElem?_eq_getElem hin)]
  exact .stays (by simp) (by simp) (.advance a _ (by simp))
    (h.push hi hs rfl (by simp) _ rfl rfl rfl rfl)

theorem perform_getByte (hi : (m.functionCode index f)[j]? = some (bare .getByte))
    (hs : m.placeAt index f j = .inside f.locals k) :
    Advances m caller index f a (bare .getByte) (a.perform (bare .getByte)) := by
  rw [Machine.perform_getByte]
  split
  · exact .stays (by simp [bare]) (by simp [bare]) (.advance a _ (by simp))
      (h.push hi hs rfl (by simp [bare]) _ rfl rfl rfl rfl)
  · exact .stays (by simp [bare]) (by simp [bare]) ⟨rfl, rfl, rfl, by simp⟩
      (h.push hi hs rfl (by simp [bare]) _ rfl rfl rfl rfl)

/-! ### Working on the words above the slots -/

theorem perform_storeSlot (hsmall : a.stack.length < Machine.heightLimit) {slot : Nat}
    (hslot : slot < f.locals)
    (hi : (m.functionCode index f)[j]? = some ⟨.storeSlot, Int64.ofNat slot⟩)
    (hs : m.placeAt index f j = .inside f.locals (k + 1)) :
    Advances m caller index f a ⟨.storeSlot, Int64.ofNat slot⟩
      (a.perform ⟨.storeSlot, Int64.ofNat slot⟩) := by
  have hfp := h.fp_of_inside hs
  obtain ⟨x, rest, rfl, hlen, hsaved, hx⟩ := h.exists_cons hs
  have hfull : (rest ++ caller.stack).length = k + (caller.stack.length + (1 + f.locals)) := by
    rw [List.length_append, hlen]; omega
  have hlt : (rest ++ caller.stack).length < a.stack.length := by
    rw [show a.stack = x :: (rest ++ caller.stack) from hx]; simp
  rw [Machine.perform_storeSlot a hx (Machine.slotIndex?_ofNat (a.advance a.pc _) hfp hfull
      (by omega) (Nat.lt_trans hlt hsmall)), List.set_append_left (k + slot) x (by omega)]
  refine .stays (by simp) (by simp) (.advance a _ ?_)
    (h.next k hi hs rfl (by simp) ?_ (hsaved.set (by omega) x) rfl rfl rfl rfl)
  · rw [List.length_append, List.length_set, ← List.length_append]; omega
  · rw [List.length_set, hlen]

theorem perform_arithmetic {op : Arithmetic}
    (hi : (m.functionCode index f)[j]? = some (bare op.opcode))
    (hs : m.placeAt index f j = .inside f.locals (k + 2)) :
    Advances m caller index f a (bare op.opcode) (a.perform (bare op.opcode)) := by
  obtain ⟨x, y, rest, rfl, hlen, hsaved, hx⟩ := h.exists_cons_cons hs
  have hc : (bare op.opcode).opcode ≠ .call := by cases op <;> simp [bare, Arithmetic.opcode]
  have hr : (bare op.opcode).opcode ≠ .ret := by cases op <;> simp [bare, Arithmetic.opcode]
  rw [Machine.perform_arithmetic a hx]
  split
  · refine .stays hc hr (.advance a _ ?_) (h.next (k + 1) hi hs (by cases op <;> rfl) hr ?_
      (hsaved.cons (by omega) _) rfl rfl rfl rfl)
    · rw [show a.stack = _ from hx]; simp
    · rw [List.length_cons, hlen]; rfl
  · exact .fails trivial

theorem perform_comparison {op : Comparison}
    (hi : (m.functionCode index f)[j]? = some (bare op.opcode))
    (hs : m.placeAt index f j = .inside f.locals (k + 2)) :
    Advances m caller index f a (bare op.opcode) (a.perform (bare op.opcode)) := by
  obtain ⟨x, y, rest, rfl, hlen, hsaved, hx⟩ := h.exists_cons_cons hs
  have hc : (bare op.opcode).opcode ≠ .call := by cases op <;> simp [bare, Comparison.opcode]
  have hr : (bare op.opcode).opcode ≠ .ret := by cases op <;> simp [bare, Comparison.opcode]
  rw [Machine.perform_comparison a hx]
  refine .stays hc hr (.advance a _ ?_) (h.next (k + 1) hi hs (by cases op <;> rfl) hr ?_
    (hsaved.cons (by omega) _) rfl rfl rfl rfl)
  · rw [show a.stack = _ from hx]; simp
  · rw [List.length_cons, hlen]; rfl

theorem perform_not (hi : (m.functionCode index f)[j]? = some (bare .not))
    (hs : m.placeAt index f j = .inside f.locals (k + 1)) :
    Advances m caller index f a (bare .not) (a.perform (bare .not)) := by
  obtain ⟨x, rest, rfl, hlen, hsaved, hx⟩ := h.exists_cons hs
  rw [Machine.perform_not a hx]
  refine .stays (by simp [bare]) (by simp [bare]) (.advance a _ ?_)
    (h.next (k + 1) hi hs rfl (by simp [bare]) ?_ (hsaved.cons (by omega) _) rfl rfl rfl rfl)
  · rw [show a.stack = _ from hx]; simp
  · rw [List.length_cons, hlen]; rfl

theorem perform_discard (hi : (m.functionCode index f)[j]? = some (bare .pop))
    (hs : m.placeAt index f j = .inside f.locals (k + 1)) :
    Advances m caller index f a (bare .pop) (a.perform (bare .pop)) := by
  obtain ⟨x, rest, rfl, hlen, hsaved, hx⟩ := h.exists_cons hs
  rw [Machine.perform_pop a hx]
  refine .stays (by simp [bare]) (by simp [bare]) (.advance a _ ?_)
    (h.next k hi hs rfl (by simp [bare]) hlen hsaved rfl rfl rfl rfl)
  rw [show a.stack = _ from hx]; simp; omega

theorem perform_putInt (hi : (m.functionCode index f)[j]? = some (bare .putInt))
    (hs : m.placeAt index f j = .inside f.locals (k + 1)) :
    Advances m caller index f a (bare .putInt) (a.perform (bare .putInt)) := by
  obtain ⟨x, rest, rfl, hlen, hsaved, hx⟩ := h.exists_cons hs
  rw [Machine.perform_putInt a hx]
  refine .write (by simp [bare]) (by simp [bare]) ?_
    (h.next k hi hs rfl (by simp [bare]) hlen hsaved rfl rfl rfl rfl)
  rw [show a.stack = _ from hx]; simp

theorem perform_putString (hi : (m.functionCode index f)[j]? = some (bare .putString))
    (hs : m.placeAt index f j = .inside f.locals (k + 1)) :
    Advances m caller index f a (bare .putString) (a.perform (bare .putString)) := by
  obtain ⟨x, rest, rfl, hlen, hsaved, hx⟩ := h.exists_cons hs
  rw [Machine.perform_putString a hx]
  split
  · refine .write (by simp [bare]) (by simp [bare]) ?_
      (h.next k hi hs rfl (by simp [bare]) hlen hsaved rfl rfl rfl rfl)
    rw [show a.stack = _ from hx]; simp
  · exact .fails trivial

theorem perform_result (hi : (m.functionCode index f)[j]? = some (ofRegister .store .r0))
    (hs : m.placeAt index f j = .inside f.locals (k + 1)) :
    Advances m caller index f a (ofRegister .store .r0) (a.perform (ofRegister .store .r0)) := by
  obtain ⟨x, rest, rfl, hlen, hsaved, hx⟩ := h.exists_cons hs
  rw [Machine.perform_store a hx]
  refine .stays (by simp [ofRegister]) (by simp [ofRegister]) ⟨rfl, rfl, rfl, ?_⟩
    (h.next k hi hs rfl (by simp [ofRegister]) hlen hsaved rfl rfl rfl rfl)
  rw [show a.stack = _ from hx]; simp; omega

/-! ### Calls, labels and jumps -/

omit h in
theorem perform_call (hid : m.entry.id < 0x100000000) (loaded : m.Loaded a) {callee : Nat}
    (hcallee : callee < m.functions.length) :
    Advances m caller index f a (ofLabel .call ⟨callee⟩) (a.perform (ofLabel .call ⟨callee⟩)) := by
  rw [loaded.perform_call hid hcallee]
  exact .calls rfl ⟨rfl, rfl, rfl, Nat.le_succ _⟩
    (Within.enter a.view (List.getElem?_eq_getElem hcallee))

theorem perform_mark {l : Label} (hi : (m.functionCode index f)[j]? = some (ofLabel .mark l))
    (hs : m.placeAt index f j = .inside f.locals k) :
    Advances m caller index f a (ofLabel .mark l) (a.perform (ofLabel .mark l)) := by
  have hheight : own.length = 1 + f.locals + k := by rw [h.height, hs]; rfl
  exact .stays (by simp [ofLabel]) (by simp [ofLabel]) (.advance a _ (Nat.le_succ _))
    (h.next k hi hs rfl (by simp [ofLabel]) hheight h.saved rfl rfl h.stack rfl)

/-- A jump to a label of the function where as many words are above the slots. -/
theorem perform_jump (hid : m.entry.id < 0x100000000) (loaded : m.Loaded a) {l : Label}
    (hl : l ∈ labelsFrom (m.firstLabel index) f.labels)
    (hs : m.placeAt index f j = .inside f.locals k)
    (hplace : ∀ {j'}, (m.functionCode index f)[j']? = some (ofLabel .mark l) →
      m.placeAt index f j' = .inside f.locals k) :
    Advances m caller index f a (ofLabel .jump l) (a.perform (ofLabel .jump l)) := by
  have hheight : own.length = 1 + f.locals + k := by rw [h.height, hs]; rfl
  obtain ⟨j', hj', htarget⟩ := Module.target?_label hid h.function hl
  rw [← loaded.labels] at htarget
  rw [ofLabel, Machine.perform_jump a htarget]
  exact .stays (by simp) (by simp) (.advance a _ (Nat.le_succ _))
    (h.jumped hs (hplace hj') (List.getElem?_eq_some_iff.1 hj').1 hheight h.saved rfl rfl h.stack rfl)

theorem perform_jumpIfZero (hv : m.Valid) (hid : m.entry.id < 0x100000000) (loaded : m.Loaded a)
    {l : Label} (hl : m.Inner index f l)
    (hi : (m.functionCode index f)[j]? = some (ofLabel .jumpIfZero l))
    (hs : m.placeAt index f j = .inside f.locals 1) :
    Advances m caller index f a (ofLabel .jumpIfZero l) (a.perform (ofLabel .jumpIfZero l)) := by
  obtain ⟨j', hj', htarget⟩ := Module.target?_label hid h.function hl.mem
  rw [← loaded.labels] at htarget
  obtain ⟨x, rest, rfl, hlen, hsaved, hx⟩ := h.exists_cons hs
  have hshort : (rest ++ caller.stack).length ≤ a.stack.length + 1 := by
    rw [show a.stack = _ from hx]; simp; omega
  rw [ofLabel, Machine.perform_jumpIfZero a hx htarget]
  split
  · exact .stays (by simp) (by simp) (.advance a _ hshort)
      (h.jumped hs (Module.placeAt_of_inner hv hid h.function hl hj')
        (List.getElem?_eq_some_iff.1 hj').1 hlen hsaved rfl rfl rfl rfl)
  · exact .stays (by simp) (by simp) (.advance a _ hshort)
      (h.next 0 hi hs rfl (by simp [ofLabel]) hlen hsaved rfl rfl rfl rfl)

/-! ### Taking a frame down -/

theorem perform_drop (hi : (m.functionCode index f)[j]? = some (bare .pop))
    (hs : m.placeAt index f j = ⟨1 + k + 1, true⟩) :
    Advances m caller index f a (bare .pop) (a.perform (bare .pop)) := by
  have hheight : own.length = 1 + k + 1 := by rw [h.height, hs]
  cases own with
  | nil => cases hheight
  | cons x rest =>
    have hx : a.stack = x :: (rest ++ caller.stack) := h.stack
    rw [Machine.perform_pop a hx]
    refine .stays (by simp [bare]) (by simp [bare]) (.advance a _ ?_)
      (h.move rest hi (by simp [bare]) ?_ h.saved.tail rfl ?_ rfl rfl)
    · rw [hx]; simp; omega
    · rw [hs]; exact Nat.succ.inj hheight
    · rw [hs]; exact hs ▸ h.fp

theorem perform_restoreFrame (hi : (m.functionCode index f)[j]? = some (ofRegister .store .fp))
    (hs : m.placeAt index f j = ⟨1, true⟩) :
    Advances m caller index f a (ofRegister .store .fp) (a.perform (ofRegister .store .fp)) := by
  have hheight : own.length = 1 := by rw [h.height, hs]
  obtain rfl := h.saved.eq_of_length hheight
  have hx : a.stack = caller.fp :: caller.stack := h.stack
  rw [Machine.perform_store a hx]
  refine .stays (by simp [ofRegister]) (by simp [ofRegister]) ⟨rfl, rfl, rfl, ?_⟩
    (h.move [] hi (by simp [ofRegister]) ?_ (.inl rfl) rfl ?_ rfl rfl)
  · rw [hx]; simp; omega
  · rw [hs]; rfl
  · rw [hs]; rfl

theorem perform_ret (hs : m.placeAt index f j = .outside) :
    Advances m caller index f a (bare .ret) (a.perform (bare .ret)) := by
  have hheight := h.height
  have hfp := h.fp_of_outside hs
  rw [hs] at hheight
  obtain rfl := List.eq_nil_of_length_eq_zero hheight
  rw [Machine.perform_ret a h.calls]
  refine .returns rfl ⟨rfl, rfl, rfl, by simp⟩ ?_
  rw [Machine.view, View.returned]
  exact congr (congr (congrArg (View.mk _) hfp) (congrArg _ h.stack)) rfl

end

/-- What an instruction of a call makes of the machine. -/
theorem perform (h : Within m caller index f j own a.view) (hv : m.Valid)
    (hid : m.entry.id < 0x100000000) (loaded : m.Loaded a)
    (hsmall : a.stack.length < Machine.heightLimit)
    (hi : (m.functionCode index f)[j]? = some i) :
    Advances m caller index f a i (a.perform i) := by
  have hfits := Module.fits_placeAt hv h.function hi
  generalize hs : m.placeAt index f j = s at hfits
  cases hfits with
  | enter => exact h.perform_enter hi hs
  | saveFrame => exact h.perform_saveFrame hi hs
  | makeRoom k => exact h.perform_makeRoom hi hs
  | setFrame => exact h.perform_setFrame hi hs
  | literal k value => exact h.perform_literal hi hs
  | text k htext => exact h.perform_text loaded htext hi hs
  | slot k hslot => exact h.perform_slot hsmall hslot hi hs
  | storeSlot k hslot => exact h.perform_storeSlot hsmall hslot hi hs
  | arithmetic k op => exact h.perform_arithmetic hi hs
  | comparison k op => exact h.perform_comparison hi hs
  | not k => exact h.perform_not hi hs
  | call k hcallee => exact perform_call hid loaded hcallee
  | getByte k => exact h.perform_getByte hi hs
  | discard k => exact h.perform_discard hi hs
  | putInt k => exact h.perform_putInt hi hs
  | putString k => exact h.perform_putString hi hs
  | mark hl => exact h.perform_mark hi hs
  | finish => exact h.perform_mark hi hs
  | jump hl =>
    exact h.perform_jump hid loaded hl.mem hs (Module.placeAt_of_inner hv hid h.function hl)
  | giveBack =>
    exact h.perform_jump hid loaded (m.end_mem index f) hs (Module.placeAt_of_end hv hid h.function)
  | jumpIfZero hl => exact h.perform_jumpIfZero hv hid loaded hl hi hs
  | result k => exact h.perform_result hi hs
  | drop k => exact h.perform_drop hi hs
  | restoreFrame => exact h.perform_restoreFrame hi hs
  | ret => exact h.perform_ret hs

end Within

/-- What one turn of a call does. -/
theorem Within.turn (h : Within m caller index f j own a.view) (hv : m.Valid)
    (hid : m.entry.id < 0x100000000) (loaded : m.Loaded a)
    (hsmall : a.stack.length < Machine.heightLimit) :
    ∃ i, m.emit[a.pc]? = some i ∧ Advances m caller index f a i (a.turn m.emit.toArray) := by
  obtain ⟨i, hi, hpc⟩ := h.instruction
  have hcode : m.emit.toArray[a.pc]? = some i := by rw [List.getElem?_toArray]; exact hpc
  refine ⟨i, hpc, ?_⟩
  cases hlimit : a.spentLimit? with
  | none => rw [Machine.turn_of_getElem? hcode hlimit]; exact h.perform hv hid loaded hsmall hi
  | some limit => rw [Machine.turn_of_spent hcode hlimit]; exact .fails trivial

end

end Core
end StackLang
