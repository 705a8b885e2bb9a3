import StackLang.Proofs.Code.Pool
import StackLang.Proofs.Core.Layout
import StackLang.Proofs.Core.Valid

/-!
# How far a call has set up its frame

At each address of a function it is known how many words of the stack belong to the call, and whether
the frame pointer is its own. `Place` is that knowledge, `Place.after` follows it through code, and
`Fits` lists the instructions that a function may have at a place: each finds the words that it takes.

Results:
* `Module.flow_functionCode`: the code of a function fits from its first place to its last.
* `Module.fits_placeAt`: each instruction of a function fits at the place of its address.
* `Module.placeAt_of_inner`, `Module.placeAt_of_end`: the places of the marks that jumps lead to.
-/
namespace StackLang.Core

open Instruction

/-! ## Places -/

/-- How many words on the stack belong to a call, and whether the frame pointer is its own. -/
structure Place where
  height : Nat
  framed : Bool
  deriving DecidableEq, Repr

namespace Place

/-- Where nothing is set up yet, or nothing is left. -/
def outside : Place := ⟨0, false⟩

/-- Where the frame is set up, with so many words above its slots. -/
def inside (locals above : Nat) : Place := ⟨1 + locals + above, true⟩

/-- After an instruction of a function with so many slots. All its jumps lead to where nothing is
above the slots, but for those to its end, which nothing follows. -/
def after (locals : Nat) (s : Place) (i : Instruction) : Place :=
  match i.opcode with
  | .loadImmediate | .load | .loadSlot | .newString | .getByte | .call =>
    { s with height := s.height + 1 }
  | .store => ⟨s.height - 1, s.framed && i.operand != Register.fp.operand⟩
  | .storeSlot | .pop | .add | .sub | .mul | .div | .mod | .less | .greater | .equal | .jumpIfZero
  | .putInt | .putString => { s with height := s.height - 1 }
  | .setFrame => { s with framed := true }
  | .jump => inside locals 0
  | .not | .ret | .increment | .mark | .putStatic | .halt | .trap => s

end Place

/-- A label of a function that is neither its own nor that of its end. -/
def Module.Inner (m : Module) (index : Nat) (f : Function) (l : Label) : Prop :=
  m.firstLabel index < l.id ∧ l.id < m.firstLabel index + f.labels

/-- A label that is not that of its function is set aside for it. -/
theorem Module.Inner.mem {m : Module} {index : Nat} {f : Function} {l : Label}
    (h : m.Inner index f l) : l ∈ labelsFrom (m.firstLabel index) f.labels :=
  mem_labelsFrom.2 ⟨Nat.le_of_lt h.1, h.2⟩

theorem Module.end_mem (m : Module) (index : Nat) (f : Function) :
    ⟨m.firstLabel index⟩ ∈ labelsFrom (m.firstLabel index) f.labels :=
  mem_labelsFrom.2 ⟨Nat.le_refl _, by simp only [Function.labels]; omega⟩

/-- The instructions that a function may have at a place. -/
inductive Fits (m : Module) (index : Nat) (f : Function) : Place → Instruction → Prop where
  | enter : Fits m index f .outside (ofLabel .mark ⟨index⟩)
  | saveFrame : Fits m index f .outside (ofRegister .load .fp)
  | makeRoom (k : Nat) : Fits m index f ⟨1 + k, false⟩ ⟨.loadImmediate, 0⟩
  | setFrame : Fits m index f ⟨1 + f.locals, false⟩ (bare .setFrame)
  | literal (k : Nat) (value : Int64) : Fits m index f (.inside f.locals k) ⟨.loadImmediate, value⟩
  | text (k : Nat) {value : String} (h : value ∈ m.texts) :
    Fits m index f (.inside f.locals k) ⟨.newString, sizeWord (m.strings.offset value)⟩
  | slot (k : Nat) {slot : Nat} (h : slot < f.locals) :
    Fits m index f (.inside f.locals k) ⟨.loadSlot, Int64.ofNat slot⟩
  | storeSlot (k : Nat) {slot : Nat} (h : slot < f.locals) :
    Fits m index f (.inside f.locals (k + 1)) ⟨.storeSlot, Int64.ofNat slot⟩
  | arithmetic (k : Nat) (op : Arithmetic) : Fits m index f (.inside f.locals (k + 2)) (bare op.opcode)
  | comparison (k : Nat) (op : Comparison) : Fits m index f (.inside f.locals (k + 2)) (bare op.opcode)
  | not (k : Nat) : Fits m index f (.inside f.locals (k + 1)) (bare .not)
  | call (k : Nat) {callee : Nat} (h : callee < m.functions.length) :
    Fits m index f (.inside f.locals k) (ofLabel .call ⟨callee⟩)
  | getByte (k : Nat) : Fits m index f (.inside f.locals k) (bare .getByte)
  | discard (k : Nat) : Fits m index f (.inside f.locals (k + 1)) (bare .pop)
  | putInt (k : Nat) : Fits m index f (.inside f.locals (k + 1)) (bare .putInt)
  | putString (k : Nat) : Fits m index f (.inside f.locals (k + 1)) (bare .putString)
  | mark {l : Label} (h : m.Inner index f l) : Fits m index f (.inside f.locals 0) (ofLabel .mark l)
  | jump {l : Label} (h : m.Inner index f l) : Fits m index f (.inside f.locals 0) (ofLabel .jump l)
  | jumpIfZero {l : Label} (h : m.Inner index f l) :
    Fits m index f (.inside f.locals 1) (ofLabel .jumpIfZero l)
  | giveBack : Fits m index f (.inside f.locals 1) (ofLabel .jump ⟨m.firstLabel index⟩)
  | finish : Fits m index f (.inside f.locals 1) (ofLabel .mark ⟨m.firstLabel index⟩)
  | result (k : Nat) : Fits m index f (.inside f.locals (k + 1)) (ofRegister .store .r0)
  | drop (k : Nat) : Fits m index f ⟨1 + k + 1, true⟩ (bare .pop)
  | restoreFrame : Fits m index f ⟨1, true⟩ (ofRegister .store .fp)
  | ret : Fits m index f .outside (bare .ret)

/-- Code that fits from one place to another. -/
def Flow (m : Module) (index : Nat) (f : Function) : Place → List Instruction → Place → Prop
  | s, [], t => s = t
  | s, i :: code, t => Fits m index f s i ∧ Flow m index f (s.after f.locals i) code t

namespace Flow

variable {m : Module} {index : Nat} {f : Function} {s t u : Place}

theorem single {i : Instruction} (h : Fits m index f s i) :
    Flow m index f s [i] (s.after f.locals i) := ⟨h, rfl⟩

theorem append {x y : List Instruction} (hx : Flow m index f s x t) (hy : Flow m index f t y u) :
    Flow m index f s (x ++ y) u := by
  induction x generalizing s with
  | nil => cases hx; exact hy
  | cons i x ih => exact ⟨hx.1, ih hx.2⟩

/-- Each instruction of code that fits, fits at the place that those before it leave. -/
theorem fits {code : List Instruction} (h : Flow m index f s code t) {j : Nat} {i : Instruction}
    (hi : code[j]? = some i) :
    Fits m index f ((code.take j).foldl (Place.after f.locals) s) i := by
  induction code generalizing s j with
  | nil => simp at hi
  | cons i' code ih =>
    cases j with
    | zero => cases hi; exact h.1
    | succ j => exact ih h.2 hi

end Flow

/-! ## The code of expressions and statements -/

section

variable {m : Module} {index : Nat} {f : Function}

/-- The code of an expression puts one word on the stack. -/
theorem Expr.flow_emit (k : Nat) : ∀ (e : Expr), e.Valid f.locals m.functions.length →
    (∀ text ∈ e.texts, text ∈ m.texts) →
    Flow m index f (.inside f.locals k) (e.emit m.strings.offset) (.inside f.locals (k + 1)) := by
  intro e hv ht
  induction e generalizing k with
  | literal value => exact .single (.literal k value)
  | text value => exact .single (.text k (ht value (List.mem_singleton_self value)))
  | slot slot => exact .single (.slot k hv)
  | call callee => exact .single (.call k hv)
  | getByte => exact .single (.getByte k)
  | not operand ih => exact (ih k hv ht).append (.single (.not k))
  | arithmetic op left right ihl ihr =>
    have hr := ihr k hv.2 fun text h => ht text (List.mem_append_left _ h)
    have hl := ihl (k + 1) hv.1 fun text h => ht text (List.mem_append_right _ h)
    have hop : (Place.inside f.locals (k + 2)).after f.locals (bare op.opcode) =
        .inside f.locals (k + 1) := by cases op <;> rfl
    exact (hr.append hl).append (hop ▸ .single (.arithmetic k op))
  | comparison op left right ihl ihr =>
    have hl := ihl k hv.1 fun text h => ht text (List.mem_append_left _ h)
    have hr := ihr (k + 1) hv.2 fun text h => ht text (List.mem_append_right _ h)
    have hop : (Place.inside f.locals (k + 2)).after f.locals (bare op.opcode) =
        .inside f.locals (k + 1) := by cases op <;> rfl
    exact (hl.append hr).append (hop ▸ .single (.comparison k op))

namespace Stmt

mutual

/-- The code of a statement leaves the stack as high as it was. -/
theorem flow_emit (next : Nat) : ∀ (s : Stmt), ValidAll f.locals m.functions.length [s] →
    (∀ text ∈ texts s, text ∈ m.texts) → m.firstLabel index < next →
    next + labels s ≤ m.firstLabel index + f.labels →
    Flow m index f (.inside f.locals 0) (emit m.strings.offset (m.firstLabel index) next s)
      (.inside f.locals 0)
  | .store slot value, hv, ht, _, _ =>
    (Expr.flow_emit 0 value hv.1.2 ht).append (.single (.storeSlot 0 hv.1.1))
  | .discard value, hv, ht, _, _ =>
    (Expr.flow_emit 0 value hv.1 ht).append (.single (.discard 0))
  | .putInt value, hv, ht, _, _ =>
    (Expr.flow_emit 0 value hv.1 ht).append (.single (.putInt 0))
  | .putString value, hv, ht, _, _ =>
    (Expr.flow_emit 0 value hv.1 ht).append (.single (.putString 0))
  | .giveBack value, hv, ht, _, _ =>
    (Expr.flow_emit 0 value hv.1 ht).append (.single .giveBack)
  | .loop condition body, hv, ht, hlow, hhigh => by
    simp only [labels] at hhigh
    have hc : Flow m index f (.inside f.locals 0) (condition.emit m.strings.offset)
        (.inside f.locals 1) := Expr.flow_emit 0 condition hv.1.1 fun text h =>
      ht text (List.mem_append_left _ h)
    have hb := flow_emitAll (next + 2) body hv.1.2 (fun text h => ht text (List.mem_append_right _ h))
      (by omega) (by omega)
    have start : m.Inner index f ⟨next⟩ := ⟨hlow, by simp only; omega⟩
    have stop : m.Inner index f ⟨next + 1⟩ := ⟨by simp only; omega, by simp only; omega⟩
    refine .append (.append (.append ⟨.mark start, hc⟩ (.single (.jumpIfZero stop))) hb) ?_
    exact ⟨.jump start, .mark stop, rfl⟩
  | .ifThen condition body, hv, ht, hlow, hhigh => by
    simp only [labels] at hhigh
    have hc : Flow m index f (.inside f.locals 0) (condition.emit m.strings.offset)
        (.inside f.locals 1) := Expr.flow_emit 0 condition hv.1.1 fun text h =>
      ht text (List.mem_append_left _ h)
    have hb := flow_emitAll (next + 1) body hv.1.2 (fun text h => ht text (List.mem_append_right _ h))
      (by omega) (by omega)
    have stop : m.Inner index f ⟨next⟩ := ⟨hlow, by simp only; omega⟩
    exact ((hc.append (.single (.jumpIfZero stop))).append hb).append (.single (.mark stop))
  | .ifElse condition body other, hv, ht, hlow, hhigh => by
    simp only [labels] at hhigh
    simp only [texts, List.mem_append] at ht
    have hc : Flow m index f (.inside f.locals 0) (condition.emit m.strings.offset)
        (.inside f.locals 1) := Expr.flow_emit 0 condition hv.1.1 fun text h => ht text (.inl (.inl h))
    have hb := flow_emitAll (next + 1) body hv.1.2.1 (fun text h => ht text (.inl (.inr h)))
      (by omega) (by omega)
    have ho := flow_emitAll (next + 1 + labelsOfAll body + 1) other hv.1.2.2
      (fun text h => ht text (.inr h)) (by omega) (by omega)
    have no : m.Inner index f ⟨next⟩ := ⟨hlow, by simp only; omega⟩
    have stop : m.Inner index f ⟨next + 1 + labelsOfAll body⟩ :=
      ⟨by simp only; omega, by simp only; omega⟩
    have hyes := (hc.append (.single (.jumpIfZero no))).append hb
    have between : Flow m index f (.inside f.locals 0)
        [ofLabel .jump ⟨next + 1 + labelsOfAll body⟩, ofLabel .mark ⟨next⟩] (.inside f.locals 0) :=
      ⟨.jump stop, .mark no, rfl⟩
    exact ((hyes.append between).append ho).append (.single (.mark stop))

/-- The code of statements leaves the stack as high as it was. -/
theorem flow_emitAll (next : Nat) : ∀ (ss : List Stmt), ValidAll f.locals m.functions.length ss →
    (∀ text ∈ textsOfAll ss, text ∈ m.texts) → m.firstLabel index < next →
    next + labelsOfAll ss ≤ m.firstLabel index + f.labels →
    Flow m index f (.inside f.locals 0) (emitAll m.strings.offset (m.firstLabel index) next ss)
      (.inside f.locals 0)
  | [], _, _, _, _ => rfl
  | s :: ss, hv, ht, hlow, hhigh => by
    simp only [labelsOfAll] at hhigh
    have first := flow_emit next s ⟨hv.1, trivial⟩ (fun text h => ht text (List.mem_append_left _ h))
      hlow (by omega)
    have others := flow_emitAll (next + labels s) ss hv.2
      (fun text h => ht text (List.mem_append_right _ h)) (by omega) (by omega)
    exact first.append others

end

end Stmt

/-! ## The code of functions -/

theorem Flow.replicate_loadImmediate (k count : Nat) :
    Flow m index f ⟨1 + k, false⟩ (.replicate count ⟨.loadImmediate, 0⟩) ⟨1 + (k + count), false⟩ := by
  induction count generalizing k with
  | zero => rfl
  | succ count ih =>
    rw [List.replicate_succ, show k + (count + 1) = k + 1 + count by omega]
    exact ⟨.makeRoom k, ih (k + 1)⟩

theorem Flow.replicate_pop (count : Nat) :
    Flow m index f ⟨1 + count, true⟩ (.replicate count (bare .pop)) ⟨1, true⟩ := by
  induction count with
  | zero => rfl
  | succ count ih => exact ⟨.drop count, ih⟩

theorem Function.flow_prologue :
    Flow m index f .outside (f.prologue index) (.inside f.locals 0) := by
  have room : Flow m index f ⟨1 + 0, false⟩ (.replicate f.locals ⟨.loadImmediate, 0⟩)
      ⟨1 + (0 + f.locals), false⟩ := .replicate_loadImmediate 0 f.locals
  rw [Nat.zero_add] at room
  have saved : Flow m index f .outside [ofLabel .mark ⟨index⟩, ofRegister .load .fp] ⟨1 + 0, false⟩ :=
    ⟨.enter, .saveFrame, rfl⟩
  exact (saved.append room).append (.single .setFrame)

theorem Function.flow_epilogue :
    Flow m index f (.inside f.locals 1) (f.epilogue (m.firstLabel index)) .outside := by
  have moved : Flow m index f (.inside f.locals 1)
      [ofLabel .mark ⟨m.firstLabel index⟩, ofRegister .store .r0] (.inside f.locals 0) :=
    ⟨.finish, .result 0, rfl⟩
  have left : Flow m index f ⟨1, true⟩ [ofRegister .store .fp, bare .ret] .outside :=
    ⟨.restoreFrame, .ret, rfl⟩
  exact (moved.append (.replicate_pop f.locals)).append left

namespace Module

/-- The code of a function fits from its first place to its last. -/
theorem flow_functionCode (hv : m.Valid) (h : m.functions[index]? = some f) :
    Flow m index f .outside (m.functionCode index f) .outside := by
  have hmem := List.mem_of_getElem? h
  have ht : ∀ text ∈ Stmt.textsOfAll f.body, text ∈ m.texts := fun text htext =>
    List.mem_flatMap.2 ⟨f, hmem, htext⟩
  have hbody : Flow m index f (.inside f.locals 0)
      (Stmt.emitAll m.strings.offset (m.firstLabel index) (m.firstLabel index + 1) f.body)
      (.inside f.locals 0) :=
    Stmt.flow_emitAll _ f.body (hv.functions f hmem) ht (by omega)
      (by simp only [Function.labels]; omega)
  have zero : Flow m index f (.inside f.locals 0) [⟨.loadImmediate, 0⟩] (.inside f.locals 1) :=
    .single (.literal 0 0)
  exact ((Function.flow_prologue.append hbody).append zero).append Function.flow_epilogue

/-- The place of an address of a function, which is counted from where the function starts. -/
def placeAt (m : Module) (index : Nat) (f : Function) (j : Nat) : Place :=
  ((m.functionCode index f).take j).foldl (Place.after f.locals) .outside

theorem placeAt_succ {j : Nat} {i : Instruction} (hi : (m.functionCode index f)[j]? = some i) :
    m.placeAt index f (j + 1) = (m.placeAt index f j).after f.locals i := by
  rw [placeAt, List.take_add_one, hi, List.foldl_append]
  rfl

/-- Each instruction of a function fits at the place of its address. -/
theorem fits_placeAt (hv : m.Valid) (h : m.functions[index]? = some f) {j : Nat} {i : Instruction}
    (hi : (m.functionCode index f)[j]? = some i) : Fits m index f (m.placeAt index f j) i :=
  (flow_functionCode hv h).fits hi

/-- Nothing is above the slots where a label stands that is not that of the function or its end. -/
theorem placeAt_of_inner (hv : m.Valid) (hid : m.entry.id < 0x100000000)
    (h : m.functions[index]? = some f) {l : Label} (hl : m.Inner index f l) {j : Nat}
    (hj : (m.functionCode index f)[j]? = some (ofLabel .mark l)) :
    m.placeAt index f j = .inside f.locals 0 := by
  have hbound := firstLabel_add_labels_le_entry h
  have hindex := lt_of_getElem? h
  have hlow := length_le_firstLabel m index
  have hrange := hl.2
  have other {k : Label} (hk : k.id ≤ m.firstLabel index) (heq : l.operand = k.operand) : False := by
    have := congrArg Label.id (Label.operand_inj (by omega) (by omega) heq)
    have := hl.1
    omega
  have hfits := fits_placeAt hv h hj
  generalize m.placeAt index f j = s at hfits
  generalize hi : ofLabel .mark l = i at hfits
  cases hfits with
  | mark => rfl
  | enter => exact (other (k := ⟨index⟩) (by simp only; omega) (congrArg (·.operand) hi)).elim
  | finish =>
    exact (other (k := ⟨m.firstLabel index⟩) (Nat.le_refl _) (congrArg (·.operand) hi)).elim
  | arithmetic _ op => cases op <;> cases hi
  | comparison _ op => cases op <;> cases hi
  | _ => cases hi

/-- The end of a function finds one word above the slots. -/
theorem placeAt_of_end (hv : m.Valid) (hid : m.entry.id < 0x100000000)
    (h : m.functions[index]? = some f) {j : Nat}
    (hj : (m.functionCode index f)[j]? = some (ofLabel .mark ⟨m.firstLabel index⟩)) :
    m.placeAt index f j = .inside f.locals 1 := by
  have hbound := firstLabel_add_labels_le_entry h
  have hindex := lt_of_getElem? h
  have hlow := length_le_firstLabel m index
  have hlabels : 0 < f.labels := by simp only [Function.labels]; omega
  have other {k : Label} (hne : k.id ≠ m.firstLabel index) (hk : k.id < 0x100000000)
      (heq : (Label.mk (m.firstLabel index)).operand = k.operand) : False :=
    hne (congrArg Label.id (Label.operand_inj (by simp only; omega) hk heq)).symm
  have hfits := fits_placeAt hv h hj
  generalize m.placeAt index f j = s at hfits
  generalize hi : ofLabel .mark ⟨m.firstLabel index⟩ = i at hfits
  cases hfits with
  | finish => rfl
  | enter =>
    exact (other (k := ⟨index⟩) (by simp only; omega) (by simp only; omega)
      (congrArg (·.operand) hi)).elim
  | mark hl =>
    have := hl.1
    have := hl.2
    exact (other (by omega) (by omega) (congrArg (·.operand) hi)).elim
  | arithmetic _ op => cases op <;> cases hi
  | comparison _ op => cases op <;> cases hi
  | _ => cases hi

/-- A function returns at its last address. -/
theorem getLast?_functionCode (m : Module) (index : Nat) (f : Function) :
    (m.functionCode index f).getLast? = some (bare .ret) := by
  simp [functionCode, Function.emit, Function.epilogue, List.getLast?_cons, List.getLast?_append]

/-- An instruction that is not a return is followed by another one of its function. -/
theorem lt_length_of_ne_ret {j : Nat} {i : Instruction}
    (hi : (m.functionCode index f)[j]? = some i) (hr : i ≠ bare .ret) :
    j + 1 < (m.functionCode index f).length := by
  obtain ⟨hj, rfl⟩ := List.getElem?_eq_some_iff.1 hi
  rcases Nat.eq_or_lt_of_le (Nat.succ_le_of_lt hj) with hlast | hlt
  · refine absurd ?_ hr
    have := getLast?_functionCode m index f
    rw [List.getLast?_eq_getElem?, ← hlast, Nat.succ_sub_one, List.getElem?_eq_getElem hj] at this
    exact Option.some.inj this
  · exact hlt

end Module

end

end StackLang.Core
