import StackLang.Proofs.Code.Pool
import StackLang.Proofs.Core.Names
import StackLang.Proofs.Core.Places
import StackLang.Proofs.Run.Correspondence

/-!
# Programs with the same functions in another order

Two core programs are alike along a relation between their functions if related functions differ only
in which functions they call, and call related ones. What is not related to anything does not matter.
The code of related functions then has the same instructions but for the numbers of labels and the
offsets of texts, so that the two programs correspond.

Results:
* `Function.Alike.twins`: the code of functions that are alike.
* `Module.Alike.corresponds`: programs that are alike correspond when they are assembled.
-/
namespace StackLang.Core

open Instruction

/-! ## Programs that are alike -/

/-- Expressions that differ only in the functions that they call, which are related. -/
inductive Expr.Alike (R : Nat → Nat → Prop) : Expr → Expr → Prop where
  | literal (value : Int64) : Alike R (.literal value) (.literal value)
  | text (value : String) : Alike R (.text value) (.text value)
  | slot (index : Nat) : Alike R (.slot index) (.slot index)
  | arithmetic (op : Arithmetic) {l l' r r' : Expr} (hl : Alike R l l') (hr : Alike R r r') :
    Alike R (.arithmetic op l r) (.arithmetic op l' r')
  | comparison (op : Comparison) {l l' r r' : Expr} (hl : Alike R l l') (hr : Alike R r r') :
    Alike R (.comparison op l r) (.comparison op l' r')
  | not {e e' : Expr} (h : Alike R e e') : Alike R (.not e) (.not e')
  | call {function function' : Nat} (h : R function function') :
    Alike R (.call function) (.call function')
  | getByte : Alike R .getByte .getByte

namespace Stmt

mutual

/-- Statements that differ only in the functions that they call, which are related. -/
inductive Alike (R : Nat → Nat → Prop) : Stmt → Stmt → Prop where
  | store (slot : Nat) {e e' : Expr} (h : e.Alike R e') : Alike R (.store slot e) (.store slot e')
  | discard {e e' : Expr} (h : e.Alike R e') : Alike R (.discard e) (.discard e')
  | putInt {e e' : Expr} (h : e.Alike R e') : Alike R (.putInt e) (.putInt e')
  | putString {e e' : Expr} (h : e.Alike R e') : Alike R (.putString e) (.putString e')
  | loop {c c' : Expr} {body body' : List Stmt} (hc : c.Alike R c') (hb : AllAlike R body body') :
    Alike R (.loop c body) (.loop c' body')
  | ifThen {c c' : Expr} {body body' : List Stmt} (hc : c.Alike R c') (hb : AllAlike R body body') :
    Alike R (.ifThen c body) (.ifThen c' body')
  | ifElse {c c' : Expr} {body body' other other' : List Stmt} (hc : c.Alike R c')
    (hb : AllAlike R body body') (ho : AllAlike R other other') :
    Alike R (.ifElse c body other) (.ifElse c' body' other')
  | giveBack {e e' : Expr} (h : e.Alike R e') : Alike R (.giveBack e) (.giveBack e')

/-- As many statements that are alike. -/
inductive AllAlike (R : Nat → Nat → Prop) : List Stmt → List Stmt → Prop where
  | nil : AllAlike R [] []
  | cons {s s' : Stmt} {ss ss' : List Stmt} (h : Alike R s s') (hs : AllAlike R ss ss') :
    AllAlike R (s :: ss) (s' :: ss')

end

end Stmt

/-- Functions of one name that differ only in the functions that they call, which are related. -/
structure Function.Alike (R : Nat → Nat → Prop) (f f' : Function) : Prop where
  name : f'.name = f.name
  locals : f'.locals = f.locals
  body : Stmt.AllAlike R f.body f'.body

/-- Programs whose main functions are related, as are only functions that are alike. -/
structure Module.Alike (m m' : Module) (R : Nat → Nat → Prop) : Prop where
  main : R m.main m'.main
  functions : ∀ {index index' : Nat}, R index index' →
    ∃ f f', m.functions[index]? = some f ∧ m'.functions[index']? = some f' ∧ f.Alike R f'

variable {R : Nat → Nat → Prop}

theorem Expr.Alike.texts_eq {e e' : Expr} (h : e.Alike R e') : e'.texts = e.texts := by
  induction h with
  | arithmetic op _ _ ihl ihr => rw [texts, texts, ihl, ihr]
  | comparison op _ _ ihl ihr => rw [texts, texts, ihl, ihr]
  | not _ ih => rw [texts, texts, ih]
  | _ => rfl

namespace Stmt

mutual

theorem Alike.texts_eq : ∀ {s s' : Stmt}, Alike R s s' → texts s' = texts s
  | _, _, .store _ h | _, _, .discard h | _, _, .putInt h | _, _, .putString h | _, _, .giveBack h =>
    h.texts_eq
  | _, _, .loop hc hb | _, _, .ifThen hc hb => by
    rw [texts, texts, hc.texts_eq, hb.texts_eq]
  | _, _, .ifElse hc hb ho => by rw [texts, texts, hc.texts_eq, hb.texts_eq, ho.texts_eq]

theorem AllAlike.texts_eq : ∀ {ss ss' : List Stmt}, AllAlike R ss ss' →
    textsOfAll ss' = textsOfAll ss
  | _, _, .nil => rfl
  | _, _, .cons h hs => by rw [textsOfAll, textsOfAll, h.texts_eq, hs.texts_eq]

end

mutual

theorem Alike.labels_eq : ∀ {s s' : Stmt}, Alike R s s' → labels s' = labels s
  | _, _, .store _ _ | _, _, .discard _ | _, _, .putInt _ | _, _, .putString _ | _, _, .giveBack _ =>
    rfl
  | _, _, .loop _ hb | _, _, .ifThen _ hb => by rw [labels, labels, hb.labels_eq]
  | _, _, .ifElse _ hb ho => by rw [labels, labels, hb.labels_eq, ho.labels_eq]

theorem AllAlike.labels_eq : ∀ {ss ss' : List Stmt}, AllAlike R ss ss' →
    labelsOfAll ss' = labelsOfAll ss
  | _, _, .nil => rfl
  | _, _, .cons h hs => by rw [labelsOfAll, labelsOfAll, h.labels_eq, hs.labels_eq]

end

end Stmt

theorem Function.Alike.labels_eq {f f' : Function} (h : f.Alike R f') : f'.labels = f.labels := by
  rw [Function.labels, Function.labels, h.body.labels_eq]

/-! ## The code of functions that are alike -/

/-- Instructions at the same place of two functions that are alike, `f` being the first. The labels of
each function are counted from the first one that is set aside for it. -/
inductive Twin (m m' : Module) (R : Nat → Nat → Prop) (index index' : Nat) (f : Function) :
    Instruction → Instruction → Prop where
  | same {i : Instruction} (hi : i.opcode.isLocal) (hmark : i.opcode ≠ .mark)
    (hhalt : i.opcode ≠ .halt) : Twin m m' R index index' f i i
  | text {value : String} (h : value ∈ m.texts) (h' : value ∈ m'.texts) :
    Twin m m' R index index' f ⟨.newString, sizeWord (m.strings.offset value)⟩
      ⟨.newString, sizeWord (m'.strings.offset value)⟩
  | call {callee callee' : Nat} (h : R callee callee') :
    Twin m m' R index index' f (ofLabel .call ⟨callee⟩) (ofLabel .call ⟨callee'⟩)
  | enter : Twin m m' R index index' f (ofLabel .mark ⟨index⟩) (ofLabel .mark ⟨index'⟩)
  | label {op : Opcode} (hop : op = .mark ∨ op = .jump ∨ op = .jumpIfZero) {l l' : Nat}
    (hl : ⟨l⟩ ∈ labelsFrom (m.firstLabel index) f.labels)
    (hl' : l' + m.firstLabel index = l + m'.firstLabel index') :
    Twin m m' R index index' f (ofLabel op ⟨l⟩) (ofLabel op ⟨l'⟩)
  | ret : Twin m m' R index index' f (bare .ret) (bare .ret)

/-- Code of two functions that are alike, instruction by instruction. -/
def Twins (m m' : Module) (R : Nat → Nat → Prop) (index index' : Nat) (f : Function) :
    List Instruction → List Instruction → Prop :=
  List.Forall₂ (Twin m m' R index index' f)

section

variable {m m' : Module} {index index' : Nat} {f : Function}

namespace Twins

variable {x x' y y' : List Instruction}

theorem single {i i' : Instruction} (h : Twin m m' R index index' f i i') :
    Twins m m' R index index' f [i] [i'] := .cons h .nil

theorem cons {i i' : Instruction} (h : Twin m m' R index index' f i i')
    (hx : Twins m m' R index index' f x x') : Twins m m' R index index' f (i :: x) (i' :: x') :=
  List.Forall₂.cons h hx

theorem append (hx : Twins m m' R index index' f x x') (hy : Twins m m' R index index' f y y') :
    Twins m m' R index index' f (x ++ y) (x' ++ y') := List.rel_append hx hy

/-- Code of local instructions alone. -/
theorem same (h : ∀ i ∈ x, i.opcode.isLocal ∧ i.opcode ≠ .mark ∧ i.opcode ≠ .halt) :
    Twins m m' R index index' f x x :=
  List.forall₂_same.2 fun i hi => .same (h i hi).1 (h i hi).2.1 (h i hi).2.2

theorem getElem? (h : Twins m m' R index index' f x x') {j : Nat} {i : Instruction}
    (hi : x[j]? = some i) : ∃ i', x'[j]? = some i' ∧ Twin m m' R index index' f i i' := by
  obtain ⟨hj, rfl⟩ := List.getElem?_eq_some_iff.1 hi
  have hj' : j < x'.length := h.length_eq ▸ hj
  exact ⟨x'[j], List.getElem?_eq_getElem hj', h.get hj hj'⟩

end Twins

/-- The code of expressions that are alike. -/
theorem Expr.Alike.twins {e e' : Expr} (h : e.Alike R e')
    (ht : ∀ t ∈ e.texts, t ∈ m.texts ∧ t ∈ m'.texts) :
    Twins m m' R index index' f (e.emit m.strings.offset) (e'.emit m'.strings.offset) := by
  induction h with
  | literal value => exact .single (.same rfl nofun nofun)
  | text value =>
    have := ht value (List.mem_singleton_self value)
    exact .single (.text this.1 this.2)
  | slot index => exact .single (.same rfl nofun nofun)
  | arithmetic op _ _ ihl ihr =>
    have hr := ihr fun t h => ht t (List.mem_append_left _ h)
    have hl := ihl fun t h => ht t (List.mem_append_right _ h)
    refine (hr.append hl).append (.single ?_)
    cases op <;> exact .same rfl nofun nofun
  | comparison op _ _ ihl ihr =>
    have hl := ihl fun t h => ht t (List.mem_append_left _ h)
    have hr := ihr fun t h => ht t (List.mem_append_right _ h)
    refine (hl.append hr).append (.single ?_)
    cases op <;> exact .same rfl nofun nofun
  | not _ ih => exact (ih ht).append (.single (.same rfl nofun nofun))
  | call hcall => exact .single (.call hcall)
  | getByte => exact .single (.same rfl nofun nofun)

namespace Stmt

mutual

/-- The code of statements that are alike. -/
theorem Alike.twins : ∀ {s s' : Stmt}, Alike R s s' → (∀ t ∈ texts s, t ∈ m.texts ∧ t ∈ m'.texts) →
    ∀ next next' : Nat, m.firstLabel index < next →
    next + labels s ≤ m.firstLabel index + f.labels →
    next' + m.firstLabel index = next + m'.firstLabel index' →
    Twins m m' R index index' f (emit m.strings.offset (m.firstLabel index) next s)
      (emit m'.strings.offset (m'.firstLabel index') next' s')
  | _, _, .store _ h, ht, _, _, _, _, _ => (h.twins ht).append (.single (.same rfl nofun nofun))
  | _, _, .discard h, ht, _, _, _, _, _ => (h.twins ht).append (.single (.same rfl nofun nofun))
  | _, _, .putInt h, ht, _, _, _, _, _ => (h.twins ht).append (.single (.same rfl nofun nofun))
  | _, _, .putString h, ht, _, _, _, _, _ => (h.twins ht).append (.single (.same rfl nofun nofun))
  | _, _, .giveBack h, ht, _, _, _, _, _ =>
    (h.twins ht).append (.single (.label (.inr (.inl rfl)) (m.end_mem index f) (Nat.add_comm _ _)))
  | _, _, .loop hc hb, ht, next, next', hlow, hhigh, hnext => by
    simp only [labels] at hhigh
    have hcond : Twins m m' R index index' f _ _ := hc.twins fun t h => ht t (List.mem_append_left _ h)
    have hbody := hb.twins (fun t h => ht t (List.mem_append_right _ h)) (next + 2) (next' + 2)
      (by omega) (by omega) (by omega)
    have start : m.Inner index f ⟨next⟩ := ⟨hlow, by simp only; omega⟩
    have stop : m.Inner index f ⟨next + 1⟩ := ⟨by simp only; omega, by simp only; omega⟩
    refine .append (.append (.append (.cons (.label (.inl rfl) start.mem hnext) hcond)
      (.single (.label (.inr (.inr rfl)) stop.mem (by omega)))) hbody) ?_
    exact .cons (.label (.inr (.inl rfl)) start.mem hnext)
      (.single (.label (.inl rfl) stop.mem (by omega)))
  | _, _, .ifThen hc hb, ht, next, next', hlow, hhigh, hnext => by
    simp only [labels] at hhigh
    have hcond : Twins m m' R index index' f _ _ := hc.twins fun t h => ht t (List.mem_append_left _ h)
    have hbody := hb.twins (fun t h => ht t (List.mem_append_right _ h)) (next + 1) (next' + 1)
      (by omega) (by omega) (by omega)
    have stop : m.Inner index f ⟨next⟩ := ⟨hlow, by simp only; omega⟩
    exact ((hcond.append (.single (.label (.inr (.inr rfl)) stop.mem hnext))).append hbody).append
      (.single (.label (.inl rfl) stop.mem hnext))
  | .ifElse _ body _, .ifElse _ body' _, .ifElse hc hb ho, ht, next, next', hlow, hhigh, hnext => by
    simp only [labels] at hhigh
    simp only [texts, List.mem_append] at ht
    have hlabels := hb.labels_eq
    have hcond : Twins m m' R index index' f _ _ := hc.twins fun t h => ht t (.inl (.inl h))
    have hbody := hb.twins (fun t h => ht t (.inl (.inr h))) (next + 1) (next' + 1)
      (by omega) (by omega) (by omega)
    have hother := ho.twins (fun t h => ht t (.inr h)) (next + 1 + labelsOfAll body + 1)
      (next' + 1 + labelsOfAll body' + 1) (by omega) (by omega) (by omega)
    have no : m.Inner index f ⟨next⟩ := ⟨hlow, by simp only; omega⟩
    have stop : m.Inner index f ⟨next + 1 + labelsOfAll body⟩ :=
      ⟨by simp only; omega, by simp only; omega⟩
    have hstop : next' + 1 + labelsOfAll body' + m.firstLabel index =
        next + 1 + labelsOfAll body + m'.firstLabel index' := by omega
    have hyes := (hcond.append (.single (.label (.inr (.inr rfl)) no.mem hnext))).append hbody
    have between : Twins m m' R index index' f [ofLabel .jump _, ofLabel .mark _] _ :=
      .cons (.label (.inr (.inl rfl)) stop.mem hstop) (.single (.label (.inl rfl) no.mem hnext))
    exact ((hyes.append between).append hother).append (.single (.label (.inl rfl) stop.mem hstop))

/-- The code of statements that are alike, one after the other. -/
theorem AllAlike.twins : ∀ {ss ss' : List Stmt}, AllAlike R ss ss' →
    (∀ t ∈ textsOfAll ss, t ∈ m.texts ∧ t ∈ m'.texts) →
    ∀ next next' : Nat, m.firstLabel index < next →
    next + labelsOfAll ss ≤ m.firstLabel index + f.labels →
    next' + m.firstLabel index = next + m'.firstLabel index' →
    Twins m m' R index index' f (emitAll m.strings.offset (m.firstLabel index) next ss)
      (emitAll m'.strings.offset (m'.firstLabel index') next' ss')
  | _, _, .nil, _, _, _, _, _, _ => .nil
  | s :: _, s' :: _, .cons h hs, ht, next, next', hlow, hhigh, hnext => by
    simp only [labelsOfAll] at hhigh
    have hlabels := h.labels_eq
    have hfirst := h.twins (fun t h => ht t (List.mem_append_left _ h)) next next' hlow (by omega) hnext
    have hothers := hs.twins (fun t h => ht t (List.mem_append_right _ h)) (next + labels s)
      (next' + labels s') (by omega) (by omega) (by omega)
    exact hfirst.append hothers

end

end Stmt

theorem Function.Alike.twins {f' : Function} (h : f.Alike R f') (hf : m.functions[index]? = some f)
    (hf' : m'.functions[index']? = some f') :
    Twins m m' R index index' f (m.functionCode index f) (m'.functionCode index' f') := by
  have hlabels : f.labels = 1 + Stmt.labelsOfAll f.body := rfl
  have ht : ∀ t ∈ Stmt.textsOfAll f.body, t ∈ m.texts ∧ t ∈ m'.texts := fun t ht =>
    ⟨List.mem_flatMap.2 ⟨f, List.mem_of_getElem? hf, ht⟩,
      List.mem_flatMap.2 ⟨f', List.mem_of_getElem? hf', h.body.texts_eq ▸ ht⟩⟩
  have hbody : Twins m m' R index index' f _ _ := h.body.twins ht (m.firstLabel index + 1)
    (m'.firstLabel index' + 1) (by omega) (by omega) (by omega)
  have copies {i : Instruction} (hi : i.opcode.isLocal) (hmark : i.opcode ≠ .mark)
      (hhalt : i.opcode ≠ .halt) :
      Twins m m' R index index' f (.replicate f.locals i) (.replicate f'.locals i) := by
    rw [h.locals]
    exact .same fun j hj => List.eq_of_mem_replicate hj ▸ ⟨hi, hmark, hhalt⟩
  have hprologue : Twins m m' R index index' f (f.prologue index) (f'.prologue index') :=
    .append (.append (.cons .enter (.single (.same rfl nofun nofun))) (copies rfl nofun nofun))
      (.single (.same rfl nofun nofun))
  have hepilogue : Twins m m' R index index' f (f.epilogue (m.firstLabel index))
      (f'.epilogue (m'.firstLabel index')) :=
    .append (.append (.cons (.label (.inl rfl) (m.end_mem index f) (Nat.add_comm _ _))
      (.single (.same rfl nofun nofun))) (copies rfl nofun nofun))
      (.cons (.same rfl nofun nofun) (.single .ret))
  have hzero : Twin m m' R index index' f ⟨.loadImmediate, 0⟩ ⟨.loadImmediate, 0⟩ :=
    .same rfl nofun nofun
  exact ((hprologue.append hbody).append (.single hzero)).append hepilogue

/-- An instruction at the place of a mark for a label that is set aside is the mark for the label of
the same count. -/
theorem Twin.eq_of_mark {l l' : Nat} {i' : Instruction}
    (h : Twin m m' R index index' f (ofLabel .mark ⟨l⟩) i') (hf : m.functions[index]? = some f)
    (hid : m.entry.id < 0x100000000) (hl : ⟨l⟩ ∈ labelsFrom (m.firstLabel index) f.labels)
    (hl' : l' + m.firstLabel index = l + m'.firstLabel index') : i' = ofLabel .mark ⟨l'⟩ := by
  have hbound := Module.firstLabel_add_labels_le_entry hf
  have hindex := Module.lt_of_getElem? hf
  have hlow := Module.length_le_firstLabel m index
  have hrange := mem_labelsFrom.1 hl
  simp only at hrange
  generalize hi : ofLabel .mark ⟨l⟩ = i at h
  cases h with
  | same _ hmark => exact (hmark (hi ▸ rfl)).elim
  | enter =>
    have := congrArg Label.id (Label.operand_inj (l := ⟨l⟩) (k := ⟨index⟩) (by simp only; omega)
      (by simp only; omega) (congrArg Instruction.operand hi))
    simp only at this
    omega
  | @label op hop k k' hk hk' =>
    have hrange' := mem_labelsFrom.1 hk
    simp only at hrange'
    have heq := congrArg Label.id (Label.operand_inj (l := ⟨l⟩) (k := ⟨k⟩) (by simp only; omega)
      (by simp only; omega) (congrArg Instruction.operand hi))
    have hopcode : Opcode.mark = op := congrArg Instruction.opcode hi
    simp only at heq
    rw [← hopcode, show k' = l' by omega]
  | _ => cases hi

end

/-! ## Programs that are alike correspond -/

/-- Addresses at the same place of related functions, or of the entries. -/
inductive Counterpart (m m' : Module) (R : Nat → Nat → Prop) : Nat → Nat → Prop where
  | function {index index' j : Nat} {f : Function} (hR : R index index')
    (hf : m.functions[index]? = some f) (hj : j < (m.functionCode index f).length) :
    Counterpart m m' R (m.start index + j) (m'.start index' + j)
  | entry {j : Nat} (hj : j < 4) : Counterpart m m' R (m.entryStart + j) (m'.entryStart + j)

namespace Module.Alike

variable {m m' : Module} {p q : Program} (h : m.Alike m' R) (hp : m.assemble = .ok p)
  (hq : m'.assemble = .ok q)

include h

/-- The starts of related functions. -/
theorem counterpart_start {index index' : Nat} (hR : R index index') :
    Counterpart m m' R (m.start index) (m'.start index') := by
  obtain ⟨f, f', hf, -, -⟩ := h.functions hR
  exact .function (j := 0) hR hf
    (by simp [Module.functionCode, Function.emit, Function.prologue])

/-- The function that is related to a function, and its code. -/
theorem exists_twins {index index' : Nat} {f : Function} (hR : R index index')
    (hf : m.functions[index]? = some f) : ∃ f', m'.functions[index']? = some f' ∧ f.Alike R f' ∧
      Twins m m' R index index' f (m.functionCode index f) (m'.functionCode index' f') := by
  obtain ⟨g, f', hg, hf', halike⟩ := h.functions hR
  obtain rfl := Option.some.inj (hf.symm.trans hg)
  exact ⟨f', hf', halike, halike.twins hf hf'⟩

include hp hq

/-- Labels of the same count lead to the same place of related functions. -/
theorem counterpart_label {index index' : Nat} {f : Function} (hR : R index index')
    (hf : m.functions[index]? = some f) {l l' : Nat}
    (hl : ⟨l⟩ ∈ labelsFrom (m.firstLabel index) f.labels)
    (hl' : l' + m.firstLabel index = l + m'.firstLabel index') :
    ∃ t t', (Label.ofOperand? (Label.mk l).operand).bind p.labels.resolve? = some t ∧
      (Label.ofOperand? (Label.mk l').operand).bind q.labels.resolve? = some t' ∧
      Counterpart m m' R t t' := by
  obtain ⟨rfl, hid⟩ := assemble_eq_ok hp
  obtain ⟨rfl, hid'⟩ := assemble_eq_ok hq
  obtain ⟨f', hf', halike, htwins⟩ := h.exists_twins hR hf
  obtain ⟨j, hj, htarget⟩ := target?_label hid hf hl
  obtain ⟨i', hj', htwin⟩ := htwins.getElem? hj
  obtain rfl := htwin.eq_of_mark hf hid hl hl'
  have hrange := mem_labelsFrom.1 hl
  have hbound := firstLabel_add_labels_le_entry hf'
  have hlabels := halike.labels_eq
  simp only at hrange
  have hmark : m'.emit[m'.start index' + j]? = some (ofLabel .mark ⟨l'⟩) := by
    rw [(holds_function hf').getElem? (List.getElem?_eq_some_iff.1 hj').1, hj']
  exact ⟨_, _, htarget, target?_mark hid' (by simp only; omega) hmark,
    .function hR hf (List.getElem?_eq_some_iff.1 hj).1⟩

/-- Functions that are related are called alike. -/
theorem counterpart_call {index index' : Nat} (hR : R index index') :
    ∃ t t', (Label.ofOperand? (Label.mk index).operand).bind p.labels.resolve? = some t ∧
      (Label.ofOperand? (Label.mk index').operand).bind q.labels.resolve? = some t' ∧
      Counterpart m m' R t t' := by
  obtain ⟨rfl, hid⟩ := assemble_eq_ok hp
  obtain ⟨rfl, hid'⟩ := assemble_eq_ok hq
  obtain ⟨f, f', hf, hf', -⟩ := h.functions hR
  exact ⟨_, _, target?_function hid hf, target?_function hid' hf', h.counterpart_start hR⟩

variable (hstatics : p.statics.length < 0x8000000000000000)
  (hstatics' : q.statics.length < 0x8000000000000000)

include hstatics hstatics'

/-- Instructions at the same place of related functions match. -/
theorem matches_function {index index' j : Nat} {f : Function} {i i' : Instruction}
    (hR : R index index') (hf : m.functions[index]? = some f)
    (hi : (m.functionCode index f)[j]? = some i) (htwin : Twin m m' R index index' f i i') :
    Matches p q (Counterpart m m' R) (m.start index + j) (m'.start index' + j) i i' := by
  have hnext (hne : i ≠ bare .ret) :
      Counterpart m m' R (m.start index + j + 1) (m'.start index' + j + 1) :=
    .function (j := j + 1) hR hf (lt_length_of_ne_ret hi hne)
  cases htwin with
  | same hlocal => exact .same hlocal fun _ => hnext fun e => by rw [e] at hlocal; cases hlocal
  | text hv hv' =>
    have hp' := (assemble_eq_ok hp).1
    have hq' := (assemble_eq_ok hq).1
    rw [hp'] at hstatics ⊢
    rw [hq'] at hstatics' ⊢
    exact .newString (StringPool.string_word (StringPool.mem_ofList hv) hstatics)
      (StringPool.string_word (StringPool.mem_ofList hv') hstatics') (hnext nofun)
  | call hcallee =>
    obtain ⟨t, t', ht, ht', htarget⟩ := h.counterpart_call hp hq hcallee
    exact .call ht ht' htarget (hnext nofun)
  | enter => exact .mark _ _ (hnext nofun)
  | label hop hl hl' =>
    obtain ⟨t, t', ht, ht', htarget⟩ := h.counterpart_label hp hq hR hf hl hl'
    rcases hop with rfl | rfl | rfl
    · exact .mark _ _ (hnext nofun)
    · exact .jump ht ht' htarget
    · exact .jumpIfZero ht ht' htarget (hnext nofun)
  | ret => exact .ret

omit hstatics hstatics' in
/-- The instructions of the entries match. -/
theorem matches_entry {j : Nat} (hj : j < 4) : ∃ i i', m.entryCode[j]? = some i ∧
    m'.entryCode[j]? = some i' ∧
    Matches p q (Counterpart m m' R) (m.entryStart + j) (m'.entryStart + j) i i' := by
  obtain ⟨t, t', ht, ht', htarget⟩ := h.counterpart_call hp hq h.main
  have hnext (hlt : j + 1 < 4) :
      Counterpart m m' R (m.entryStart + j + 1) (m'.entryStart + j + 1) := .entry (j := j + 1) hlt
  obtain rfl | rfl | rfl | rfl : j = 0 ∨ j = 1 ∨ j = 2 ∨ j = 3 := by omega
  · exact ⟨_, _, rfl, rfl, .mark _ _ (hnext (by omega))⟩
  · exact ⟨_, _, rfl, rfl, .call ht ht' htarget (hnext (by omega))⟩
  · exact ⟨_, _, rfl, rfl, .same rfl fun _ => hnext (by omega)⟩
  · exact ⟨_, _, rfl, rfl, .same rfl fun hne => absurd rfl hne⟩

/-- Programs that are alike correspond when they are assembled. -/
theorem corresponds : p.Corresponds q (Counterpart m m' R) where
  start := by
    rw [start_of_assemble hp, start_of_assemble hq]
    exact .entry (j := 0) (by omega)
  name hpair := by
    cases hpair with
    | function hR hf hj =>
      obtain ⟨f', hf', halike, htwins⟩ := h.exists_twins hR hf
      rw [functionNameAt?_function hp hf hj, functionNameAt?_function hq hf' (htwins.length_eq ▸ hj),
        halike.name]
    | entry hj => rw [functionNameAt?_entry hp, functionNameAt?_entry hq]
  code hpair := by
    have hcode : p.code = m.emit.toArray := by rw [(assemble_eq_ok hp).1]
    have hcode' : q.code = m'.emit.toArray := by rw [(assemble_eq_ok hq).1]
    simp only [hcode, hcode', List.getElem?_toArray]
    cases hpair with
    | function hR hf hj =>
      obtain ⟨f', hf', halike, htwins⟩ := h.exists_twins hR hf
      have hi := List.getElem?_eq_getElem hj
      obtain ⟨i', hi', htwin⟩ := htwins.getElem? hi
      refine ⟨_, i', ?_, ?_, h.matches_function hp hq hstatics hstatics' hR hf hi htwin⟩
      · rw [(holds_function hf).getElem? hj, hi]
      · rw [(holds_function hf').getElem? (htwins.length_eq ▸ hj), hi']
    | entry hj =>
      obtain ⟨i, i', hi, hi', hmatches⟩ := h.matches_entry hp hq hj
      refine ⟨i, i', ?_, ?_, hmatches⟩
      · rw [m.holds_entry.getElem? hj, hi]
      · rw [m'.holds_entry.getElem? hj, hi']

end Module.Alike

end StackLang.Core
