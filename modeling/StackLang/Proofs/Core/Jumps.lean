import StackLang.Proofs.Core.Chain
import StackLang.Proofs.Core.Operands

/-!
# Where emitted code jumps to

The code of a statement jumps to the labels that are set aside for the statement and to the end of the
function, and to no other label. It has no return: a function returns at its last instruction only.

Results:
* `Core.Stmt.stays_emit`, `Core.Stmt.stays_emitAll`: where the instructions of statements lead.
* `Core.Module.opcode_eq_ret_iff`: where a function returns.
* `Core.Module.exists_mark_of_jump`: where a jump leads.
* `Core.Module.opcode_eq_halt_iff`: where a program stops.
-/
namespace StackLang

/-- The label that an instruction jumps to. A call is not a jump. -/
def Instruction.jumpsTo? (i : Instruction) : Option Label :=
  if i.opcode = .jump ∨ i.opcode = .jumpIfZero then i.label? else none

namespace Core

open Instruction

/-- An instruction that does not return, and jumps only to the end of its function, the label `done`, or
to labels from `low` up to `high`. -/
structure Stays (done low high : Nat) (i : Instruction) : Prop where
  ret : i.opcode ≠ .ret
  jump : ∀ l, i.jumpsTo? = some l → l.id = done ∨ low ≤ l.id ∧ l.id < high

namespace Stays

variable {done low high low' high' : Nat} {i : Instruction}

theorem mono (h : Stays done low high i) (hlow : low' ≤ low) (hhigh : high ≤ high') :
    Stays done low' high' i where
  ret := h.ret
  jump l hl := (h.jump l hl).imp_right fun ⟨h₁, h₂⟩ =>
    ⟨Nat.le_trans hlow h₁, Nat.lt_of_lt_of_le h₂ hhigh⟩

theorem of_opcode (h : i.opcode ∉ [.ret, .jump, .jumpIfZero]) : Stays done low high i := by
  simp only [List.mem_cons, List.not_mem_nil, or_false, not_or] at h
  refine ⟨h.1, fun l hl => ?_⟩
  rw [jumpsTo?, if_neg (not_or.2 h.2)] at hl
  cases hl

theorem mark (l : Label) : Stays done low high (Instruction.ofLabel .mark l) :=
  .of_opcode (by simp [Instruction.ofLabel])

theorem ofLabel {op : Opcode} (hop : op = .jump ∨ op = .jumpIfZero) {l : Label}
    (hid : l.id < 0x100000000) (hl : l.id = done ∨ low ≤ l.id ∧ l.id < high) :
    Stays done low high (ofLabel op l) where
  ret := by rcases hop with rfl | rfl <;> simp [Instruction.ofLabel]
  jump k hk := by
    have hrole : op.operandRole = .label := by rcases hop with rfl | rfl <;> rfl
    rw [jumpsTo?, if_pos (by exact hop), label?_ofLabel hrole hid] at hk
    cases hk
    exact hl

end Stays

variable (offset : String → Nat) {done : Nat}

/-- The code of an expression has no jump. -/
theorem Expr.stays_emit (done low high : Nat) (e : Expr) :
    ∀ i ∈ e.emit offset, Stays done low high i := by
  induction e with
  | literal | text | slot | getByte => exact List.forall_mem_singleton.2 (.of_opcode (by simp [bare]))
  | call => exact List.forall_mem_singleton.2 (.of_opcode (by simp [Instruction.ofLabel]))
  | not operand ih =>
    exact List.forall_mem_append.2 ⟨ih, List.forall_mem_singleton.2 (.of_opcode (by simp [bare]))⟩
  | arithmetic op left right ihl ihr =>
    have hop : Stays done low high (bare op.opcode) :=
      .of_opcode (by cases op <;> simp [bare, Arithmetic.opcode])
    exact List.forall_mem_append.2
      ⟨List.forall_mem_append.2 ⟨ihr, ihl⟩, List.forall_mem_singleton.2 hop⟩
  | comparison op left right ihl ihr =>
    have hop : Stays done low high (bare op.opcode) :=
      .of_opcode (by cases op <;> simp [bare, Comparison.opcode])
    exact List.forall_mem_append.2
      ⟨List.forall_mem_append.2 ⟨ihl, ihr⟩, List.forall_mem_singleton.2 hop⟩

namespace Stmt

mutual

/-- The code of a statement stays in its function and keeps to its own labels. -/
theorem stays_emit (hdone : done < 0x100000000) (next : Nat) : ∀ s : Stmt,
    next + labels s ≤ 0x100000000 →
    ∀ i ∈ emit offset done next s, Stays done next (next + labels s) i
  | .store _ value, _ | .discard value, _ | .putInt value, _ | .putString value, _ =>
    List.forall_mem_append.2 ⟨value.stays_emit offset _ _ _,
      List.forall_mem_singleton.2 (.of_opcode (by simp [bare]))⟩
  | .giveBack value, _ =>
    List.forall_mem_append.2 ⟨value.stays_emit offset _ _ _,
      List.forall_mem_singleton.2 (.ofLabel (.inl rfl) hdone (.inl rfl))⟩
  | .loop condition body, h => by
    simp only [labels] at h ⊢
    have hbody := stays_emitAll hdone (next + 2) body (by omega)
    have back : Stays done next (next + (2 + labelsOfAll body)) (ofLabel .jump ⟨next⟩) :=
      .ofLabel (.inl rfl) (by simp only; omega) (.inr (by simp only; omega))
    have leave : Stays done next (next + (2 + labelsOfAll body)) (ofLabel .jumpIfZero ⟨next + 1⟩) :=
      .ofLabel (.inr rfl) (by simp only; omega) (.inr (by simp only; omega))
    simp only [emit, List.forall_mem_append, List.forall_mem_cons, List.not_mem_nil, false_imp_iff,
      implies_true, and_true]
    exact ⟨⟨⟨⟨.mark _, condition.stays_emit offset _ _ _⟩, leave⟩,
      fun i hi => (hbody i hi).mono (by omega) (by omega)⟩, back, .mark _⟩
  | .ifThen condition body, h => by
    simp only [labels] at h ⊢
    have hbody := stays_emitAll hdone (next + 1) body (by omega)
    have leave : Stays done next (next + (1 + labelsOfAll body)) (ofLabel .jumpIfZero ⟨next⟩) :=
      .ofLabel (.inr rfl) (by simp only; omega) (.inr (by simp only; omega))
    simp only [emit, List.forall_mem_append, List.forall_mem_cons, List.not_mem_nil, false_imp_iff,
      implies_true, and_true]
    exact ⟨⟨⟨condition.stays_emit offset _ _ _, leave⟩,
      fun i hi => (hbody i hi).mono (by omega) (by omega)⟩, .mark _⟩
  | .ifElse condition body other, h => by
    simp only [labels] at h ⊢
    have hbody := stays_emitAll hdone (next + 1) body (by omega)
    have hother := stays_emitAll hdone (next + 1 + labelsOfAll body + 1) other (by omega)
    have leave : Stays done next (next + (2 + labelsOfAll body + labelsOfAll other))
        (ofLabel .jumpIfZero ⟨next⟩) :=
      .ofLabel (.inr rfl) (by simp only; omega) (.inr (by simp only; omega))
    have skip : Stays done next (next + (2 + labelsOfAll body + labelsOfAll other))
        (ofLabel .jump ⟨next + 1 + labelsOfAll body⟩) :=
      .ofLabel (.inl rfl) (by simp only; omega) (.inr (by simp only; omega))
    simp only [emit, List.forall_mem_append, List.forall_mem_cons, List.not_mem_nil, false_imp_iff,
      implies_true, and_true]
    exact ⟨⟨⟨⟨⟨condition.stays_emit offset _ _ _, leave⟩,
      fun i hi => (hbody i hi).mono (by omega) (by omega)⟩, skip, .mark _⟩,
      fun i hi => (hother i hi).mono (by omega) (by omega)⟩, .mark _⟩

/-- The code of statements stays in its function and keeps to its own labels. -/
theorem stays_emitAll (hdone : done < 0x100000000) (next : Nat) : ∀ ss : List Stmt,
    next + labelsOfAll ss ≤ 0x100000000 →
    ∀ i ∈ emitAll offset done next ss, Stays done next (next + labelsOfAll ss) i
  | [], _ => by simp [emitAll]
  | s :: ss, h => by
    simp only [labelsOfAll] at h ⊢
    have first := stays_emit hdone next s (by omega)
    have others := stays_emitAll hdone (next + labels s) ss (by omega)
    exact List.forall_mem_append.2 ⟨fun i hi => (first i hi).mono (by omega) (by omega),
      fun i hi => (others i hi).mono (by omega) (by omega)⟩

end

end Stmt

/-! ## Returns, jumps and the halt -/

variable {m : Module} {index : Nat} {f : Function} {i : Instruction}

/-- Without its last instruction, a function has no return. -/
theorem Function.exists_emit_eq (f : Function) (index next : Nat)
    (h : next + f.labels ≤ 0x100000000) :
    ∃ code, f.emit offset index next = code ++ [bare .ret] ∧ ∀ i ∈ code, i.opcode ≠ .ret := by
  simp only [labels] at h
  have hbody := Stmt.stays_emitAll offset (show next < 0x100000000 by omega) (next + 1) f.body
    (by omega)
  refine ⟨f.prologue index ++ Stmt.emitAll offset next (next + 1) f.body ++ [⟨.loadImmediate, 0⟩] ++
    ([ofLabel .mark ⟨next⟩, ofRegister .store .r0] ++ List.replicate f.locals (bare .pop) ++
      [ofRegister .store .fp]), by simp [emit, epilogue], ?_⟩
  have zeros : ∀ i ∈ List.replicate f.locals (⟨.loadImmediate, 0⟩ : Instruction), i.opcode ≠ .ret :=
    fun i hi => by simp [List.eq_of_mem_replicate hi]
  have pops : ∀ i ∈ List.replicate f.locals (bare .pop), i.opcode ≠ .ret :=
    fun i hi => by simp [List.eq_of_mem_replicate hi, bare]
  simp only [prologue, List.forall_mem_append, List.forall_mem_singleton, List.forall_mem_cons]
  exact ⟨⟨⟨⟨⟨⟨by simp [ofLabel], by decide⟩, zeros⟩, by decide⟩, fun i hi => (hbody i hi).ret⟩,
    by decide⟩, ⟨⟨by simp [ofLabel], by decide⟩, pops⟩, by decide⟩

theorem Fits.opcode_ne_halt {s : Place} (h : Fits m index f s i) : i.opcode ≠ .halt := by
  cases h with
  | arithmetic _ op | comparison _ op => cases op <;> simp [bare, Arithmetic.opcode, Comparison.opcode]
  | _ => simp [bare, ofLabel, ofRegister]

namespace Module

/-- A function returns at its last instruction only. -/
theorem opcode_eq_ret_iff (hid : m.entry.id < 0x100000000) (hf : m.functions[index]? = some f) {j : Nat}
    (hi : (m.functionCode index f)[j]? = some i) :
    i.opcode = .ret ↔ j + 1 = (m.functionCode index f).length := by
  have hbound := firstLabel_add_labels_le_entry hf
  obtain ⟨code, hcode, hbefore⟩ := f.exists_emit_eq m.strings.offset index (m.firstLabel index)
    (by omega)
  rw [functionCode, hcode] at hi ⊢
  rw [List.length_append, List.length_singleton, Nat.succ_inj]
  rcases Nat.lt_trichotomy j code.length with hlt | rfl | hgt
  · rw [List.getElem?_append_left hlt] at hi
    simp [hbefore i (List.mem_of_getElem? hi), Nat.ne_of_lt hlt]
  · rw [List.getElem?_concat_length] at hi
    cases hi
    simp [bare]
  · rw [List.getElem?_eq_none (by rw [List.length_append]; exact hgt)] at hi
    cases hi

/-- A jump in a function leads to a mark in the same function. -/
theorem exists_mark_of_jump (hv : m.Valid) (hid : m.entry.id < 0x100000000)
    (hf : m.functions[index]? = some f) {j : Nat} (hi : (m.functionCode index f)[j]? = some i)
    (hop : i.opcode = .jump ∨ i.opcode = .jumpIfZero) : ∃ l k, i.label? = some l ∧
      Label.ofOperand? i.operand = some l ∧ (m.functionCode index f)[k]? = some (ofLabel .mark l) ∧
      (link m.emit).resolve? l = some (m.start index + k) := by
  obtain ⟨l, hl, hoperand⟩ := (fits_placeAt hv hf hi).label hop
  obtain ⟨k, hk, htarget⟩ := target?_label hid hf hl
  have hlt : l.id < 0x100000000 := by
    have := (mem_labelsFrom.1 hl).2
    have := firstLabel_add_labels_le_entry hf
    omega
  have hrole : i.opcode.operandRole = .label := by rcases hop with h | h <;> rw [h] <;> rfl
  have hnamed : Label.ofOperand? i.operand = some l := by rw [hoperand, Label.ofOperand?_operand hlt]
  refine ⟨l, k, by rw [label?, if_pos hrole, hnamed], hnamed, hk, ?_⟩
  rwa [← hoperand, hnamed, Option.bind_some] at htarget

/-- A program stops at its last instruction only. -/
theorem opcode_eq_halt_iff (hv : m.Valid) {a : Nat} (hi : m.emit[a]? = some i) :
    i.opcode = .halt ↔ a + 1 = m.emit.length := by
  rw [length_emit]
  by_cases hlt : a < m.entryStart
  · obtain ⟨index, f, j, hf, hj, rfl⟩ := exists_function hlt
    rw [(holds_function hf).getElem? hj] at hi
    have hne := (fits_placeAt hv hf hi).opcode_ne_halt
    simp only [hne, false_iff]
    omega
  · obtain ⟨j, rfl⟩ := Nat.exists_eq_add_of_le (Nat.le_of_not_lt hlt)
    have hj := (List.getElem?_eq_some_iff.1 hi).1
    rw [length_emit] at hj
    rw [m.holds_entry.getElem? (show j < 4 by omega)] at hi
    rcases j with _ | _ | _ | _ | j
    · cases hi; simp [ofLabel]
    · cases hi; simp [ofLabel]
    · cases hi; simp [ofRegister]
    · cases hi; simp [bare]
    · omega

end Module
end Core
end StackLang
