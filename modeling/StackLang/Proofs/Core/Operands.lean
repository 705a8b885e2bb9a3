import StackLang.Proofs.Core.Places

/-!
# The operands of emitted code

An instruction of a valid program fits in one of its functions or is of its entry. Where its operand is not
used it is 0, and where it is a label, the label is one of the program, which is marked in the code.

Results:
* `Module.operand_of_unused`, `Module.exists_label`: what the operands of instructions are.
* `Module.exists_address`: the labels of a program are marked, and lead to where they are marked.
-/
namespace StackLang.Core

open Instruction

theorem label?_ofLabel {op : Opcode} (hop : op.operandRole = .label) {l : Label}
    (hl : l.id < 0x100000000) : (ofLabel op l).label? = some l := by
  rw [ofLabel, label?, if_pos hop, Label.ofOperand?_operand hl]

variable {m : Module} {index : Nat} {f : Function} {s : Place} {i : Instruction}

/-! ## Instructions of functions -/

/-- An operand that is not used is 0. -/
theorem Fits.operand_of_unused (h : Fits m index f s i) (hrole : i.opcode.operandRole = .unused) :
    i.operand = 0 := by
  cases h with
  | arithmetic _ op | comparison _ op => rfl
  | _ => first | rfl | cases hrole

/-- The labels that a function refers to are among those of the program. -/
theorem Fits.exists_label (hf : m.functions[index]? = some f) (h : Fits m index f s i)
    (hrole : i.opcode.operandRole = .label) : ∃ l, l.id ≤ m.entry.id ∧ i = ofLabel i.opcode l := by
  have hbound := Module.firstLabel_add_labels_le_entry hf
  have hindex := Module.lt_of_getElem? hf
  have hlow := Module.length_le_firstLabel m index
  cases h with
  | enter => exact ⟨⟨index⟩, by simp only; omega, rfl⟩
  | call k h => exact ⟨_, by simp only; omega, rfl⟩
  | mark h | jump h | jumpIfZero h =>
    have := h.2
    exact ⟨_, by omega, rfl⟩
  | giveBack | finish => exact ⟨⟨m.firstLabel index⟩, by simp only; omega, rfl⟩
  | arithmetic _ op | comparison _ op => cases op <;> cases hrole
  | _ => cases hrole

/-! ## Instructions of programs -/

namespace Module

theorem mem_entryCode {a : Nat} (ha : m.emit[a]? = some i) (hge : m.entryStart ≤ a) :
    i ∈ m.entryCode := by
  obtain ⟨j, rfl⟩ := Nat.exists_eq_add_of_le hge
  have hlt := (List.getElem?_eq_some_iff.1 ha).1
  rw [length_emit] at hlt
  rw [m.holds_entry.getElem? (show j < 4 by omega)] at ha
  exact List.mem_of_getElem? ha

/-- An instruction of a program fits in a function, or is of the entry. -/
theorem cases_of_mem_emit (hv : m.Valid) (hi : i ∈ m.emit) :
    (∃ index f s, m.functions[index]? = some f ∧ Fits m index f s i) ∨ i ∈ m.entryCode := by
  obtain ⟨a, ha⟩ := List.getElem?_of_mem hi
  by_cases hlt : a < m.entryStart
  · obtain ⟨index, f, j, hf, hj, rfl⟩ := exists_function hlt
    rw [(holds_function hf).getElem? hj] at ha
    exact .inl ⟨index, f, _, hf, fits_placeAt hv hf ha⟩
  · exact .inr (mem_entryCode ha (Nat.le_of_not_lt hlt))

/-- An operand that is not used is 0. -/
theorem operand_of_unused (hv : m.Valid) (hi : i ∈ m.emit) (hrole : i.opcode.operandRole = .unused) :
    i.operand = 0 := by
  obtain ⟨index, f, s, -, hfits⟩ | hentry := cases_of_mem_emit hv hi
  · exact hfits.operand_of_unused hrole
  · simp only [entryCode, List.mem_cons, List.not_mem_nil, or_false] at hentry
    obtain rfl | rfl | rfl | rfl := hentry <;> first | rfl | cases hrole

/-- The labels that the code of a valid program refers to are among its own. -/
theorem exists_label (hv : m.Valid) (hi : i ∈ m.emit) (hrole : i.opcode.operandRole = .label) :
    ∃ l, l.id ≤ m.entry.id ∧ i = ofLabel i.opcode l := by
  obtain ⟨index, f, s, hf, hfits⟩ | hentry := cases_of_mem_emit hv hi
  · exact hfits.exists_label hf hrole
  · have hmain : m.main ≤ m.entry.id := by
      have := hv.main
      have := m.length_le_entry
      omega
    simp only [entryCode, List.mem_cons, List.not_mem_nil, or_false] at hentry
    obtain rfl | rfl | rfl | rfl := hentry
    · exact ⟨m.entry, Nat.le_refl _, rfl⟩
    · exact ⟨⟨m.main⟩, hmain, rfl⟩
    · cases hrole
    · cases hrole

theorem label_le (hv : m.Valid) (hid : m.entry.id < 0x100000000) (hi : i ∈ m.emit) {l : Label}
    (hl : i.label? = some l) : l.id ≤ m.entry.id := by
  have hrole := role_of_label? hl
  obtain ⟨k, hk, heq⟩ := exists_label hv hi hrole
  rw [heq, label?_ofLabel hrole (by omega)] at hl
  cases hl
  exact hk

/-- The labels of a program are marked, and lead to where they are marked. -/
theorem exists_address (hid : m.entry.id < 0x100000000) {l : Label} (hl : l.id ≤ m.entry.id) :
    ∃ a, m.emit[a]? = some (ofLabel .mark l) ∧ (link m.emit).resolve? l = some a := by
  have hmem : l ∈ labelsFrom 0 (m.entry.id + 1) := mem_labelsFrom.2 ⟨Nat.zero_le _, by omega⟩
  obtain ⟨i, hi, hmark⟩ := mem_marks.1 ((marks_emit hid).mem_iff.2 hmem)
  obtain ⟨a, ha⟩ := List.getElem?_of_mem hi
  obtain ⟨hop, hoperand⟩ := marked?_eq_some_iff.1 hmark
  have heq : i = ofLabel .mark l := by
    rw [ofLabel, ← Label.operand_of_ofOperand? hoperand, ← hop]
  exact ⟨a, heq ▸ ha, resolve?_link_of_nodup (nodup_marks_emit hid) (by rw [ha]; exact hmark)⟩

end Module
end StackLang.Core
