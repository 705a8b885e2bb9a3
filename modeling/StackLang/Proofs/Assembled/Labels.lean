import StackLang.Proofs.Assembled.Acceptance
import StackLang.Proofs.Core.Chain
import StackLang.Proofs.Core.Jumps

/-!
# Labels of assembled programs

The labels of an assembled program are numbered without a gap and each is marked once. The code falls
into functions, one after the other, and the entry. Jumps stay in their function, calls lead to where a
function starts, and a function returns at its last instruction only.

Results:
* `Core.Module.exists_target_of_jump`, `Core.Module.exists_callee`: where jumps and calls lead.
* `labels_of_assemble`: the labels of an assembled program, and what refers to them.
-/
namespace StackLang

open Instruction

/-! ## Labels -/

namespace Core.Module

variable {m : Module} {a : Nat} {i : Instruction} {l : Label}

/-- A label of a program is marked at one address. -/
theorem existsUnique_marked (hid : m.entry.id < 0x100000000) (hl : l.id ≤ m.entry.id) :
    ∃! a : Nat, m.emit[a]?.bind Instruction.marked? = some l := by
  obtain ⟨a, ha, -⟩ := exists_address hid hl
  have hmarked : m.emit[a]?.bind Instruction.marked? = some l := by
    rw [ha]
    exact marked?_eq_some_iff.2 ⟨rfl, Label.ofOperand?_operand (by omega)⟩
  exact ⟨a, hmarked, fun b hb => eq_of_marked? (nodup_marks_emit hid) hb hmarked⟩

/-- The labels that instructions refer to are those up to the entry. -/
theorem exists_label?_iff (hv : m.Valid) (hid : m.entry.id < 0x100000000) :
    (∃ i ∈ m.emit, i.label? = some l) ↔ l.id ≤ m.entry.id := by
  constructor
  · rintro ⟨i, hi, hl⟩
    exact label_le hv hid hi hl
  · intro hl
    obtain ⟨a, ha, -⟩ := exists_address hid hl
    exact ⟨_, List.mem_of_getElem? ha, label?_ofLabel rfl (by omega)⟩

/-! ## Jumps and calls -/

theorem not_mem_entryCode (hop : i.opcode = .jump ∨ i.opcode = .jumpIfZero ∨ i.opcode = .ret) :
    i ∉ m.entryCode := by
  intro hi
  simp only [entryCode, List.mem_cons, List.not_mem_nil, or_false] at hi
  rcases hi with rfl | rfl | rfl | rfl <;> simp [ofLabel, ofRegister, bare] at hop

/-- A jump stands in a function and leads to a mark in the same function. -/
theorem exists_target_of_jump (hv : m.Valid) (hid : m.entry.id < 0x100000000)
    (hi : m.emit[a]? = some i) (hop : i.opcode = .jump ∨ i.opcode = .jumpIfZero) :
    ∃ index < m.functions.length, m.start index ≤ a ∧ a < m.start (index + 1) ∧
      ∃ l b, i.label? = some l ∧ (link m.emit).resolve? l = some b ∧
        m.emit[b]? = some (ofLabel .mark l) ∧ m.start index ≤ b ∧ b < m.start (index + 1) := by
  have hentry : a < m.entryStart := by
    by_contra hge
    exact not_mem_entryCode (hop.imp_right .inl) (mem_entryCode hi (Nat.le_of_not_lt hge))
  obtain ⟨index, f, j, hf, hj, rfl⟩ := exists_function hentry
  rw [(holds_function hf).getElem? hj] at hi
  obtain ⟨l, k, hlabel, -, hk, hresolve⟩ := exists_mark_of_jump hv hid hf hi hop
  have hlt := (List.getElem?_eq_some_iff.1 hk).1
  have hnext := start_succ hf
  refine ⟨index, lt_of_getElem? hf, by omega, by omega, l, m.start index + k, hlabel, hresolve, ?_,
    by omega, by omega⟩
  rw [(holds_function hf).getElem? hlt, hk]

/-- A call leads to where a function starts. -/
theorem exists_callee (hv : m.Valid) (hid : m.entry.id < 0x100000000) (hi : m.emit[a]? = some i)
    (hop : i.opcode = .call) : ∃ index < m.functions.length, i.label? = some ⟨index⟩ ∧
      (link m.emit).resolve? ⟨index⟩ = some (m.start index) := by
  obtain ⟨part?, hcovers⟩ := exists_covers (List.getElem?_eq_some_iff.1 hi).1
  obtain ⟨i', hi', hsited⟩ := sited hv hid hcovers
  obtain rfl : i' = i := Option.some.inj (hi'.symm.trans hi)
  obtain ⟨index, hindex, rfl, -⟩ := hsited.call hop
  have hlt : index < 0x100000000 := by
    have := m.length_le_entry
    omega
  have htarget := target?_function hid (List.getElem?_eq_getElem hindex)
  rw [Label.ofOperand?_operand hlt, Option.bind_some] at htarget
  exact ⟨index, hindex, label?_ofLabel rfl hlt, htarget⟩

end Core.Module

/-! ## Functions -/

/-- A function with this number and name stands from `start` up to `stop`: its first instruction marks
its label, and its last one is its only return. -/
structure Program.HasFunction (p : Program) (index : Nat) (name : String) (start stop : Nat) : Prop where
  name : p.names.get? index = some name
  lt : start < stop
  le : stop ≤ p.code.size
  first : p.code[start]? = some (ofLabel .mark ⟨index⟩)
  ret : ∀ (a : Nat) i, start ≤ a → a < stop → p.code[a]? = some i → (i.opcode = .ret ↔ a + 1 = stop)

theorem Core.Module.hasFunction {m : Core.Module} {p : Program} (hp : m.assemble = .ok p) {index : Nat}
    {f : Core.Function} (hf : m.functions[index]? = some f) :
    p.HasFunction index f.name (m.start index) (m.start (index + 1)) := by
  obtain ⟨rfl, hid⟩ := assemble_eq_ok hp
  have hnext := start_succ hf
  have hle : m.start (index + 1) ≤ m.entryStart := start_le_start (lt_of_getElem? hf) (Nat.le_refl _)
  constructor
  case name => exact names_function hf
  case lt =>
    rw [hnext]
    simp [functionCode, Function.emit, Function.prologue]
  case le => rw [size_emit]; omega
  case first =>
    rw [List.getElem?_toArray]
    exact (holds_function hf).head
  case ret =>
    intro a i hlow hhigh hi
    obtain ⟨j, rfl⟩ := Nat.exists_eq_add_of_le hlow
    rw [List.getElem?_toArray, (holds_function hf).getElem? (by omega)] at hi
    rw [opcode_eq_ret_iff hid hf hi]
    omega

/-- The labels of an assembled program are numbered without a gap, and each of them is marked once. The
functions of the tree stand one after the other, from the first address up to the entry, which is the
last four instructions. Returns are at the ends of functions only, each jump leads to a mark in the
function that it stands in, each call leads to where a function starts, and only the last instruction
halts. -/
theorem labels_of_assemble {t : Tree} {p : Program} (h : t.assemble = .ok p) :
    (∀ l : Label, (∃ i ∈ p.code, i.label? = some l) ↔ l.id < t.labelCount) ∧
    (∀ i ∈ p.code, i.opcode.operandRole = .label → ∃ l, i.label? = some l) ∧
    (∀ l : Label, l.id < t.labelCount → ∃! a : Nat, p.code[a]?.bind Instruction.marked? = some l) ∧
    (∀ (a : Nat) i, p.code[a]? = some i → (i.opcode = .halt ↔ a + 1 = p.code.size)) ∧
    ∃ start : Nat → Nat, start 0 = 0 ∧ start t.functions.length + 4 = p.code.size ∧
      (∀ index f, t.functions[index]? = some f →
        p.HasFunction index f.name.text (start index) (start (index + 1))) ∧
      (∀ (a : Nat) i, p.code[a]? = some i → i.opcode = .ret → a < start t.functions.length) ∧
      (∀ (a : Nat) i, p.code[a]? = some i → i.opcode = .jump ∨ i.opcode = .jumpIfZero →
        ∃ index < t.functions.length, start index ≤ a ∧ a < start (index + 1) ∧
          ∃ l b, i.label? = some l ∧ p.labels.resolve? l = some b ∧
            p.code[b]? = some (ofLabel .mark l) ∧ start index ≤ b ∧ b < start (index + 1)) ∧
      ∀ (a : Nat) i, p.code[a]? = some i → i.opcode = .call →
        ∃ index < t.functions.length, i.label? = some ⟨index⟩ ∧
          p.labels.resolve? ⟨index⟩ = some (start index) := by
  obtain ⟨m, hm, hp⟩ := Tree.assemble_eq_ok h
  have hv := Tree.valid_of_resolve hm
  have hcount := Tree.labelCount_of_resolve hm
  obtain ⟨names, -, -, -, hfunctions⟩ := Tree.resolve_eq_ok hm
  obtain ⟨hlength, hresolve⟩ := mapM_eq_ok hfunctions
  have hfunction {index : Nat} {g : Core.Function} (hg : m.functions[index]? = some g) :=
    Core.Module.hasFunction hp hg
  obtain ⟨rfl, hid⟩ := Core.Module.assemble_eq_ok hp
  simp only [List.mem_toArray, List.getElem?_toArray, m.size_emit, hlength, ← hcount,
    Nat.lt_succ_iff]
  refine ⟨fun l => Core.Module.exists_label?_iff hv hid, fun i hi hrole => ?_,
    fun l => Core.Module.existsUnique_marked hid, fun a i hi => ?_, m.start, rfl, rfl,
    fun index f hf => ?_, fun a i hi hop => ?_, fun a i => Core.Module.exists_target_of_jump hv hid,
    fun a i => Core.Module.exists_callee hv hid⟩
  · obtain ⟨l, hl, heq⟩ := Core.Module.exists_label hv hi hrole
    exact ⟨l, by rw [heq]; exact Core.label?_ofLabel hrole (by omega)⟩
  · rw [Core.Module.opcode_eq_halt_iff hv hi, Core.Module.length_emit]
  · obtain ⟨g, hg, hgf⟩ := hresolve index f hf
    obtain ⟨body, -, rfl⟩ := Function.resolve_eq_ok hgf
    exact hfunction hg
  · by_contra hge
    exact Core.Module.not_mem_entryCode (.inr (.inr hop))
      (Core.Module.mem_entryCode hi (Nat.le_of_not_lt hge))

/-- The program of two functions with a loop has seven labels. -/
theorem successor_labels : ∃ p, Tree.successor.assemble = .ok p ∧ Tree.successor.labelCount = 7 ∧
    (∃! a : Nat, p.code[a]?.bind Instruction.marked? = some ⟨6⟩) ∧
    ∃ start : Nat → Nat, start 0 = 0 ∧ start 2 + 4 = p.code.size ∧
      p.HasFunction 1 "next" (start 1) (start 2) := by
  obtain ⟨p, hp⟩ : ∃ p, Tree.successor.assemble = .ok p := ⟨_, rfl⟩
  obtain ⟨-, -, hmarked, -, start, hzero, hsize, hfunctions, -⟩ := labels_of_assemble hp
  exact ⟨p, hp, rfl, hmarked ⟨6⟩ (by decide), start, hzero, hsize, hfunctions 1 _ rfl⟩

end StackLang
