import Mathlib.Data.List.Sort
import StackLang.Proofs.Code.Listing
import StackLang.Proofs.Core.Names
import StackLang.Proofs.Core.Operands

/-!
# Programs that show the same at each address

A function starts with a mark and a `load`, which stands nowhere else. So the operations alone tell where
the functions start, and there a name is shown. All other labels but that of the entry are shown with their
numbers, and of a jump it is shown where it leads. So nothing of assembled code is hidden, even if a
function is named as a label is shown.

Results:
* `Module.load_iff`: only the starts of functions are followed by a `load`.
* `ShownAlike.starts_eq`, `ShownAlike.mark_eq`: where functions start, and what each mark marks.
* `ShownAlike.emit_eq`, `ShownAlike.names_eq`: programs that show the same have the same code and names.
-/
namespace StackLang.Core

open Instruction

/-! ## Where functions start -/

theorem Expr.ne_load_of_mem (offset : String → Nat) (e : Expr) :
    ∀ i ∈ e.emit offset, i.opcode ≠ .load := by
  induction e with
  | arithmetic op left right ihl ihr =>
    have hop : op.opcode ≠ .load := by cases op <;> decide
    simp only [emit, List.forall_mem_append, List.forall_mem_singleton]
    exact ⟨⟨ihr, ihl⟩, hop⟩
  | comparison op left right ihl ihr =>
    have hop : op.opcode ≠ .load := by cases op <;> decide
    simp only [emit, List.forall_mem_append, List.forall_mem_singleton]
    exact ⟨⟨ihl, ihr⟩, hop⟩
  | not operand ih =>
    simp only [emit, List.forall_mem_append, List.forall_mem_singleton]
    exact ⟨ih, by decide⟩
  | _ => simp [emit, bare, ofLabel]

namespace Stmt

variable (offset : String → Nat) (done : Nat)

mutual

theorem ne_load_of_mem (next : Nat) : ∀ s : Stmt, ∀ i ∈ emit offset done next s, i.opcode ≠ .load
  | .store _ value | .discard value | .putInt value | .putString value | .giveBack value => by
    have := value.ne_load_of_mem offset
    simp only [emit, List.forall_mem_append, List.forall_mem_singleton]
    exact ⟨this, by simp [bare, ofLabel]⟩
  | .loop condition body => by
    have hc := condition.ne_load_of_mem offset
    have hb := ne_load_of_mem_all (next + 2) body
    simp only [emit, List.forall_mem_append, List.forall_mem_cons]
    exact ⟨⟨⟨⟨by simp [ofLabel], hc⟩, by simp [ofLabel]⟩, hb⟩, by simp [ofLabel], by simp [ofLabel]⟩
  | .ifThen condition body => by
    have hc := condition.ne_load_of_mem offset
    have hb := ne_load_of_mem_all (next + 1) body
    simp only [emit, List.forall_mem_append, List.forall_mem_cons]
    exact ⟨⟨⟨hc, by simp [ofLabel]⟩, hb⟩, by simp [ofLabel]⟩
  | .ifElse condition body other => by
    have hc := condition.ne_load_of_mem offset
    have hb := ne_load_of_mem_all (next + 1) body
    have ho := ne_load_of_mem_all (next + 1 + labelsOfAll body + 1) other
    simp only [emit, List.forall_mem_append, List.forall_mem_cons]
    exact ⟨⟨⟨⟨⟨hc, by simp [ofLabel]⟩, hb⟩, by simp [ofLabel]⟩, ho⟩, by simp [ofLabel]⟩

theorem ne_load_of_mem_all (next : Nat) :
    ∀ ss : List Stmt, ∀ i ∈ emitAll offset done next ss, i.opcode ≠ .load
  | [] => by simp [emitAll]
  | s :: ss => by
    simp only [emitAll, List.forall_mem_append]
    exact ⟨ne_load_of_mem next s, ne_load_of_mem_all (next + labels s) ss⟩

end

end Stmt

namespace Module

variable {m : Module} {index : Nat} {f : Function}

/-- The code of a function is a mark, a `load`, and code without another one. -/
theorem exists_functionCode (m : Module) (index : Nat) (f : Function) :
    ∃ rest, m.functionCode index f = ofLabel .mark ⟨index⟩ :: ofRegister .load .fp :: rest ∧
      ∀ i ∈ rest, i.opcode ≠ .load := by
  refine ⟨_, by simp only [functionCode, Function.emit, Function.prologue, List.cons_append]; rfl, ?_⟩
  have body := Stmt.ne_load_of_mem_all m.strings.offset (m.firstLabel index) (m.firstLabel index + 1)
    f.body
  have room : ∀ i ∈ List.replicate f.locals (⟨.loadImmediate, 0⟩ : Instruction), i.opcode ≠ .load :=
    fun i hi => by simp [List.eq_of_mem_replicate hi]
  have pops : ∀ i ∈ List.replicate f.locals (bare .pop), i.opcode ≠ .load :=
    fun i hi => by simp [List.eq_of_mem_replicate hi, bare]
  simp only [Function.epilogue, List.forall_mem_append, List.forall_mem_cons, List.nil_append]
  exact ⟨⟨⟨⟨room, by simp [bare]⟩, body⟩, by simp⟩,
    ⟨⟨by simp [ofLabel], by simp [ofRegister]⟩, pops⟩, by simp [ofRegister], by simp [bare]⟩

/-- Only the starts of functions are followed by a `load`. -/
theorem load_iff {a : Nat} : (∃ i, m.emit[a + 1]? = some i ∧ i.opcode = .load) ↔
    ∃ index < m.functions.length, m.start index = a := by
  constructor
  · rintro ⟨i, hi, hop⟩
    by_cases hlt : a + 1 < m.entryStart
    · obtain ⟨index, f, j, hf, hj, ha⟩ := exists_function hlt
      rw [ha, (holds_function hf).getElem? hj] at hi
      obtain ⟨rest, hcode, hrest⟩ := exists_functionCode m index f
      rw [hcode] at hi
      rcases j with _ | _ | j
      · cases hi
        cases hop
      · exact ⟨index, lt_of_getElem? hf, by omega⟩
      · exact absurd hop (hrest i (List.mem_of_getElem? hi))
    · have hentry := mem_entryCode hi (Nat.le_of_not_lt hlt)
      simp only [entryCode, List.mem_cons, List.not_mem_nil, or_false] at hentry
      obtain rfl | rfl | rfl | rfl := hentry <;> cases hop
  · rintro ⟨index, hlt, rfl⟩
    have hholds := holds_function (List.getElem?_eq_getElem hlt)
    exact ⟨_, hholds.tail.head, rfl⟩

/-- Where the functions of a program start. -/
def starts (m : Module) : List Nat := (List.range m.functions.length).map m.start

theorem starts_rising (m : Module) : m.starts.Pairwise (· < ·) := by
  refine List.pairwise_map.2 (List.Pairwise.imp_of_mem ?_ List.pairwise_lt_range)
  intro i j hi hj hij
  obtain ⟨f, hf⟩ : ∃ f, m.functions[i]? = some f :=
    ⟨_, List.getElem?_eq_getElem (List.mem_range.1 hi)⟩
  have hend := start_add_length_le hf hij (Nat.le_of_lt (List.mem_range.1 hj))
  obtain ⟨rest, hcode, -⟩ := exists_functionCode m i f
  rw [hcode, List.length_cons] at hend
  omega

theorem mem_starts {a : Nat} : a ∈ m.starts ↔ ∃ index < m.functions.length, m.start index = a := by
  simp [starts]

/-- The label of a function is marked at its start alone. -/
theorem start_of_mark (hid : m.entry.id < 0x100000000) {a : Nat} {l : Label}
    (ha : m.emit[a]? = some (ofLabel .mark l)) (hl : l.id < m.functions.length) :
    a = m.start l.id := by
  have hlow := m.length_le_entry
  have hmark := target?_mark hid (by omega) ha
  rw [target?_function hid (List.getElem?_eq_getElem hl)] at hmark
  exact (Option.some.inj hmark).symm

/-- The label of the entry is marked there alone. -/
theorem entryStart_of_mark (hid : m.entry.id < 0x100000000) {a : Nat}
    (ha : m.emit[a]? = some (ofLabel .mark m.entry)) : a = m.entryStart := by
  have hmark := target?_mark hid hid ha
  rw [Label.ofOperand?_operand hid, Option.bind_some, resolve?_entry hid] at hmark
  exact (Option.some.inj hmark).symm

end Module

/-! ## How labels are shown -/

namespace Module

variable {m : Module} {p : Program}

/-- The label of a function is shown by the name of the function. -/
theorem labelName_function (h : m.assemble = .ok p) {index : Nat} {f : Function}
    (hf : m.functions[index]? = some f) : p.labelName ⟨index⟩ = f.name := by
  simp only [Program.labelName, (assemble_eq_ok h).1, names_function hf, Option.getD_some]

theorem labelName_entry (h : m.assemble = .ok p) : p.labelName m.entry = "<entry>" := by
  simp only [Program.labelName, (assemble_eq_ok h).1, names_entry, Option.getD_some]

/-- A label that is neither that of a function nor that of the entry is shown by its number. -/
theorem labelName_inner (h : m.assemble = .ok p) {l : Label} (hlow : m.functions.length ≤ l.id)
    (hhigh : l.id < m.entry.id) : p.labelName l = l.text := by
  have hnone : m.names.get? l.id = none := by
    refine Option.eq_none_iff_forall_ne_some.2 fun name hname => ?_
    rw [Table.get?_eq_some_iff, entries_names] at hname
    rcases List.mem_append.1 hname with hname | hname
    · obtain ⟨x, hx, heq⟩ := List.mem_map.1 hname
      have := List.snd_lt_of_mem_zipIdx hx
      have : x.2 = l.id := (Prod.mk.inj heq).1
      omega
    · have : l.id = m.entry.id := (Prod.mk.inj (List.mem_singleton.1 hname)).1
      omega
  simp only [Program.labelName, (assemble_eq_ok h).1, hnone, Option.getD_none]

/-- An address marks one label. -/
theorem mark_inj (hid : m.entry.id < 0x100000000) {a : Nat} {l k : Label} (hl : l.id ≤ m.entry.id)
    (hk : k.id ≤ m.entry.id) (hla : m.emit[a]? = some (ofLabel .mark l))
    (hka : m.emit[a]? = some (ofLabel .mark k)) : l = k := by
  rw [hla] at hka
  exact Label.operand_inj (by omega) (by omega) (congrArg Instruction.operand (Option.some.inj hka))

end Module

/-! ## Programs that show the same -/

/-- Two valid programs that show the same operation and the same operand at each address. -/
structure ShownAlike (m m' : Module) (p p' : Program) : Prop where
  assembled : m.assemble = .ok p
  assembled' : m'.assemble = .ok p'
  valid : m.Valid
  valid' : m'.Valid
  rows : ∀ a, p.row? a = p'.row? a

namespace ShownAlike

variable {m m' : Module} {p p' : Program} (h : ShownAlike m m' p p')
include h

theorem symm : ShownAlike m' m p' p :=
  ⟨h.assembled', h.assembled, h.valid', h.valid, fun a => (h.rows a).symm⟩

theorem entry_lt : m.entry.id < 0x100000000 := (Module.assemble_eq_ok h.assembled).2

/-- An address with an instruction has one in both, of one operation. -/
theorem exists_instruction {a : Nat} {i : Instruction} (hi : m.emit[a]? = some i) :
    ∃ j, m'.emit[a]? = some j ∧ j.opcode = i.opcode ∧ p.operandText? i = p'.operandText? j := by
  have hrow := h.rows a
  have hp := (Module.assemble_eq_ok h.assembled).1
  have hp' := (Module.assemble_eq_ok h.assembled').1
  have hcode : p.code[a]? = some i := by rw [hp, List.getElem?_toArray, hi]
  have hcode' : p'.code[a]? = m'.emit[a]? := by rw [hp', List.getElem?_toArray]
  unfold Program.row? at hrow
  rw [hcode, hcode'] at hrow
  obtain ⟨j, hj, heq⟩ := Option.map_eq_some_iff.1 hrow.symm
  obtain ⟨hop, htext⟩ := Prod.mk.inj heq
  exact ⟨j, hj, hop, htext.symm⟩

theorem length_le : m.emit.length ≤ m'.emit.length := by
  refine Nat.le_of_not_lt fun hlt => ?_
  obtain ⟨j, hj, -⟩ := h.exists_instruction (List.getElem?_eq_getElem hlt)
  exact absurd (List.getElem?_eq_some_iff.1 hj).1 (Nat.lt_irrefl _)

theorem entryStart_eq : m.entryStart = m'.entryStart := by
  have := h.length_le
  have := h.symm.length_le
  rw [Module.length_emit, Module.length_emit] at *
  omega

theorem mem_starts {a : Nat} (ha : a ∈ m.starts) : a ∈ m'.starts := by
  rw [Module.mem_starts, ← Module.load_iff] at ha ⊢
  obtain ⟨i, hi, hload⟩ := ha
  obtain ⟨j, hj, hop, -⟩ := h.exists_instruction hi
  exact ⟨j, hj, hop.trans hload⟩

/-- The functions start at the same addresses. -/
theorem starts_eq : m.starts = m'.starts :=
  m.starts_rising.eq_of_mem_iff m'.starts_rising fun _ => ⟨h.mem_starts, h.symm.mem_starts⟩

theorem length_functions : m.functions.length = m'.functions.length := by
  have := congrArg List.length h.starts_eq
  simpa [Module.starts] using this

theorem start_eq {index : Nat} (hlt : index < m.functions.length) : m.start index = m'.start index := by
  have := congrArg (·[index]?) h.starts_eq
  simpa [Module.starts, hlt, h.length_functions ▸ hlt] using this

/-- A mark is a mark in both, and its label is shown alike. -/
theorem exists_mark {a : Nat} {l : Label} (hl : l.id ≤ m.entry.id)
    (ha : m.emit[a]? = some (ofLabel .mark l)) :
    ∃ l', l'.id ≤ m'.entry.id ∧ m'.emit[a]? = some (ofLabel .mark l') ∧
      p.labelName l = p'.labelName l' := by
  have hid := h.entry_lt
  have hid' := h.symm.entry_lt
  obtain ⟨j, hj, hop, htext⟩ := h.exists_instruction ha
  have hmark : j.opcode = .mark := hop
  obtain ⟨l', hl', heq⟩ := Module.exists_label h.valid' (List.mem_of_getElem? hj) (by rw [hmark]; rfl)
  rw [hmark] at heq
  rw [heq] at hj htext
  rw [Program.operandText?_mark rfl (label?_ofLabel rfl (by omega)),
    Program.operandText?_mark rfl (label?_ofLabel rfl (by omega))] at htext
  exact ⟨l', hl', hj, Option.some.inj htext⟩

/-- The label of a function is marked at the same address. -/
theorem mark_function {a : Nat} {l : Label} (ha : m.emit[a]? = some (ofLabel .mark l))
    (hl : l.id < m.functions.length) : m'.emit[a]? = some (ofLabel .mark l) := by
  rw [Module.start_of_mark h.entry_lt ha hl, h.start_eq hl]
  exact (Module.holds_function (List.getElem?_eq_getElem (h.length_functions ▸ hl))).head

/-- The label of the entry is marked at the same address. -/
theorem mark_entry {a : Nat} (ha : m.emit[a]? = some (ofLabel .mark m.entry)) :
    m'.emit[a]? = some (ofLabel .mark m'.entry) := by
  rw [Module.entryStart_of_mark h.entry_lt ha, h.entryStart_eq]
  exact m'.holds_entry.head

/-- Marks that are shown alike, of labels without names, are of one label. -/
theorem mark_inner {a : Nat} {l : Label} (ha : m.emit[a]? = some (ofLabel .mark l))
    (hlow : m.functions.length ≤ l.id) (hhigh : l.id < m.entry.id) :
    m'.emit[a]? = some (ofLabel .mark l) ∧ l.id < m'.entry.id := by
  obtain ⟨l', hl', ha', hname⟩ := h.exists_mark (Nat.le_of_lt hhigh) ha
  have only {k : Label} (hk : k.id ≤ m.entry.id) (hka : m.emit[a]? = some (ofLabel .mark k)) :
      l = k := Module.mark_inj h.entry_lt (Nat.le_of_lt hhigh) hk ha hka
  have hlength := h.length_functions
  -- the other label is neither that of a function nor that of the entry
  have hlow' : m'.functions.length ≤ l'.id := by
    refine Nat.le_of_not_lt fun hlt => ?_
    have := congrArg Label.id (only (by omega) (h.symm.mark_function ha' hlt))
    omega
  have hhigh' : l'.id < m'.entry.id := by
    refine Nat.lt_of_le_of_ne hl' fun heq => ?_
    obtain rfl : l' = m'.entry := congrArg Label.mk heq
    have := congrArg Label.id (only (Nat.le_refl _) (h.symm.mark_entry ha'))
    omega
  rw [Module.labelName_inner h.assembled hlow hhigh,
    Module.labelName_inner h.assembled' hlow' hhigh'] at hname
  obtain rfl := Label.text_inj hname
  exact ⟨ha', hhigh'⟩

/-- The labels without names have the numbers from the functions on, so there are as many. -/
theorem entry_le : m.entry.id ≤ m'.entry.id := by
  refine Nat.le_of_not_lt fun hlt => ?_
  have hlow : m.functions.length ≤ m'.entry.id := h.length_functions ▸ m'.length_le_entry
  obtain ⟨a, ha, -⟩ := Module.exists_address (l := ⟨m'.entry.id⟩) h.entry_lt (Nat.le_of_lt hlt)
  exact Nat.lt_irrefl _ (h.mark_inner ha hlow hlt).2

theorem entry_eq : m.entry = m'.entry := by
  have : m.entry.id = m'.entry.id := Nat.le_antisymm h.entry_le h.symm.entry_le
  exact congrArg Label.mk this

/-- Each address marks the same label. -/
theorem mark_eq {a : Nat} {l : Label} (hl : l.id ≤ m.entry.id)
    (ha : m.emit[a]? = some (ofLabel .mark l)) : m'.emit[a]? = some (ofLabel .mark l) := by
  by_cases hfunction : l.id < m.functions.length
  · exact h.mark_function ha hfunction
  by_cases hentry : l.id = m.entry.id
  · obtain rfl : l = m.entry := congrArg Label.mk hentry
    rw [h.mark_entry ha, h.entry_eq]
  · exact (h.mark_inner ha (by omega) (by omega)).1

/-- Instructions that lead to labels, and are shown alike, name the same label. -/
theorem operand_of_label {i j : Instruction} (hi : i ∈ m.emit) (hj : j ∈ m'.emit)
    (hop : j.opcode = i.opcode) (hlabel : i.opcode.operandRole = .label) (hmark : i.opcode ≠ .mark)
    (htext : p.operandText? i = p'.operandText? j) : i.operand = j.operand := by
  obtain ⟨l, hl, heq⟩ := Module.exists_label h.valid hi hlabel
  obtain ⟨l', hl', heq'⟩ := Module.exists_label h.valid' hj (hop ▸ hlabel)
  have hid := h.entry_lt
  have hid' := h.symm.entry_lt
  have hshown : i.label? = some l := by
    rw [heq]
    exact label?_ofLabel hlabel (by omega)
  have hshown' : j.label? = some l' := by
    rw [heq']
    exact label?_ofLabel (hop ▸ hlabel) (by omega)
  -- what both labels lead to is one mark
  obtain ⟨b, hb, hresolve⟩ := Module.exists_address hid hl
  obtain ⟨b', hb', hresolve'⟩ := Module.exists_address hid' hl'
  have htarget : b = b' := Program.target_of_operandText? hop.symm hmark hshown hshown'
    (by rw [(Module.assemble_eq_ok h.assembled).1]; exact hresolve)
    (by rw [(Module.assemble_eq_ok h.assembled').1]; exact hresolve') htext
  have hboth := h.mark_eq hl hb
  rw [htarget, hb'] at hboth
  have hoperand : l'.operand = l.operand := congrArg Instruction.operand (Option.some.inj hboth)
  rw [heq, heq']
  exact hoperand.symm

/-- Instructions that are shown alike have the same operand, unless they mark a label. -/
theorem operand_eq {i j : Instruction} (hi : i ∈ m.emit) (hj : j ∈ m'.emit)
    (hop : j.opcode = i.opcode) (hmark : i.opcode ≠ .mark)
    (htext : p.operandText? i = p'.operandText? j) : i.operand = j.operand := by
  by_cases hunused : i.opcode.operandRole = .unused
  · rw [Module.operand_of_unused h.valid hi hunused,
      Module.operand_of_unused h.valid' hj (hop ▸ hunused)]
  by_cases hlabel : i.opcode.operandRole = .label
  · exact h.operand_of_label hi hj hop hlabel hmark htext
  · exact Program.operand_of_operandText? hop.symm hunused hlabel htext

/-- Each address has the same instruction. -/
theorem getElem?_eq {a : Nat} {i : Instruction} (hi : m.emit[a]? = some i) : m'.emit[a]? = some i := by
  obtain ⟨j, hj, hop, htext⟩ := h.exists_instruction hi
  have hmem := List.mem_of_getElem? hi
  by_cases hmark : i.opcode = .mark
  · obtain ⟨l, hl, heq⟩ := Module.exists_label h.valid hmem (by rw [hmark]; rfl)
    rw [heq, hmark] at hi ⊢
    exact h.mark_eq hl hi
  · have hoperand := h.operand_eq hmem (List.mem_of_getElem? hj) hop hmark htext
    cases i
    cases j
    rw [hj]
    exact congrArg some (congrArg₂ Instruction.mk hop hoperand.symm)

/-- The code is the same. -/
theorem emit_eq : m.emit = m'.emit := by
  refine List.ext_getElem? fun a => ?_
  cases hi : m.emit[a]? with
  | some i => exact (h.getElem?_eq hi).symm
  | none =>
    have := h.symm.length_le
    exact (List.getElem?_eq_none (Nat.le_trans this (List.getElem?_eq_none_iff.1 hi))).symm

/-- The functions have the same names. -/
theorem map_name_eq : m.functions.map (·.name) = m'.functions.map (·.name) := by
  refine List.ext_getElem (by simpa using h.length_functions) fun index hlt hlt' => ?_
  rw [List.length_map] at hlt hlt'
  have hf := List.getElem?_eq_getElem hlt
  have hf' := List.getElem?_eq_getElem hlt'
  have hle : index ≤ m.entry.id := Nat.le_trans (Nat.le_of_lt hlt) m.length_le_entry
  have hmark : m.emit[m.start index]? = some (ofLabel .mark ⟨index⟩) := (Module.holds_function hf).head
  obtain ⟨l', hl', hmark', hname⟩ := h.exists_mark hle hmark
  obtain rfl := Module.mark_inj h.symm.entry_lt hl' (h.entry_eq ▸ hle) hmark' (h.mark_function hmark hlt)
  rw [Module.labelName_function h.assembled hf, Module.labelName_function h.assembled' hf'] at hname
  simpa using hname

/-- The tables of names are the same. -/
theorem names_eq : m.names = m'.names := by
  have entries (m : Module) : m.names.entries =
      (m.functions.map (·.name)).zipIdx.map (fun x => (x.2, x.1)) ++ [(m.entry.id, "<entry>")] := by
    rw [Module.entries_names, List.zipIdx_map, List.map_map]
    rfl
  refine Table.ext ?_
  rw [entries, entries, h.map_name_eq, h.entry_eq]

end ShownAlike
end StackLang.Core
