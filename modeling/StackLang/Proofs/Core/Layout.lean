import StackLang.Proofs.Core.Labels

/-!
# Where the functions of a program stand

The code of a program is that of its functions, one after the other, and the entry after the last.

Results:
* `Module.holds_function`, `Module.holds_entry`: where each function and the entry stand.
* `Module.exists_function`: each address before the entry lies in one of the functions.
* `Module.target?_function`, `Module.target?_label`: where the labels of a function lead.
* `Module.start_of_assemble`: where an assembled program starts.
-/
namespace StackLang.Core

open Instruction

namespace Function

theorem labelsOfAll_append (fs gs : List Function) :
    labelsOfAll (fs ++ gs) = labelsOfAll fs + labelsOfAll gs := by
  induction fs with
  | nil => simp [labelsOfAll]
  | cons f fs ih => rw [List.cons_append, labelsOfAll, labelsOfAll, ih, Nat.add_assoc]

theorem emitAll_append (offset : String → Nat) (index next : Nat) (fs gs : List Function) :
    emitAll offset index next (fs ++ gs) = emitAll offset index next fs ++
      emitAll offset (index + fs.length) (next + labelsOfAll fs) gs := by
  induction fs generalizing index next with
  | nil => rfl
  | cons f fs ih =>
    rw [List.cons_append, emitAll, emitAll, ih, List.append_assoc, List.length_cons, labelsOfAll]
    congr 3 <;> omega

end Function

namespace Module

variable (m : Module)

/-- The address of a function, or of the entry after the last function. -/
def start (index : Nat) : Nat :=
  (Function.emitAll m.strings.offset 0 m.functions.length (m.functions.take index)).length

/-- The first of the labels that are set aside for a function, which marks its end. -/
def firstLabel (index : Nat) : Nat :=
  m.functions.length + Function.labelsOfAll (m.functions.take index)

/-- The code of a function as it stands in the program. -/
def functionCode (index : Nat) (f : Function) : List Instruction :=
  f.emit m.strings.offset index (m.firstLabel index)

/-- The address of the entry. -/
def entryStart : Nat := m.start m.functions.length

variable {m} {index : Nat} {f : Function}

theorem take_succ_eq (h : m.functions[index]? = some f) :
    m.functions.take (index + 1) = m.functions.take index ++ [f] := by
  rw [List.take_add_one, h]; rfl

theorem lt_of_getElem? (h : m.functions[index]? = some f) : index < m.functions.length :=
  (List.getElem?_eq_some_iff.1 h).1

theorem firstLabel_succ (h : m.functions[index]? = some f) :
    m.firstLabel (index + 1) = m.firstLabel index + f.labels := by
  simp [firstLabel, take_succ_eq h, Function.labelsOfAll_append, Function.labelsOfAll, Nat.add_assoc]

theorem start_succ (h : m.functions[index]? = some f) :
    m.start (index + 1) = m.start index + (m.functionCode index f).length := by
  have hlen : (m.functions.take index).length = index := by
    have := lt_of_getElem? h
    rw [List.length_take]; omega
  simp [start, take_succ_eq h, Function.emitAll_append, Function.emitAll, hlen, functionCode,
    firstLabel]

/-- What steps up at each function is greater for a later function. -/
theorem le_of_lt_of_succ {g : Nat → Nat} (step : ∀ i f, m.functions[i]? = some f → g i ≤ g (i + 1))
    {i j : Nat} (hij : i ≤ j) (hj : j ≤ m.functions.length) : g i ≤ g j := by
  induction j with
  | zero => obtain rfl : i = 0 := by omega
            exact Nat.le_refl _
  | succ j ih =>
    rcases Nat.eq_or_lt_of_le hij with rfl | hlt
    · exact Nat.le_refl _
    · have hget := List.getElem?_eq_getElem (show j < m.functions.length by omega)
      exact Nat.le_trans (ih (by omega) (by omega)) (step j _ hget)

/-- The labels of a function come before those of a later one, or of the entry. -/
theorem firstLabel_add_labels_le (h : m.functions[index]? = some f) {j : Nat} (hij : index < j)
    (hj : j ≤ m.functions.length) : m.firstLabel index + f.labels ≤ m.firstLabel j := by
  rw [← firstLabel_succ h]
  exact le_of_lt_of_succ (fun i f hi => by rw [firstLabel_succ hi]; omega) hij hj

theorem firstLabel_length : m.firstLabel m.functions.length = m.entry.id := by
  simp [firstLabel, entry]

theorem firstLabel_add_labels_le_entry (h : m.functions[index]? = some f) :
    m.firstLabel index + f.labels ≤ m.entry.id := by
  rw [← firstLabel_length]
  exact firstLabel_add_labels_le h (lt_of_getElem? h) (Nat.le_refl _)

theorem length_le_firstLabel (m : Module) (index : Nat) : m.functions.length ≤ m.firstLabel index :=
  Nat.le_add_right _ _

/-- The labels of functions come before that of the entry. -/
theorem length_le_entry (m : Module) : m.functions.length ≤ m.entry.id := Nat.le_add_right _ _

/-! ## Addresses -/

/-- A function stands at its address. -/
theorem holds_function (h : m.functions[index]? = some f) :
    Holds m.emit (m.start index) (m.functionCode index f) := by
  have hlen : (m.functions.take index).length = index := by
    have := lt_of_getElem? h
    rw [List.length_take]; omega
  have hdrop : m.functions.drop index = f :: m.functions.drop (index + 1) := by
    obtain ⟨hi, rfl⟩ := List.getElem?_eq_some_iff.1 h
    exact List.drop_eq_getElem_cons hi
  have hsplit : m.functions = m.functions.take index ++ f :: m.functions.drop (index + 1) := by
    rw [← hdrop, List.take_append_drop]
  have hemit : m.emit = Function.emitAll m.strings.offset 0 m.functions.length
        (m.functions.take index) ++ (m.functionCode index f ++
      (Function.emitAll m.strings.offset (index + 1) (m.firstLabel index + f.labels)
        (m.functions.drop (index + 1)) ++ m.entryCode)) := by
    rw [emit]
    conv => lhs; arg 1; arg 4; rw [hsplit]
    rw [Function.emitAll_append, Function.emitAll, hlen, Nat.zero_add]
    simp [functionCode, firstLabel]
  rw [Holds, hemit, start, List.drop_left]
  exact List.prefix_append _ _

theorem holds_entry : Holds m.emit m.entryStart m.entryCode := by
  simp only [Holds, emit, entryStart, start, List.take_length, List.drop_left, List.prefix_rfl]

theorem length_emit : m.emit.length = m.entryStart + 4 := by
  simp [emit, entryStart, start, entryCode]

/-- An address before the entry lies in a function. -/
theorem exists_function {a : Nat} (h : a < m.entryStart) :
    ∃ index f j, m.functions[index]? = some f ∧ j < (m.functionCode index f).length ∧
      a = m.start index + j := by
  have search : ∀ n, n ≤ m.functions.length → a < m.start n → ∃ index f j,
      m.functions[index]? = some f ∧ j < (m.functionCode index f).length ∧
        a = m.start index + j := by
    intro n
    induction n with
    | zero => intro _ hlt; simp [start, Function.emitAll] at hlt
    | succ n ih =>
      intro hn hlt
      have hget := List.getElem?_eq_getElem (show n < m.functions.length by omega)
      by_cases hbefore : a < m.start n
      · exact ih (by omega) hbefore
      · rw [start_succ hget] at hlt
        exact ⟨n, _, a - m.start n, hget, by omega, by omega⟩
  exact search m.functions.length (Nat.le_refl _) h

theorem start_le_start {i j : Nat} (hij : i ≤ j) (hj : j ≤ m.functions.length) :
    m.start i ≤ m.start j :=
  le_of_lt_of_succ (fun i f hi => by rw [start_succ hi]; omega) hij hj

/-- A function ends before the next one, and the last before the entry. -/
theorem start_add_length_le (h : m.functions[index]? = some f) {j : Nat} (hij : index < j)
    (hj : j ≤ m.functions.length) :
    m.start index + (m.functionCode index f).length ≤ m.start j := by
  rw [← start_succ h]
  exact le_of_lt_of_succ (fun i f hi => by rw [start_succ hi]; omega) hij hj

/-! ## Targets -/

/-- A function's own label leads to its start. -/
theorem target?_function (hid : m.entry.id < 0x100000000) (h : m.functions[index]? = some f) :
    (Label.ofOperand? (Label.mk index).operand).bind (link m.emit).resolve? =
      some (m.start index) := by
  have hindex : index < 0x100000000 := by
    have := lt_of_getElem? h
    have := m.length_le_entry
    omega
  exact target?_mark hid hindex (holds_function h).head

/-- A label that is set aside for a function is marked in its code, and leads there. -/
theorem target?_label (hid : m.entry.id < 0x100000000) (h : m.functions[index]? = some f)
    {l : Label} (hl : l ∈ labelsFrom (m.firstLabel index) f.labels) :
    ∃ j, (m.functionCode index f)[j]? = some (ofLabel .mark l) ∧
      (Label.ofOperand? l.operand).bind (link m.emit).resolve? = some (m.start index + j) := by
  have hbound := firstLabel_add_labels_le_entry h
  have hindex := lt_of_getElem? h
  have hlow := length_le_firstLabel m index
  have hmarks := Function.marks_emit m.strings.offset index (m.firstLabel index) f (by omega)
    (by omega)
  obtain ⟨i, hi, hm⟩ := mem_marks.1 (hmarks.mem_iff.2 (List.mem_cons_of_mem _ hl))
  obtain ⟨hop, hoperand⟩ := marked?_eq_some_iff.1 hm
  obtain ⟨j, hj⟩ := List.getElem?_of_mem hi
  have heq : i = ofLabel .mark l := by
    rw [Instruction.ofLabel, ← Label.operand_of_ofOperand? hoperand, ← hop]
  rw [heq] at hj
  refine ⟨j, hj, target?_mark hid (Label.lt_of_ofOperand? hoperand) ?_⟩
  rw [(holds_function h).getElem? (List.getElem?_eq_some_iff.1 hj).1]
  exact hj

/-- The label of the entry leads to the entry. -/
theorem resolve?_entry (hid : m.entry.id < 0x100000000) :
    (link m.emit).resolve? m.entry = some m.entryStart := by
  have := target?_mark hid hid m.holds_entry.head
  rwa [Label.ofOperand?_operand hid] at this

/-- An assembled program starts at its entry. -/
theorem start_of_assemble {p : Program} (h : m.assemble = .ok p) : p.start = m.entryStart := by
  obtain ⟨rfl, hid⟩ := assemble_eq_ok h
  rw [Program.start, Option.bind_some, resolve?_entry hid]
  rfl

end Module
end StackLang.Core
