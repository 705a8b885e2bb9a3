import StackLang.Assembly
import StackLang.Proofs.Code.Link

/-!
# The labels of emitted code

Each part of a program marks the labels that are set aside for it, each of them once. So in an
assembled program each mark is where its label leads.

Results:
* `Module.marks_emit`: the code of a program marks the labels 0 to its entry, each once.
* `Module.assemble_eq_ok`: what an assembled program consists of.
* `Module.target?_mark`: the operand of a mark leads to the mark.
-/
namespace StackLang

open Instruction

/-- So many labels, in the order of their numbers. -/
def labelsFrom (start count : Nat) : List Label := (List.range' start count).map Label.mk

@[simp] theorem labelsFrom_zero (start : Nat) : labelsFrom start 0 = [] := rfl

theorem labelsFrom_succ (start count : Nat) :
    labelsFrom start (count + 1) = ⟨start⟩ :: labelsFrom (start + 1) count := by
  simp [labelsFrom, List.range'_succ]

theorem labelsFrom_add (start n k : Nat) :
    labelsFrom start (n + k) = labelsFrom start n ++ labelsFrom (start + n) k := by
  simp [labelsFrom, ← List.map_append]

theorem mem_labelsFrom {start count : Nat} {l : Label} :
    l ∈ labelsFrom start count ↔ start ≤ l.id ∧ l.id < start + count := by
  cases l
  simp [labelsFrom, List.mem_map, List.mem_range'_1]

theorem nodup_labelsFrom (start count : Nat) : (labelsFrom start count).Nodup := by
  refine List.Pairwise.map _ ?_ List.nodup_range'
  intro a b hab h
  exact hab (congrArg Label.id h)

theorem marks_cons_of_ne {i : Instruction} (h : i.opcode ≠ .mark) (code : List Instruction) :
    marks (i :: code) = marks code :=
  List.filterMap_cons_none (by simp [marked?, h])

@[simp] theorem marks_cons_mark {l : Label} (h : l.id < 0x100000000) (code : List Instruction) :
    marks (ofLabel .mark l :: code) = l :: marks code :=
  List.filterMap_cons_some (by
    simp [marked?, label?, ofLabel, Opcode.operandRole, Label.ofOperand?_operand h])

@[simp] theorem marks_cons_bare {op : Opcode} (h : op ≠ .mark) (code : List Instruction) :
    marks (bare op :: code) = marks code := marks_cons_of_ne h code

@[simp] theorem marks_cons_ofLabel {op : Opcode} (h : op ≠ .mark) (l : Label)
    (code : List Instruction) : marks (ofLabel op l :: code) = marks code := marks_cons_of_ne h code

@[simp] theorem marks_cons_ofRegister {op : Opcode} (h : op ≠ .mark) (r : Register)
    (code : List Instruction) : marks (ofRegister op r :: code) = marks code :=
  marks_cons_of_ne h code

@[simp] theorem marks_cons_literal {op : Opcode} (h : op ≠ .mark) (operand : Int64)
    (code : List Instruction) : marks (⟨op, operand⟩ :: code) = marks code :=
  marks_cons_of_ne h code

theorem marks_eq_nil {code : List Instruction} (h : ∀ i ∈ code, i.opcode ≠ .mark) :
    marks code = [] := by
  induction code with
  | nil => rfl
  | cons i code ih =>
    rw [marks_cons_of_ne (h i List.mem_cons_self), ih fun j hj => h j (List.mem_cons_of_mem i hj)]

namespace Core

@[simp] theorem Expr.marks_emit (offset : String → Nat) (e : Expr) : marks (e.emit offset) = [] := by
  induction e with
  | arithmetic op left right ihl ihr =>
    have hop : op.opcode ≠ .mark := by cases op <;> simp [Arithmetic.opcode]
    simp [Expr.emit, ihl, ihr, hop]
  | comparison op left right ihl ihr =>
    have hop : op.opcode ≠ .mark := by cases op <;> simp [Comparison.opcode]
    simp [Expr.emit, ihl, ihr, hop]
  | not operand ih => simp [Expr.emit, ih]
  | literal value => simp [Expr.emit]
  | text value => simp [Expr.emit]
  | slot index => simp [Expr.emit]
  | call function => simp [Expr.emit]
  | getByte => simp [Expr.emit]

namespace Stmt

variable (offset : String → Nat) (done : Nat)

mutual

/-- A statement's code marks the labels that are set aside for it. -/
theorem marks_emit (next : Nat) : ∀ s : Stmt, next + labels s ≤ 0x100000000 →
    (marks (emit offset done next s)).Perm (labelsFrom next (labels s))
  | .store slot value, _ => by simp [emit, labels]
  | .discard value, _ => by simp [emit, labels]
  | .putInt value, _ => by simp [emit, labels]
  | .putString value, _ => by simp [emit, labels]
  | .giveBack value, _ => by simp [emit, labels]
  | .loop condition body, h => by
    simp only [labels] at h
    have hbody := marks_emitAll (next + 2) body (by omega)
    have hnext : (⟨next⟩ : Label).id < 0x100000000 := by simp only; omega
    have hend : (⟨next + 1⟩ : Label).id < 0x100000000 := by simp only; omega
    have order : marks (emit offset done next (.loop condition body)) =
        ⟨next⟩ :: (marks (emitAll offset done (next + 2) body) ++ [⟨next + 1⟩]) := by
      simp [emit, marks_cons_mark hnext, marks_cons_mark hend]
    rw [order, labels, Nat.add_comm 2, labelsFrom_succ, labelsFrom_succ]
    exact .cons _ ((List.perm_append_singleton _ _).trans (.cons _ hbody))
  | .ifThen condition body, h => by
    simp only [labels] at h
    have hbody := marks_emitAll (next + 1) body (by omega)
    have hnext : (⟨next⟩ : Label).id < 0x100000000 := by simp only; omega
    have order : marks (emit offset done next (.ifThen condition body)) =
        marks (emitAll offset done (next + 1) body) ++ [⟨next⟩] := by
      simp [emit, marks_cons_mark hnext]
    rw [order, labels, Nat.add_comm 1, labelsFrom_succ]
    exact (List.perm_append_singleton _ _).trans (.cons _ hbody)
  | .ifElse condition body other, h => by
    simp only [labels] at h
    have hbody := marks_emitAll (next + 1) body (by omega)
    have hother := marks_emitAll (next + 1 + labelsOfAll body + 1) other (by omega)
    have hnext : (⟨next⟩ : Label).id < 0x100000000 := by simp only; omega
    have hafter : (⟨next + 1 + labelsOfAll body⟩ : Label).id < 0x100000000 := by simp only; omega
    have order : marks (emit offset done next (.ifElse condition body other)) =
        marks (emitAll offset done (next + 1) body) ++ ⟨next⟩ ::
          (marks (emitAll offset done (next + 1 + labelsOfAll body + 1) other) ++
            [⟨next + 1 + labelsOfAll body⟩]) := by
      simp [emit, marks_cons_mark hnext, marks_cons_mark hafter]
    have split : labelsFrom next (2 + labelsOfAll body + labelsOfAll other) =
        ⟨next⟩ :: (labelsFrom (next + 1) (labelsOfAll body) ++ ⟨next + 1 + labelsOfAll body⟩ ::
          labelsFrom (next + 1 + labelsOfAll body + 1) (labelsOfAll other)) := by
      rw [show 2 + labelsOfAll body + labelsOfAll other =
        labelsOfAll body + (labelsOfAll other + 1) + 1 by omega, labelsFrom_succ, labelsFrom_add,
        labelsFrom_succ]
    rw [order, labels, split]
    refine List.perm_middle.trans (.cons _ (hbody.append ?_))
    exact (List.perm_append_singleton _ _).trans (.cons _ hother)

/-- The code of statements marks the labels that are set aside for them. -/
theorem marks_emitAll (next : Nat) : ∀ ss : List Stmt, next + labelsOfAll ss ≤ 0x100000000 →
    (marks (emitAll offset done next ss)).Perm (labelsFrom next (labelsOfAll ss))
  | [], _ => by simp [emitAll, labelsOfAll]
  | s :: ss, h => by
    simp only [labelsOfAll] at h
    simp only [emitAll, labelsOfAll, marks_append, labelsFrom_add]
    exact (marks_emit next s (by omega)).append (marks_emitAll (next + labels s) ss (by omega))

end

end Stmt

namespace Function

/-- A function's code marks its own label and those that are set aside for it. -/
theorem marks_emit (offset : String → Nat) (index next : Nat) (f : Function)
    (hi : index < 0x100000000) (hn : next + f.labels ≤ 0x100000000) :
    (marks (f.emit offset index next)).Perm (⟨index⟩ :: labelsFrom next f.labels) := by
  simp only [labels] at hn
  have hbody := Stmt.marks_emitAll offset next (next + 1) f.body (by omega)
  have hindex : (⟨index⟩ : Label).id < 0x100000000 := hi
  have hnext : (⟨next⟩ : Label).id < 0x100000000 := by simp only; omega
  have zeros : marks (List.replicate f.locals ⟨.loadImmediate, 0⟩) = [] :=
    marks_eq_nil fun i h => by simp [List.eq_of_mem_replicate h]
  have pops : marks (List.replicate f.locals (bare .pop)) = [] :=
    marks_eq_nil fun i h => by simp [List.eq_of_mem_replicate h, bare]
  have order : marks (f.emit offset index next) =
      ⟨index⟩ :: (marks (Stmt.emitAll offset next (next + 1) f.body) ++ [⟨next⟩]) := by
    simp [emit, prologue, epilogue, marks_cons_mark hindex, marks_cons_mark hnext, zeros, pops]
  rw [order, labels, Nat.add_comm 1, labelsFrom_succ]
  exact .cons _ ((List.perm_append_singleton _ _).trans (.cons _ hbody))

/-- The code of functions marks their own labels and those that are set aside for them. -/
theorem marks_emitAll (offset : String → Nat) (index next : Nat) (fs : List Function)
    (hi : index + fs.length ≤ 0x100000000) (hn : next + labelsOfAll fs ≤ 0x100000000) :
    (marks (emitAll offset index next fs)).Perm
      (labelsFrom index fs.length ++ labelsFrom next (labelsOfAll fs)) := by
  induction fs generalizing index next with
  | nil => simp [emitAll, labelsOfAll]
  | cons f fs ih =>
    simp only [List.length_cons, labelsOfAll] at hi hn
    have first := marks_emit offset index next f (by omega) (by omega)
    have others := ih (index + 1) (next + f.labels) (by omega) (by omega)
    simp only [emitAll, marks_append, List.length_cons, labelsFrom_succ, labelsOfAll,
      labelsFrom_add, List.cons_append]
    have both := first.append others
    rw [List.cons_append] at both
    refine both.trans (.cons _ ?_)
    rw [← List.append_assoc, ← List.append_assoc]
    exact List.perm_append_comm.append_right _

end Function

namespace Module

variable {m : Module}

/-- The code of a program marks the labels 0 to its entry, each once. -/
theorem marks_emit (h : m.entry.id < 0x100000000) :
    (marks m.emit).Perm (labelsFrom 0 (m.entry.id + 1)) := by
  have hid : m.entry.id = m.functions.length + Function.labelsOfAll m.functions := rfl
  have functions := Function.marks_emitAll m.strings.offset 0 m.functions.length m.functions
    (by omega) (by omega)
  have hentry : marks m.entryCode = [m.entry] := by
    simp [entryCode, marks_cons_mark h]
  rw [emit, marks_append, hentry, labelsFrom_add, hid, labelsFrom_add, Nat.zero_add, Nat.zero_add]
  exact functions.append_right _

theorem nodup_marks_emit (h : m.entry.id < 0x100000000) : (marks m.emit).Nodup :=
  (marks_emit h).nodup_iff.2 (nodup_labelsFrom _ _)

/-- What an assembled program consists of, and that it has fewer labels than there are numbers. -/
theorem assemble_eq_ok {p : Program} (h : m.assemble = .ok p) :
    p = ⟨m.emit.toArray, link m.emit, m.strings.bytes, some m.entry, m.names⟩ ∧
      m.entry.id < 0x100000000 := by
  unfold assemble at h
  cases hl : m.draft.link m.entry with
  | error l => rw [hl] at h; cases h
  | ok q =>
    rw [hl] at h
    cases h
    have hp := (Draft.link_ok hl).1
    obtain ⟨a, ha⟩ := Option.ne_none_iff_exists'.1 (Draft.link_ok_resolve? hl (.inl rfl))
    rw [hp] at ha
    obtain ⟨i, -, hi⟩ := Option.bind_eq_some_iff.1 (resolve?_link_eq_some_iff.1 ha).1
    exact ⟨hp, Label.lt_of_ofOperand? (marked?_eq_some_iff.1 hi).2⟩

/-- The operand of a mark leads to the mark. -/
theorem target?_mark (h : m.entry.id < 0x100000000) {a : Nat} {l : Label}
    (hl : l.id < 0x100000000) (ha : m.emit[a]? = some (ofLabel .mark l)) :
    (Label.ofOperand? l.operand).bind (link m.emit).resolve? = some a := by
  rw [Label.ofOperand?_operand hl, Option.bind_some]
  refine resolve?_link_of_nodup (nodup_marks_emit h) ?_
  rw [ha, Option.bind_some]
  exact marked?_eq_some_iff.2 ⟨rfl, Label.ofOperand?_operand hl⟩

end Module
end Core
end StackLang
