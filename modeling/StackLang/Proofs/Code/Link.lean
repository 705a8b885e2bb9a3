import StackLang.Code.Draft

/-!
# Where labels lead

`Holds code a part` says that some code stands at an address of other code. Linking gives each label
the last address that marks it, which is the only one where no label is marked twice.

Results:
* `resolve?_link_eq_some_iff`: a label leads to the last address that marks it.
* `resolve?_link_of_nodup`: where no label is marked twice, each mark is where its label leads.
* `Draft.link_ok_resolve?`: in linked code each label that is used, and the entry, has an address.
-/
namespace StackLang

/-! ## Code at an address -/

/-- Some code stands at an address of other code. -/
def Holds (code : List Instruction) (a : Nat) (part : List Instruction) : Prop :=
  part <+: code.drop a

namespace Holds

variable {code part x y : List Instruction} {a : Nat}

theorem left (h : Holds code a (x ++ y)) : Holds code a x :=
  (List.prefix_append x y).trans h

theorem right (h : Holds code a (x ++ y)) : Holds code (a + x.length) y := by
  obtain ⟨rest, hr⟩ := h
  refine ⟨rest, ?_⟩
  rw [← List.drop_drop, ← hr, List.append_assoc, List.drop_left]

theorem head {i : Instruction} (h : Holds code a (i :: part)) : code[a]? = some i := by
  obtain ⟨rest, hr⟩ := h
  have : (code.drop a)[0]? = some i := by rw [← hr]; rfl
  rwa [List.getElem?_drop, Nat.add_zero] at this

theorem tail {i : Instruction} (h : Holds code a (i :: part)) : Holds code (a + 1) part :=
  right (x := [i]) h

/-- The instruction at an address of the part. -/
theorem getElem? (h : Holds code a part) {j : Nat} (hj : j < part.length) :
    code[a + j]? = part[j]? := by
  obtain ⟨rest, hr⟩ := h
  rw [← List.getElem?_drop, ← hr, List.getElem?_append_left hj]

end Holds

/-! ## Marks -/

theorem Label.ofOperand?_eq_some_iff {operand : Int64} {l : Label} :
    Label.ofOperand? operand = some l ↔ operand.toInt = l.id ∧ l.id < 0x100000000 := by
  unfold Label.ofOperand?
  split
  · obtain ⟨id⟩ := l
    simp only [Option.some.injEq, Label.mk.injEq]
    omega
  · refine ⟨nofun, fun h => ?_⟩
    omega

theorem Label.lt_of_ofOperand? {operand : Int64} {l : Label} (h : Label.ofOperand? operand = some l) :
    l.id < 0x100000000 := (Label.ofOperand?_eq_some_iff.1 h).2

theorem Label.operand_of_ofOperand? {operand : Int64} {l : Label}
    (h : Label.ofOperand? operand = some l) : operand = l.operand := by
  rw [Label.operand, ← Int64.ofInt_eq_ofNat, ← (Label.ofOperand?_eq_some_iff.1 h).1, Int64.ofInt_toInt]

/-- Labels have different operands, as far as there are numbers for them. -/
theorem Label.operand_inj {l k : Label} (hl : l.id < 0x100000000) (hk : k.id < 0x100000000)
    (h : l.operand = k.operand) : l = k := by
  have := Label.ofOperand?_operand hl
  rw [h, Label.ofOperand?_operand hk] at this
  exact (Option.some.inj this).symm

theorem Instruction.role_of_label? {i : Instruction} {l : Label} (h : i.label? = some l) :
    i.opcode.operandRole = .label := by
  unfold label? at h
  split at h
  · assumption
  · cases h

theorem marked?_eq_some_iff {i : Instruction} {l : Label} :
    i.marked? = some l ↔ i.opcode = .mark ∧ Label.ofOperand? i.operand = some l := by
  by_cases h : i.opcode = .mark <;> simp [Instruction.marked?, Instruction.label?, h,
    Opcode.operandRole]

/-- The labels that code marks, in order. -/
def marks (code : List Instruction) : List Label := code.filterMap Instruction.marked?

@[simp] theorem marks_nil : marks [] = [] := rfl

@[simp] theorem marks_append (x y : List Instruction) : marks (x ++ y) = marks x ++ marks y :=
  List.filterMap_append

theorem mem_marks {code : List Instruction} {l : Label} :
    l ∈ marks code ↔ ∃ i ∈ code, i.marked? = some l := List.mem_filterMap

/-- Where no label is marked twice, a label has one address. -/
theorem eq_of_marked? {code : List Instruction} (h : (marks code).Nodup) {a b : Nat} {l : Label}
    (ha : code[a]?.bind Instruction.marked? = some l)
    (hb : code[b]?.bind Instruction.marked? = some l) : a = b := by
  induction code generalizing a b with
  | nil => simp at ha
  | cons i code ih =>
    have fresh (hi : i.marked? = some l) {c : Nat}
        (hc : code[c]?.bind Instruction.marked? = some l) : False := by
      obtain ⟨j, hj, hl⟩ := Option.bind_eq_some_iff.1 hc
      rw [marks, List.filterMap_cons_some hi] at h
      exact (List.nodup_cons.1 h).1 (mem_marks.2 ⟨j, List.mem_of_getElem? hj, hl⟩)
    have later : (marks code).Nodup := by
      cases hi : i.marked? with
      | none => rwa [marks, List.filterMap_cons_none hi] at h
      | some k => rw [marks, List.filterMap_cons_some hi] at h; exact (List.nodup_cons.1 h).2
    cases a with
    | zero =>
      cases b with
      | zero => rfl
      | succ b => exact (fresh (by simpa using ha) (by simpa using hb)).elim
    | succ a =>
      cases b with
      | zero => exact (fresh (by simpa using hb) (by simpa using ha)).elim
      | succ b =>
        have : a = b := ih later (by simpa using ha) (by simpa using hb)
        rw [this]

/-! ## Linking -/

theorem Labels.resolve?_note (table : Labels) (i : Instruction) (address : Nat) (l : Label) :
    (table.note i address).resolve? l =
      if i.marked? = some l then some address else table.resolve? l := by
  unfold note
  split
  · rename_i k hk
    have : k = l ↔ l.id = k.id := by cases k; cases l; simp [eq_comm]
    simp only [resolve?, Table.get?_insert, hk, Option.some.injEq, this]
  · rename_i hk; simp [hk]

theorem link_concat (code : List Instruction) (i : Instruction) :
    link (code ++ [i]) = (link code).note i code.length := by
  simp [link, List.zipIdx_append]

/-- A label leads to the last address that marks it. -/
theorem resolve?_link_eq_some_iff {code : List Instruction} {l : Label} {a : Nat} :
    (link code).resolve? l = some a ↔ code[a]?.bind Instruction.marked? = some l ∧
      ∀ b, a < b → code[b]?.bind Instruction.marked? ≠ some l := by
  induction h : code.length generalizing code with
  | zero =>
    obtain rfl := List.length_eq_zero_iff.1 h
    simp [link, Labels.resolve?]
  | succ n ih =>
    obtain rfl | ⟨init, i, rfl⟩ := List.eq_nil_or_concat code
    · simp at h
    rw [List.concat_eq_append] at h ⊢
    have hn : init.length = n := by simpa using h
    have last : (init ++ [i])[n]? = some i := by rw [← hn]; exact List.getElem?_concat_length
    have before {b : Nat} (hb : b < n) : (init ++ [i])[b]? = init[b]? :=
      List.getElem?_append_left (by omega)
    have beyond {b : Nat} (hb : n < b) : (init ++ [i])[b]? = none :=
      List.getElem?_eq_none (by simp; omega)
    rw [link_concat, Labels.resolve?_note, hn]
    split
    · rename_i hi
      constructor
      · rintro ⟨⟩
        exact ⟨by rw [last]; exact hi, fun b hb => by simp [beyond hb]⟩
      · rintro ⟨ha, hlater⟩
        rcases Nat.lt_trichotomy a n with hlt | rfl | hgt
        · exact absurd (by rw [last]; exact hi) (hlater n hlt)
        · rfl
        · simp [beyond hgt] at ha
    · rename_i hi
      rw [ih hn]
      have outside {b : Nat} (hb : n ≤ b) : (init ++ [i])[b]?.bind Instruction.marked? ≠ some l := by
        rcases Nat.eq_or_lt_of_le hb with rfl | hgt
        · rw [last]; exact hi
        · simp [beyond hgt]
      have same (b : Nat) : (init ++ [i])[b]?.bind Instruction.marked? = some l ↔
          init[b]?.bind Instruction.marked? = some l := by
        by_cases hb : b < n
        · rw [before hb]
        · have hnone : init[b]? = none := List.getElem?_eq_none (by omega)
          simp [outside (Nat.le_of_not_lt hb), hnone]
      simp only [ne_eq, same]

/-- Where no label is marked twice, each mark is where its label leads. -/
theorem resolve?_link_of_nodup {code : List Instruction} (h : (marks code).Nodup) {a : Nat}
    {l : Label} (ha : code[a]?.bind Instruction.marked? = some l) :
    (link code).resolve? l = some a :=
  resolve?_link_eq_some_iff.2 ⟨ha, fun b hb hl => by
    have := eq_of_marked? h ha hl
    omega⟩

/-- In linked code each label that is used, and the entry, has an address. -/
theorem Draft.link_ok_resolve? {d : Draft} {entry : Label} {p : Program}
    (h : d.link entry = .ok p) {l : Label}
    (hl : l = entry ∨ ∃ i ∈ d.code.toList, i.label? = some l) : p.labels.resolve? l ≠ none := by
  unfold Draft.link at h
  split at h
  · cases h
  · rename_i hn
    cases h
    have := List.find?_eq_none.1 hn l (by
      rw [List.mem_append, List.mem_filterMap, List.mem_singleton]
      exact hl.symm)
    simpa using this

end StackLang
