import StackLang.Proofs.Core.Jumps
import StackLang.Proofs.Tree.Occurrences

/-!
# Slots of emitted code

The instructions of a function that have a slot stand for the occurrences of variables in it, one for each
and in the same order. The code between the `let` of a variable and the end of its block is entered only
from the `let`: it is the only way in, since jumps from elsewhere do not lead there.

Results:
* `StandsFor.instruction?_of_occurrenceAt?`: the instruction that stands for an occurrence.
* `Closed.left`, `Closed.right`: code that is entered only at its start stays so within other code.
* `Settled.append`, `Settled.declare`: how code is put together of which each occurrence comes after its
  `let`.
-/
namespace StackLang

open StackLang.Core Instruction

/-! ## Instructions and occurrences -/

/-- The instruction has a slot as its operand. -/
def Instruction.isSlot (i : Instruction) : Bool := i.opcode.operandRole = .slot

/-- The instruction that stands for an occurrence: the slot is the number of the `let`. -/
def Occurrence.instruction? (o : Occurrence) : Option Instruction :=
  o.binder.map fun number => ⟨if o.use = .read then .loadSlot else .storeSlot, Int64.ofNat number⟩

/-- The occurrence that the instruction at an address stands for: if it has a slot, as many come before it
as there are before the instruction. -/
def occurrenceAt? (code : List Instruction) (os : List Occurrence) (j : Nat) : Option Occurrence :=
  code[j]?.bind fun i => if i.isSlot then os[(code.take j).countP isSlot]? else none

/-- The instructions with a slot stand for the occurrences, one for each and in the same order. -/
def StandsFor (code : List Instruction) (os : List Occurrence) : Prop :=
  (code.filter isSlot).map some = os.map Occurrence.instruction?

section

variable {x y : List Instruction} {os os' : List Occurrence} {j : Nat} {o : Occurrence}

theorem occurrenceAt?_eq_some_iff : occurrenceAt? x os j = some o ↔
    ∃ i, x[j]? = some i ∧ i.isSlot = true ∧ os[(x.take j).countP isSlot]? = some o := by
  simp [occurrenceAt?, Option.bind_eq_some_iff]

theorem lt_of_occurrenceAt? (h : occurrenceAt? x os j = some o) : j < x.length := by
  obtain ⟨i, hi, -⟩ := occurrenceAt?_eq_some_iff.1 h
  exact (List.getElem?_eq_some_iff.1 hi).1

theorem mem_of_occurrenceAt? (h : occurrenceAt? x os j = some o) : o ∈ os := by
  obtain ⟨i, -, -, ho⟩ := occurrenceAt?_eq_some_iff.1 h
  exact List.mem_of_getElem? ho

/-- Before an instruction with a slot there are fewer of them than in the whole code. -/
theorem countP_take_lt {i : Instruction} (hi : x[j]? = some i) (hslot : i.isSlot = true) :
    (x.take j).countP isSlot < x.countP isSlot := by
  have hle : (x.take (j + 1)).countP isSlot ≤ x.countP isSlot :=
    (List.take_sublist (j + 1) x).countP_le
  rw [List.take_add_one, hi, Option.toList_some, List.countP_append, List.countP_singleton,
    if_pos hslot] at hle
  exact hle

theorem exists_countP_take_eq {q : Nat} (hq : q < x.countP isSlot) :
    ∃ j i, x[j]? = some i ∧ i.isSlot = true ∧ (x.take j).countP isSlot = q := by
  induction x generalizing q with
  | nil => exact absurd hq (Nat.not_lt_zero q)
  | cons i x ih =>
    rw [List.countP_cons] at hq
    cases hslot : i.isSlot with
    | false =>
      simp only [hslot, Bool.false_eq_true, if_false, Nat.add_zero] at hq
      obtain ⟨j, i', hj, hi', hcount⟩ := ih hq
      refine ⟨j + 1, i', hj, hi', ?_⟩
      rw [List.take_succ_cons, List.countP_cons_of_neg (by simp [hslot]), hcount]
    | true =>
      simp only [hslot, if_true] at hq
      cases q with
      | zero => exact ⟨0, i, rfl, hslot, rfl⟩
      | succ q =>
        obtain ⟨j, i', hj, hi', hcount⟩ := ih (Nat.lt_of_succ_lt_succ hq)
        refine ⟨j + 1, i', hj, hi', ?_⟩
        rw [List.take_succ_cons, List.countP_cons_of_pos hslot, hcount]

namespace StandsFor

theorem nil (h : ∀ i ∈ x, i.isSlot = false) : StandsFor x [] := by
  rw [StandsFor, List.filter_eq_nil_iff.2 fun i hi => by simp [h i hi]]
  rfl

theorem mark (l : Label) : StandsFor [ofLabel .mark l] [] := rfl

theorem append (h : StandsFor x os) (h' : StandsFor y os') : StandsFor (x ++ y) (os ++ os') := by
  rw [StandsFor, List.filter_append, List.map_append, h, h', List.map_append]

theorem concat {i : Instruction} (h : StandsFor x os) (hi : i.isSlot = false) :
    StandsFor (x ++ [i]) os := by
  have := h.append (nil (x := [i]) (List.forall_mem_singleton.2 hi))
  rwa [List.append_nil] at this

theorem single {i : Instruction} (hi : i.isSlot = true) (ho : o.instruction? = some i) :
    StandsFor [i] [o] := by
  rw [StandsFor, List.filter_cons_of_pos hi, List.map_singleton, ho]
  rfl

theorem countP_eq (h : StandsFor x os) : x.countP isSlot = os.length := by
  simpa [List.countP_eq_length_filter] using congrArg List.length h

theorem occurrenceAt?_left (h : StandsFor x os) (hj : j < x.length) (y : List Instruction)
    (os' : List Occurrence) : occurrenceAt? (x ++ y) (os ++ os') j = occurrenceAt? x os j := by
  rw [occurrenceAt?, occurrenceAt?, List.getElem?_append_left hj,
    List.take_append_of_le_length (Nat.le_of_lt hj)]
  refine Option.bind_congr fun i hi => ?_
  split
  · rename_i hslot
    rw [List.getElem?_append_left (h.countP_eq ▸ countP_take_lt hi hslot)]
  · rfl

theorem occurrenceAt?_right (h : StandsFor x os) (y : List Instruction) (os' : List Occurrence)
    (j : Nat) : occurrenceAt? (x ++ y) (os ++ os') (x.length + j) = occurrenceAt? y os' j := by
  rw [occurrenceAt?, occurrenceAt?, List.getElem?_append_right (Nat.le_add_right _ _),
    Nat.add_sub_cancel_left, List.take_length_add_append, List.countP_append, h.countP_eq]
  refine Option.bind_congr fun i hi => ?_
  rw [List.getElem?_append_right (Nat.le_add_right _ _), Nat.add_sub_cancel_left]

/-- The instruction that stands for an occurrence is that of the slot with the number of its `let`. -/
theorem instruction?_of_occurrenceAt? (h : StandsFor x os) (ho : occurrenceAt? x os j = some o) :
    x[j]? = o.instruction? := by
  obtain ⟨i, hi, hslot, ho⟩ := occurrenceAt?_eq_some_iff.1 ho
  have hfilter : x.filter isSlot = (x.take j).filter isSlot ++ i :: (x.drop (j + 1)).filter isSlot := by
    obtain ⟨hlt, rfl⟩ := List.getElem?_eq_some_iff.1 hi
    conv => lhs; rw [← List.take_append_drop j x, List.drop_eq_getElem_cons hlt]
    rw [List.filter_append, List.filter_cons_of_pos hslot]
  have hget : (x.filter isSlot)[(x.take j).countP isSlot]? = some i := by
    rw [hfilter, List.countP_eq_length_filter, List.getElem?_append_right (Nat.le_refl _), Nat.sub_self]
    rfl
  have := congrArg (·[(x.take j).countP isSlot]?) h
  simp only [List.getElem?_map, hget, ho, Option.map_some, Option.some.injEq] at this
  rw [hi, this]

/-- Each occurrence has an instruction that stands for it. -/
theorem exists_occurrenceAt? (h : StandsFor x os) (ho : o ∈ os) : ∃ j, occurrenceAt? x os j = some o := by
  obtain ⟨q, hq⟩ := List.getElem?_of_mem ho
  have hlt : q < x.countP isSlot := by
    rw [h.countP_eq]
    exact (List.getElem?_eq_some_iff.1 hq).1
  obtain ⟨j, i, hi, hslot, hcount⟩ := exists_countP_take_eq hlt
  exact ⟨j, occurrenceAt?_eq_some_iff.2 ⟨i, hi, hslot, by rw [hcount]; exact hq⟩⟩

end StandsFor

end

/-! ## Code that is entered only at its start -/

/-- No jump is to a label from `low` up to `high`. -/
def Avoids (low high : Nat) (code : List Instruction) : Prop :=
  ∀ i ∈ code, ∀ l, i.jumpsTo? = some l → ¬ (low ≤ l.id ∧ l.id < high)

namespace Avoids

variable {low high : Nat} {x y : List Instruction}

theorem of_le (h : high ≤ low) (x : List Instruction) : Avoids low high x :=
  fun _ _ _ _ hrange => absurd (Nat.lt_of_le_of_lt hrange.1 hrange.2) (Nat.not_lt.2 h)

theorem of_stays {done a b : Nat} (h : ∀ i ∈ x, Stays done a b i) (hdone : done < low ∨ high ≤ done)
    (hab : b ≤ low ∨ high ≤ a) : Avoids low high x := by
  intro i hi l hl hrange
  rcases (h i hi).jump l hl with h | h <;> omega

theorem append (hx : Avoids low high x) (hy : Avoids low high y) : Avoids low high (x ++ y) :=
  fun i hi => (List.mem_append.1 hi).elim (hx i) (hy i)

theorem mark (l : Label) : Avoids low high [ofLabel .mark l] :=
  of_stays (a := 0) (List.forall_mem_singleton.2 (.mark l)) (.inr (Nat.le_refl high))
    (.inl (Nat.zero_le low))

theorem jump {op : Opcode} (hop : op = .jump ∨ op = .jumpIfZero) (id : Nat) (hid : id < 0x100000000)
    (h : id < low ∨ high ≤ id) : Avoids low high [ofLabel op ⟨id⟩] :=
  of_stays (a := 0) (List.forall_mem_singleton.2 (.ofLabel hop hid (.inl rfl))) h
    (.inl (Nat.zero_le low))

theorem expr (offset : String → Nat) (e : Core.Expr) : Avoids low high (e.emit offset) :=
  of_stays (e.stays_emit offset high 0 0) (.inr (Nat.le_refl high)) (.inl (Nat.zero_le low))

end Avoids

/-- The code from `start` up to `stop` has all jumps to labels from `low` up to `high`, and marks no other
labels. So it is entered only at its start. -/
structure Closed (code : List Instruction) (low high start stop : Nat) : Prop where
  le : stop ≤ code.length
  jump : ∀ j i l, code[j]? = some i → i.jumpsTo? = some l → low ≤ l.id → l.id < high →
    start ≤ j ∧ j < stop
  mark : ∀ j i l, start ≤ j → j < stop → code[j]? = some i → i.marked? = some l →
    low ≤ l.id ∧ l.id < high

namespace Closed

variable {x y : List Instruction} {low high start stop : Nat}

/-- Code that marks only labels that no other code jumps to. -/
theorem of_marks (hx : Avoids low high x) (hy : ∀ l ∈ marks y, low ≤ l.id ∧ l.id < high) :
    Closed (x ++ y) low high x.length (x ++ y).length where
  le := Nat.le_refl _
  jump j i l hi hl hlow hhigh := by
    refine ⟨Nat.le_of_not_lt fun hlt => ?_, (List.getElem?_eq_some_iff.1 hi).1⟩
    rw [List.getElem?_append_left hlt] at hi
    exact hx i (List.mem_of_getElem? hi) l hl ⟨hlow, hhigh⟩
  mark j i l hlow _ hi hl := by
    rw [List.getElem?_append_right hlow] at hi
    exact hy l (mem_marks.2 ⟨i, List.mem_of_getElem? hi, hl⟩)

theorem left (h : Closed x low high start stop) (hy : Avoids low high y) :
    Closed (x ++ y) low high start stop where
  le := Nat.le_trans h.le (by simp)
  jump j i l hi hl hlow hhigh := by
    by_cases hj : j < x.length
    · rw [List.getElem?_append_left hj] at hi
      exact h.jump j i l hi hl hlow hhigh
    · rw [List.getElem?_append_right (Nat.le_of_not_lt hj)] at hi
      exact (hy i (List.mem_of_getElem? hi) l hl ⟨hlow, hhigh⟩).elim
  mark j i l hlow hhigh hi hl := by
    rw [List.getElem?_append_left (Nat.lt_of_lt_of_le hhigh h.le)] at hi
    exact h.mark j i l hlow hhigh hi hl

theorem right (h : Closed y low high start stop) (hx : Avoids low high x) :
    Closed (x ++ y) low high (x.length + start) (x.length + stop) where
  le := by
    rw [List.length_append]
    exact Nat.add_le_add_left h.le _
  jump j i l hi hl hlow hhigh := by
    by_cases hj : j < x.length
    · rw [List.getElem?_append_left hj] at hi
      exact (hx i (List.mem_of_getElem? hi) l hl ⟨hlow, hhigh⟩).elim
    · rw [List.getElem?_append_right (Nat.le_of_not_lt hj)] at hi
      have := h.jump _ i l hi hl hlow hhigh
      omega
  mark j i l hlow hhigh hi hl := by
    rw [List.getElem?_append_right (by omega)] at hi
    exact h.mark _ i l (by omega) (by omega) hi hl

end Closed

/-! ## Occurrences after their declaration -/

/-- The occurrence at `j` comes after its `let`, in code that is entered only there; the labels of this
code are from `low` up to `high`. -/
def Opened (low high : Nat) (code : List Instruction) (os : List Occurrence) (j : Nat)
    (o : Occurrence) : Prop :=
  ∃ k stop first last, k < j ∧ j < stop ∧ low ≤ first ∧ last ≤ high ∧
    occurrenceAt? code os k = some ⟨.declare, o.name, o.binder⟩ ∧ Closed code first last (k + 1) stop

namespace Opened

variable {low high low' high' j : Nat} {x y : List Instruction} {os os' : List Occurrence}
  {o : Occurrence}

theorem mono (h : Opened low high x os j o) (hlow : low' ≤ low) (hhigh : high ≤ high') :
    Opened low' high' x os j o := by
  obtain ⟨k, stop, first, last, hk, hj, hfirst, hlast, hlet, hclosed⟩ := h
  exact ⟨k, stop, first, last, hk, hj, Nat.le_trans hlow hfirst, Nat.le_trans hlast hhigh, hlet,
    hclosed⟩

theorem left (h : Opened low high x os j o) (hx : StandsFor x os) (hy : Avoids low high y) :
    Opened low high (x ++ y) (os ++ os') j o := by
  obtain ⟨k, stop, first, last, hk, hj, hfirst, hlast, hlet, hclosed⟩ := h
  refine ⟨k, stop, first, last, hk, hj, hfirst, hlast, ?_, hclosed.left ?_⟩
  · rw [hx.occurrenceAt?_left (lt_of_occurrenceAt? hlet), hlet]
  · exact fun i hi l hl hrange => hy i hi l hl (by omega)

theorem right (h : Opened low high y os' j o) (hx : StandsFor x os) (hxy : Avoids low high x) :
    Opened low high (x ++ y) (os ++ os') (x.length + j) o := by
  obtain ⟨k, stop, first, last, hk, hj, hfirst, hlast, hlet, hclosed⟩ := h
  refine ⟨x.length + k, x.length + stop, first, last, by omega, by omega, hfirst, hlast, ?_,
    hclosed.right ?_⟩
  · rw [hx.occurrenceAt?_right, hlet]
  · exact fun i hi l hl hrange => hxy i hi l hl (by omega)

end Opened

/-- Code that stands for occurrences, of which each that is not a `let` is of a variable in scope, or comes
after its `let` in this code. -/
structure Settled (scope : Scope) (low high : Nat) (code : List Instruction)
    (os : List Occurrence) : Prop where
  standsFor : StandsFor code os
  cases : ∀ j o, occurrenceAt? code os j = some o → o.use ≠ .declare →
    o.binder = scope.slot? o.name ∨ Opened low high code os j o

namespace Settled

variable {scope : Scope} {low high l h l' h' : Nat} {x y : List Instruction}
  {os os' : List Occurrence}

theorem of_scope (hx : StandsFor x os) (hos : ∀ o ∈ os, o.use ≠ .declare →
    o.binder = scope.slot? o.name) (low high : Nat) : Settled scope low high x os :=
  ⟨hx, fun _ o ho huse => .inl (hos o (mem_of_occurrenceAt? ho) huse)⟩

theorem mono (hx : Settled scope l h x os) (hl : low ≤ l) (hh : h ≤ high) :
    Settled scope low high x os :=
  ⟨hx.standsFor, fun j o ho huse => (hx.cases j o ho huse).imp_right fun hopened =>
    hopened.mono hl hh⟩

/-- Code of two parts, of which neither jumps to the labels of the other. -/
theorem append (hx : Settled scope l h x os) (hy : Settled scope l' h' y os') (hxy : Avoids l' h' x)
    (hyx : Avoids l h y) (hl : low ≤ l ∧ h ≤ high) (hl' : low ≤ l' ∧ h' ≤ high) :
    Settled scope low high (x ++ y) (os ++ os') where
  standsFor := hx.standsFor.append hy.standsFor
  cases j o ho huse := by
    by_cases hj : j < x.length
    · rw [hx.standsFor.occurrenceAt?_left hj] at ho
      exact (hx.cases j o ho huse).imp_right fun h => (h.left hx.standsFor hyx).mono hl.1 hl.2
    · obtain ⟨j, rfl⟩ := Nat.exists_eq_add_of_le (Nat.le_of_not_lt hj)
      rw [hx.standsFor.occurrenceAt?_right] at ho
      exact (hy.cases j o ho huse).imp_right fun h => (h.right hx.standsFor hxy).mono hl'.1 hl'.2

/-- With code before it whose occurrences are all of variables in scope. -/
theorem after (hy : Settled scope low high y os') (hx : StandsFor x os)
    (hos : ∀ o ∈ os, o.use ≠ .declare → o.binder = scope.slot? o.name) (hxy : Avoids low high x) :
    Settled scope low high (x ++ y) (os ++ os') :=
  (of_scope hx hos (max low high) high).append hy hxy (.of_le (Nat.le_max_right _ _) _)
    ⟨Nat.le_max_left _ _, Nat.le_refl _⟩ ⟨Nat.le_refl _, Nat.le_refl _⟩

/-- With code after it that has no slots. -/
theorem concat (hx : Settled scope low high x os) (hy : ∀ i ∈ y, i.isSlot = false)
    (hyx : Avoids low high y) : Settled scope low high (x ++ y) os := by
  have hboth := hx.append (of_scope (.nil hy) (by simp) (max low high) high)
    (.of_le (Nat.le_max_right _ _) _) hyx ⟨Nat.le_refl _, Nat.le_refl _⟩
    ⟨Nat.le_max_left _ _, Nat.le_refl _⟩
  rwa [List.append_nil] at hboth

/-- The code of a `let`, by itself. -/
theorem of_declare (hx : StandsFor x os) (hos : ∀ o ∈ os, o.binder = scope.slot? o.name) (name : String)
    (number low high : Nat) : Settled scope low high (x ++ [⟨.storeSlot, Int64.ofNat number⟩])
      (os ++ [⟨.declare, name, some number⟩]) := by
  refine .of_scope (hx.append (.single rfl rfl)) (fun o ho huse => ?_) low high
  rcases List.mem_append.1 ho with ho | ho
  · exact hos o ho
  · rw [List.mem_singleton.1 ho] at huse
    exact absurd rfl huse

/-- The code of a `let` and of the statements after it in its block. -/
theorem declare (hx : StandsFor x os) (hos : ∀ o ∈ os, o.binder = scope.slot? o.name) {name : String}
    {number : Nat} (hy : Settled ((name, number) :: scope) low high y os')
    (hxy : Avoids low high (x ++ [⟨.storeSlot, Int64.ofNat number⟩]))
    (hmarks : ∀ l ∈ marks y, low ≤ l.id ∧ l.id < high) :
    Settled scope low high (x ++ [⟨.storeSlot, Int64.ofNat number⟩] ++ y)
      (os ++ [⟨.declare, name, some number⟩] ++ os') := by
  have hfirst := of_declare hx hos name number (max low high) high
  have hlet := hx.occurrenceAt?_right [⟨.storeSlot, Int64.ofNat number⟩] [⟨.declare, name, some number⟩] 0
  have hlength : (x ++ [(⟨.storeSlot, Int64.ofNat number⟩ : Instruction)]).length = x.length + 1 :=
    List.length_append
  generalize x ++ [⟨.storeSlot, Int64.ofNat number⟩] = z at hfirst hlet hlength hxy ⊢
  generalize os ++ [⟨.declare, name, some number⟩] = zs at hfirst hlet ⊢
  refine ⟨hfirst.standsFor.append hy.standsFor, fun j o ho huse => ?_⟩
  by_cases hj : j < z.length
  · rw [hfirst.standsFor.occurrenceAt?_left hj] at ho
    exact (hfirst.cases j o ho huse).imp_right fun h =>
      (h.left hfirst.standsFor (.of_le (Nat.le_max_right _ _) y)).mono (Nat.le_max_left _ _)
        (Nat.le_refl _)
  obtain ⟨j, rfl⟩ := Nat.exists_eq_add_of_le (Nat.le_of_not_lt hj)
  rw [hfirst.standsFor.occurrenceAt?_right] at ho
  rcases hy.cases j o ho huse with hbinder | hopened
  · rw [Scope.slot?, List.lookup_cons] at hbinder
    split at hbinder
    · -- a variable of this `let`, in the rest of the block
      rename_i hname
      obtain rfl := beq_iff_eq.1 hname
      have hlt := lt_of_occurrenceAt? ho
      refine .inr ⟨x.length, (z ++ y).length, low, high, by omega, ?_, Nat.le_refl _, Nat.le_refl _,
        ?_, ?_⟩
      · rw [List.length_append]
        omega
      · rw [hfirst.standsFor.occurrenceAt?_left (by omega), hbinder]
        exact hlet
      · rw [← hlength]
        exact .of_marks hxy hmarks
    · exact .inl hbinder
  · exact .inr (hopened.right hfirst.standsFor hxy)

/-- Where no variable is in scope from before, each occurrence comes after its `let`. -/
theorem opened {j : Nat} {o : Occurrence} (hx : Settled [] low high x os)
    (ho : occurrenceAt? x os j = some o) (huse : o.use ≠ .declare) : Opened low high x os j o := by
  refine (hx.cases j o ho huse).resolve_left fun hbinder => ?_
  have hget := hx.standsFor.instruction?_of_occurrenceAt? ho
  rw [Occurrence.instruction?, hbinder, List.getElem?_eq_getElem (lt_of_occurrenceAt? ho)] at hget
  cases hget

end Settled

end StackLang
