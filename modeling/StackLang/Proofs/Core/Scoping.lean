import Mathlib.Data.List.Forall2
import StackLang.Proofs.Core.Resolution
import StackLang.Proofs.Core.Slots

/-!
# Slots follow the scopes

The code of a tree has the slots that the occurrences of variables call for: each is the number of the
`let` that a name means where it is mentioned, and the code that mentions it comes after that `let`.

Results:
* `Expr.standsFor_of_resolve`: the code of an expression reads what the expression reads.
* `Stmt.settled_of_resolve`, `Stmt.settled_of_resolveAll`: the code of statements.
* `Core.Module.settled_functionCode`: the code of a function.
-/
namespace StackLang

open Effect Instruction

variable {functions : List String} {scope : Scope} {blocks : Blocks} (offset : String → Nat)

/-! ## Expressions -/

/-- The code of what is resolved reads variables with these names. -/
def Reads (blocks : Blocks) (r : Resolved Core.Expr) (names : List String) : Prop :=
  ∀ c, r = .ok c → StandsFor (c.emit offset) (blocks.readings names)

theorem readings_append (blocks : Blocks) (names names' : List String) :
    blocks.readings (names ++ names') = blocks.readings names ++ blocks.readings names' :=
  List.map_append

/-- The operands of an operator are read in the order in which they are evaluated. -/
theorem OperatorForm.standsFor {op : Operator} {operands : List (Resolved Core.Expr)} {c : Core.Expr}
    {each : List (List String)} (h : OperatorForm op operands c)
    (hs : List.Forall₂ (Reads offset blocks) operands each) :
    StandsFor (c.emit offset) (blocks.readings
      (if op.symbol ∈ rightFirstSymbols then each.reverse else each).flatten) := by
  cases h with
  | not e =>
    obtain - | ⟨he, - | -⟩ := hs
    rw [if_neg (by decide), List.flatten_cons, List.flatten_nil, List.append_nil]
    exact (he e rfl).concat rfl
  | arithmetic op l r =>
    obtain - | ⟨hl, - | ⟨hr, - | -⟩⟩ := hs
    rw [if_pos (by cases op <;> decide)]
    simp only [List.reverse_cons, List.reverse_nil, List.nil_append, List.cons_append,
      List.flatten_cons, List.flatten_nil, List.append_nil, readings_append]
    exact ((hr r rfl).append (hl l rfl)).concat (by cases op <;> rfl)
  | comparison op l r =>
    obtain - | ⟨hl, - | ⟨hr, - | -⟩⟩ := hs
    rw [if_neg (by cases op <;> decide)]
    simp only [List.flatten_cons, List.flatten_nil, List.append_nil, readings_append]
    exact ((hl l rfl).append (hr r rfl)).concat (by cases op <;> rfl)
  | negated op l r =>
    obtain - | ⟨hl, - | ⟨hr, - | -⟩⟩ := hs
    rw [if_neg (by cases op <;> decide)]
    simp only [List.flatten_cons, List.flatten_nil, List.append_nil, readings_append]
    exact (((hl l rfl).append (hr r rfl)).concat (by cases op <;> rfl)).concat rfl

namespace Expr

mutual

/-- The code of an expression reads what the expression reads. -/
theorem standsFor_of_resolve (hscope : scope.Means blocks) : ∀ (e : Expr) {c : Core.Expr},
    e.resolve functions scope = .ok c → StandsFor (c.emit offset) (e.occurrences blocks)
  | .integer _ _, _, h | .string _ _, _, h => by
    cases h
    rfl
  | .reference name, _, h => by
    rw [resolve] at h
    split at h
    · rename_i index hindex
      cases h
      have hbinder : blocks.binder? name.text = some index := (hscope name.text).symm.trans hindex
      exact .single rfl (by simp [Occurrence.instruction?, hbinder])
    · cases h
  | .operator symbol operands _, _, h => by
    obtain ⟨op, hop, hform⟩ := resolveOperator_eq_ok h
    rw [occurrences, reads, Operator.eq_symbol_of_ofSymbol? hop]
    exact hform.standsFor offset (reads_resolveEach hscope operands)
  | .call callee args _, _, h => by
    have hargs := reads_resolveEach hscope args
    rw [occurrences, reads]
    rcases resolveCall_eq_ok h with ⟨index, hform, rfl⟩ | ⟨hform, rfl⟩ <;>
    · generalize resolveEach functions scope args = as at hform hargs
      cases hform
      rw [List.forall₂_nil_left_iff.1 hargs]
      rfl

/-- The code of each of some expressions reads what that expression reads. -/
theorem reads_resolveEach (hscope : scope.Means blocks) : ∀ es : List Expr,
    List.Forall₂ (Reads offset blocks) (resolveEach functions scope es) (readsOfEach es)
  | [] => .nil
  | e :: es => .cons (fun _ h => standsFor_of_resolve hscope e h) (reads_resolveEach hscope es)

end

theorem standsFor_of_resolveOptional (hscope : scope.Means blocks) {e : Option Expr} {c : Core.Expr}
    (h : resolveOptional functions scope e = .ok c) :
    StandsFor (c.emit offset) (optionalOccurrences blocks e) := by
  cases e with
  | none => cases h; rfl
  | some e => exact e.standsFor_of_resolve offset hscope h

/-- What an expression reads is in scope. -/
theorem binder_of_mem_occurrences (hscope : scope.Means blocks) {e : Expr} {o : Occurrence}
    (ho : o ∈ e.occurrences blocks) : o.binder = scope.slot? o.name := by
  obtain ⟨name, -, rfl⟩ := List.mem_map.1 ho
  exact (hscope name).symm

theorem binder_of_mem_optionalOccurrences (hscope : scope.Means blocks) {e : Option Expr}
    {o : Occurrence} (ho : o ∈ optionalOccurrences blocks e) : o.binder = scope.slot? o.name := by
  cases e with
  | none => cases ho
  | some e => exact binder_of_mem_occurrences hscope ho

/-- The code of an expression as a statement reads what the expression reads. -/
theorem standsFor_of_resolveStatement (hscope : scope.Means blocks) {e : Expr} {c : Core.Stmt}
    (h : e.resolveStatement functions scope = .ok c) (done label : Nat) :
    StandsFor (c.emit offset done label) (e.occurrences blocks) := by
  rcases resolveStatement_eq_ok h with
    ⟨callee, args, span, value, rfl, hforms⟩ | ⟨value, hvalue, rfl⟩
  · have hargs : List.Forall₂ (Reads offset blocks) (resolveEach functions scope args) _ :=
      reads_resolveEach offset hscope args
    rw [occurrences, reads]
    rcases hforms with ⟨hform, rfl⟩ | ⟨hform, rfl⟩ <;>
    · generalize resolveEach functions scope args = as at hform hargs
      generalize readsOfEach args = each at hargs
      cases hform
      obtain - | ⟨hvalue, - | -⟩ := hargs
      rw [List.flatten_cons, List.flatten_nil, List.append_nil]
      exact (hvalue value rfl).concat rfl
  · exact (standsFor_of_resolve offset hscope e hvalue).concat rfl

end Expr

/-! ## Statements -/

namespace Stmt

/-- A statement either is a `let` or leaves what is in scope as it is. -/
theorem cases_of_scopeAfter (s : Stmt) : (∃ binding, s = .declare binding) ∨
    ∀ (scope : Scope) (blocks : Blocks) number, scopeAfter scope number s = scope ∧
      blocksAfter blocks number s = blocks := by
  cases s with
  | declare binding => exact .inl ⟨binding, rfl⟩
  | _ => exact .inr fun _ _ _ => ⟨rfl, rfl⟩

variable {done : Nat}

mutual

/-- The code of a statement has the slots that its occurrences call for. -/
theorem settled_of_resolve (hdone : done < 0x100000000) : ∀ (s : Stmt) (label : Nat)
    {scope : Scope} {blocks : Blocks} {number : Nat} {c : Core.Stmt}, scope.Means blocks →
    s.resolve functions scope number = .ok c → done < label → label + c.labels ≤ 0x100000000 →
    Settled scope label (label + c.labels) (c.emit offset done label) (s.occurrences blocks number)
  | .declare binding, _, _, _, _, _, hscope, h, _, _ => by
    obtain ⟨value, hvalue, h⟩ := except_bind_eq_ok.1 h
    cases h
    exact .of_declare (Expr.standsFor_of_resolveOptional offset hscope hvalue)
      (fun _ ho => Expr.binder_of_mem_optionalOccurrences hscope ho) _ _ _ _
  | .evaluate e _, label, _, _, _, _, hscope, h, _, _ =>
    .of_scope (Expr.standsFor_of_resolveStatement offset hscope h done label)
      (fun _ ho _ => Expr.binder_of_mem_occurrences hscope ho) _ _
  | .assign target value _, _, _, _, _, _, hscope, h, _, _ => by
    rw [resolve] at h
    split at h
    · rename_i index hindex
      obtain ⟨value', hvalue, h⟩ := except_bind_eq_ok.1 h
      cases h
      have hbinder := (hscope target.text).symm.trans hindex
      have hread := Expr.standsFor_of_resolve offset hscope value hvalue
      refine .of_scope (hread.append (.single rfl (by simp [Occurrence.instruction?, hbinder])))
        (fun o ho _ => ?_) _ _
      rcases List.mem_append.1 ho with ho | ho
      · exact Expr.binder_of_mem_occurrences hscope ho
      · rw [List.mem_singleton.1 ho]
        exact (hscope target.text).symm
    · cases h
  | .giveBack value _, _, _, _, _, _, hscope, h, _, _ => by
    obtain ⟨value', hvalue, h⟩ := except_bind_eq_ok.1 h
    cases h
    exact .of_scope ((Expr.standsFor_of_resolveOptional offset hscope hvalue).concat rfl)
      (fun _ ho _ => Expr.binder_of_mem_optionalOccurrences hscope ho) _ _
  | .loop condition body _, label, _, _, _, _, hscope, h, hlow, hhigh => by
    obtain ⟨c, hc, h⟩ := except_bind_eq_ok.1 h
    obtain ⟨cs, hcs, h⟩ := except_bind_eq_ok.1 h
    cases h
    simp only [Core.Stmt.labels] at hhigh ⊢
    have hbody := settled_of_resolveBlock hdone body (label + 2) hscope.inner hcs (by omega)
      (by omega)
    have hcondition := ((StandsFor.mark ⟨label⟩).append
      (condition.standsFor_of_resolve offset hscope hc)).concat (i := ofLabel .jumpIfZero ⟨label + 1⟩) rfl
    have hleft := hbody.after hcondition (fun _ ho _ => Expr.binder_of_mem_occurrences hscope ho)
      (((Avoids.mark ⟨label⟩).append (.expr offset c)).append
        (.jump (.inr rfl) (label + 1) (by omega) (.inl (by omega))))
    have hboth := hleft.concat (y := [ofLabel .jump ⟨label⟩, ofLabel .mark ⟨label + 1⟩])
      (List.forall_mem_cons.2 ⟨rfl, List.forall_mem_singleton.2 rfl⟩)
      (Avoids.append (.jump (.inl rfl) label (by omega) (.inl (by omega))) (.mark ⟨label + 1⟩))
    exact hboth.mono (by omega) (by omega)
  | .ifThen condition body _, label, _, _, _, _, hscope, h, hlow, hhigh => by
    obtain ⟨c, hc, h⟩ := except_bind_eq_ok.1 h
    obtain ⟨cs, hcs, h⟩ := except_bind_eq_ok.1 h
    cases h
    simp only [Core.Stmt.labels] at hhigh ⊢
    have hbody := settled_of_resolveBlock hdone body (label + 1) hscope.inner hcs (by omega)
      (by omega)
    have hcondition := (condition.standsFor_of_resolve offset hscope hc).concat
      (i := ofLabel .jumpIfZero ⟨label⟩) rfl
    have hleft := hbody.after hcondition (fun _ ho _ => Expr.binder_of_mem_occurrences hscope ho)
      ((Avoids.expr offset c).append (.jump (.inr rfl) label (by omega) (.inl (by omega))))
    have hboth := hleft.concat (y := [ofLabel .mark ⟨label⟩]) (List.forall_mem_singleton.2 rfl)
      (.mark ⟨label⟩)
    exact hboth.mono (by omega) (by omega)
  | .ifElse condition body other _, label, scope, _, _, _, hscope, h, hlow, hhigh => by
    obtain ⟨c, hc, h⟩ := except_bind_eq_ok.1 h
    obtain ⟨yes, hyes, h⟩ := except_bind_eq_ok.1 h
    obtain ⟨no, hno, h⟩ := except_bind_eq_ok.1 h
    cases h
    simp only [Core.Stmt.labels] at hhigh ⊢
    have hbody := settled_of_resolveBlock hdone body (label + 1) hscope.inner hyes (by omega) (by omega)
    have hother := settled_of_resolveBlock hdone other (label + 1 + Core.Stmt.labelsOfAll yes + 1)
      hscope.inner hno (by omega) (by omega)
    have hcondition := (condition.standsFor_of_resolve offset hscope hc).concat
      (i := ofLabel .jumpIfZero ⟨label⟩) rfl
    have hfirst := hbody.after hcondition (fun _ ho _ => Expr.binder_of_mem_occurrences hscope ho)
      ((Avoids.expr offset c).append (.jump (.inr rfl) label (by omega) (.inl (by omega))))
    have hleft := hfirst.concat
      (y := [ofLabel .jump ⟨label + 1 + Core.Stmt.labelsOfAll yes⟩, ofLabel .mark ⟨label⟩])
      (List.forall_mem_cons.2 ⟨rfl, List.forall_mem_singleton.2 rfl⟩)
      (Avoids.append (.jump (.inl rfl) _ (by omega) (.inr (by omega))) (.mark ⟨label⟩))
    -- neither block jumps to a label of the other one
    have hyesStays := Core.Stmt.stays_emitAll offset hdone (label + 1) yes (by omega)
    have hnoStays := Core.Stmt.stays_emitAll offset hdone (label + 1 + Core.Stmt.labelsOfAll yes + 1) no
      (by omega)
    have hboth : Settled scope label
        (label + (2 + Core.Stmt.labelsOfAll yes + Core.Stmt.labelsOfAll no)) _ _ := hleft.append hother
      ((((Avoids.expr offset c).append (.jump (.inr rfl) label (by omega) (.inl (by omega)))).append
        (.of_stays hyesStays (.inl (by omega)) (.inl (by omega)))).append
        (Avoids.append (.jump (.inl rfl) _ (by omega) (.inl (by omega))) (.mark ⟨label⟩)))
      (.of_stays hnoStays (.inl (by omega)) (.inr (by omega))) (by omega) (by omega)
    rw [occurrences, (numbered_blockOccurrences _ _ body).length_eq]
    exact hboth.concat (List.forall_mem_singleton.2 rfl) (.mark _)

/-- The code of a block has the slots that its occurrences call for. -/
theorem settled_of_resolveBlock (hdone : done < 0x100000000) : ∀ (b : Block Stmt) (label : Nat)
    {scope : Scope} {blocks : Blocks} {number : Nat} {cs : List Core.Stmt}, scope.Means blocks →
    resolveBlock functions scope number b = .ok cs → done < label →
    label + Core.Stmt.labelsOfAll cs ≤ 0x100000000 →
    Settled scope label (label + Core.Stmt.labelsOfAll cs) (Core.Stmt.emitAll offset done label cs)
      (blockOccurrences blocks number b)
  | ⟨statements, _⟩, label, _, _, _, _, hscope, h, hlow, hhigh =>
    settled_of_resolveAll hdone statements label hscope h hlow hhigh

/-- The code of statements has the slots that their occurrences call for. -/
theorem settled_of_resolveAll (hdone : done < 0x100000000) : ∀ (ss : List Stmt) (label : Nat)
    {scope : Scope} {blocks : Blocks} {number : Nat} {cs : List Core.Stmt}, scope.Means blocks →
    resolveAll functions scope number ss = .ok cs → done < label →
    label + Core.Stmt.labelsOfAll cs ≤ 0x100000000 →
    Settled scope label (label + Core.Stmt.labelsOfAll cs) (Core.Stmt.emitAll offset done label cs)
      (allOccurrences blocks number ss)
  | [], _, _, _, _, _, _, h, _, _ => by
    cases h
    exact .of_scope (StandsFor.nil (by simp [Core.Stmt.emitAll])) (by simp) _ _
  | s :: ss, label, scope, blocks, number, _, hscope, h, hlow, hhigh => by
    obtain ⟨c, hc, h⟩ := except_bind_eq_ok.1 h
    obtain ⟨cs, hcs, h⟩ := except_bind_eq_ok.1 h
    cases h
    simp only [Core.Stmt.labelsOfAll] at hhigh ⊢
    have hs := settled_of_resolve hdone s label hscope hc hlow (by omega)
    rw [allOccurrences, (numbered_occurrences blocks number s).length_eq]
    rcases cases_of_scopeAfter s with ⟨binding, rfl⟩ | hafter
    · obtain ⟨value, hvalue, h⟩ := except_bind_eq_ok.1 hc
      cases h
      simp only [Core.Stmt.labels, Nat.zero_add, Core.Stmt.emitAll, Nat.add_zero] at hhigh ⊢
      have hss := settled_of_resolveAll hdone ss label (hscope.declare binding.name number) hcs hlow
        hhigh
      have hmarks := Core.Stmt.marks_emitAll offset done label cs hhigh
      have hstays := Core.Stmt.stays_emit offset hdone label (.store number value)
        (Nat.le_of_add_right_le hhigh)
      exact .declare (Expr.standsFor_of_resolveOptional offset hscope hvalue)
        (fun _ ho => Expr.binder_of_mem_optionalOccurrences hscope ho) hss
        (.of_stays hstays (.inl hlow) (.inl (Nat.le_refl _)))
        fun l hl => mem_labelsFrom.1 (hmarks.mem_iff.1 hl)
    · obtain ⟨hsame, hblocks⟩ := hafter scope blocks number
      rw [hsame] at hcs
      rw [hblocks]
      have hss := settled_of_resolveAll hdone ss (label + c.labels) hscope hcs (by omega) (by omega)
      exact hs.append hss (.of_stays (Core.Stmt.stays_emit offset hdone label c (by omega))
          (.inl (by omega)) (.inl (Nat.le_refl _)))
        (.of_stays (Core.Stmt.stays_emitAll offset hdone (label + c.labels) cs (by omega))
          (.inl hlow) (.inr (Nat.le_refl _))) (by omega) (by omega)

end

end Stmt

/-! ## Functions -/

/-- An instruction that neither has a slot nor jumps. -/
def Plain (i : Instruction) : Prop := i.isSlot = false ∧ i.jumpsTo? = none

theorem plain_replicate {i : Instruction} (h : Plain i) (count : Nat) :
    ∀ j ∈ List.replicate count i, Plain j := fun j hj => by rwa [List.eq_of_mem_replicate hj]

theorem Avoids.of_plain {low high : Nat} {x : List Instruction} (h : ∀ i ∈ x, Plain i) :
    Avoids low high x := fun i hi l hl => by
  rw [(h i hi).2] at hl
  cases hl

namespace Core.Function

variable (f : Core.Function)

theorem plain_prologue (index : Nat) : ∀ i ∈ f.prologue index, Plain i :=
  List.forall_mem_append.2 ⟨List.forall_mem_append.2
    ⟨List.forall_mem_cons.2 ⟨⟨rfl, rfl⟩, List.forall_mem_singleton.2 ⟨rfl, rfl⟩⟩,
      plain_replicate ⟨rfl, rfl⟩ _⟩, List.forall_mem_singleton.2 ⟨rfl, rfl⟩⟩

theorem plain_epilogue (done : Nat) : ∀ i ∈ f.epilogue done, Plain i :=
  List.forall_mem_append.2 ⟨List.forall_mem_append.2
    ⟨List.forall_mem_cons.2 ⟨⟨rfl, rfl⟩, List.forall_mem_singleton.2 ⟨rfl, rfl⟩⟩,
      plain_replicate ⟨rfl, rfl⟩ _⟩,
    List.forall_mem_cons.2 ⟨⟨rfl, rfl⟩, List.forall_mem_singleton.2 ⟨rfl, rfl⟩⟩⟩

end Core.Function

/-- The code of a function has the slots that its occurrences call for. Each occurrence that is not a `let`
comes after its `let`. -/
theorem Function.settled_emit {f : Function} {g : Core.Function} (h : f.resolve functions = .ok g)
    (index next : Nat) (hlabels : next + g.labels ≤ 0x100000000) :
    Settled [] (next + 1) (next + g.labels) (g.emit offset index next) f.occurrences := by
  obtain ⟨body, hbody, rfl⟩ := Function.resolve_eq_ok h
  simp only [Core.Function.labels] at hlabels ⊢
  have hstatements := Stmt.settled_of_resolveBlock offset (show next < 0x100000000 by omega) f.body
    (next + 1) .empty hbody (Nat.lt_succ_self next) (by omega)
  rw [Nat.add_assoc] at hstatements
  have hprologue := Core.Function.plain_prologue ⟨f.name.text, Stmt.localsOfBlock f.body, body⟩ index
  have hepilogue := Core.Function.plain_epilogue ⟨f.name.text, Stmt.localsOfBlock f.body, body⟩ next
  have hbefore := hstatements.after (.nil fun i hi => (hprologue i hi).1)
    (fun o ho => absurd ho List.not_mem_nil) (.of_plain hprologue)
  have hzero := hbefore.concat (y := [⟨.loadImmediate, 0⟩]) (List.forall_mem_singleton.2 rfl)
    (.of_plain (List.forall_mem_singleton.2 ⟨rfl, rfl⟩))
  exact hzero.concat (fun i hi => (hepilogue i hi).1) (.of_plain hepilogue)

/-- Each occurrence in a function that can be resolved is of one of its `let`s. -/
theorem Function.exists_binder {f : Function} {low high : Nat} {code : List Instruction}
    (h : Settled [] low high code f.occurrences) {o : Occurrence} (ho : o ∈ f.occurrences) :
    ∃ k < Stmt.localsOfBlock f.body, o.binder = some k := by
  have hlet {o : Occurrence} (ho : o ∈ f.occurrences) (huse : o.use = .declare) :
      ∃ k < Stmt.localsOfBlock f.body, o.binder = some k := by
    have hmem : o.binder ∈ (declarations f.occurrences).map (·.binder) :=
      List.mem_map_of_mem (List.mem_filter.2 ⟨ho, by simpa using huse⟩)
    rw [f.binders_declarations] at hmem
    obtain ⟨k, hk, heq⟩ := List.mem_map.1 hmem
    exact ⟨k, List.mem_range.1 hk, heq.symm⟩
  by_cases huse : o.use = .declare
  · exact hlet ho huse
  · obtain ⟨j, hj⟩ := h.standsFor.exists_occurrenceAt? ho
    obtain ⟨k, -, -, -, -, -, -, -, hopen, -⟩ := h.opened hj huse
    exact hlet (o := ⟨.declare, o.name, o.binder⟩) (mem_of_occurrenceAt? hopen) rfl

end StackLang
