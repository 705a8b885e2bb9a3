import StackLang.Core.Emit
import StackLang.Proofs.Core.Resolution
import StackLang.Proofs.Grammar.Strings

/-!
# Where emitted code prints literals

A new string that the next instruction prints is a literal that the function prints at once, and its code
has one such place for each of those literals, in the order in which they are written.

Results:
* `Prints.append`: the places of two parts of the code, one after the other.
* `Core.Function.prints_emit`: the texts that the code of a function prints at once.
* `Function.printed_of_resolve`: these are the literals that its tree prints at once.
-/
namespace StackLang

open Instruction

/-! ## Places in code -/

/-- Where the code, which starts at an address, makes a new string that the next instruction prints, and
with which operand. -/
def literalPrints (start : Nat) : List Instruction → List (Nat × Int64)
  | [] => []
  | i :: is =>
    let later := literalPrints (start + 1) is
    if i.opcode = .newString ∧ is.head?.map (·.opcode) = some .putString then
      (start, i.operand) :: later
    else later

/-- The code does not go on with printing a string that is there already, and the strings that it makes
and prints at once have these operands. -/
structure Prints (code : List Instruction) (operands : List Int64) : Prop where
  head : code.head?.map (·.opcode) ≠ some .putString
  operands (start : Nat) : (literalPrints start code).map (·.2) = operands

variable {x y : List Instruction} {start place : Nat} {operand : Int64}

theorem literalPrints_append (hy : y.head?.map (·.opcode) ≠ some .putString) (start : Nat) :
    literalPrints start (x ++ y) = literalPrints start x ++ literalPrints (start + x.length) y := by
  induction x generalizing start with
  | nil => rfl
  | cons i x ih =>
    have hhead : (x ++ y).head?.map (·.opcode) = some .putString ↔
        x.head?.map (·.opcode) = some .putString := by
      cases x with
      | nil => exact iff_of_false hy (by simp)
      | cons => rfl
    rw [List.cons_append, literalPrints, literalPrints, ih, List.length_cons,
      Nat.add_assoc, Nat.add_comm 1]
    simp only [hhead]
    split <;> rfl

/-- What stands at a place. -/
theorem getElem?_of_mem_literalPrints (h : (place, operand) ∈ literalPrints start x) :
    ∃ j, place = start + j ∧ x[j]? = some ⟨.newString, operand⟩ ∧
      ∃ other, x[j + 1]? = some ⟨.putString, other⟩ := by
  induction x generalizing start with
  | nil => cases h
  | cons i x ih =>
    have later (h : (place, operand) ∈ literalPrints (start + 1) x) : ∃ j, place = start + j ∧
        (i :: x)[j]? = some ⟨.newString, operand⟩ ∧
        ∃ other, (i :: x)[j + 1]? = some ⟨.putString, other⟩ := by
      obtain ⟨j, rfl, hj⟩ := ih h
      exact ⟨j + 1, by omega, hj⟩
    rw [literalPrints] at h
    split at h
    · rename_i hhere
      rcases List.mem_cons.1 h with h | h
      · obtain ⟨i', hi', hop⟩ := Option.map_eq_some_iff.1 hhere.2
        cases h
        refine ⟨0, rfl, ?_, i'.operand, ?_⟩
        · rw [← hhere.1]; rfl
        · rw [← hop, List.getElem?_cons_succ, ← List.head?_eq_getElem?, hi']
      · exact later h
    · exact later h

namespace Prints

variable {xs ys : List Int64}

theorem append (hx : Prints x xs) (hy : Prints y ys) : Prints (x ++ y) (xs ++ ys) where
  head := by
    cases x with
    | nil => exact hy.head
    | cons => exact hx.head
  operands start := by
    rw [literalPrints_append hy.head, List.map_append, hx.operands, hy.operands]

/-- Code that prints no string. -/
theorem none (h : ∀ i ∈ x, i.opcode ≠ .putString) : Prints x [] := by
  have hhead {x : List Instruction} (h : ∀ i ∈ x, i.opcode ≠ .putString) :
      x.head?.map (·.opcode) ≠ some .putString := by
    cases x with
    | nil => simp
    | cons i x => simpa using h i List.mem_cons_self
  refine ⟨hhead h, fun start => ?_⟩
  induction x generalizing start with
  | nil => rfl
  | cons i x ih =>
    obtain ⟨-, hx⟩ := List.forall_mem_cons.1 h
    rw [literalPrints, if_neg fun hand => hhead hx hand.2]
    exact ih hx (start + 1)

theorem after (h : Prints y ys) (hx : ∀ i ∈ x, i.opcode ≠ .putString) : Prints (x ++ y) ys :=
  (none hx).append h

theorem before (h : Prints x xs) (hy : ∀ i ∈ y, i.opcode ≠ .putString) : Prints (x ++ y) xs := by
  simpa using h.append (none hy)

end Prints

namespace Core

variable (offset : String → Nat)

/-! ## Core programs -/

/-- The code of an expression prints nothing. -/
theorem Expr.opcode_ne_putString (e : Expr) : ∀ i ∈ e.emit offset, i.opcode ≠ .putString := by
  induction e with
  | literal | text | slot | call | getByte =>
    exact List.forall_mem_singleton.2 (by simp [bare, ofLabel])
  | not operand ih => exact List.forall_mem_append.2 ⟨ih, List.forall_mem_singleton.2 (by simp [bare])⟩
  | arithmetic op left right ihl ihr =>
    exact List.forall_mem_append.2 ⟨List.forall_mem_append.2 ⟨ihr, ihl⟩,
      List.forall_mem_singleton.2 (by cases op <;> simp [bare, Arithmetic.opcode])⟩
  | comparison op left right ihl ihr =>
    exact List.forall_mem_append.2 ⟨List.forall_mem_append.2 ⟨ihl, ihr⟩,
      List.forall_mem_singleton.2 (by cases op <;> simp [bare, Comparison.opcode])⟩

/-- The text that an expression is. -/
def Expr.text? : Expr → Option String
  | .text value => some value
  | _ => none

/-- The code of an expression that is not a text does not end with a new string. -/
theorem Expr.emit_eq_concat {e : Expr} (h : e.text? = none) :
    ∃ x i, e.emit offset = x ++ [i] ∧ i.opcode ≠ .newString := by
  cases e with
  | text => cases h
  | literal | slot | call | getByte => exact ⟨[], _, rfl, by simp [bare, ofLabel]⟩
  | not => exact ⟨_, _, rfl, by simp [bare]⟩
  | arithmetic op => exact ⟨_, _, rfl, by cases op <;> simp [bare, Arithmetic.opcode]⟩
  | comparison op => exact ⟨_, _, rfl, by cases op <;> simp [bare, Comparison.opcode]⟩

namespace Stmt

mutual

/-- The texts that a statement prints at once. -/
def printed : Stmt → List String
  | .putString e => e.text?.toList
  | .loop _ body | .ifThen _ body => printedOfAll body
  | .ifElse _ body other => printedOfAll body ++ printedOfAll other
  | .store .. | .discard _ | .putInt _ | .giveBack _ => []

/-- The texts that statements print at once. -/
def printedOfAll : List Stmt → List String
  | [] => []
  | s :: ss => printed s ++ printedOfAll ss

end

/-- The operands of the new strings that are printed at once. -/
def operands (texts : List String) : List Int64 := texts.map fun text => sizeWord (offset text)

/-- A statement that prints the value of an expression. -/
theorem prints_putString (e : Expr) :
    Prints (e.emit offset ++ [bare .putString]) (operands offset e.text?.toList) := by
  cases htext : e.text? with
  | some value =>
    cases e with
    | text value' =>
      cases htext
      exact ⟨by simp [Expr.emit], fun start => by simp [Expr.emit, literalPrints, operands, bare]⟩
    | _ => cases htext
  | none =>
    obtain ⟨x, i, hemit, hi⟩ := e.emit_eq_concat offset htext
    have hnone := e.opcode_ne_putString offset
    rw [hemit] at hnone ⊢
    obtain ⟨hx, hlast⟩ := List.forall_mem_append.1 hnone
    rw [List.append_assoc]
    refine Prints.after ⟨?_, fun start => ?_⟩ hx
    · simpa using hlast i (List.mem_singleton_self i)
    · simp [literalPrints, hi, operands, bare]

theorem operands_append (a b : List String) :
    operands offset (a ++ b) = operands offset a ++ operands offset b := List.map_append

mutual

/-- The texts that the code of a statement prints at once. -/
theorem prints_emit (done next : Nat) : ∀ s : Stmt,
    Prints (emit offset done next s) (operands offset s.printed)
  | .store _ value | .discard value | .putInt value | .giveBack value =>
    .none (List.forall_mem_append.2 ⟨value.opcode_ne_putString offset,
      List.forall_mem_singleton.2 (by simp [bare, ofLabel])⟩)
  | .putString value => prints_putString offset value
  | .loop condition body => by
    have hbody := prints_emitAll done (next + 2) body
    refine ((hbody.after ?_).before ?_)
    · simpa [ofLabel, or_imp, forall_and] using condition.opcode_ne_putString offset
    · simp [ofLabel]
  | .ifThen condition body => by
    have hbody := prints_emitAll done (next + 1) body
    refine ((hbody.after ?_).before ?_)
    · simpa [ofLabel, or_imp, forall_and] using condition.opcode_ne_putString offset
    · simp [ofLabel]
  | .ifElse condition body other => by
    have hbody := prints_emitAll done (next + 1) body
    have hother := prints_emitAll done (next + 1 + labelsOfAll body + 1) other
    rw [printed, operands_append]
    refine ((((hbody.after ?_).before ?_).append hother).before ?_)
    · simpa [ofLabel, or_imp, forall_and] using condition.opcode_ne_putString offset
    · simp [ofLabel]
    · simp [ofLabel]

/-- The texts that the code of statements prints at once. -/
theorem prints_emitAll (done next : Nat) : ∀ ss : List Stmt,
    Prints (emitAll offset done next ss) (operands offset (printedOfAll ss))
  | [] => .none (List.forall_mem_nil _)
  | s :: ss => by
    rw [printedOfAll, operands_append]
    exact (prints_emit done next s).append (prints_emitAll done (next + s.labels) ss)

end

theorem printedOfAll_subset : ∀ ss : List Stmt, printedOfAll ss ⊆ textsOfAll ss
  | [] => List.nil_subset _
  | s :: ss => by
    refine List.append_subset.2 ⟨List.subset_append_of_subset_left _ ?_,
      List.subset_append_of_subset_right _ (printedOfAll_subset ss)⟩
    match s with
    | .store .. | .discard _ | .putInt _ | .giveBack _ => exact List.nil_subset _
    | .putString e => cases e <;> simp [printed, Expr.text?, texts, Expr.texts]
    | .loop _ body | .ifThen _ body =>
      exact List.subset_append_of_subset_right _ (printedOfAll_subset body)
    | .ifElse _ body other =>
      exact List.append_subset.2
        ⟨List.subset_append_of_subset_left _
            (List.subset_append_of_subset_right _ (printedOfAll_subset body)),
          List.subset_append_of_subset_right _ (printedOfAll_subset other)⟩

end Stmt

/-- The texts that the code of a function prints at once. -/
theorem Function.prints_emit (f : Function) (index next : Nat) :
    Prints (f.emit offset index next) (Stmt.operands offset (Stmt.printedOfAll f.body)) := by
  have hbody := Stmt.prints_emitAll offset next (next + 1) f.body
  refine (((hbody.after ?_).before ?_).before ?_)
  · simp [prologue, bare, ofLabel, ofRegister, or_imp, forall_and]
  · simp
  · simp [epilogue, bare, ofLabel, ofRegister, or_imp, forall_and]

theorem Module.mem_texts_of_printed {m : Module} {f : Function} (hf : f ∈ m.functions) {text : String}
    (htext : text ∈ Stmt.printedOfAll f.body) : text ∈ m.texts :=
  List.mem_flatMap.2 ⟨f, hf, Stmt.printedOfAll_subset f.body htext⟩

end Core

/-! ## Trees -/

open Effect

variable {functions : List String} {scope : Scope}

/-- Only a literal is resolved to a text. -/
theorem Expr.eq_string_of_resolve {e : Expr} {value : String}
    (h : e.resolve functions scope = .ok (.text value)) : ∃ span, e = .string value span := by
  cases e with
  | integer value span => cases h
  | string value span => cases h; exact ⟨span, rfl⟩
  | reference name =>
    rw [resolve] at h
    split at h <;> cases h
  | operator symbol operands span =>
    rw [resolve] at h
    obtain ⟨op, -, hform⟩ := resolveOperator_eq_ok h
    generalize resolveEach functions scope operands = operands at hform
    cases hform
  | call callee args span =>
    rw [resolve] at h
    rcases resolveCall_eq_ok h with ⟨index, -, hc⟩ | ⟨-, hc⟩ <;> cases hc

/-- A call of `putstr` with one argument has no value. -/
theorem Expr.printed_of_resolve {e : Expr} {value : Core.Expr}
    (h : e.resolve functions scope = .ok value) : e.printed = [] := by
  unfold printed
  split
  · rename_i callee text span span'
    refine if_neg fun hname => ?_
    rw [resolve, resolveEach, resolveEach] at h
    rcases resolveCall_eq_ok h with ⟨index, hform, -⟩ | ⟨hform, -⟩ <;> cases hform
  · rfl

/-- The argument of a call of `putstr` is a text just if it is a literal. -/
theorem Expr.printed_putstr {callee : Lexeme} (hname : callee.text = "putstr") {e : Expr} (span : Span)
    {c : Core.Expr} (h : e.resolve functions scope = .ok c) :
    (call callee [e] span).printed.map (·.value) = c.text?.toList := by
  cases htext : c.text? with
  | some value =>
    cases c with
    | text value' =>
      obtain ⟨span, rfl⟩ := eq_string_of_resolve h
      cases htext
      simp [printed, hname]
    | _ => cases htext
  | none =>
    cases e with
    | string value span =>
      cases h
      cases htext
    | _ => rfl

/-- The literal that an expression prints at once, if there is one. -/
theorem Expr.printed_of_resolveStatement {e : Expr} {c : Core.Stmt}
    (h : e.resolveStatement functions scope = .ok c) : c.printed = e.printed.map (·.value) := by
  rcases resolveStatement_eq_ok h with
    ⟨callee, args, span, value, rfl, ⟨hform, rfl⟩ | ⟨hform, rfl⟩⟩ | ⟨value, hvalue, rfl⟩
  · generalize resolveEach functions scope args = as at hform
    obtain - | ⟨-, -, hname⟩ := hform
    unfold printed
    split
    · rename_i hcall
      cases hcall
      rw [hname]
      rfl
    · rfl
  · generalize hargs : resolveEach functions scope args = as at hform
    obtain - | - | ⟨-, -, hname⟩ := hform
    cases args with
    | nil => cases hargs
    | cons e es =>
      obtain ⟨he, hes⟩ := List.cons.inj hargs
      cases es with
      | nil => exact (printed_putstr hname span he).symm
      | cons => cases hes
  · rw [printed_of_resolve hvalue]
    rfl

namespace Stmt

mutual

/-- A statement prints the literals at once that its tree does. -/
theorem printed_of_resolve : ∀ (s : Stmt) {scope : Scope} {next : Nat} {c : Core.Stmt},
    s.resolve functions scope next = .ok c → c.printed = s.printed.map (·.value)
  | .declare binding, _, _, _, h | .giveBack _ _, _, _, _, h => by
    obtain ⟨value, -, h⟩ := except_bind_eq_ok.1 h
    cases h
    rfl
  | .evaluate e _, _, _, _, h => e.printed_of_resolveStatement h
  | .assign target value _, scope, _, _, h => by
    rw [resolve] at h
    split at h
    · obtain ⟨value', -, h⟩ := except_bind_eq_ok.1 h
      cases h
      rfl
    · cases h
  | .loop c body _, _, _, _, h | .ifThen c body _, _, _, _, h => by
    obtain ⟨c', -, h⟩ := except_bind_eq_ok.1 h
    obtain ⟨cs, hcs, h⟩ := except_bind_eq_ok.1 h
    cases h
    exact printed_of_resolveBlock body hcs
  | .ifElse c body other _, _, _, _, h => by
    obtain ⟨c', -, h⟩ := except_bind_eq_ok.1 h
    obtain ⟨yes, hyes, h⟩ := except_bind_eq_ok.1 h
    obtain ⟨no, hno, h⟩ := except_bind_eq_ok.1 h
    cases h
    rw [Core.Stmt.printed, printed, List.map_append, printed_of_resolveBlock body hyes,
      printed_of_resolveBlock other hno]

/-- The statements of a block print the literals at once that its tree does. -/
theorem printed_of_resolveBlock : ∀ (b : Block Stmt) {scope : Scope} {next : Nat} {cs : List Core.Stmt},
    resolveBlock functions scope next b = .ok cs →
      Core.Stmt.printedOfAll cs = (printedOfBlock b).map (·.value)
  | ⟨statements, _⟩, _, _, _, h => printed_of_resolveAll statements h

/-- Statements print the literals at once that their trees do. -/
theorem printed_of_resolveAll : ∀ (ss : List Stmt) {scope : Scope} {next : Nat} {cs : List Core.Stmt},
    resolveAll functions scope next ss = .ok cs →
      Core.Stmt.printedOfAll cs = (printedOfAll ss).map (·.value)
  | [], _, _, _, h => by
    cases h
    rfl
  | s :: ss, _, _, _, h => by
    obtain ⟨c, hc, h⟩ := except_bind_eq_ok.1 h
    obtain ⟨cs, hcs, h⟩ := except_bind_eq_ok.1 h
    cases h
    rw [Core.Stmt.printedOfAll, printedOfAll, List.map_append, printed_of_resolve s hc,
      printed_of_resolveAll ss hcs]

end

end Stmt

/-- A function prints the literals at once that its tree does. -/
theorem Function.printed_of_resolve {f : Function} {g : Core.Function}
    (h : f.resolve functions = .ok g) : Core.Stmt.printedOfAll g.body = f.printed.map (·.value) := by
  obtain ⟨body, hbody, rfl⟩ := Function.resolve_eq_ok h
  exact Stmt.printed_of_resolveBlock f.body hbody

end StackLang
