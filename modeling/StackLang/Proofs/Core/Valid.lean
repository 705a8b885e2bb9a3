import StackLang.Proofs.Core.Resolution

/-!
# Programs that refer only to what they have

In a valid program each slot is one of its function's frame, and each function that is called is
there.

Results:
* `Tree.valid_of_resolve`: what a tree is resolved to is valid.
-/
namespace StackLang

open Effect

namespace Core

/-- An expression that refers to the slots of a frame and to functions that are there. -/
def Expr.Valid (locals functions : Nat) : Expr → Prop
  | literal _ | text _ | getByte => True
  | slot index => index < locals
  | arithmetic _ left right | comparison _ left right =>
    left.Valid locals functions ∧ right.Valid locals functions
  | not operand => operand.Valid locals functions
  | call function => function < functions

namespace Stmt

mutual

/-- A statement that refers to the slots of a frame and to functions that are there. -/
def Valid (locals functions : Nat) : Stmt → Prop
  | .store slot value => slot < locals ∧ value.Valid locals functions
  | .discard value | .putInt value | .putString value | .giveBack value =>
    value.Valid locals functions
  | .loop condition body | .ifThen condition body =>
    condition.Valid locals functions ∧ ValidAll locals functions body
  | .ifElse condition body otherwise =>
    condition.Valid locals functions ∧ ValidAll locals functions body ∧
      ValidAll locals functions otherwise

/-- Statements that refer to the slots of a frame and to functions that are there. -/
def ValidAll (locals functions : Nat) : List Stmt → Prop
  | [] => True
  | s :: ss => Valid locals functions s ∧ ValidAll locals functions ss

end

end Stmt

/-- A program that refers only to what it has. -/
structure Module.Valid (m : Module) : Prop where
  functions : ∀ f ∈ m.functions, Stmt.ValidAll f.locals m.functions.length f.body
  main : m.main < m.functions.length

end Core

/-! ## Expressions -/

theorem mem_of_lookup_eq_some {scope : Scope} {name : String} {index : Nat}
    (h : scope.slot? name = some index) : (name, index) ∈ scope := by
  unfold Scope.slot? at h
  induction scope with
  | nil => cases h
  | cons e scope ih =>
    obtain ⟨s, i⟩ := e
    rw [List.lookup_cons] at h
    split at h
    · rename_i hs
      cases h
      rw [beq_iff_eq] at hs
      rw [hs]; exact List.mem_cons_self
    · exact List.mem_cons_of_mem _ (ih h)

variable {functions : List String} {n : Nat}

theorem OperatorForm.valid {op : Operator} {operands : List (Resolved Core.Expr)} {c : Core.Expr}
    (h : OperatorForm op operands c)
    (hv : ∀ r ∈ operands, ∀ e, r = .ok e → e.Valid n functions.length) :
    c.Valid n functions.length := by
  cases h with
  | not e => exact hv _ (by simp) e rfl
  | arithmetic op l r => exact ⟨hv _ (by simp) l rfl, hv _ (by simp) r rfl⟩
  | comparison op l r => exact ⟨hv _ (by simp) l rfl, hv _ (by simp) r rfl⟩
  | negated op l r => exact ⟨hv _ (by simp) l rfl, hv _ (by simp) r rfl⟩

namespace Expr

variable {scope : Scope}

mutual

/-- A resolved expression refers to slots of its scope. -/
theorem valid_of_resolve (hscope : ∀ x ∈ scope, x.2 < n) : ∀ (e : Expr) {c : Core.Expr},
    e.resolve functions scope = .ok c → c.Valid n functions.length
  | .integer value _, c, h => by cases h; trivial
  | .string value _, c, h => by cases h; trivial
  | .reference name, c, h => by
    rw [Expr.resolve] at h
    split at h
    · rename_i index hi
      cases h
      exact hscope _ (mem_of_lookup_eq_some hi)
    · cases h
  | .operator symbol operands span, c, h => by
    obtain ⟨op, -, hform⟩ := resolveOperator_eq_ok h
    exact hform.valid (valid_of_resolveEach hscope operands)
  | .call callee args span, c, h => by
    rcases resolveCall_eq_ok h with ⟨index, hform, rfl⟩ | ⟨-, rfl⟩
    · generalize hargs : resolveEach functions scope args = as at hform
      cases hform with
      | function index hi => exact lt_of_idxOf?_eq_some hi
    · trivial

theorem valid_of_resolveEach (hscope : ∀ x ∈ scope, x.2 < n) : ∀ (es : List Expr),
    ∀ r ∈ resolveEach functions scope es, ∀ c, r = .ok c → c.Valid n functions.length
  | [], r, hr, c, h => by simp [resolveEach] at hr
  | e :: es, r, hr, c, h => by
    rw [resolveEach, List.mem_cons] at hr
    rcases hr with rfl | hr
    · exact valid_of_resolve hscope e h
    · exact valid_of_resolveEach hscope es r hr c h

end

theorem valid_of_resolveOptional (hscope : ∀ x ∈ scope, x.2 < n) {e : Option Expr}
    {c : Core.Expr} (h : resolveOptional functions scope e = .ok c) :
    c.Valid n functions.length := by
  cases e with
  | none => cases h; trivial
  | some e => exact valid_of_resolve hscope e h

theorem valid_of_resolveStatement (hscope : ∀ x ∈ scope, x.2 < n) {e : Expr} {c : Core.Stmt}
    (h : e.resolveStatement functions scope = .ok c) : c.Valid n functions.length := by
  rcases resolveStatement_eq_ok h with ⟨callee, args, span, value, rfl, h | h⟩ | ⟨value, hv, rfl⟩
  · obtain ⟨hform, rfl⟩ := h
    have hargs : ∀ r ∈ resolveEach functions scope args, ∀ c, r = .ok c →
        c.Valid n functions.length := valid_of_resolveEach hscope args
    generalize resolveEach functions scope args = as at hform hargs
    cases hform with
    | putInt => exact hargs _ List.mem_cons_self value rfl
  · obtain ⟨hform, rfl⟩ := h
    have hargs : ∀ r ∈ resolveEach functions scope args, ∀ c, r = .ok c →
        c.Valid n functions.length := valid_of_resolveEach hscope args
    generalize resolveEach functions scope args = as at hform hargs
    cases hform with
    | putString => exact hargs _ List.mem_cons_self value rfl
  · exact valid_of_resolve hscope e hv

end Expr

/-! ## Statements -/

namespace Stmt

/-- The slots of a scope stay below those that are still to be handed out. -/
theorem scopeAfter_lt {scope : Scope} {next : Nat} (h : ∀ x ∈ scope, x.2 < next) (s : Stmt) :
    ∀ x ∈ scopeAfter scope next s, x.2 < next + locals s := by
  cases s with
  | declare binding =>
    intro x hx
    rcases List.mem_cons.1 hx with rfl | hx
    · simp [Stmt.locals]
    · have := h x hx
      simp only [Stmt.locals]; omega
  | _ =>
    intro x hx
    have := h x hx
    omega

mutual

/-- A resolved statement refers to slots of its scope and to those of its own declarations. -/
theorem valid_of_resolve : ∀ (s : Stmt) {scope : Scope} {next : Nat} {c : Core.Stmt},
    (∀ x ∈ scope, x.2 < next) → next + locals s ≤ n → s.resolve functions scope next = .ok c →
    c.Valid n functions.length
  | .declare binding, scope, next, c, hscope, hn, h => by
    obtain ⟨value, hv, h⟩ := except_bind_eq_ok.1 h
    cases h
    simp only [locals] at hn
    exact ⟨by omega, Expr.valid_of_resolveOptional (fun x hx => by have := hscope x hx; omega) hv⟩
  | .evaluate e _, scope, next, c, hscope, hn, h =>
    Expr.valid_of_resolveStatement (fun x hx => by have := hscope x hx; omega) h
  | .loop condition body _, scope, next, c, hscope, hn, h => by
    obtain ⟨value, hv, h⟩ := except_bind_eq_ok.1 h
    obtain ⟨statements, hs, h⟩ := except_bind_eq_ok.1 h
    cases h
    exact ⟨Expr.valid_of_resolve (fun x hx => by have := hscope x hx; omega) condition hv,
      valid_of_resolveBlock body hscope hn hs⟩
  | .ifThen condition body _, scope, next, c, hscope, hn, h => by
    obtain ⟨value, hv, h⟩ := except_bind_eq_ok.1 h
    obtain ⟨statements, hs, h⟩ := except_bind_eq_ok.1 h
    cases h
    exact ⟨Expr.valid_of_resolve (fun x hx => by have := hscope x hx; omega) condition hv,
      valid_of_resolveBlock body hscope hn hs⟩
  | .ifElse condition body other _, scope, next, c, hscope, hn, h => by
    obtain ⟨value, hv, h⟩ := except_bind_eq_ok.1 h
    obtain ⟨yes, hy, h⟩ := except_bind_eq_ok.1 h
    obtain ⟨no, hno, h⟩ := except_bind_eq_ok.1 h
    cases h
    simp only [locals] at hn
    exact ⟨Expr.valid_of_resolve (fun x hx => by have := hscope x hx; omega) condition hv,
      valid_of_resolveBlock body hscope (by omega) hy,
      valid_of_resolveBlock other (fun x hx => by have := hscope x hx; omega) (by omega) hno⟩
  | .assign target value _, scope, next, c, hscope, hn, h => by
    rw [resolve] at h
    split at h
    · rename_i index hi
      obtain ⟨e, he, h⟩ := except_bind_eq_ok.1 h
      cases h
      have := hscope _ (mem_of_lookup_eq_some hi)
      exact ⟨by simp only at this; omega,
        Expr.valid_of_resolve (fun x hx => by have := hscope x hx; omega) value he⟩
    · cases h
  | .giveBack value _, scope, next, c, hscope, hn, h => by
    obtain ⟨e, he, h⟩ := except_bind_eq_ok.1 h
    cases h
    exact Expr.valid_of_resolveOptional (fun x hx => by have := hscope x hx; omega) he

theorem valid_of_resolveBlock : ∀ (b : Block Stmt) {scope : Scope} {next : Nat}
    {cs : List Core.Stmt}, (∀ x ∈ scope, x.2 < next) → next + localsOfBlock b ≤ n →
    resolveBlock functions scope next b = .ok cs → Core.Stmt.ValidAll n functions.length cs
  | ⟨statements, _⟩, _, _, _, hscope, hn, h => valid_of_resolveAll statements hscope hn h

theorem valid_of_resolveAll : ∀ (ss : List Stmt) {scope : Scope} {next : Nat}
    {cs : List Core.Stmt}, (∀ x ∈ scope, x.2 < next) → next + localsOfAll ss ≤ n →
    resolveAll functions scope next ss = .ok cs → Core.Stmt.ValidAll n functions.length cs
  | [], scope, next, cs, hscope, hn, h => by cases h; trivial
  | s :: ss, scope, next, cs, hscope, hn, h => by
    obtain ⟨first, hf, h⟩ := except_bind_eq_ok.1 h
    obtain ⟨others, ho, h⟩ := except_bind_eq_ok.1 h
    cases h
    simp only [localsOfAll] at hn
    exact ⟨valid_of_resolve s hscope (by omega) hf,
      valid_of_resolveAll ss (scopeAfter_lt hscope s) (by omega) ho⟩

end

end Stmt

/-! ## Programs -/

/-- What a tree is resolved to is valid. -/
theorem Tree.valid_of_resolve {t : Tree} {m : Core.Module} (h : t.resolve = .ok m) : m.Valid := by
  obtain ⟨names, rfl, -, hmain, hf⟩ := Tree.resolve_eq_ok h
  obtain ⟨hlen, hget⟩ := mapM_eq_ok hf
  have hnames : (t.functions.map (·.name.text)).length = m.functions.length := by
    rw [List.length_map, hlen]
  constructor
  · intro f hf
    obtain ⟨i, hi⟩ := List.getElem?_of_mem hf
    have hlt : i < t.functions.length := hlen ▸ (List.getElem?_eq_some_iff.1 hi).1
    obtain ⟨f', hf', hres⟩ := hget i _ (List.getElem?_eq_getElem hlt)
    rw [hi] at hf'
    obtain rfl := Option.some.inj hf'
    obtain ⟨body, hbody, rfl⟩ := Function.resolve_eq_ok hres
    rw [← hnames]
    exact Stmt.valid_of_resolveBlock _ (fun x hx => by simp at hx) (by simp) hbody
  · rw [← hnames]
    exact lt_of_idxOf?_eq_some hmain

end StackLang
