import StackLang.Proofs.Core.Valid
import StackLang.Proofs.Semantics.Core
import StackLang.Proofs.Semantics.Source

/-!
# Looking up names keeps the meaning

The variables of a tree are the slots of its core program under their names. Since no two names in
scope share a slot, and a new variable gets a slot that is not in scope, what is done to one is done
to the other.

Results:
* `Expr.value_of_resolve`: a resolved expression has the value of the expression.
* `Stmt.exec_of_resolve`: a resolved statement does what the statement does.
* `Tree.calls_of_resolve`: the functions of a resolved program do what those of the tree do.
-/
namespace StackLang

open Semantics Effect

/-! ## Variables and slots -/

/-- The values of the variables in scope. -/
def Scope.env (scope : Scope) (slots : Core.Slots) : Env := scope.map fun x => (x.1, slots x.2)

/-- A scope whose variables have different slots, all of them handed out. -/
structure Scope.Below (scope : Scope) (next : Nat) : Prop where
  lt : ∀ x ∈ scope, x.2 < next
  nodup : (scope.map (·.2)).Nodup

namespace Scope

variable {scope : Scope} {next : Nat} {slots : Core.Slots} {name : String} {value : Int64}

theorem length_env (scope : Scope) (slots : Core.Slots) :
    (scope.env slots).length = scope.length := List.length_map _

theorem lookup_env (scope : Scope) (slots : Core.Slots) (name : String) :
    (scope.env slots).lookup name = (scope.slot? name).map slots := by
  unfold env slot?
  induction scope with
  | nil => rfl
  | cons x scope ih =>
    obtain ⟨n, i⟩ := x
    rw [List.map_cons, List.lookup_cons, List.lookup_cons, ih]
    cases name == n <;> rfl

/-- A slot that is not in scope may change. -/
theorem env_set_of_not_mem {slot : Nat} (h : ∀ x ∈ scope, x.2 ≠ slot) :
    scope.env (slots.set slot value) = scope.env slots := by
  refine List.map_congr_left fun x hx => ?_
  rw [Core.Slots.set, if_neg (h x hx)]

/-- To give a variable another value is to give its slot another value. -/
theorem assign_env (hscope : (scope.map (·.2)).Nodup) {index : Nat}
    (h : scope.slot? name = some index) :
    (scope.env slots).assign name value = scope.env (slots.set index value) := by
  induction scope with
  | nil => cases h
  | cons x scope ih =>
    obtain ⟨n, i⟩ := x
    obtain ⟨hfresh, hrest⟩ := List.nodup_cons.1 hscope
    unfold slot? at h
    rw [List.lookup_cons] at h
    by_cases hn : name = n
    · subst hn
      rw [beq_self_eq_true] at h
      obtain rfl := Option.some.inj h
      have hrest : env scope (slots.set i value) = env scope slots :=
        env_set_of_not_mem fun x hx e => hfresh (List.mem_map.2 ⟨x, hx, e⟩)
      show Env.assign name value ((name, slots i) :: env scope slots) =
        (name, slots.set i value i) :: env scope (slots.set i value)
      rw [Env.assign, if_pos rfl, hrest, Core.Slots.set, if_pos rfl]
    · rw [beq_false_of_ne hn] at h
      have hi : i ≠ index := fun e => hfresh (List.mem_map.2 ⟨_, mem_of_lookup_eq_some h, e.symm⟩)
      show Env.assign name value ((n, slots i) :: env scope slots) =
        (n, slots.set index value i) :: env scope (slots.set index value)
      rw [Env.assign, if_neg (Ne.symm hn), ih hrest h, Core.Slots.set, if_neg hi]

theorem Below.mono {k : Nat} (h : scope.Below next) (hk : next ≤ k) : scope.Below k :=
  ⟨fun x hx => Nat.lt_of_lt_of_le (h.lt x hx) hk, h.nodup⟩

theorem Below.nil (next : Nat) : Scope.Below [] next := ⟨by simp, .nil⟩

/-- The scope after a statement is below the slots that the statement leaves. -/
theorem Below.scopeAfter (h : scope.Below next) (s : Stmt) :
    (s.scopeAfter scope next).Below (next + s.locals) := by
  refine ⟨Stmt.scopeAfter_lt h.lt s, ?_⟩
  cases s with
  | declare binding =>
    refine List.nodup_cons.2 ⟨fun hmem => ?_, h.nodup⟩
    obtain ⟨x, hx, e⟩ := List.mem_map.1 hmem
    exact Nat.lt_irrefl _ (e ▸ h.lt x hx)
  | _ => exact h.nodup

end Scope

/-! ## Expressions -/

/-- Core functions that do what functions of the same name do. -/
def SameCalls (functions : List String) (calls : Calls) (coreCalls : Core.Calls) : Prop :=
  ∀ name, calls name = (functions.idxOf? name).map coreCalls

/-- The value of what an expression is resolved to. -/
def Core.resolvedValue (calls : Core.Calls) (slots : Core.Slots) : Resolved Core.Expr → Eval Int64
  | .ok c => c.value calls slots
  | .error _ => throw .undefined

/-- What the form of a call does, and its value if it has one. -/
def Core.invokeForm (calls : Core.Calls) (slots : Core.Slots) : Callee → Eval (Option Int64)
  | .function index => some <$> calls index
  | .putInt e => do
    Eval.printInt (← resolvedValue calls slots e)
    return none
  | .putString e => do
    Eval.printString (← resolvedValue calls slots e)
    return none
  | .getByte => some <$> Eval.readByte

section

variable (calls : Core.Calls) (slots : Core.Slots)

theorem Eval.divide_eq_compute (op : Arithmetic) {f : Int64 → Int64 → Int64}
    (h : ∀ l r, op.apply? l r = if r = 0 then none else some (f l r)) (l r : Int64) :
    Eval.divide f l r = Core.compute op l r := by
  unfold Eval.divide Core.compute
  rw [h]
  split <;> rfl

/-- 1 or 0, turned around. -/
theorem truthWord_eq_zero (b : Bool) : (truthWord b = 0) = (b = false) := by
  cases b <;> decide

/-- The value of an operator is that of the core expression that stands for it. -/
theorem operate_symbol {op : Operator} {operands : List (Resolved Core.Expr)} {c : Core.Expr}
    (h : OperatorForm op operands c) :
    operate op.symbol (operands.map (Core.resolvedValue calls slots)) = c.value calls slots := by
  have quotient (op : Arithmetic) {f : Int64 → Int64 → Int64} (l r : Core.Expr)
      (hf : ∀ l r, op.apply? l r = if r = 0 then none else some (f l r)) :
      (do
        let b ← r.value calls slots
        let a ← l.value calls slots
        Eval.divide f a b) = (Core.Expr.arithmetic op l r).value calls slots := by
    simp only [Eval.divide_eq_compute op hf, Core.Expr.value]
  have turned (op : Comparison) {f : Int64 → Int64 → Bool} (l r : Core.Expr)
      (hf : ∀ l r, f l r = !op.holds l r) :
      (do
        let a ← l.value calls slots
        let b ← r.value calls slots
        return truthWord (f a b)) = (Core.Expr.not (.comparison op l r)).value calls slots := by
    simp [hf, Core.Expr.value, truthWord_eq_zero]
  cases h with
  | not e => rfl
  | arithmetic op l r =>
    cases op with
    | add | sub | mul => rfl
    | div => exact quotient .div l r fun _ _ => rfl
    | mod => exact quotient .mod l r fun _ _ => rfl
  | comparison op l r => cases op <;> rfl
  | negated op l r =>
    cases op with
    | less => exact turned .less l r fun l r => by simp [Comparison.holds, ← Int64.not_lt]
    | greater => exact turned .greater l r fun l r => by simp [Comparison.holds, ← Int64.not_lt]
    | equal => exact turned .equal l r fun l r => by simp [Comparison.holds]

theorem OperatorForm.eq_ok {op : Operator} {operands : List (Resolved Core.Expr)} {c : Core.Expr}
    (h : OperatorForm op operands c) : ∀ r ∈ operands, ∃ e, r = .ok e := by
  cases h <;> simp

/-- A call whose argument, if it has one, is resolved. -/
def Callee.Ok : Callee → Prop
  | .putInt e | .putString e => ∃ c, e = .ok c
  | .function _ | .getByte => True

theorem CalleeForm.eq_ok {functions : List String} {name : String}
    {args : List (Resolved Core.Expr)} {callee : Callee} (h : CalleeForm functions name args callee)
    (hok : callee.Ok) : ∀ r ∈ args, ∃ e, r = .ok e := by
  cases h with
  | function | getByte => simp
  | putInt | putString => simpa [Callee.Ok] using hok

/-- What a call does, and its value, is what its form says. -/
theorem invoke_of_form {functions : List String} {functionCalls : Calls} {name : String}
    {args : List (Resolved Core.Expr)} {callee : Callee} (hc : SameCalls functions functionCalls calls)
    (h : CalleeForm functions name args callee) :
    invoke functionCalls name (args.map (Core.resolvedValue calls slots)) =
      Core.invokeForm calls slots callee := by
  unfold invoke
  rw [hc name]
  cases h with
  | function index hi => rw [hi]; rfl
  | putInt e hi hname => subst hname; rw [hi]; rfl
  | putString e hi hname => subst hname; rw [hi]; rfl
  | getByte hi hname => subst hname; rw [hi]; rfl

end

section

variable {functions : List String} {calls : Calls} {coreCalls : Core.Calls} {scope : Scope}
  {slots : Core.Slots}

namespace Expr

mutual

/-- A resolved expression has the value of the expression. -/
theorem value_of_resolve (hc : SameCalls functions calls coreCalls) : ∀ (e : Expr) {c : Core.Expr},
    e.resolve functions scope = .ok c → e.value calls (scope.env slots) = c.value coreCalls slots
  | .integer value _, c, h => by cases h; rfl
  | .string value _, c, h => by cases h; rfl
  | .reference name, c, h => by
    rw [resolve] at h
    split at h
    · rename_i index hi
      cases h
      rw [value, Scope.lookup_env, hi]
      rfl
    · cases h
  | .operator symbol operands span, c, h => by
    obtain ⟨op, hop, hform⟩ := resolveOperator_eq_ok h
    rw [value, values_of_resolveEach hc operands hform.eq_ok, Operator.eq_symbol_of_ofSymbol? hop]
    exact operate_symbol coreCalls slots hform
  | .call callee args span, c, h => by
    rcases resolveCall_eq_ok h with ⟨index, hform, rfl⟩ | ⟨hform, rfl⟩
    · rw [value, values_of_resolveEach hc args (hform.eq_ok trivial),
        invoke_of_form coreCalls slots hc hform]
      simp [Core.invokeForm, Core.Expr.value]
    · rw [value, values_of_resolveEach hc args (hform.eq_ok trivial),
        invoke_of_form coreCalls slots hc hform]
      simp [Core.invokeForm, Core.Expr.value]

/-- Resolved expressions have the values of the expressions. -/
theorem values_of_resolveEach (hc : SameCalls functions calls coreCalls) : ∀ (es : List Expr),
    (∀ r ∈ resolveEach functions scope es, ∃ e, r = .ok e) →
    values calls (scope.env slots) es =
      (resolveEach functions scope es).map (Core.resolvedValue coreCalls slots)
  | [], _ => rfl
  | e :: es, h => by
    rw [resolveEach, List.forall_mem_cons] at h
    obtain ⟨⟨c, hc'⟩, hes⟩ := h
    rw [values, resolveEach, List.map_cons, value_of_resolve hc e hc', hc',
      values_of_resolveEach hc es hes]
    rfl

end

theorem valueOr0_of_resolveOptional (hc : SameCalls functions calls coreCalls) {e : Option Expr}
    {c : Core.Expr} (h : resolveOptional functions scope e = .ok c) :
    valueOr0 calls (scope.env slots) e = c.value coreCalls slots := by
  cases e with
  | none => cases h; rfl
  | some e => exact value_of_resolve hc e h

/-- An expression with a value does what its resolved expression does. -/
theorem perform_of_resolve (hc : SameCalls functions calls coreCalls) {e : Expr} {c : Core.Expr}
    (h : e.resolve functions scope = .ok c) :
    e.perform calls (scope.env slots) = (do let _ ← c.value coreCalls slots) := by
  cases e with
  | call callee args span =>
    rcases resolveCall_eq_ok h with ⟨index, hform, rfl⟩ | ⟨hform, rfl⟩
    · rw [perform, values_of_resolveEach hc args (hform.eq_ok trivial),
        invoke_of_form coreCalls slots hc hform]
      simp [Core.invokeForm, Core.Expr.value]
    · rw [perform, values_of_resolveEach hc args (hform.eq_ok trivial),
        invoke_of_form coreCalls slots hc hform]
      simp [Core.invokeForm, Core.Expr.value]
  | _ =>
    rw [← value_of_resolve hc _ h]
    rfl

/-- What an expression does as a statement, its resolved statement does. -/
theorem perform_of_resolveStatement (hc : SameCalls functions calls coreCalls) {e : Expr}
    {c : Core.Stmt} (h : e.resolveStatement functions scope = .ok c) (bound : Nat) {σ : Type}
    (k : Core.Slots → σ) :
    (do
      e.perform calls (scope.env slots)
      return Completion.next (k slots)) = Completion.map k <$> c.exec coreCalls bound slots := by
  rcases resolveStatement_eq_ok h with ⟨callee, args, span, v, rfl, h | h⟩ | ⟨v, hv, rfl⟩
  · obtain ⟨hform, rfl⟩ := h
    rw [perform, values_of_resolveEach hc args (hform.eq_ok ⟨v, rfl⟩),
      invoke_of_form coreCalls slots hc hform]
    simp [Core.invokeForm, Core.resolvedValue, Core.Stmt.exec, Completion.map]
  · obtain ⟨hform, rfl⟩ := h
    rw [perform, values_of_resolveEach hc args (hform.eq_ok ⟨v, rfl⟩),
      invoke_of_form coreCalls slots hc hform]
    simp [Core.invokeForm, Core.resolvedValue, Core.Stmt.exec, Completion.map]
  · rw [perform_of_resolve hc hv]
    simp [Core.Stmt.exec, Completion.map]

end Expr

/-! ## Statements -/

/-- Loops over states that correspond. -/
theorem repeatWhile_map {σ τ : Type} (f : σ → τ) {test : σ → Eval Int64} {test' : τ → Eval Int64}
    {body : σ → Eval (Completion σ)} {body' : τ → Eval (Completion τ)}
    (ht : ∀ s, test' (f s) = test s) (hb : ∀ s, body' (f s) = Completion.map f <$> body s) (n : Nat)
    (s : σ) :
    Eval.repeatWhile test' body' n (f s) = Completion.map f <$> Eval.repeatWhile test body n s := by
  induction n generalizing s with
  | zero => rfl
  | succ n ih =>
    rw [Eval.repeatWhile, Eval.repeatWhile, ht, hb, map_bind]
    refine congrArg _ (funext fun v => ?_)
    split
    · simp [Completion.map]
    · rw [map_bind, bind_map_left]
      refine congrArg _ (funext fun c => ?_)
      cases c with
      | next s' => exact ih s'
      | returned v => simp [Completion.map]

namespace Stmt

/-- The scope after some statements. -/
def scopeAfterAll (scope : Scope) (next : Nat) : List Stmt → Scope
  | [] => scope
  | s :: ss => scopeAfterAll (scopeAfter scope next s) (next + locals s) ss

/-- Statements add to the scope that they are in. -/
theorem suffix_scopeAfterAll (scope : Scope) (next : Nat) (ss : List Stmt) :
    scope <:+ scopeAfterAll scope next ss := by
  induction ss generalizing scope next with
  | nil => exact List.suffix_refl _
  | cons s ss ih =>
    refine List.IsSuffix.trans ?_ (ih _ _)
    cases s with
    | declare binding => exact List.suffix_cons _ _
    | _ => exact List.suffix_refl _

/-- What is left of the variables when those that were added are dropped. -/
theorem drop_env {inner outer : Scope} (h : outer <:+ inner) (slots slots' : Core.Slots) :
    (inner.env slots').drop ((inner.env slots').length - (outer.env slots).length) =
      outer.env slots' := by
  obtain ⟨added, rfl⟩ := h
  rw [Scope.length_env, Scope.length_env, List.length_append, Nat.add_sub_cancel, Scope.env,
    List.map_append]
  exact List.drop_left' (List.length_map _)

mutual

/-- A resolved statement does what the statement does. -/
theorem exec_of_resolve (hc : SameCalls functions calls coreCalls) (bound : Nat) :
    ∀ (s : Stmt) {scope : Scope} {next : Nat} {c : Core.Stmt} (slots : Core.Slots),
    scope.Below next → s.resolve functions scope next = .ok c →
    s.exec calls bound (scope.env slots) =
      Completion.map (s.scopeAfter scope next).env <$> c.exec coreCalls bound slots
  | .declare binding, scope, next, c, slots, hscope, h => by
    obtain ⟨value, hv, h⟩ := except_bind_eq_ok.1 h
    cases h
    rw [exec, Expr.valueOr0_of_resolveOptional hc hv, Core.Stmt.exec, map_bind]
    refine congrArg _ (funext fun v => ?_)
    have hkept : scope.env (slots.set next v) = scope.env slots :=
      Scope.env_set_of_not_mem fun x hx => Nat.ne_of_lt (hscope.lt x hx)
    have hnew : (slots.set next v) next = v := if_pos rfl
    have henv : Scope.env ((binding.name, next) :: scope) (slots.set next v) =
        (binding.name, v) :: scope.env slots := by
      rw [← hkept]; exact congrArg (fun x => (binding.name, x) :: _) hnew
    rw [map_pure, Completion.map, scopeAfter, henv]
  | .evaluate e _, scope, next, c, slots, _, h =>
    Expr.perform_of_resolveStatement hc h bound scope.env
  | .loop condition body _, scope, next, c, slots, hscope, h => by
    obtain ⟨value, hv, h⟩ := except_bind_eq_ok.1 h
    obtain ⟨statements, hs, h⟩ := except_bind_eq_ok.1 h
    cases h
    rw [exec, Core.Stmt.exec]
    exact repeatWhile_map scope.env (fun slots => Expr.value_of_resolve hc condition hv)
      (fun slots => execBlock_of_resolve hc bound body slots hscope hs) bound slots
  | .ifThen condition body _, scope, next, c, slots, hscope, h => by
    obtain ⟨value, hv, h⟩ := except_bind_eq_ok.1 h
    obtain ⟨statements, hs, h⟩ := except_bind_eq_ok.1 h
    cases h
    rw [exec, Core.Stmt.exec, Expr.value_of_resolve hc condition hv, map_bind]
    refine congrArg _ (funext fun v => ?_)
    split
    · rfl
    · exact execBlock_of_resolve hc bound body slots hscope hs
  | .ifElse condition body other _, scope, next, c, slots, hscope, h => by
    obtain ⟨value, hv, h⟩ := except_bind_eq_ok.1 h
    obtain ⟨yes, hy, h⟩ := except_bind_eq_ok.1 h
    obtain ⟨no, hn, h⟩ := except_bind_eq_ok.1 h
    cases h
    rw [exec, Core.Stmt.exec, Expr.value_of_resolve hc condition hv, map_bind]
    refine congrArg _ (funext fun v => ?_)
    split
    · exact execBlock_of_resolve hc bound other slots (hscope.mono (Nat.le_add_right _ _)) hn
    · exact execBlock_of_resolve hc bound body slots hscope hy
  | .assign target e _, scope, next, c, slots, hscope, h => by
    rw [resolve] at h
    split at h
    · rename_i index hi
      obtain ⟨value, hv, h⟩ := except_bind_eq_ok.1 h
      cases h
      rw [exec, Scope.lookup_env, hi, Option.map_some, Expr.value_of_resolve hc e hv,
        Core.Stmt.exec, map_bind]
      simp only
      refine congrArg _ (funext fun v => ?_)
      rw [Scope.assign_env hscope.nodup hi]
      rfl
    · cases h
  | .giveBack e _, scope, next, c, slots, _, h => by
    obtain ⟨value, hv, h⟩ := except_bind_eq_ok.1 h
    cases h
    rw [exec, Expr.valueOr0_of_resolveOptional hc hv, Core.Stmt.exec, map_bind]
    rfl

/-- A resolved block does what the block does. -/
theorem execBlock_of_resolve (hc : SameCalls functions calls coreCalls) (bound : Nat) :
    ∀ (b : Block Stmt) {scope : Scope} {next : Nat} {cs : List Core.Stmt} (slots : Core.Slots),
    scope.Below next → resolveBlock functions scope next b = .ok cs →
    execBlock calls bound (scope.env slots) b =
      Completion.map scope.env <$> Core.Stmt.execAll coreCalls bound slots cs
  | ⟨statements, _⟩, scope, next, cs, slots, hscope, h => by
    rw [execBlock, execAll_of_resolve hc bound statements slots hscope h, bind_map_left,
      map_eq_pure_bind]
    refine congrArg _ (funext fun completion => ?_)
    cases completion with
    | returned v => rfl
    | next slots' =>
      exact congrArg (fun env => pure (Completion.next env))
        (drop_env (suffix_scopeAfterAll scope next statements) slots slots')

/-- Resolved statements do what the statements do. -/
theorem execAll_of_resolve (hc : SameCalls functions calls coreCalls) (bound : Nat) :
    ∀ (ss : List Stmt) {scope : Scope} {next : Nat} {cs : List Core.Stmt} (slots : Core.Slots),
    scope.Below next → resolveAll functions scope next ss = .ok cs →
    execAll calls bound (scope.env slots) ss =
      Completion.map (scopeAfterAll scope next ss).env <$>
        Core.Stmt.execAll coreCalls bound slots cs
  | [], scope, next, cs, slots, _, h => by cases h; rfl
  | s :: ss, scope, next, cs, slots, hscope, h => by
    obtain ⟨first, hf, h⟩ := except_bind_eq_ok.1 h
    obtain ⟨others, ho, h⟩ := except_bind_eq_ok.1 h
    cases h
    rw [execAll, Core.Stmt.execAll, exec_of_resolve hc bound s slots hscope hf, bind_map_left,
      map_bind]
    refine congrArg _ (funext fun completion => ?_)
    cases completion with
    | returned v => rfl
    | next slots' => exact execAll_of_resolve hc bound ss slots' (hscope.scopeAfter s) ho

end

end Stmt

end

/-! ## Programs -/

/-- A resolved function does what the function does. -/
theorem Function.run_of_resolve {functions : List String} {calls : Calls} {coreCalls : Core.Calls}
    (hc : SameCalls functions calls coreCalls) {f : Function} {c : Core.Function}
    (h : f.resolve functions = .ok c) (bound : Nat) : f.run calls bound = c.run coreCalls bound := by
  obtain ⟨body, hbody, rfl⟩ := Function.resolve_eq_ok h
  have hblock := Stmt.execBlock_of_resolve hc bound f.body (fun _ => 0) (Scope.Below.nil 0) hbody
  rw [run, Core.Function.run, show ([] : Env) = Scope.env [] fun _ => 0 from rfl, hblock,
    bind_map_left]
  refine congrArg _ (funext fun completion => ?_)
  cases completion <;> rfl

/-- The first function of a name is the one whose number the name has. -/
theorem find?_eq_of_names (fs : List Function) (name : String) :
    fs.find? (·.name.text = name) = ((fs.map (·.name.text)).idxOf? name).bind (fs[·]?) := by
  induction fs with
  | nil => rfl
  | cons f fs ih =>
    rw [List.find?_cons, List.map_cons, List.idxOf?_cons]
    by_cases h : f.name.text = name
    · simp [h]
    · simp only [h, decide_false, beq_iff_eq, if_false, ih]
      cases (fs.map (·.name.text)).idxOf? name <;> rfl

/-- The functions of a resolved program do what those of the tree do. -/
theorem Tree.calls_of_resolve {t : Tree} {m : Core.Module} (h : t.resolve = .ok m) (bound : Nat) :
    SameCalls (t.functions.map (·.name.text)) (t.calls bound) (m.calls bound) := by
  obtain ⟨names, rfl, -, -, hf⟩ := Tree.resolve_eq_ok h
  obtain ⟨hlen, hget⟩ := mapM_eq_ok hf
  induction bound with
  | zero =>
    intro name
    rw [calls, find?_eq_of_names]
    cases hi : (t.functions.map (·.name.text)).idxOf? name with
    | none => rfl
    | some index =>
      have hlt := lt_of_idxOf?_eq_some hi
      rw [List.length_map] at hlt
      rw [Option.bind_some, List.getElem?_eq_getElem hlt]
      rfl
  | succ bound ih =>
    intro name
    rw [calls, find?_eq_of_names]
    cases hi : (t.functions.map (·.name.text)).idxOf? name with
    | none => rfl
    | some index =>
      have hlt := lt_of_idxOf?_eq_some hi
      rw [List.length_map] at hlt
      obtain ⟨c, hc, hres⟩ := hget index _ (List.getElem?_eq_getElem hlt)
      rw [Option.bind_some, List.getElem?_eq_getElem hlt, Option.map_some, Option.map_some,
        Function.run_of_resolve ih hres, Core.Module.calls, hc]

/-- A tree does what the main function of its core program does. -/
theorem Tree.evaluate_of_resolve {t : Tree} {m : Core.Module} (h : t.resolve = .ok m) (bound : Nat)
    (input : List UInt8) : t.evaluate bound input = m.calls bound m.main ⟨[], [], input⟩ := by
  have hcalls := Tree.calls_of_resolve h bound "main"
  obtain ⟨names, rfl, -, hmain, -⟩ := Tree.resolve_eq_ok h
  rw [evaluate, hcalls, hmain]
  rfl

end StackLang
