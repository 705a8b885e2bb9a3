import Mathlib.Data.List.Forall2
import StackLang.Proofs.Core.Resolution
import StackLang.Proofs.Tree.WellFormed

/-!
# The first violation is reported

Names are looked up until something is wrong. Where nothing is, there is a core program; else the
error is the first of the violations.

Results:
* `Reports.bind`: violations of a part come before those of what follows it.
* `Stmt.reports_resolve`, `Tree.reports_resolve`: what is reported of statements and of trees.
-/
namespace StackLang

/-- The result of looking up names in something with these violations. -/
def Reports {α : Type} (result : Resolved α) (violations : List AssemblyError) : Prop :=
  match result with
  | .ok _ => violations = []
  | .error e => violations.head? = some e

section

variable {α β : Type} {vs ws : List AssemblyError}

theorem reports_ok (a : α) : Reports (.ok a) [] := rfl

theorem reports_error (e : AssemblyError) (vs : List AssemblyError) :
    Reports (.error e : Resolved α) (e :: vs) := rfl

/-- What is wrong with a part is reported before what is wrong after it. -/
theorem Reports.bind {x : Resolved α} {f : α → Resolved β} (hx : Reports x vs)
    (hf : ∀ a, x = .ok a → Reports (f a) ws) : Reports (x >>= f) (vs ++ ws) := by
  cases x with
  | ok a =>
    obtain rfl : vs = [] := hx
    exact hf a rfl
  | error e =>
    obtain ⟨rest, rfl⟩ := List.head?_eq_some_iff.1 hx
    rfl

theorem Reports.map {x : Resolved α} (hx : Reports x vs) (f : α → β) :
    Reports (do return f (← x)) vs := by
  rw [← List.append_nil vs]
  exact hx.bind fun _ _ => rfl

/-- What two parts report, one looked at after the other. -/
theorem Reports.map₂ {x : Resolved α} {y : Resolved β} (hx : Reports x vs) (hy : Reports y ws)
    {γ : Type} (f : α → β → γ) : Reports (do let a ← x; return f a (← y)) (vs ++ ws) :=
  hx.bind fun a _ => hy.map (f a)

theorem Reports.ok_iff {x : Resolved α} (hx : Reports x vs) : (∃ a, x = .ok a) ↔ vs = [] := by
  cases x with
  | ok a => exact ⟨fun _ => hx, fun _ => ⟨a, rfl⟩⟩
  | error e =>
    obtain ⟨rest, rfl⟩ := List.head?_eq_some_iff.1 hx
    exact ⟨fun ⟨_, h⟩ => (nomatch h), fun h => (nomatch h)⟩

theorem Reports.error_iff {x : Resolved α} (hx : Reports x vs) (e : AssemblyError) :
    x = .error e ↔ vs.head? = some e := by
  cases x with
  | ok a =>
    obtain rfl : vs = [] := hx
    exact ⟨nofun, nofun⟩
  | error e' => rw [show vs.head? = some e' from hx, Except.error.injEq, Option.some_inj]

end

/-! ## Operators -/

theorem operandCount?_symbol (op : Operator) : operandCount? op.symbol = some op.arity := by
  cases op with
  | not => decide
  | arithmetic op => cases op <;> decide
  | comparison op => cases op <;> decide
  | negated op => cases op <;> decide

/-- The symbols of the rules are those that are looked up. -/
theorem operandCount?_eq_none {symbol : String} (h : Operator.ofSymbol? symbol = none) :
    operandCount? symbol = none := by
  have known : ∀ s ∈ unarySymbols ++ (rightFirstSymbols ++ leftFirstSymbols),
      Operator.ofSymbol? s ≠ none := by decide
  have hmem : symbol ∉ unarySymbols ++ (rightFirstSymbols ++ leftFirstSymbols) :=
    fun hmem => known symbol hmem h
  rw [List.mem_append, not_or] at hmem
  rw [operandCount?, if_neg hmem.1, if_neg hmem.2]

theorem operatorViolations_symbol {symbol : Lexeme} {op : Operator} (h : symbol.text = op.symbol)
    (count : Nat) (span : Span) : operatorViolations symbol count span =
      if op.arity = count then [] else [.argumentCount symbol.text op.arity count span] := by
  rw [operatorViolations, h, operandCount?_symbol]

section

variable {symbol : String} {l r : Resolved Core.Expr} {vss : List (List AssemblyError)}

/-- The right one of two operands is looked at first. -/
theorem reports_rightFirst (hsymbol : symbol ∈ rightFirstSymbols)
    (h : List.Forall₂ Reports [l, r] vss) (f : Core.Expr → Core.Expr → Core.Expr) :
    Reports (do let right ← r; return f (← l) right)
      (if symbol ∈ rightFirstSymbols then vss.reverse else vss).flatten := by
  obtain - | ⟨hl, - | ⟨hr, - | -⟩⟩ := h
  have hboth := hr.map₂ hl fun right left => f left right
  rw [if_pos hsymbol]
  simpa using hboth

/-- The left one of two operands is looked at first. -/
theorem reports_leftFirst (hsymbol : symbol ∉ rightFirstSymbols)
    (h : List.Forall₂ Reports [l, r] vss) (f : Core.Expr → Core.Expr → Core.Expr) :
    Reports (do let left ← l; return f left (← r))
      (if symbol ∈ rightFirstSymbols then vss.reverse else vss).flatten := by
  obtain - | ⟨hl, - | ⟨hr, - | -⟩⟩ := h
  have hboth := hl.map₂ hr f
  rw [if_neg hsymbol]
  simpa using hboth

end

/-- An operator of two operands looks first at the right one, or first at the left one. -/
theorem reports_resolveOperator {symbol : Lexeme} {span : Span}
    {operands : List (Resolved Core.Expr)} {vss : List (List AssemblyError)}
    (h : List.Forall₂ Reports operands vss) : Reports (resolveOperator symbol span operands)
      (operatorViolations symbol operands.length span ++
        (if symbol.text ∈ rightFirstSymbols then vss.reverse else vss).flatten) := by
  unfold resolveOperator
  split
  · rename_i hop
    rw [operatorViolations, operandCount?_eq_none hop]
    exact reports_error _ _
  · rename_i op hop
    have hsymbol := Operator.eq_symbol_of_ofSymbol? hop
    rw [operatorViolations_symbol hsymbol, hsymbol]
    split
    · obtain - | ⟨hx, - | -⟩ := h
      refine Eq.subst ?_ (hx.map Core.Expr.not)
      exact (List.append_nil _).symm
    · rename_i op l r
      exact reports_rightFirst (by cases op <;> decide) h (Core.Expr.arithmetic op)
    · rename_i op l r
      exact reports_leftFirst (by cases op <;> decide) h (Core.Expr.comparison op)
    · rename_i op l r
      exact reports_leftFirst (by cases op <;> decide) h fun l r => .not (.comparison op l r)
    · rename_i hnot harithmetic hcomparison hnegated
      have hne : op.arity ≠ operands.length := by
        intro hlen
        match op, operands, hlen with
        | .not, [e], _ => exact hnot e rfl rfl
        | .arithmetic op, [l, r], _ => exact harithmetic op l r rfl rfl
        | .comparison op, [l, r], _ => exact hcomparison op l r rfl rfl
        | .negated op, [l, r], _ => exact hnegated op l r rfl rfl
      rw [if_neg hne]
      exact reports_error _ _

/-! ## Calls -/

/-- The names of the rules are those that are looked up. -/
theorem argumentCount?_of_notMem {functions : List String} {name : String} (h : name ∉ functions) :
    argumentCount? functions name = (Intrinsic.ofName? name).map Intrinsic.arity := by
  rw [argumentCount?, if_neg h]
  by_cases hmem : name ∈ intrinsicNames
  · revert h
    simp only [intrinsicNames, List.mem_cons, List.not_mem_nil, or_false] at hmem
    obtain rfl | rfl | rfl := hmem <;> exact fun _ => rfl
  · have heffect : name ∉ effectNames := fun he => hmem (by
      simp only [effectNames, intrinsicNames, List.mem_cons, List.not_mem_nil, or_false] at he ⊢
      exact he.elim .inl fun he => .inr (.inl he))
    have hnone : Intrinsic.ofName? name = none := by
      cases hi : Intrinsic.ofName? name with
      | none => rfl
      | some i =>
        have hname := Intrinsic.ofName?_eq_some hi
        refine absurd ?_ hmem
        cases i with
        | putInt => rw [show name = "putint" from hname]; decide
        | putString => rw [show name = "putstr" from hname]; decide
        | getByte => rw [show name = "getint" from hname]; decide
    rw [if_neg heffect, if_neg hmem, hnone]
    rfl

/-- What a call stands for is looked at before its arguments. -/
theorem reports_resolveCallee (functions : List String) (callee : Lexeme) (span : Span)
    (args : List (Resolved Core.Expr)) : Reports (resolveCallee functions callee span args)
      (callViolations functions callee args.length span) := by
  unfold resolveCallee callViolations
  cases hi : functions.idxOf? callee.text with
  | some index =>
    rw [argumentCount?, if_pos (mem_of_idxOf?_eq_some hi)]
    cases args with
    | nil => exact reports_ok _
    | cons e es => exact reports_error _ _
  | none =>
    rw [argumentCount?_of_notMem (List.idxOf?_eq_none_iff.1 hi)]
    cases Intrinsic.ofName? callee.text with
    | none => exact reports_error _ _
    | some i =>
      simp only [Option.map_some]
      split
      · exact reports_ok _
      · exact reports_ok _
      · exact reports_ok _
      · rename_i hputInt hputString hgetByte
        have hne : i.arity ≠ args.length := by
          intro hlen
          match i, args, hlen with
          | .putInt, [e], _ => exact hputInt e rfl rfl
          | .putString, [e], _ => exact hputString e rfl rfl
          | .getByte, [], _ => exact hgetByte rfl rfl
        rw [if_neg hne]
        exact reports_error _ _

/-- A call without a value is reported before its arguments are looked at. -/
theorem reports_resolveCall {functions : List String} {callee : Lexeme} {span : Span}
    {args : List (Resolved Core.Expr)} {vss : List (List AssemblyError)}
    (h : List.Forall₂ Reports args vss) : Reports (resolveCall functions callee span args)
      (callViolations functions callee args.length span ++
        (if HasValue functions callee.text then [] else [.noValue callee.text span]) ++
        vss.flatten) := by
  rw [List.append_assoc]
  refine (reports_resolveCallee functions callee span args).bind fun c hc => ?_
  cases resolveCallee_eq_ok hc with
  | function index hi =>
    obtain - | - := h
    rw [if_pos (.inl (mem_of_idxOf?_eq_some hi))]
    exact reports_ok _
  | getByte hnone hname =>
    obtain - | - := h
    rw [if_pos (.inr (by rw [hname]; decide))]
    exact reports_ok _
  | putInt e hnone hname | putString e hnone hname =>
    have hno : ¬ HasValue functions callee.text :=
      not_or.2 ⟨List.idxOf?_eq_none_iff.1 hnone, by rw [hname]; decide⟩
    rw [if_neg hno]
    exact reports_error _ _

/-! ## Expressions -/

namespace Expr

variable {functions : List String} {scope : Scope}

theorem length_resolveEach (functions : List String) (scope : Scope) (es : List Expr) :
    (resolveEach functions scope es).length = es.length := by
  induction es with
  | nil => rfl
  | cons e es ih => rw [resolveEach, List.length_cons, List.length_cons, ih]

/-- A variable has a slot just if it is in sight. -/
theorem slot?_eq_none_iff (name : String) :
    scope.slot? name = none ↔ name ∉ scope.map (·.1) := by
  rw [Scope.slot?, List.lookup_eq_none_iff, List.mem_map]
  constructor
  · rintro h ⟨p, hp, rfl⟩
    exact absurd rfl (bne_iff_ne.1 (h p hp))
  · exact fun h p hp => bne_iff_ne.2 fun heq => h ⟨p, hp, heq.symm⟩

theorem useViolations_of_none {name : Lexeme} (h : scope.slot? name.text = none) :
    useViolations (scope.map (·.1)) name = [.undefinedVariable name] :=
  if_neg ((slot?_eq_none_iff _).1 h)

theorem useViolations_of_some {name : Lexeme} {index : Nat}
    (h : scope.slot? name.text = some index) : useViolations (scope.map (·.1)) name = [] :=
  if_pos (by_contra fun hmem => by rw [(slot?_eq_none_iff _).2 hmem] at h; cases h)

mutual

theorem reports_resolve : ∀ e : Expr,
    Reports (e.resolve functions scope) (e.violations functions (scope.map (·.1)))
  | .integer value _ => reports_ok _
  | .string value _ => reports_ok _
  | .reference name => by
    rw [resolve, violations]
    cases h : scope.slot? name.text with
    | none => rw [useViolations_of_none h]; exact reports_error _ _
    | some index => rw [useViolations_of_some h]; exact reports_ok _
  | .operator symbol operands span => by
    rw [resolve, violations, ← length_resolveEach functions scope operands]
    exact reports_resolveOperator (reports_resolveEach operands)
  | .call callee args span => by
    rw [resolve, violations, ← length_resolveEach functions scope args]
    exact reports_resolveCall (reports_resolveEach args)

theorem reports_resolveEach : ∀ es : List Expr, List.Forall₂ Reports
    (resolveEach functions scope es) (eachViolations functions (scope.map (·.1)) es)
  | [] => .nil
  | e :: es => .cons (reports_resolve e) (reports_resolveEach es)

end

theorem reports_resolveOptional (e : Option Expr) :
    Reports (resolveOptional functions scope e)
      (optionalViolations functions (scope.map (·.1)) e) := by
  cases e with
  | none => exact reports_ok _
  | some e => exact reports_resolve e

theorem reports_resolveStatement (e : Expr) :
    Reports (e.resolveStatement functions scope)
      (e.statementViolations functions (scope.map (·.1))) := by
  cases e with
  | call callee args span =>
    rw [resolveStatement, statementViolations, ← length_resolveEach functions scope args]
    have hargs : List.Forall₂ Reports (resolveEach functions scope args)
      (eachViolations functions (scope.map (·.1)) args) := reports_resolveEach args
    refine (reports_resolveCallee functions callee span _).bind fun c hc => ?_
    have hc := resolveCallee_eq_ok hc
    generalize resolveEach functions scope args = results at hargs hc
    generalize eachViolations functions (scope.map (·.1)) args = vss at hargs ⊢
    cases hc with
    | function index hi | getByte hnone hname =>
      obtain - | - := hargs
      exact reports_ok _
    | putInt e hnone hname =>
      obtain - | ⟨hx, - | -⟩ := hargs
      exact Eq.subst (List.append_nil _).symm (hx.map Core.Stmt.putInt)
    | putString e hnone hname =>
      obtain - | ⟨hx, - | -⟩ := hargs
      exact Eq.subst (List.append_nil _).symm (hx.map Core.Stmt.putString)
  | _ => exact (reports_resolve _).map Core.Stmt.discard

end Expr

/-! ## Statements -/

namespace Stmt

variable {functions : List String}

theorem map_scopeAfter (scope : Scope) (next : Nat) (s : Stmt) :
    (scopeAfter scope next s).map (·.1) = varsAfter (scope.map (·.1)) s := by
  cases s <;> rfl

mutual

theorem reports_resolve : ∀ (s : Stmt) {scope : Scope} {next : Nat},
    Reports (s.resolve functions scope next) (s.violations functions (scope.map (·.1)))
  | .declare binding, _, _ => (Expr.reports_resolveOptional binding.value).map _
  | .evaluate e _, _, _ => Expr.reports_resolveStatement e
  | .loop condition body _, _, _ =>
    (Expr.reports_resolve condition).map₂ (reports_resolveBlock body) _
  | .ifThen condition body _, _, _ =>
    (Expr.reports_resolve condition).map₂ (reports_resolveBlock body) _
  | .ifElse condition body other _, _, _ => by
    rw [violations, List.append_assoc]
    exact (Expr.reports_resolve condition).bind fun _ _ =>
      (reports_resolveBlock body).map₂ (reports_resolveBlock other) _
  | .assign target value _, scope, next => by
    rw [resolve, violations]
    cases h : scope.slot? target.text with
    | none => rw [Expr.useViolations_of_none h]; exact reports_error _ _
    | some index =>
      rw [Expr.useViolations_of_some h]
      exact (Expr.reports_resolve value).map (Core.Stmt.store index)
  | .giveBack value _, _, _ => (Expr.reports_resolveOptional value).map _

theorem reports_resolveBlock : ∀ (b : Block Stmt) {scope : Scope} {next : Nat},
    Reports (resolveBlock functions scope next b) (blockViolations functions (scope.map (·.1)) b)
  | ⟨statements, _⟩, _, _ => reports_resolveAll statements

theorem reports_resolveAll : ∀ (ss : List Stmt) {scope : Scope} {next : Nat},
    Reports (resolveAll functions scope next ss) (allViolations functions (scope.map (·.1)) ss)
  | [], _, _ => reports_ok _
  | s :: ss, scope, next => by
    rw [allViolations, ← map_scopeAfter scope next s]
    exact (reports_resolve s).map₂ (reports_resolveAll ss) _

end

end Stmt

/-! ## Programs -/

theorem reports_declaredNames (ds : List Declaration) {seen names : List String}
    (h : ∀ name, name ∈ seen ↔ name ∈ names) :
    Reports (declaredNames seen ds) (declarationViolations names ds) := by
  induction ds generalizing seen names with
  | nil => exact reports_ok _
  | cons d ds ih =>
    cases d with
    | global binding => exact reports_error _ _
    | function f =>
      rw [declaredNames, declarationViolations]
      by_cases hf : f.name.text ∈ seen
      · rw [if_pos hf, if_pos ((h _).1 hf)]
        exact reports_error _ _
      · rw [if_neg hf, if_neg (mt (h _).2 hf)]
        exact ih fun name => by rw [List.mem_append, List.mem_singleton, List.mem_cons, h, or_comm]

theorem Function.reports_resolve (functions : List String) (f : Function) :
    Reports (f.resolve functions) (Stmt.blockViolations functions [] f.body) := by
  have hbody : Reports (Stmt.resolveBlock functions [] 0 f.body)
      (Stmt.blockViolations functions [] f.body) := Stmt.reports_resolveBlock f.body
  exact hbody.map fun body => (⟨f.name.text, Stmt.localsOfBlock f.body, body⟩ : Core.Function)

theorem reports_mapM {α β : Type} {f : α → Resolved β} {violations : α → List AssemblyError}
    (h : ∀ a, Reports (f a) (violations a)) (as : List α) :
    Reports (as.mapM f) (as.flatMap violations) := by
  induction as with
  | nil => exact reports_ok _
  | cons a as ih =>
    rw [List.mapM_cons, List.flatMap_cons]
    exact (h a).map₂ ih List.cons

/-- What is reported of a tree is the first of its violations. -/
theorem Tree.reports_resolve (t : Tree) : Reports t.resolve t.violations := by
  rw [violations, List.append_assoc]
  refine (reports_declaredNames t.declarations fun _ => Iff.rfl).bind fun names hnames => ?_
  obtain ⟨hnames, -⟩ := declaredNames_eq_ok hnames .nil
  obtain rfl : names = t.names := hnames
  cases hmain : t.names.idxOf? "main" with
  | none =>
    rw [if_neg (List.idxOf?_eq_none_iff.1 hmain)]
    exact reports_error _ _
  | some main =>
    rw [if_pos (mem_of_idxOf?_eq_some hmain)]
    exact Reports.map (reports_mapM (Function.reports_resolve t.names) t.functions)
      fun functions => (⟨functions, main⟩ : Core.Module)

end StackLang
