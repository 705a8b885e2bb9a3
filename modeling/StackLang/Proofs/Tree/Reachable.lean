import Mathlib.Data.List.Nodup
import StackLang.Proofs.Core.Alike
import StackLang.Proofs.Core.Resolution
import StackLang.Proofs.Tree.Spanless
import StackLang.Proofs.Tree.WellFormed

/-!
# What a program can reach

A function can be reached if a chain of calls leads to it from the main function. Two trees are the
same from there if the functions that can be reached have the same bodies but for spans, and each name
that is called in them stands for a function in both trees or in neither. The core programs of such
trees are alike, wherever their functions are declared and whatever other functions there are.

Results:
* `Tree.RearrangedTo.sameFromMain`: declarations may be moved, and functions added that are not called.
* `Stmt.alike_resolve`: what stands in two trees is looked up alike.
* `Tree.SameFromMain.alike`: what trees that are the same are resolved to is alike.
-/
namespace StackLang

/-! ## The names that are called -/

namespace Expr

mutual

/-- The names that an expression calls. -/
def callees : Expr → List String
  | .integer .. | .string .. | .reference _ => []
  | .operator _ operands _ => calleesOfEach operands
  | .call callee args _ => callee.text :: calleesOfEach args

/-- The names that expressions call. -/
def calleesOfEach : List Expr → List String
  | [] => []
  | e :: es => callees e ++ calleesOfEach es

end

/-- The names that an expression calls, if it is there. -/
def calleesOfOptional : Option Expr → List String
  | none => []
  | some e => e.callees

end Expr

namespace Stmt

mutual

/-- The names that a statement calls. -/
def callees : Stmt → List String
  | .declare binding => Expr.calleesOfOptional binding.value
  | .evaluate e _ => e.callees
  | .loop condition body _ | .ifThen condition body _ => condition.callees ++ calleesOfBlock body
  | .ifElse condition body other _ =>
    condition.callees ++ calleesOfBlock body ++ calleesOfBlock other
  | .assign _ value _ => value.callees
  | .giveBack value _ => Expr.calleesOfOptional value

/-- The names that a block calls. -/
def calleesOfBlock : Block Stmt → List String
  | ⟨statements, _⟩ => calleesOfAll statements

/-- The names that statements call. -/
def calleesOfAll : List Stmt → List String
  | [] => []
  | s :: ss => callees s ++ calleesOfAll ss

end

end Stmt

/-! ## Reachable functions -/

/-- The names of the functions that can be reached from the main function by calls of functions. -/
inductive Tree.Reaches (t : Tree) : String → Prop where
  | main : t.Reaches "main"
  | call {f : Function} {name : String} (h : t.Reaches f.name.text) (hf : f ∈ t.functions)
    (hcall : name ∈ Stmt.calleesOfBlock f.body) (hname : name ∈ t.names) : t.Reaches name

/-- The functions that can be reached in one tree have the same bodies in the other, but for spans, and
the names that are called in them are declared in both trees or in neither. -/
structure Tree.SameFromMain (t t' : Tree) : Prop where
  bodies : ∀ f ∈ t.functions, t.Reaches f.name.text → ∀ f' ∈ t'.functions,
    f'.name.text = f.name.text → Stmt.spanlessBlock f.body = Stmt.spanlessBlock f'.body
  declared : ∀ f ∈ t.functions, t.Reaches f.name.text →
    ∀ name ∈ Stmt.calleesOfBlock f.body, name ∈ t.names ↔ name ∈ t'.names

/-- The declarations are moved, and functions may be added that are not called by those there were. -/
def Tree.RearrangedTo (t t' : Tree) : Prop :=
  ∃ added : List Function, t'.declarations.Perm (t.declarations ++ added.map Declaration.function) ∧
    ∀ g ∈ added, ∀ f ∈ t.functions, g.name.text ∉ Stmt.calleesOfBlock f.body

theorem Tree.functions_append_map (ds : List Declaration) (fs : List Function) :
    (ds ++ fs.map Declaration.function).filterMap Declaration.function? =
      ds.filterMap Declaration.function? ++ fs := by
  rw [List.filterMap_append, List.filterMap_map]
  congr 1
  exact List.filterMap_some

theorem Tree.RearrangedTo.sameFromMain {t t' : Tree} (h : t.RearrangedTo t')
    (hnodup : t'.names.Nodup) : t.SameFromMain t' := by
  obtain ⟨added, hperm, hadded⟩ := h
  have hfunctions : t'.functions.Perm (t.functions ++ added) := by
    have := hperm.filterMap Declaration.function?
    rwa [Tree.functions_append_map] at this
  constructor
  · intro f hf _ f' hf' hname
    have hmem : f ∈ t'.functions := hfunctions.mem_iff.2 (List.mem_append_left _ hf)
    rw [List.inj_on_of_nodup_map hnodup hf' hmem hname]
  · intro f hf _ name hcall
    constructor
    · intro hname
      obtain ⟨g, hg, rfl⟩ := List.mem_map.1 hname
      exact List.mem_map.2 ⟨g, hfunctions.mem_iff.2 (List.mem_append_left _ hg), rfl⟩
    · intro hname
      obtain ⟨g, hg, rfl⟩ := List.mem_map.1 hname
      rcases List.mem_append.1 (hfunctions.mem_iff.1 hg) with hg | hg
      · exact List.mem_map.2 ⟨g, hg, rfl⟩
      · exact absurd hcall (hadded g hg f hf)

/-! ## Looking up names -/

namespace Stmt

mutual

theorem locals_spanless : ∀ s : Stmt, locals s.spanless = locals s
  | .declare _ | .evaluate _ _ | .assign _ _ _ | .giveBack _ _ => rfl
  | .loop _ body _ | .ifThen _ body _ => localsOfBlock_spanless body
  | .ifElse _ body other _ => by
    rw [spanless, locals, locals, localsOfBlock_spanless body, localsOfBlock_spanless other]

theorem localsOfBlock_spanless : ∀ b : Block Stmt, localsOfBlock (spanlessBlock b) = localsOfBlock b
  | ⟨statements, _⟩ => localsOfAll_spanless statements

theorem localsOfAll_spanless : ∀ ss : List Stmt, localsOfAll (spanlessAll ss) = localsOfAll ss
  | [] => rfl
  | s :: ss => by
    rw [spanlessAll, localsOfAll, localsOfAll, locals_spanless s, localsOfAll_spanless ss]

end

theorem scopeAfter_spanless (scope : Scope) (next : Nat) (s : Stmt) :
    scopeAfter scope next s.spanless = scopeAfter scope next s := by
  cases s <;> rfl

end Stmt

/-- What names are looked up to in two places is related, unless one of them fails. -/
def Resolved.Alike {α β : Type} (P : α → β → Prop) (r : Resolved α) (r' : Resolved β) : Prop :=
  ∀ c c', r = .ok c → r' = .ok c' → P c c'

namespace Resolved.Alike

variable {α α' β β' : Type} {P : α → α' → Prop} {Q : β → β' → Prop}

theorem ok {a : α} {a' : α'} (h : P a a') : Alike P (.ok a) (.ok a') := by
  rintro _ _ ⟨⟩ ⟨⟩
  exact h

theorem error (e : AssemblyError) (r' : Resolved α') : Alike P (.error e) r' :=
  fun _ _ h => nomatch h

theorem bind {x : Resolved α} {x' : Resolved α'} {f : α → Resolved β} {f' : α' → Resolved β'}
    (hx : Alike P x x') (hf : ∀ a a', P a a' → Alike Q (f a) (f' a')) :
    Alike Q (x >>= f) (x' >>= f') := by
  intro c c' h h'
  obtain ⟨a, ha, h⟩ := Effect.except_bind_eq_ok.1 h
  obtain ⟨a', ha', h'⟩ := Effect.except_bind_eq_ok.1 h'
  exact hf a a' (hx a a' ha ha') c c' h h'

theorem map {x : Resolved α} {x' : Resolved α'} {f : α → β} {f' : α' → β'} (hx : Alike P x x')
    (hf : ∀ a a', P a a' → Q (f a) (f' a')) :
    Alike Q (do return f (← x)) (do return f' (← x')) :=
  hx.bind fun a a' h => ok (hf a a' h)

end Resolved.Alike

section

variable {names names' : List String} {R : Nat → Nat → Prop}

theorem OperatorForm.alike {op : Operator} {operands operands' : List (Resolved Core.Expr)}
    {c c' : Core.Expr} (h : OperatorForm op operands c) (h' : OperatorForm op operands' c')
    (hs : List.Forall₂ (Resolved.Alike (Core.Expr.Alike R)) operands operands') : c.Alike R c' := by
  cases h with
  | not e =>
    cases h' with
    | not e' =>
      cases hs with
      | cons he _ => exact .not (he e e' rfl rfl)
  | arithmetic op l r =>
    cases h' with
    | arithmetic _ l' r' =>
      cases hs with
      | cons hl hs =>
        cases hs with
        | cons hr _ => exact .arithmetic op (hl l l' rfl rfl) (hr r r' rfl rfl)
  | comparison op l r =>
    cases h' with
    | comparison _ l' r' =>
      cases hs with
      | cons hl hs =>
        cases hs with
        | cons hr _ => exact .comparison op (hl l l' rfl rfl) (hr r r' rfl rfl)
  | negated op l r =>
    cases h' with
    | negated _ l' r' =>
      cases hs with
      | cons hl hs =>
        cases hs with
        | cons hr _ => exact .not (.comparison op (hl l l' rfl rfl) (hr r r' rfl rfl))

/-- One operator is looked up alike for operands that are. -/
theorem alike_resolveOperator {symbol symbol' : Lexeme} (htext : symbol.text = symbol'.text)
    (span span' : Span) {operands operands' : List (Resolved Core.Expr)}
    (hs : List.Forall₂ (Resolved.Alike (Core.Expr.Alike R)) operands operands') :
    Resolved.Alike (Core.Expr.Alike R) (resolveOperator symbol span operands)
      (resolveOperator symbol' span' operands') := by
  intro c c' h h'
  obtain ⟨op, hop, hform⟩ := resolveOperator_eq_ok h
  obtain ⟨op', hop', hform'⟩ := resolveOperator_eq_ok h'
  rw [htext, hop'] at hop
  cases hop
  exact hform.alike hform' hs

/-- Calls of functions that are related, or of the same intrinsic with arguments that are alike. -/
inductive Callee.Alike (R : Nat → Nat → Prop) : Callee → Callee → Prop where
  | function {index index' : Nat} (h : R index index') :
    Callee.Alike R (.function index) (.function index')
  | putInt {r r' : Resolved Core.Expr} (h : Resolved.Alike (Core.Expr.Alike R) r r') :
    Callee.Alike R (.putInt r) (.putInt r')
  | putString {r r' : Resolved Core.Expr} (h : Resolved.Alike (Core.Expr.Alike R) r r') :
    Callee.Alike R (.putString r) (.putString r')
  | getByte : Callee.Alike R .getByte .getByte

theorem CalleeForm.alike {name : String} {args args' : List (Resolved Core.Expr)} {c c' : Callee}
    (h : CalleeForm names name args c) (h' : CalleeForm names' name args' c')
    (hname : Option.Rel R (names.idxOf? name) (names'.idxOf? name))
    (hs : List.Forall₂ (Resolved.Alike (Core.Expr.Alike R)) args args') : c.Alike R c' := by
  cases h with
  | function index hi =>
    rw [hi] at hname
    cases h' with
    | function index' hi' =>
      rw [hi'] at hname
      cases hname with
      | some hR => exact .function hR
    | putInt _ hi' | putString _ hi' | getByte hi' => rw [hi'] at hname; cases hname
  | putInt e hi he =>
    rw [hi] at hname
    cases h' with
    | function index' hi' => rw [hi'] at hname; cases hname
    | putInt =>
      cases hs with
      | cons hs _ => exact .putInt hs
    | putString _ _ he' | getByte _ he' => exact absurd (he.symm.trans he') (by decide)
  | putString e hi he =>
    rw [hi] at hname
    cases h' with
    | function index' hi' => rw [hi'] at hname; cases hname
    | putString =>
      cases hs with
      | cons hs _ => exact .putString hs
    | putInt _ _ he' | getByte _ he' => exact absurd (he.symm.trans he') (by decide)
  | getByte hi he =>
    rw [hi] at hname
    cases h' with
    | function index' hi' => rw [hi'] at hname; cases hname
    | getByte => exact .getByte
    | putInt _ _ he' | putString _ _ he' => exact absurd (he.symm.trans he') (by decide)

/-- The names stand for related functions, or for none. -/
def Paired (R : Nat → Nat → Prop) (names names' called : List String) : Prop :=
  ∀ name ∈ called, Option.Rel R (names.idxOf? name) (names'.idxOf? name)

namespace Paired

variable {called others : List String}

theorem left (h : Paired R names names' (called ++ others)) : Paired R names names' called :=
  fun name hname => h name (List.mem_append_left _ hname)

theorem right (h : Paired R names names' (called ++ others)) : Paired R names names' others :=
  fun name hname => h name (List.mem_append_right _ hname)

theorem tail {name : String} (h : Paired R names names' (name :: called)) :
    Paired R names names' called := fun name hname => h name (List.mem_cons_of_mem _ hname)

end Paired

/-- One name is called alike with arguments that are. -/
theorem alike_resolveCallee {callee callee' : Lexeme} (htext : callee.text = callee'.text)
    {called : List String} (hp : Paired R names names' (callee.text :: called)) (span span' : Span)
    {args args' : List (Resolved Core.Expr)}
    (hs : List.Forall₂ (Resolved.Alike (Core.Expr.Alike R)) args args') :
    Resolved.Alike (Callee.Alike R) (resolveCallee names callee span args)
      (resolveCallee names' callee' span' args') := by
  intro c c' h h'
  have hform := resolveCallee_eq_ok h
  have hform' := resolveCallee_eq_ok h'
  rw [← htext] at hform'
  exact hform.alike hform' (hp _ List.mem_cons_self) hs

theorem alike_resolveCall {callee callee' : Lexeme} (htext : callee.text = callee'.text)
    {called : List String} (hp : Paired R names names' (callee.text :: called)) (span span' : Span)
    {args args' : List (Resolved Core.Expr)}
    (hs : List.Forall₂ (Resolved.Alike (Core.Expr.Alike R)) args args') :
    Resolved.Alike (Core.Expr.Alike R) (resolveCall names callee span args)
      (resolveCall names' callee' span' args') :=
  (alike_resolveCallee htext hp span span' hs).bind fun _ _ h => by
    cases h with
    | function hR => exact .ok (.call hR)
    | getByte => exact .ok .getByte
    | putInt | putString => exact .error _ _

namespace Expr

variable {scope : Scope}

mutual

/-- An expression that stands in two trees is looked up alike. -/
theorem alike_resolve : ∀ (e e' : Expr), e.spanless = e'.spanless →
    Paired R names names' e.callees →
    Resolved.Alike (Core.Expr.Alike R) (e.resolve names scope) (e'.resolve names' scope)
  | .integer value _, e', hs, _ => by
    cases e' with
    | integer value' _ =>
      cases hs
      exact .ok (.literal value)
    | _ => cases hs
  | .string value _, e', hs, _ => by
    cases e' with
    | string value' _ =>
      cases hs
      exact .ok (.text value)
    | _ => cases hs
  | .reference name, e', hs, _ => by
    cases e' with
    | reference name' =>
      injection hs with hname
      rw [resolve, resolve, Lexeme.text_eq_of_spanless hname]
      cases scope.slot? name'.text with
      | none => exact .error _ _
      | some slot => exact .ok (.slot slot)
    | _ => cases hs
  | .operator symbol operands span, e', hs, hp => by
    cases e' with
    | operator symbol' operands' span' =>
      injection hs with hsymbol hoperands
      exact alike_resolveOperator (Lexeme.text_eq_of_spanless hsymbol) span span'
        (alike_resolveEach operands operands' hoperands hp)
    | _ => cases hs
  | .call callee args span, e', hs, hp => by
    cases e' with
    | call callee' args' span' =>
      injection hs with hcallee hargs
      exact alike_resolveCall (Lexeme.text_eq_of_spanless hcallee) hp span span'
        (alike_resolveEach args args' hargs hp.tail)
    | _ => cases hs

/-- Expressions that stand in two trees are looked up alike. -/
theorem alike_resolveEach : ∀ (es es' : List Expr), spanlessEach es = spanlessEach es' →
    Paired R names names' (calleesOfEach es) → List.Forall₂ (Resolved.Alike (Core.Expr.Alike R))
      (resolveEach names scope es) (resolveEach names' scope es')
  | [], [], _, _ => .nil
  | e :: es, e' :: es', hs, hp => by
    injection hs with he hes
    exact .cons (alike_resolve e e' he hp.left) (alike_resolveEach es es' hes hp.right)
  | [], _ :: _, hs, _ | _ :: _, [], hs, _ => by cases hs

end

/-- An expression that stands in two trees, and may be missing. -/
theorem alike_resolveOptional (e e' : Option Expr) (hs : e.map spanless = e'.map spanless)
    (hp : Paired R names names' (calleesOfOptional e)) :
    Resolved.Alike (Core.Expr.Alike R) (resolveOptional names scope e)
      (resolveOptional names' scope e') := by
  cases e with
  | none =>
    cases e' with
    | none => exact .ok (.literal 0)
    | some _ => cases hs
  | some e =>
    cases e' with
    | none => cases hs
    | some e' => exact alike_resolve e e' (Option.some.inj hs) hp

/-- An expression that stands as a statement in two trees. -/
theorem alike_resolveStatement (e e' : Expr) (hs : e.spanless = e'.spanless)
    (hp : Paired R names names' e.callees) :
    Resolved.Alike (Core.Stmt.Alike R) (e.resolveStatement names scope)
      (e'.resolveStatement names' scope) := by
  cases e with
  | call callee args span =>
    cases e' with
    | call callee' args' span' =>
      injection hs with hcallee hargs
      refine (alike_resolveCallee (Lexeme.text_eq_of_spanless hcallee) hp span span'
        (alike_resolveEach args args' hargs hp.tail)).bind fun _ _ h => ?_
      cases h with
      | function hR => exact .ok (.discard (.call hR))
      | getByte => exact .ok (.discard .getByte)
      | putInt hr => exact hr.map fun _ _ => .putInt
      | putString hr => exact hr.map fun _ _ => .putString
    | _ => cases hs
  | _ =>
    cases e' with
    | call => cases hs
    | _ => exact (alike_resolve _ _ hs hp).map fun _ _ => .discard

end Expr

namespace Stmt

mutual

/-- A statement that stands in two trees is looked up alike. -/
theorem alike_resolve : ∀ (s s' : Stmt) {scope : Scope} {next : Nat}, s.spanless = s'.spanless →
    Paired R names names' s.callees →
    Resolved.Alike (Core.Stmt.Alike R) (s.resolve names scope next) (s'.resolve names' scope next)
  | .declare binding, s', scope, next, hs, hp => by
    cases s' with
    | declare binding' =>
      injection hs with hbinding
      injection hbinding with _ hvalue
      exact (Expr.alike_resolveOptional _ _ hvalue hp).map fun _ _ => .store next
    | _ => cases hs
  | .evaluate e _, s', scope, next, hs, hp => by
    cases s' with
    | evaluate e' _ =>
      injection hs with he
      exact Expr.alike_resolveStatement e e' he hp
    | _ => cases hs
  | .loop condition body _, s', scope, next, hs, hp => by
    cases s' with
    | loop condition' body' _ =>
      injection hs with hcondition hbody
      exact (Expr.alike_resolve _ _ hcondition hp.left).bind fun _ _ hc =>
        (alike_resolveBlock body body' hbody hp.right).map fun _ _ => .loop hc
    | _ => cases hs
  | .ifThen condition body _, s', scope, next, hs, hp => by
    cases s' with
    | ifThen condition' body' _ =>
      injection hs with hcondition hbody
      exact (Expr.alike_resolve _ _ hcondition hp.left).bind fun _ _ hc =>
        (alike_resolveBlock body body' hbody hp.right).map fun _ _ => .ifThen hc
    | _ => cases hs
  | .ifElse condition body other _, s', scope, next, hs, hp => by
    cases s' with
    | ifElse condition' body' other' _ =>
      injection hs with hcondition hbody hother
      have hlocals : localsOfBlock body' = localsOfBlock body := by
        rw [← localsOfBlock_spanless, ← hbody, localsOfBlock_spanless]
      rw [resolve, resolve, hlocals]
      exact (Expr.alike_resolve _ _ hcondition hp.left.left).bind fun _ _ hc =>
        (alike_resolveBlock body body' hbody hp.left.right).bind fun _ _ hb =>
          (alike_resolveBlock other other' hother hp.right).map fun _ _ => .ifElse hc hb
    | _ => cases hs
  | .assign target value _, s', scope, next, hs, hp => by
    cases s' with
    | assign target' value' _ =>
      injection hs with htarget hvalue
      rw [resolve, resolve, Lexeme.text_eq_of_spanless htarget]
      cases scope.slot? target'.text with
      | none => exact .error _ _
      | some slot => exact (Expr.alike_resolve _ _ hvalue hp).map fun _ _ => .store slot
    | _ => cases hs
  | .giveBack value _, s', scope, next, hs, hp => by
    cases s' with
    | giveBack value' _ =>
      injection hs with hvalue
      exact (Expr.alike_resolveOptional _ _ hvalue hp).map fun _ _ => .giveBack
    | _ => cases hs

/-- A block that stands in two trees is looked up alike. -/
theorem alike_resolveBlock : ∀ (b b' : Block Stmt) {scope : Scope} {next : Nat},
    spanlessBlock b = spanlessBlock b' → Paired R names names' (calleesOfBlock b) →
    Resolved.Alike (Core.Stmt.AllAlike R) (resolveBlock names scope next b)
      (resolveBlock names' scope next b')
  | ⟨ss, _⟩, ⟨ss', _⟩, scope, next, hs, hp => by
    injection hs with hss
    exact alike_resolveAll ss ss' hss hp

/-- Statements that stand in two trees are looked up alike. -/
theorem alike_resolveAll : ∀ (ss ss' : List Stmt) {scope : Scope} {next : Nat},
    spanlessAll ss = spanlessAll ss' → Paired R names names' (calleesOfAll ss) →
    Resolved.Alike (Core.Stmt.AllAlike R) (resolveAll names scope next ss)
      (resolveAll names' scope next ss')
  | [], [], _, _, _, _ => .ok .nil
  | s :: ss, s' :: ss', scope, next, hs, hp => by
    injection hs with hfirst hothers
    have hlocals : locals s' = locals s := by
      rw [← locals_spanless, ← hfirst, locals_spanless]
    have hscope : scopeAfter scope next s' = scopeAfter scope next s := by
      rw [← scopeAfter_spanless, ← hfirst, scopeAfter_spanless]
    rw [resolveAll, resolveAll, hlocals, hscope]
    exact (alike_resolve s s' hfirst hp.left).bind fun _ _ hf =>
      (alike_resolveAll ss ss' hothers hp.right).map fun _ _ => .cons hf
  | [], _ :: _, _, _, hs, _ | _ :: _, [], _, _, hs, _ => by cases hs

end

end Stmt

end

/-! ## Programs -/

/-- The numbers that a function which can be reached has in two trees. -/
def Tree.Numbered (t t' : Tree) (index index' : Nat) : Prop :=
  ∃ name, t.Reaches name ∧ t.names.idxOf? name = some index ∧ t'.names.idxOf? name = some index'

/-- The function of a name is resolved by itself. -/
theorem Tree.exists_function_of_resolve {t : Tree} {m : Core.Module} (h : t.resolve = .ok m)
    {name : String} {index : Nat} (hindex : t.names.idxOf? name = some index) :
    ∃ f body, f ∈ t.functions ∧ f.name.text = name ∧
      Stmt.resolveBlock t.names [] 0 f.body = .ok body ∧
      m.functions[index]? = some ⟨f.name.text, Stmt.localsOfBlock f.body, body⟩ := by
  obtain ⟨names, rfl, -, -, hf⟩ := Tree.resolve_eq_ok h
  have hname := getElem?_of_idxOf?_eq_some hindex
  rw [Tree.names, List.getElem?_map, Option.map_eq_some_iff] at hname
  obtain ⟨f, hget, hname⟩ := hname
  obtain ⟨c, hc, hres⟩ := (mapM_eq_ok hf).2 index f hget
  obtain ⟨body, hbody, rfl⟩ := Function.resolve_eq_ok hres
  exact ⟨f, body, List.mem_of_getElem? hget, hname, hbody, hc⟩

/-- The names that a function which can be reached calls stand for functions that can be reached, or
for none. -/
theorem Tree.SameFromMain.paired {t t' : Tree} (h : t.SameFromMain t') {f : Function}
    (hf : f ∈ t.functions) (hreach : t.Reaches f.name.text) :
    Paired (t.Numbered t') t.names t'.names (Stmt.calleesOfBlock f.body) := by
  intro name hcall
  have hdeclared := h.declared f hf hreach name hcall
  cases hi : t.names.idxOf? name with
  | none =>
    have hnone : name ∉ t'.names := fun h => List.idxOf?_eq_none_iff.1 hi (hdeclared.2 h)
    rw [List.idxOf?_eq_none_iff.2 hnone]
    exact .none
  | some index =>
    have hmem := mem_of_idxOf?_eq_some hi
    cases hi' : t'.names.idxOf? name with
    | none => exact absurd (hdeclared.1 hmem) (List.idxOf?_eq_none_iff.1 hi')
    | some index' => exact .some ⟨name, .call hreach hf hcall hmem, hi, hi'⟩

/-- What trees that are the same from their main functions are resolved to is alike. -/
theorem Tree.SameFromMain.alike {t t' : Tree} (h : t.SameFromMain t') {m m' : Core.Module}
    (hm : t.resolve = .ok m) (hm' : t'.resolve = .ok m') : m.Alike m' (t.Numbered t') where
  main := by
    obtain ⟨_, rfl, -, hmain, -⟩ := Tree.resolve_eq_ok hm
    obtain ⟨_, rfl, -, hmain', -⟩ := Tree.resolve_eq_ok hm'
    exact ⟨"main", .main, hmain, hmain'⟩
  functions hR := by
    obtain ⟨name, hreach, hi, hi'⟩ := hR
    obtain ⟨f, body, hf, rfl, hbody, hget⟩ := Tree.exists_function_of_resolve hm hi
    obtain ⟨f', body', hf', hname, hbody', hget'⟩ := Tree.exists_function_of_resolve hm' hi'
    have hsame := h.bodies f hf hreach f' hf' hname
    have hlocals : Stmt.localsOfBlock f'.body = Stmt.localsOfBlock f.body := by
      rw [← Stmt.localsOfBlock_spanless, ← hsame, Stmt.localsOfBlock_spanless]
    exact ⟨_, _, hget, hget', hname, hlocals,
      Stmt.alike_resolveBlock f.body f'.body hsame (h.paired hf hreach) _ _ hbody hbody'⟩

end StackLang
