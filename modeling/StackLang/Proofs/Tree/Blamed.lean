import StackLang.Proofs.Tree.Nodes
import StackLang.Proofs.Tree.WellFormed

/-!
# What a violation is about

Each violation of a tree is about a part of the tree: a name that is read or written, a call, or a
declaration. It has the text and the place of that part, and says what is wrong with it. Only a missing
start is about no part. Operators that have their number of operands are never to blame.

Results:
* `Expr.blames_of_mem`, `Stmt.blames_of_mem`: violations of expressions and of statements.
* `blames_of_mem_declarations`: violations of declarations.
* `Tree.blames_of_mem_violations`: violations of a tree.
-/
namespace StackLang

/-- The error is about a part of the tree, of which it says something true. -/
inductive Tree.Blames (t : Tree) : AssemblyError → Prop
  | undefinedVariable {use : Lexeme} (has : t.Has (.expression (.reference use))) :
    t.Blames (.undefinedVariable use)
  | functionNotFound {callee : Lexeme} {args : List Expr} {s : Span}
    (has : t.Has (.expression (.call callee args s)))
    (unknown : argumentCount? t.names callee.text = none) : t.Blames (.functionNotFound callee)
  | missingMain (notMem : "main" ∉ t.names) : t.Blames .missingMain
  /-- A function of the same name is declared before. -/
  | duplicateFunction {before after : List Declaration} {f g : Function}
    (split : t.declarations = before ++ .function f :: after) (earlier : .function g ∈ before)
    (same : g.name.text = f.name.text) : t.Blames (.duplicateFunction f.name)
  | argumentCount {callee : Lexeme} {args : List Expr} {s : Span} {expected : Nat}
    (has : t.Has (.expression (.call callee args s)))
    (takes : argumentCount? t.names callee.text = some expected) (ne : expected ≠ args.length) :
    t.Blames (.argumentCount callee.text expected args.length s)
  /-- What is called has no value, and no function hides it. -/
  | noValue {callee : Lexeme} {args : List Expr} {s : Span}
    (has : t.Has (.expression (.call callee args s))) (effect : callee.text ∈ effectNames)
    (notMem : callee.text ∉ t.names) : t.Blames (.noValue callee.text s)
  | unsupportedDeclaration {b : Binding} (mem : .global b ∈ t.declarations) :
    t.Blames (.unsupportedDeclaration b.span)

variable {t : Tree} {e : AssemblyError}

/-! ## Names and calls -/

theorem blames_of_mem_use {vars : List String} {use : Lexeme}
    (has : t.Has (.expression (.reference use))) (h : e ∈ useViolations vars use) : t.Blames e := by
  unfold useViolations at h
  split at h
  · cases h
  · obtain rfl := List.mem_singleton.1 h
    exact .undefinedVariable has

theorem blames_of_mem_call {callee : Lexeme} {args : List Expr} {s : Span}
    (has : t.Has (.expression (.call callee args s)))
    (h : e ∈ callViolations t.names callee args.length s) : t.Blames e := by
  unfold callViolations at h
  split at h
  · rename_i hnone
    obtain rfl := List.mem_singleton.1 h
    exact .functionNotFound has hnone
  · rename_i expected hsome
    split at h
    · cases h
    · rename_i hne
      obtain rfl := List.mem_singleton.1 h
      exact .argumentCount has hsome hne

theorem blames_of_mem_value {callee : Lexeme} {args : List Expr} {s : Span}
    (has : t.Has (.expression (.call callee args s)))
    (h : e ∈ if HasValue t.names callee.text then [] else [.noValue callee.text s]) : t.Blames e := by
  split at h
  · cases h
  · rename_i hvalue
    obtain rfl := List.mem_singleton.1 h
    rw [HasValue, not_or, Decidable.not_not] at hvalue
    exact .noValue has hvalue.2 hvalue.1

/-- Each operator of the tree has as many operands as it takes. -/
def Tree.OperatorsApplied (t : Tree) : Prop :=
  ∀ symbol operands s, t.Has (.expression (.operator symbol operands s)) →
    operandCount? symbol.text = some operands.length

/-! ## Expressions -/

namespace Expr

variable {vars : List String}

mutual

theorem blames_of_mem (ht : t.OperatorsApplied) : ∀ {x : Expr}, t.Has (.expression x) →
    e ∈ x.violations t.names vars → t.Blames e
  | .integer .., _, h | .string .., _, h => by cases h
  | .reference use, has, h => blames_of_mem_use has h
  | .operator symbol operands s, has, h => by
    have hsymbol := (operatorViolations_eq_nil_iff symbol _ s).2 (ht symbol operands s has)
    rw [violations, hsymbol, List.nil_append] at h
    have heach : e ∈ (eachViolations t.names vars operands).flatten := by
      split at h
      · obtain ⟨vs, hvs, he⟩ := List.mem_flatten.1 h
        exact List.mem_flatten.2 ⟨vs, List.mem_reverse.1 hvs, he⟩
      · exact h
    exact blames_of_mem_each ht (fun x hx => has.child (List.mem_map_of_mem hx)) heach
  | .call callee args s, has, h => by
    rw [violations, List.mem_append, List.mem_append] at h
    obtain (h | h) | h := h
    · exact blames_of_mem_call has h
    · exact blames_of_mem_value has h
    · exact blames_of_mem_each ht (fun x hx => has.child (List.mem_map_of_mem hx)) h

theorem blames_of_mem_each (ht : t.OperatorsApplied) : ∀ {xs : List Expr},
    (∀ x ∈ xs, t.Has (.expression x)) → e ∈ (eachViolations t.names vars xs).flatten → t.Blames e
  | [], _, h => by cases h
  | x :: xs, has, h => by
    rw [eachViolations, List.flatten_cons, List.mem_append] at h
    obtain ⟨hx, hxs⟩ := List.forall_mem_cons.1 has
    obtain h | h := h
    · exact blames_of_mem ht hx h
    · exact blames_of_mem_each ht hxs h

end

theorem blames_of_mem_optional (ht : t.OperatorsApplied) {x : Option Expr}
    (has : ∀ n ∈ Node.ofOption x, t.Has n) (h : e ∈ optionalViolations t.names vars x) :
    t.Blames e := by
  cases x with
  | none => cases h
  | some x => exact blames_of_mem ht (has _ List.mem_cons_self) h

theorem blames_of_mem_statement (ht : t.OperatorsApplied) {x : Expr} (has : t.Has (.expression x))
    (h : e ∈ x.statementViolations t.names vars) : t.Blames e := by
  cases x with
  | call callee args s =>
    rw [statementViolations, List.mem_append] at h
    obtain h | h := h
    · exact blames_of_mem_call has h
    · exact blames_of_mem_each ht (fun x hx => has.child (List.mem_map_of_mem hx)) h
  | _ => exact @blames_of_mem t e vars ht _ has h

end Expr

/-! ## Statements -/

namespace Stmt

mutual

theorem blames_of_mem (ht : t.OperatorsApplied) : ∀ {s : Stmt} {vars : List String},
    t.Has (.statement s) → e ∈ s.violations t.names vars → t.Blames e
  | .declare b, _, has, h => Expr.blames_of_mem_optional ht (fun _ hn => has.child hn) h
  | .evaluate x s, _, has, h => Expr.blames_of_mem_statement ht (has.child (by simp [Node.children])) h
  | .loop c body s, _, has, h | .ifThen c body s, _, has, h => by
    rw [violations, List.mem_append] at h
    obtain h | h := h
    · exact Expr.blames_of_mem ht (has.child (by simp [Node.children])) h
    · exact blames_of_mem_block ht (has.child (by simp [Node.children])) h
  | .ifElse c body other s, _, has, h => by
    rw [violations, List.mem_append, List.mem_append] at h
    obtain (h | h) | h := h
    · exact Expr.blames_of_mem ht (has.child (by simp [Node.children])) h
    · exact blames_of_mem_block ht (has.child (by simp [Node.children])) h
    · exact blames_of_mem_block ht (has.child (by simp [Node.children])) h
  | .assign target value s, _, has, h => by
    rw [violations, List.mem_append] at h
    obtain h | h := h
    · exact blames_of_mem_use (has.child (by simp [Node.children])) h
    · exact Expr.blames_of_mem ht (has.child (by simp [Node.children])) h
  | .giveBack value s, _, has, h => Expr.blames_of_mem_optional ht (fun _ hn => has.child hn) h

theorem blames_of_mem_block (ht : t.OperatorsApplied) : ∀ {b : Block Stmt} {vars : List String},
    t.Has (.block b) → e ∈ blockViolations t.names vars b → t.Blames e
  | ⟨_, _⟩, _, has, h => blames_of_mem_all ht (fun _ hs => has.child (List.mem_map_of_mem hs)) h

theorem blames_of_mem_all (ht : t.OperatorsApplied) : ∀ {ss : List Stmt} {vars : List String},
    (∀ s ∈ ss, t.Has (.statement s)) → e ∈ allViolations t.names vars ss → t.Blames e
  | [], _, _, h => by cases h
  | s :: ss, _, has, h => by
    rw [allViolations, List.mem_append] at h
    obtain ⟨hs, hss⟩ := List.forall_mem_cons.1 has
    obtain h | h := h
    · exact blames_of_mem ht hs h
    · exact blames_of_mem_all ht hss h

end

end Stmt

/-! ## Declarations -/

/-- Declarations after others, the names of whose functions are `seen`. -/
theorem blames_of_mem_declarations {before ds : List Declaration} {seen : List String}
    (hsplit : t.declarations = before ++ ds)
    (hseen : ∀ name ∈ seen, ∃ g, .function g ∈ before ∧ g.name.text = name)
    (h : e ∈ declarationViolations seen ds) : t.Blames e := by
  induction ds generalizing before seen with
  | nil => cases h
  | cons d ds ih =>
    have hmore : t.declarations = (before ++ [d]) ++ ds := by rw [hsplit, List.append_assoc]; rfl
    cases d with
    | global b =>
      obtain rfl | h := List.mem_cons.1 h
      · exact .unsupportedDeclaration (by simp [hsplit])
      · refine ih hmore (fun name hname => ?_) h
        obtain ⟨g, hg, hsame⟩ := hseen name hname
        exact ⟨g, List.mem_append_left _ hg, hsame⟩
    | function f =>
      rw [declarationViolations, List.mem_append] at h
      obtain h | h := h
      · split at h
        · rename_i hmem
          obtain ⟨g, hg, hsame⟩ := hseen _ hmem
          obtain rfl := List.mem_singleton.1 h
          exact .duplicateFunction hsplit hg hsame
        · cases h
      · refine ih hmore (fun name hname => ?_) h
        obtain rfl | hname := List.mem_cons.1 hname
        · exact ⟨f, by simp, rfl⟩
        · obtain ⟨g, hg, hsame⟩ := hseen name hname
          exact ⟨g, List.mem_append_left _ hg, hsame⟩

/-- Each violation of a tree is about a part of it. -/
theorem Tree.blames_of_mem_violations (ht : t.OperatorsApplied) (h : e ∈ t.violations) :
    t.Blames e := by
  rw [violations, List.mem_append, List.mem_append] at h
  obtain (h | h) | h := h
  · exact blames_of_mem_declarations (List.nil_append _).symm (List.forall_mem_nil _) h
  · split at h
    · cases h
    · rename_i hmain
      obtain rfl := List.mem_singleton.1 h
      exact .missingMain hmain
  · obtain ⟨f, hf, h⟩ := List.mem_flatMap.1 h
    obtain ⟨d, hd, hfunction⟩ := List.mem_filterMap.1 hf
    cases d with
    | global b => cases hfunction
    | function g =>
      obtain rfl := Option.some.inj hfunction
      exact Stmt.blames_of_mem_block ht (.child (.declaration hd) List.mem_cons_self) h

end StackLang
