import StackLang.Core.AssemblyError

/-!
# Well-formed programs

What a syntax tree has to observe to be a program, said of the tree alone: names are used where a
declaration of them is in sight, operators and calls have their number of operands, and a value is
used only where there is one. Beside it stand the violations of these rules, listed in the order in
which they are met when names are looked up.

Results:
* `Tree.violations_eq_nil_iff`: the list is empty just for well-formed trees.
-/
namespace StackLang

/-! ## Operators and calls -/

/-- The operators of one operand. -/
def unarySymbols : List String := ["!"]

/-- The operators of two operands whose right operand is evaluated first. -/
def rightFirstSymbols : List String := ["+", "-", "*", "/", "%"]

/-- The operators of two operands whose left operand is evaluated first. -/
def leftFirstSymbols : List String := ["<", ">", "==", "!=", "<=", ">="]

/-- How many operands go with a symbol, if it is an operator's. -/
def operandCount? (symbol : String) : Option Nat :=
  if symbol ∈ unarySymbols then some 1
  else if symbol ∈ rightFirstSymbols ++ leftFirstSymbols then some 2
  else none

/-- What can be called without being declared. -/
def intrinsicNames : List String := ["putint", "putstr", "getint"]

/-- The intrinsics that have no value. -/
def effectNames : List String := ["putint", "putstr"]

/-- How many arguments go with a name, if it can be called. The functions that are declared hide the
intrinsics of their names. -/
def argumentCount? (functions : List String) (name : String) : Option Nat :=
  if name ∈ functions then some 0
  else if name ∈ effectNames then some 1
  else if name ∈ intrinsicNames then some 0
  else none

/-- A call of the name has a value. -/
def HasValue (functions : List String) (name : String) : Prop :=
  name ∈ functions ∨ name ∉ effectNames

instance (functions : List String) (name : String) : Decidable (HasValue functions name) :=
  inferInstanceAs (Decidable (_ ∨ _))

/-! ## Well-formed trees -/

namespace Expr

mutual

/-- An expression whose value is used, where the variables `vars` are in sight. -/
def WellFormed (functions vars : List String) : Expr → Prop
  | .integer .. | .string .. => True
  | .reference name => name.text ∈ vars
  | .operator symbol operands _ =>
    operandCount? symbol.text = some operands.length ∧ EachWellFormed functions vars operands
  | .call callee args _ =>
    argumentCount? functions callee.text = some args.length ∧ HasValue functions callee.text ∧
      EachWellFormed functions vars args

/-- Expressions whose values are used. -/
def EachWellFormed (functions vars : List String) : List Expr → Prop
  | [] => True
  | e :: es => WellFormed functions vars e ∧ EachWellFormed functions vars es

end

/-- An expression that may be missing. -/
def OptionalWellFormed (functions vars : List String) : Option Expr → Prop
  | none => True
  | some e => e.WellFormed functions vars

/-- An expression as a statement, which may be a call without a value. -/
def StatementWellFormed (functions vars : List String) : Expr → Prop
  | .call callee args _ =>
    argumentCount? functions callee.text = some args.length ∧ EachWellFormed functions vars args
  | e => e.WellFormed functions vars

end Expr

namespace Stmt

/-- The variables in sight after a statement: a declaration is seen by the statements after it. -/
def varsAfter (vars : List String) : Stmt → List String
  | .declare binding => binding.name :: vars
  | _ => vars

mutual

/-- A statement, where the variables `vars` are in sight. -/
def WellFormed (functions vars : List String) : Stmt → Prop
  | .declare binding => Expr.OptionalWellFormed functions vars binding.value
  | .evaluate e _ => e.StatementWellFormed functions vars
  | .loop condition body _ | .ifThen condition body _ =>
    condition.WellFormed functions vars ∧ BlockWellFormed functions vars body
  | .ifElse condition body other _ =>
    condition.WellFormed functions vars ∧ BlockWellFormed functions vars body ∧
      BlockWellFormed functions vars other
  | .assign target value _ => target.text ∈ vars ∧ value.WellFormed functions vars
  | .giveBack value _ => Expr.OptionalWellFormed functions vars value

/-- A block. What it declares is not seen after it. -/
def BlockWellFormed (functions vars : List String) : Block Stmt → Prop
  | ⟨statements, _⟩ => AllWellFormed functions vars statements

/-- Statements, each of which sees the declarations before it. -/
def AllWellFormed (functions vars : List String) : List Stmt → Prop
  | [] => True
  | s :: ss => WellFormed functions vars s ∧ AllWellFormed functions (varsAfter vars s) ss

end

end Stmt

/-- The names of the functions that are declared. -/
def Tree.names (t : Tree) : List String := t.functions.map (·.name.text)

/-- A tree that is a program. -/
structure Tree.WellFormed (t : Tree) : Prop where
  functionsOnly : ∀ d ∈ t.declarations, ∃ f, d = .function f
  distinct : t.names.Nodup
  main : "main" ∈ t.names
  bodies : ∀ f ∈ t.functions, Stmt.BlockWellFormed t.names [] f.body

/-! ## Violations -/

/-- What is wrong with the symbol and the number of operands of an operator. -/
def operatorViolations (symbol : Lexeme) (count : Nat) (span : Span) : List AssemblyError :=
  match operandCount? symbol.text with
  | none => [.functionNotFound symbol]
  | some expected =>
    if expected = count then [] else [.argumentCount symbol.text expected count span]

/-- What is wrong with the name and the number of arguments of a call. -/
def callViolations (functions : List String) (callee : Lexeme) (count : Nat) (span : Span) :
    List AssemblyError :=
  match argumentCount? functions callee.text with
  | none => [.functionNotFound callee]
  | some expected =>
    if expected = count then [] else [.argumentCount callee.text expected count span]

/-- A use of a variable that is not in sight. -/
def useViolations (vars : List String) (name : Lexeme) : List AssemblyError :=
  if name.text ∈ vars then [] else [.undefinedVariable name]

namespace Expr

mutual

/-- What is wrong with an expression whose value is used: first with its own name, symbol or number
of operands, then with its operands in the order of their evaluation. -/
def violations (functions vars : List String) : Expr → List AssemblyError
  | .integer .. | .string .. => []
  | .reference name => useViolations vars name
  | .operator symbol operands span =>
    let each := eachViolations functions vars operands
    operatorViolations symbol operands.length span ++
      (if symbol.text ∈ rightFirstSymbols then each.reverse else each).flatten
  | .call callee args span =>
    callViolations functions callee args.length span ++
      (if HasValue functions callee.text then [] else [.noValue callee.text span]) ++
      (eachViolations functions vars args).flatten

/-- What is wrong with each of some expressions. -/
def eachViolations (functions vars : List String) : List Expr → List (List AssemblyError)
  | [] => []
  | e :: es => violations functions vars e :: eachViolations functions vars es

end

/-- What is wrong with an expression that may be missing. -/
def optionalViolations (functions vars : List String) : Option Expr → List AssemblyError
  | none => []
  | some e => e.violations functions vars

/-- What is wrong with an expression as a statement. -/
def statementViolations (functions vars : List String) : Expr → List AssemblyError
  | .call callee args span =>
    callViolations functions callee args.length span ++
      (eachViolations functions vars args).flatten
  | e => e.violations functions vars

end Expr

namespace Stmt

mutual

/-- What is wrong with a statement, from left to right. -/
def violations (functions vars : List String) : Stmt → List AssemblyError
  | .declare binding => Expr.optionalViolations functions vars binding.value
  | .evaluate e _ => e.statementViolations functions vars
  | .loop condition body _ | .ifThen condition body _ =>
    condition.violations functions vars ++ blockViolations functions vars body
  | .ifElse condition body other _ =>
    condition.violations functions vars ++ blockViolations functions vars body ++
      blockViolations functions vars other
  | .assign target value _ => useViolations vars target ++ value.violations functions vars
  | .giveBack value _ => Expr.optionalViolations functions vars value

/-- What is wrong with a block. -/
def blockViolations (functions vars : List String) : Block Stmt → List AssemblyError
  | ⟨statements, _⟩ => allViolations functions vars statements

/-- What is wrong with statements, in their order. -/
def allViolations (functions vars : List String) : List Stmt → List AssemblyError
  | [] => []
  | s :: ss => violations functions vars s ++ allViolations functions (varsAfter vars s) ss

end

end Stmt

/-- What is wrong with declarations after functions with the names `seen`. -/
def declarationViolations (seen : List String) : List Declaration → List AssemblyError
  | [] => []
  | .global binding :: rest => .unsupportedDeclaration binding.span :: declarationViolations seen rest
  | .function f :: rest =>
    (if f.name.text ∈ seen then [.duplicateFunction f.name] else []) ++
      declarationViolations (f.name.text :: seen) rest

/-- What is wrong with a tree: first with its declarations, then with what they declare. -/
def Tree.violations (t : Tree) : List AssemblyError :=
  declarationViolations [] t.declarations ++ (if "main" ∈ t.names then [] else [.missingMain]) ++
    t.functions.flatMap fun f => Stmt.blockViolations t.names [] f.body

/-! ## Trees without violations -/

theorem operatorViolations_eq_nil_iff (symbol : Lexeme) (count : Nat) (span : Span) :
    operatorViolations symbol count span = [] ↔ operandCount? symbol.text = some count := by
  unfold operatorViolations
  split
  · simp [*]
  · split <;> simp [*]

theorem callViolations_eq_nil_iff (functions : List String) (callee : Lexeme) (count : Nat)
    (span : Span) : callViolations functions callee count span = [] ↔
      argumentCount? functions callee.text = some count := by
  unfold callViolations
  split
  · simp [*]
  · split <;> simp [*]

theorem useViolations_eq_nil_iff {vars : List String} {name : Lexeme} :
    useViolations vars name = [] ↔ name.text ∈ vars := by
  simp [useViolations]

variable {functions : List String}

namespace Expr

variable {vars : List String}

mutual

theorem violations_eq_nil_iff : ∀ e : Expr,
    e.violations functions vars = [] ↔ e.WellFormed functions vars
  | .integer .. | .string .. => by simp [violations, WellFormed]
  | .reference name => by rw [violations, WellFormed, useViolations_eq_nil_iff]
  | .operator symbol operands span => by
    rw [violations, WellFormed, ← flatten_eachViolations_eq_nil_iff operands,
      ← operatorViolations_eq_nil_iff symbol _ span, List.append_eq_nil_iff]
    split <;> simp
  | .call callee args span => by
    rw [violations, WellFormed, ← flatten_eachViolations_eq_nil_iff args,
      ← callViolations_eq_nil_iff functions callee _ span, List.append_eq_nil_iff,
      List.append_eq_nil_iff, and_assoc]
    simp

theorem flatten_eachViolations_eq_nil_iff : ∀ es : List Expr,
    (eachViolations functions vars es).flatten = [] ↔ EachWellFormed functions vars es
  | [] => by simp [eachViolations, EachWellFormed]
  | e :: es => by
    rw [eachViolations, EachWellFormed, List.flatten_cons, List.append_eq_nil_iff,
      violations_eq_nil_iff e, flatten_eachViolations_eq_nil_iff es]

end

end Expr

theorem Expr.optionalViolations_eq_nil_iff {vars : List String} (e : Option Expr) :
    optionalViolations functions vars e = [] ↔ OptionalWellFormed functions vars e := by
  cases e with
  | none => simp [optionalViolations, OptionalWellFormed]
  | some e => exact e.violations_eq_nil_iff

theorem Expr.statementViolations_eq_nil_iff {vars : List String} (e : Expr) :
    e.statementViolations functions vars = [] ↔ e.StatementWellFormed functions vars := by
  cases e with
  | call callee args span =>
    rw [statementViolations, StatementWellFormed, List.append_eq_nil_iff,
      callViolations_eq_nil_iff, flatten_eachViolations_eq_nil_iff]
  | _ => exact violations_eq_nil_iff _

namespace Stmt

mutual

theorem violations_eq_nil_iff : ∀ (s : Stmt) {vars : List String},
    s.violations functions vars = [] ↔ s.WellFormed functions vars
  | .declare binding, _ => Expr.optionalViolations_eq_nil_iff binding.value
  | .evaluate e _, _ => e.statementViolations_eq_nil_iff
  | .loop condition body _, _ => by
    rw [violations, WellFormed, List.append_eq_nil_iff, condition.violations_eq_nil_iff,
      blockViolations_eq_nil_iff body]
  | .ifThen condition body _, _ => by
    rw [violations, WellFormed, List.append_eq_nil_iff, condition.violations_eq_nil_iff,
      blockViolations_eq_nil_iff body]
  | .ifElse condition body other _, _ => by
    rw [violations, WellFormed, List.append_eq_nil_iff, List.append_eq_nil_iff,
      condition.violations_eq_nil_iff, blockViolations_eq_nil_iff body,
      blockViolations_eq_nil_iff other, and_assoc]
  | .assign target value _, _ => by
    rw [violations, WellFormed, List.append_eq_nil_iff, useViolations_eq_nil_iff,
      value.violations_eq_nil_iff]
  | .giveBack value _, _ => Expr.optionalViolations_eq_nil_iff value

theorem blockViolations_eq_nil_iff : ∀ (b : Block Stmt) {vars : List String},
    blockViolations functions vars b = [] ↔ BlockWellFormed functions vars b
  | ⟨statements, _⟩, _ => allViolations_eq_nil_iff statements

theorem allViolations_eq_nil_iff : ∀ (ss : List Stmt) {vars : List String},
    allViolations functions vars ss = [] ↔ AllWellFormed functions vars ss
  | [], _ => by simp [allViolations, AllWellFormed]
  | s :: ss, _ => by
    rw [allViolations, AllWellFormed, List.append_eq_nil_iff, violations_eq_nil_iff s,
      allViolations_eq_nil_iff ss]

end

end Stmt

/-- The functions of some declarations have names of their own, which are not among those `seen`. -/
theorem declarationViolations_eq_nil_iff (ds : List Declaration) {seen : List String} :
    declarationViolations seen ds = [] ↔ (∀ d ∈ ds, ∃ f, d = .function f) ∧
      (∀ f ∈ ds.filterMap Declaration.function?, f.name.text ∉ seen) ∧
      ((ds.filterMap Declaration.function?).map (·.name.text)).Nodup := by
  induction ds generalizing seen with
  | nil => simp [declarationViolations]
  | cons d ds ih =>
    cases d with
    | global binding => simp [declarationViolations]
    | function f =>
      have hfunctions : (Declaration.function f :: ds).filterMap Declaration.function? =
        f :: ds.filterMap Declaration.function? := rfl
      have hduplicate : (if f.name.text ∈ seen then [AssemblyError.duplicateFunction f.name] else []) =
          [] ↔ f.name.text ∉ seen := by split <;> simp [*]
      rw [declarationViolations, List.append_eq_nil_iff, ih, hduplicate, hfunctions, List.map_cons,
        List.nodup_cons, List.forall_mem_cons, List.forall_mem_cons]
      simp only [List.mem_cons, not_or, List.mem_map]
      constructor
      · rintro ⟨hf, hall, hnames, hnodup⟩
        refine ⟨⟨⟨f, rfl⟩, hall⟩, ⟨hf, fun g hg => (hnames g hg).2⟩, ?_, hnodup⟩
        rintro ⟨g, hg, heq⟩
        exact (hnames g hg).1 heq
      · rintro ⟨⟨-, hall⟩, ⟨hf, hnames⟩, hfresh, hnodup⟩
        exact ⟨hf, hall, fun g hg => ⟨fun heq => hfresh ⟨g, hg, heq⟩, hnames g hg⟩, hnodup⟩

/-- The well-formed trees are those without violations. -/
theorem Tree.violations_eq_nil_iff (t : Tree) : t.violations = [] ↔ t.WellFormed := by
  rw [violations, List.append_eq_nil_iff, List.append_eq_nil_iff, declarationViolations_eq_nil_iff,
    List.flatMap_eq_nil_iff]
  simp only [Stmt.blockViolations_eq_nil_iff]
  constructor
  · rintro ⟨⟨⟨honly, -, hnodup⟩, hmain⟩, hbodies⟩
    exact ⟨honly, hnodup, by simpa using hmain, hbodies⟩
  · rintro ⟨honly, hnodup, hmain, hbodies⟩
    exact ⟨⟨⟨honly, fun _ _ => List.not_mem_nil, hnodup⟩, if_pos hmain⟩, hbodies⟩

instance (t : Tree) : Decidable t.WellFormed := decidable_of_iff _ t.violations_eq_nil_iff

end StackLang
