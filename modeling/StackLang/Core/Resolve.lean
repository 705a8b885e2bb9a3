import StackLang.Core.AssemblyError
import StackLang.Core.Basic

/-!
# Looking up names

`Tree.resolve` turns a syntax tree into a program of the core language or finds the first thing
wrong with it. Functions are numbered as they are declared. Slots are numbered as the `let`s of a
function are written, so that no two variables share one, and a name means the `let` before it in
the innermost block that has one. Operands are looked at in the order in which they are evaluated.
-/
namespace StackLang

/-! ## What can be called -/

/-- What an operator's symbol stands for. -/
inductive Operator where
  | not
  | arithmetic (op : Arithmetic)
  | comparison (op : Comparison)
  /-- A comparison whose value is turned around. -/
  | negated (op : Comparison)
  deriving DecidableEq, Repr

/-- The operator with a symbol. -/
def Operator.ofSymbol? (symbol : String) : Option Operator :=
  [("!", Operator.not), ("+", .arithmetic .add), ("-", .arithmetic .sub), ("*", .arithmetic .mul),
    ("/", .arithmetic .div), ("%", .arithmetic .mod), ("<", .comparison .less),
    (">", .comparison .greater), ("==", .comparison .equal), ("!=", .negated .equal),
    ("<=", .negated .greater), (">=", .negated .less)].lookup symbol

/-- How many operands an operator has. -/
def Operator.arity : Operator → Nat
  | not => 1
  | _ => 2

/-- What the machine offers to call by name. -/
inductive Intrinsic where
  | putInt | putString | getByte
  deriving DecidableEq, Repr

namespace Intrinsic

/-- The intrinsic with a name. -/
def ofName? (name : String) : Option Intrinsic :=
  [("putint", putInt), ("putstr", putString), ("getint", getByte)].lookup name

/-- How many arguments an intrinsic has. -/
def arity : Intrinsic → Nat
  | putInt | putString => 1
  | getByte => 0

/-- The operation that an intrinsic stands for. -/
def opcode : Intrinsic → Opcode
  | putInt => .putInt
  | putString => .putString
  | getByte => .getByte

/-- The intrinsic leaves a value. -/
def hasValue : Intrinsic → Bool
  | putInt | putString => false
  | getByte => true

end Intrinsic

/-! ## Scopes -/

/-- The variables in scope, innermost first, with their slots. -/
abbrev Scope := List (String × Nat)

/-- The slot of a variable. -/
def Scope.slot? (scope : Scope) (name : String) : Option Nat := scope.lookup name

namespace Stmt

mutual

/-- How many `let`s a statement holds. -/
def locals : Stmt → Nat
  | .declare _ => 1
  | .loop _ body _ | .ifThen _ body _ => localsOfBlock body
  | .ifElse _ body other _ => localsOfBlock body + localsOfBlock other
  | .evaluate .. | .assign .. | .giveBack .. => 0

/-- How many `let`s a block holds. -/
def localsOfBlock : Block Stmt → Nat
  | ⟨statements, _⟩ => localsOfAll statements

/-- How many `let`s some statements hold. -/
def localsOfAll : List Stmt → Nat
  | [] => 0
  | s :: ss => locals s + localsOfAll ss

end

/-- The scope after a statement whose first `let` has the slot `next`. -/
def scopeAfter (scope : Scope) (next : Nat) : Stmt → Scope
  | .declare binding => (binding.name, next) :: scope
  | _ => scope

end Stmt

/-! ## Expressions -/

/-- The outcome of looking up names. -/
abbrev Resolved (α : Type) := Except AssemblyError α

/-- An operator applied to operands. The symbol is looked at first, then the number of operands,
then the operands in the order of their evaluation. -/
def resolveOperator (symbol : Lexeme) (span : Span) (operands : List (Resolved Core.Expr)) :
    Resolved Core.Expr :=
  match Operator.ofSymbol? symbol.text with
  | none => .error (.functionNotFound symbol)
  | some op =>
    match op, operands with
    | .not, [e] => do return .not (← e)
    | .arithmetic op, [l, r] => do
      let right ← r
      return .arithmetic op (← l) right
    | .comparison op, [l, r] => do
      let left ← l
      return .comparison op left (← r)
    | .negated op, [l, r] => do
      let left ← l
      return .not (.comparison op left (← r))
    | op, _ => .error (.argumentCount symbol.text op.arity operands.length span)

/-- What a call stands for. -/
inductive Callee where
  | function (index : Nat)
  | putInt (value : Resolved Core.Expr)
  | putString (value : Resolved Core.Expr)
  | getByte

/-- A call by name, given the names of all functions. A function hides an intrinsic of the same
name. The arguments are counted here and looked at later. -/
def resolveCallee (functions : List String) (callee : Lexeme) (span : Span)
    (args : List (Resolved Core.Expr)) : Resolved Callee :=
  match functions.idxOf? callee.text with
  | some index =>
    if args.isEmpty then .ok (.function index)
    else .error (.argumentCount callee.text 0 args.length span)
  | none =>
    match Intrinsic.ofName? callee.text with
    | none => .error (.functionNotFound callee)
    | some i =>
      match i, args with
      | .putInt, [e] => .ok (.putInt e)
      | .putString, [e] => .ok (.putString e)
      | .getByte, [] => .ok .getByte
      | i, _ => .error (.argumentCount callee.text i.arity args.length span)

/-- A call whose value is used. -/
def resolveCall (functions : List String) (callee : Lexeme) (span : Span)
    (args : List (Resolved Core.Expr)) : Resolved Core.Expr := do
  match ← resolveCallee functions callee span args with
  | .function index => return .call index
  | .getByte => return .getByte
  | .putInt _ | .putString _ => .error (.noValue callee.text span)

namespace Expr

mutual

/-- An expression whose value is used. -/
def resolve (functions : List String) (scope : Scope) : Expr → Resolved Core.Expr
  | .integer value _ => .ok (.literal value)
  | .string value _ => .ok (.text value)
  | .reference name =>
    match scope.slot? name.text with
    | some index => .ok (.slot index)
    | none => .error (.undefinedVariable name)
  | .operator symbol operands span =>
    resolveOperator symbol span (resolveEach functions scope operands)
  | .call callee args span =>
    resolveCall functions callee span (resolveEach functions scope args)

/-- Expressions, each by itself. -/
def resolveEach (functions : List String) (scope : Scope) : List Expr → List (Resolved Core.Expr)
  | [] => []
  | e :: es => resolve functions scope e :: resolveEach functions scope es

end

/-- An expression whose value may be missing, and is 0 then. -/
def resolveOptional (functions : List String) (scope : Scope) :
    Option Expr → Resolved Core.Expr
  | some e => e.resolve functions scope
  | none => .ok (.literal 0)

/-- An expression as a statement: only here may a call have no value. -/
def resolveStatement (functions : List String) (scope : Scope) (e : Expr) :
    Resolved Core.Stmt :=
  match e with
  | .call callee args span => do
    match ← resolveCallee functions callee span (resolveEach functions scope args) with
    | .function index => return .discard (.call index)
    | .getByte => return .discard .getByte
    | .putInt value => return .putInt (← value)
    | .putString value => return .putString (← value)
  | e => do return .discard (← e.resolve functions scope)

end Expr

/-! ## Statements -/

namespace Stmt

mutual

/-- A statement whose first `let` gets the slot `next`. -/
def resolve (functions : List String) (scope : Scope) (next : Nat) : Stmt → Resolved Core.Stmt
  | .declare binding => do
    return .store next (← Expr.resolveOptional functions scope binding.value)
  | .evaluate e _ => e.resolveStatement functions scope
  | .loop c body _ => do
    let condition ← c.resolve functions scope
    return .loop condition (← resolveBlock functions scope next body)
  | .ifThen c body _ => do
    let condition ← c.resolve functions scope
    return .ifThen condition (← resolveBlock functions scope next body)
  | .ifElse c body other _ => do
    let condition ← c.resolve functions scope
    let yes ← resolveBlock functions scope next body
    let no ← resolveBlock functions scope (next + localsOfBlock body) other
    return .ifElse condition yes no
  | .assign target value _ =>
    match scope.slot? target.text with
    | some index => do return .store index (← value.resolve functions scope)
    | none => .error (.undefinedVariable target)
  | .giveBack value _ => do return .giveBack (← Expr.resolveOptional functions scope value)

/-- A block, whose declarations end with it. -/
def resolveBlock (functions : List String) (scope : Scope) (next : Nat) :
    Block Stmt → Resolved (List Core.Stmt)
  | ⟨statements, _⟩ => resolveAll functions scope next statements

/-- Statements, each in the scope that those before it leave. -/
def resolveAll (functions : List String) (scope : Scope) (next : Nat) :
    List Stmt → Resolved (List Core.Stmt)
  | [] => .ok []
  | s :: ss => do
    let first ← resolve functions scope next s
    let others ← resolveAll functions (scopeAfter scope next s) (next + locals s) ss
    return first :: others

end

end Stmt

/-! ## Programs -/

/-- The names of the functions that are declared, after the names in `seen`. -/
def declaredNames (seen : List String) : List Declaration → Resolved (List String)
  | [] => .ok seen
  | .global binding :: _ => .error (.unsupportedDeclaration binding.span)
  | .function f :: rest =>
    if f.name.text ∈ seen then .error (.duplicateFunction f.name)
    else declaredNames (seen ++ [f.name.text]) rest

/-- A function, given the names of all functions. -/
def Function.resolve (functions : List String) (f : Function) : Resolved Core.Function := do
  return ⟨f.name.text, Stmt.localsOfBlock f.body, ← Stmt.resolveBlock functions [] 0 f.body⟩

/-- A program of the core language, or what is wrong with the tree. -/
def Tree.resolve (t : Tree) : Resolved Core.Module := do
  let names ← declaredNames [] t.declarations
  match names.idxOf? "main" with
  | none => .error .missingMain
  | some main => return ⟨← t.functions.mapM (Function.resolve names), main⟩

end StackLang
