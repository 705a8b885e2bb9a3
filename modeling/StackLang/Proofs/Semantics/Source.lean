import StackLang.Proofs.Semantics.World
import StackLang.Tree.Basic

/-!
# The meaning of a syntax tree

A direct evaluator of trees, by recursion on their structure. Variables are kept by name, innermost
first, and a block drops those that it declared. A function is called with no variables. Calls within
calls, and the turns of each loop, are bounded by a number.
-/
namespace StackLang

open Semantics

/-- The variables in scope with their values, innermost first. -/
abbrev Env := List (String × Int64)

/-- Gives the innermost variable of a name another value. -/
def Env.assign (name : String) (value : Int64) : Env → Env
  | [] => []
  | (n, v) :: env => if n = name then (n, value) :: env else (n, v) :: assign name value env

/-- What an operator computes from its operands. Arithmetic evaluates its right operand first,
comparisons their left one. -/
def operate (symbol : String) (operands : List (Eval Int64)) : Eval Int64 :=
  match symbol, operands with
  | "!", [x] => do return truthWord ((← x) = 0)
  | "+", [l, r] => do let b ← r; let a ← l; return a + b
  | "-", [l, r] => do let b ← r; let a ← l; return a - b
  | "*", [l, r] => do let b ← r; let a ← l; return a * b
  | "/", [l, r] => do let b ← r; let a ← l; Eval.divide (· / ·) a b
  | "%", [l, r] => do let b ← r; let a ← l; Eval.divide (· % ·) a b
  | "<", [l, r] => do let a ← l; let b ← r; return truthWord (a < b)
  | ">", [l, r] => do let a ← l; let b ← r; return truthWord (a > b)
  | "<=", [l, r] => do let a ← l; let b ← r; return truthWord (a ≤ b)
  | ">=", [l, r] => do let a ← l; let b ← r; return truthWord (a ≥ b)
  | "==", [l, r] => do let a ← l; let b ← r; return truthWord (a = b)
  | "!=", [l, r] => do let a ← l; let b ← r; return truthWord (a ≠ b)
  | _, _ => throw .undefined

/-- The functions of a program as computations, by name. -/
abbrev Calls := String → Option (Eval Int64)

/-- What a call by name does, and its value if it has one. A function of the program hides what the
machine offers under the same name. -/
def invoke (calls : Calls) (callee : String) (args : List (Eval Int64)) : Eval (Option Int64) :=
  match calls callee with
  | some f => if args.isEmpty then some <$> f else throw .undefined
  | none =>
    match callee, args with
    | "putint", [x] => do Eval.printInt (← x); return none
    | "putstr", [x] => do Eval.printString (← x); return none
    | "getint", [] => some <$> Eval.readByte
    | _, _ => throw .undefined

namespace Expr

mutual

/-- The value of an expression. -/
def value (calls : Calls) (env : Env) : Expr → Eval Int64
  | .integer value _ => pure value
  | .string text _ => Eval.allocate text
  | .reference name =>
    match env.lookup name.text with
    | some value => pure value
    | none => throw .undefined
  | .operator symbol operands _ => operate symbol.text (values calls env operands)
  | .call callee args _ => do
    match ← invoke calls callee.text (values calls env args) with
    | some value => return value
    | none => throw .undefined

/-- The values of expressions, each by itself. -/
def values (calls : Calls) (env : Env) : List Expr → List (Eval Int64)
  | [] => []
  | e :: es => value calls env e :: values calls env es

end

/-- The value of an expression that may be missing, and is 0 then. -/
def valueOr0 (calls : Calls) (env : Env) : Option Expr → Eval Int64
  | some e => e.value calls env
  | none => pure 0

/-- What an expression does, whether it has a value or not. -/
def perform (calls : Calls) (env : Env) : Expr → Eval Unit
  | .call callee args _ => do
    let _ ← invoke calls callee.text (values calls env args)
  | e => do
    let _ ← e.value calls env

end Expr

namespace Stmt

mutual

/-- What a statement does, and the variables after it. -/
def exec (calls : Calls) (bound : Nat) (env : Env) : Stmt → Eval (Completion Env)
  | .declare binding => do return .next ((binding.name, ← Expr.valueOr0 calls env binding.value) :: env)
  | .evaluate e _ => do
    e.perform calls env
    return .next env
  | .assign target e _ =>
    match env.lookup target.text with
    | some _ => do return .next (env.assign target.text (← e.value calls env))
    | none => throw .undefined
  | .giveBack e _ => do return .returned (← Expr.valueOr0 calls env e)
  | .loop condition body _ =>
    Eval.repeatWhile (fun env => condition.value calls env)
      (fun env => execBlock calls bound env body) bound env
  | .ifThen condition body _ => do
    if (← condition.value calls env) = 0 then return .next env
    else execBlock calls bound env body
  | .ifElse condition body other _ => do
    if (← condition.value calls env) = 0 then execBlock calls bound env other
    else execBlock calls bound env body

/-- What a block does. The variables that it declares are gone after it. -/
def execBlock (calls : Calls) (bound : Nat) (env : Env) : Block Stmt → Eval (Completion Env)
  | ⟨statements, _⟩ => do
    return (← execAll calls bound env statements).map fun env' =>
      env'.drop (env'.length - env.length)

/-- What statements do, one after the other, until one of them returns. -/
def execAll (calls : Calls) (bound : Nat) (env : Env) : List Stmt → Eval (Completion Env)
  | [] => pure (.next env)
  | s :: ss => do
    match ← exec calls bound env s with
    | .next env' => execAll calls bound env' ss
    | .returned v => return .returned v

end

end Stmt

/-- What a function does, and the value that it returns: 0 if it comes to its end. -/
def Function.run (calls : Calls) (bound : Nat) (f : Function) : Eval Int64 := do
  match ← Stmt.execBlock calls bound [] f.body with
  | .next _ => return 0
  | .returned v => return v

namespace Tree

/-- The functions of a program, with so many calls within calls and turns of each loop. -/
def calls (t : Tree) : Nat → Calls
  | 0, name => (t.functions.find? (·.name.text = name)).map fun _ => throw .unfinished
  | n + 1, name =>
    (t.functions.find? (·.name.text = name)).map fun f => f.run (t.calls n) n

/-- What a program does on an input: its main function, from an empty heap. -/
def evaluate (t : Tree) (bound : Nat) (input : List UInt8) : EStateM.Result Stop World Int64 :=
  (t.calls bound "main").getD (throw .undefined) ⟨[], [], input⟩

end Tree
end StackLang
