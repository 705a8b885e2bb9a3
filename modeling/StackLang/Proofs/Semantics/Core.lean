import StackLang.Core.Basic
import StackLang.Proofs.Run.Instructions
import StackLang.Proofs.Semantics.World

/-!
# The meaning of a core program

A direct evaluator of core programs. A frame is the values of its slots; a call starts with all of
them 0. Calls within calls, and the turns of each loop, are bounded by a number.
-/
namespace StackLang.Core

open Semantics

/-- The values of the slots of a frame. -/
abbrev Slots := Nat → Int64

/-- Gives a slot another value. -/
def Slots.set (slots : Slots) (slot : Nat) (value : Int64) : Slots := fun i =>
  if i = slot then value else slots i

/-- The functions of a program as computations, by number. -/
abbrev Calls := Nat → Eval Int64

/-- What an operator computes; only a quotient by zero has no value. -/
def compute (op : Arithmetic) (left right : Int64) : Eval Int64 :=
  match op.apply? left right with
  | some value => pure value
  | none => throw .divisionByZero

/-- The value of an expression. -/
def Expr.value (calls : Calls) (slots : Slots) : Expr → Eval Int64
  | literal value => pure value
  | text value => Eval.allocate value
  | slot index => pure (slots index)
  | arithmetic op left right => do
    let r ← right.value calls slots
    let l ← left.value calls slots
    compute op l r
  | comparison op left right => do
    let l ← left.value calls slots
    let r ← right.value calls slots
    return truthWord (op.holds l r)
  | not operand => do return truthWord ((← operand.value calls slots) = 0)
  | call function => calls function
  | getByte => Eval.readByte

namespace Stmt

mutual

/-- What a statement does, and the slots after it. -/
def exec (calls : Calls) (bound : Nat) (slots : Slots) : Stmt → Eval (Completion Slots)
  | .store slot e => do return .next (slots.set slot (← e.value calls slots))
  | .discard e => do
    let _ ← e.value calls slots
    return .next slots
  | .putInt e => do
    Eval.printInt (← e.value calls slots)
    return .next slots
  | .putString e => do
    Eval.printString (← e.value calls slots)
    return .next slots
  | .giveBack e => do return .returned (← e.value calls slots)
  | .loop condition body =>
    Eval.repeatWhile (fun slots => condition.value calls slots)
      (fun slots => execAll calls bound slots body) bound slots
  | .ifThen condition body => do
    if (← condition.value calls slots) = 0 then return .next slots
    else execAll calls bound slots body
  | .ifElse condition body other => do
    if (← condition.value calls slots) = 0 then execAll calls bound slots other
    else execAll calls bound slots body

/-- What statements do, one after the other, until one of them returns. -/
def execAll (calls : Calls) (bound : Nat) (slots : Slots) : List Stmt → Eval (Completion Slots)
  | [] => pure (.next slots)
  | s :: ss => do
    match ← exec calls bound slots s with
    | .next slots' => execAll calls bound slots' ss
    | .returned v => return .returned v

end

end Stmt

/-- What a function does, and the value that it returns: 0 if it comes to its end. -/
def Function.run (calls : Calls) (bound : Nat) (f : Function) : Eval Int64 := do
  match ← Stmt.execAll calls bound (fun _ => 0) f.body with
  | .next _ => return 0
  | .returned v => return v

namespace Module

/-- The functions of a program, with so many calls within calls and turns of each loop. -/
def calls (m : Module) : Nat → Calls
  | 0, _ => throw .unfinished
  | n + 1, index =>
    match m.functions[index]? with
    | some f => f.run (m.calls n) n
    | none => throw .undefined

end Module
end StackLang.Core
