import StackLang.Code.Opcode

/-!
# The core language

A program after its names have been looked up: variables are slots of the frame, functions are
numbers, operators are typed and spans are gone. Conditionals, loops and blocks keep their shape.
-/
namespace StackLang

/-- Operators whose right operand is evaluated first. -/
inductive Arithmetic where
  | add | sub | mul | div | mod
  deriving DecidableEq, Repr

/-- Operators whose left operand is evaluated first, and whose value is 1 or 0. -/
inductive Comparison where
  | less | greater | equal
  deriving DecidableEq, Repr

/-- The operation that an operator stands for. -/
def Arithmetic.opcode : Arithmetic → Opcode
  | add => .add
  | sub => .sub
  | mul => .mul
  | div => .div
  | mod => .mod

/-- The operation that an operator stands for. -/
def Comparison.opcode : Comparison → Opcode
  | less => .less
  | greater => .greater
  | equal => .equal

namespace Core

/-- An expression; each has one value. -/
inductive Expr where
  | literal (value : Int64)
  /-- A new copy of a text on the heap; its value is where the copy starts. -/
  | text (value : String)
  | slot (index : Nat)
  | arithmetic (op : Arithmetic) (left right : Expr)
  | comparison (op : Comparison) (left right : Expr)
  | not (operand : Expr)
  | call (function : Nat)
  | getByte
  deriving DecidableEq, Repr, Inhabited

/-- A statement. -/
inductive Stmt where
  /-- Gives a slot a value, at its declaration or later. -/
  | store (slot : Nat) (value : Expr)
  | discard (value : Expr)
  | putInt (value : Expr)
  | putString (value : Expr)
  | loop (condition : Expr) (body : List Stmt)
  | ifThen (condition : Expr) (body : List Stmt)
  | ifElse (condition : Expr) (body : List Stmt) (otherwise : List Stmt)
  | giveBack (value : Expr)
  deriving Repr, Inhabited

/-- A function without parameters. -/
structure Function where
  name : String
  /-- How many slots its frame has. -/
  locals : Nat
  body : List Stmt
  deriving Repr, Inhabited

/-- All functions of a program, by number, and the one to start with. -/
structure Module where
  functions : List Function
  main : Nat
  deriving Repr, Inhabited

/-! ## The texts that are written in a program, in the order in which code for them is emitted -/

/-- The texts of an expression. -/
def Expr.texts : Expr → List String
  | text value => [value]
  | arithmetic _ left right => right.texts ++ left.texts
  | comparison _ left right => left.texts ++ right.texts
  | not operand => operand.texts
  | literal _ | slot _ | call _ | getByte => []

namespace Stmt

mutual

/-- The texts of a statement. -/
def texts : Stmt → List String
  | .store _ e | .discard e | .putInt e | .putString e | .giveBack e => e.texts
  | .loop c body | .ifThen c body => c.texts ++ textsOfAll body
  | .ifElse c body other => c.texts ++ textsOfAll body ++ textsOfAll other

/-- The texts of statements. -/
def textsOfAll : List Stmt → List String
  | [] => []
  | s :: ss => texts s ++ textsOfAll ss

end

end Stmt

/-- The texts of all functions. -/
def Module.texts (m : Module) : List String := m.functions.flatMap fun f => Stmt.textsOfAll f.body

end Core
end StackLang
