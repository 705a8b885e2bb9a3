import StackLang.Source.Span

/-!
# Syntax trees

A program is a list of declarations, of functions and of global variables. A function's body is a
block of statements. Operators are kept apart from named calls; both carry the text of what is
called and where that text stands, so any text and any number of arguments can be written here.
Every node keeps the span of source that it was read from.
-/
namespace StackLang

/-- A text together with where it is spelled. -/
structure Lexeme where
  text : String
  span : Span
  deriving DecidableEq, Repr, Inhabited

/-- An expression of the source language. -/
inductive Expr where
  /-- A number, with its sign folded in where one stood before it. -/
  | integer (value : Int64) (span : Span)
  /-- A string literal: the text it stands for. -/
  | string (value : String) (span : Span)
  /-- A variable that is read. -/
  | reference (name : Lexeme)
  /-- An operator applied to its operands, in the order they are written. -/
  | operator (symbol : Lexeme) (operands : List Expr) (span : Span)
  /-- A call of a function or an intrinsic by name. -/
  | call (callee : Lexeme) (arguments : List Expr) (span : Span)
  deriving Repr, Inhabited

namespace Expr

/-- Where the expression stands. -/
def span : Expr → Span
  | integer _ s | string _ s | operator _ _ s | call _ _ s => s
  | reference name => name.span

end Expr

/-- The declaration of a variable, `let x = 1;` or `let x;`. -/
structure Binding where
  name : String
  value : Option Expr
  span : Span
  deriving Repr, Inhabited

/-- Statements between curly braces. -/
structure Block (α : Type) where
  statements : List α
  span : Span
  deriving Repr, Inhabited

/-- A statement of a function's body. -/
inductive Stmt where
  | declare (binding : Binding)
  /-- An expression evaluated for what it does, its value dropped. -/
  | evaluate (expr : Expr) (span : Span)
  | loop (condition : Expr) (body : Block Stmt) (span : Span)
  | ifThen (condition : Expr) (body : Block Stmt) (span : Span)
  /-- A conditional with an `else`; an `else if` is an `else` block of one statement. -/
  | ifElse (condition : Expr) (body : Block Stmt) (otherwise : Block Stmt) (span : Span)
  | assign (target : Lexeme) (value : Expr) (span : Span)
  /-- A return, of 0 if there is no value. -/
  | giveBack (value : Option Expr) (span : Span)
  deriving Repr, Inhabited

namespace Stmt

/-- Where the statement stands. -/
def span : Stmt → Span
  | declare binding => binding.span
  | evaluate _ s | loop _ _ s | ifThen _ _ s | ifElse _ _ _ s | assign _ _ s | giveBack _ s => s

end Stmt

/-- The declaration of a function, `fun f() { … }`. -/
structure Function where
  name : Lexeme
  body : Block Stmt
  span : Span
  deriving Repr, Inhabited

/-- What may stand at the top level. -/
inductive Declaration where
  | function (f : Function)
  | global (binding : Binding)
  deriving Repr, Inhabited

namespace Declaration

/-- Where the declaration stands. -/
def span : Declaration → Span
  | function f => f.span
  | global binding => binding.span

/-- The function that is declared, if one is. -/
def function? : Declaration → Option Function
  | function f => some f
  | global _ => none

end Declaration

/-- A whole source text, as its declarations in order. -/
structure Tree where
  declarations : List Declaration
  deriving Repr, Inhabited

namespace Tree

/-- The functions of a program, in the order they are declared. -/
def functions (t : Tree) : List Function := t.declarations.filterMap Declaration.function?

end Tree
end StackLang
