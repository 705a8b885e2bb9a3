import StackLang.Code.Instruction
import StackLang.Tree.Basic

/-!
# Why a program cannot be assembled

All but two of the errors say where in the source they are.
-/
namespace StackLang

/-- The ways in which a syntax tree fails to be assembled. -/
inductive AssemblyError where
  /-- A variable is used where no declaration of it is in scope. -/
  | undefinedVariable (use : Lexeme)
  /-- What is called is no function, intrinsic or operator. -/
  | functionNotFound (callee : Lexeme)
  | missingMain
  | duplicateFunction (name : Lexeme)
  | argumentCount (callee : String) (expected received : Nat) (span : Span)
  /-- A call that has no value stands where a value is needed. -/
  | noValue (callee : String) (span : Span)
  /-- A variable is declared outside all functions. -/
  | unsupportedDeclaration (span : Span)
  | unresolvedLabel (label : Label)
  deriving DecidableEq, Repr

namespace AssemblyError

/-- A short name for what went wrong. -/
def title : AssemblyError → String
  | undefinedVariable _ => "Undefined Variable"
  | functionNotFound _ => "Function Not Found"
  | missingMain => "Missing Main"
  | duplicateFunction _ => "Duplicate Function"
  | argumentCount .. => "Wrong Number of Arguments"
  | noValue .. => "No Value"
  | unsupportedDeclaration _ => "Unsupported Declaration"
  | unresolvedLabel _ => "Unresolved Label"

/-- What went wrong, in a sentence. -/
def message : AssemblyError → String
  | undefinedVariable use => "variable `" ++ use.text ++ "` is not defined"
  | functionNotFound callee => "no function named `" ++ callee.text ++ "`"
  | missingMain => "no function named `main` to start from"
  | duplicateFunction name => "function `" ++ name.text ++ "` is already defined"
  | argumentCount callee expected received _ =>
    "`" ++ callee ++ "` takes " ++ toString expected ++
      (if expected = 1 then " argument" else " arguments") ++ " but was given " ++ toString received
  | noValue callee _ => "`" ++ callee ++ "` does not produce a value"
  | unsupportedDeclaration _ => "variables can only be declared inside functions"
  | unresolvedLabel l => "label " ++ l.text ++ " is used but never placed"

/-- Where it went wrong, if that is somewhere in the source. -/
def span? : AssemblyError → Option Span
  | undefinedVariable l | functionNotFound l | duplicateFunction l => some l.span
  | argumentCount _ _ _ s | noValue _ s | unsupportedDeclaration s => some s
  | missingMain | unresolvedLabel _ => none

end AssemblyError
end StackLang
