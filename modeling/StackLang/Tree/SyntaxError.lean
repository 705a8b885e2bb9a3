import StackLang.Tree.Literal

/-!
# Why a source text is no program

Reading stops at the first token that cannot go on, and the error keeps that token.
-/
namespace StackLang

/-- The ways in which a source text fails to be a program. -/
inductive SyntaxError where
  /-- Only one kind of token could stand where another was received. -/
  | expected (kind : Token.Kind) (received : Token)
  | expectedExpression (received : Token)
  | expectedDeclaration (received : Token)
  /-- Something stands between the parentheses after a function's name. -/
  | functionParameters (received : Token)
  | unknownCharacter (token : Token)
  | unterminatedString (token : Token)
  | invalidEscape (escape : EscapeError)
  | integerTooLarge (token : Token)
  deriving DecidableEq, Repr

namespace SyntaxError

/-- A short name for what went wrong. -/
def title : SyntaxError → String
  | expected kind _ => "Expected " ++ kind.name
  | expectedExpression _ => "Expected Expression"
  | expectedDeclaration _ => "Expected Declaration"
  | functionParameters _ => "Function Parameters"
  | unknownCharacter _ => "Unknown Character"
  | unterminatedString _ => "Unterminated String"
  | invalidEscape _ => "Invalid Escape Sequence"
  | integerTooLarge _ => "Integer Too Large"

/-- What went wrong, in a sentence. -/
def message : SyntaxError → String
  | expected kind t => "expected " ++ kind.name ++ " but got " ++ t.kind.name
  | expectedExpression t => "expected expression but got " ++ t.kind.name
  | expectedDeclaration t => "expected `fun` or `let` at the top level but got " ++ t.kind.name
  | functionParameters _ => "functions do not take parameters"
  | unknownCharacter _ => "got unknown character"
  | unterminatedString _ => "missing closing quote for string"
  | invalidEscape ⟨some c, _⟩ => "unknown escape sequence `\\" ++ c.toString ++ "`"
  | invalidEscape ⟨none, _⟩ => "string ends with a backslash"
  | integerTooLarge _ => "integer literal does not fit in 64 bits"

/-- Where it went wrong. -/
def span : SyntaxError → Span
  | expected _ t | expectedExpression t | expectedDeclaration t | functionParameters t
  | unknownCharacter t | unterminatedString t | integerTooLarge t => t.span
  | invalidEscape e => e.span

end SyntaxError
end StackLang
