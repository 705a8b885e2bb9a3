import StackLang.Tree.Basic
import StackLang.Tree.Parser.Basic

/-!
# Reading expressions

From loosest to tightest: one comparison at most, sums, products, prefix operators, and last
literals, names, calls and parentheses. Sums and products associate to the left. A minus sign
directly before a number is part of the number; any other prefix minus subtracts from 0.
Throughout, `n` is a number that the tokens left do not exceed.
-/
namespace StackLang

/-- A token as the text and place of a node. -/
def Token.lexeme (t : Token) : Lexeme := ⟨t.text, t.span⟩

/-- An operator between two operands. -/
def Expr.binary (operator : Token) (left right : Expr) : Expr :=
  .operator operator.lexeme [left, right] (left.span.merge right.span)

/-- An operator before its operand. -/
def Expr.unary (operator : Token) (operand : Expr) : Expr :=
  .operator operator.lexeme [operand] (operator.span.merge operand.span)

/-- A prefix minus: what follows it, subtracted from a 0 that stands where the minus does. -/
def Expr.negation (minus : Token) (operand : Expr) : Expr :=
  .binary minus (.integer 0 minus.span) operand

namespace Parser

/-- A number token's value, which may be out of range. -/
def integer (number : Token) (value : Option Int64) (span : Span) : Parser Expr :=
  match value with
  | some value => pure (.integer value span)
  | none => fail (.integerTooLarge number)

/-- A string token's text, in which an escape may be wrong. -/
def stringLiteral (literal : Token) : Parser Expr :=
  match literal.unescaped with
  | .ok text => pure (.string text literal.span)
  | .error e => fail (.invalidEscape e)

/-- The arguments of a call, with commas between them, up to the closing parenthesis. -/
def arguments (n : Nat) (expression : Parser Expr) : Parser (List Expr) := do
  let t ← peek
  if t.kind = .rightParen then return []
  else
    let first ← expression
    let others ← many (· = .comma) (do let _ ← next; expression) n
    return first :: others

/-- A literal, a name, a call, or an expression in parentheses. -/
def primary (n : Nat) (expression : Parser Expr) : Parser Expr := do
  let t ← peek
  match t.kind with
  | .number =>
    let _ ← next
    integer t t.integer? t.span
  | .string =>
    let _ ← next
    stringLiteral t
  | .identifier =>
    let _ ← next
    if ← accept .leftParen then
      let args ← arguments n expression
      let closing ← expect .rightParen
      return .call t.lexeme args (t.span.merge closing.span)
    else return .reference t.lexeme
  | .leftParen =>
    let _ ← next
    let e ← expression
    let _ ← expect .rightParen
    return e
  | _ => refuse .expectedExpression t

/-- Prefix operators, then an operand. -/
def unary (operand : Parser Expr) : Nat → Parser Expr
  | 0 => operand
  | n + 1 => do
    let t ← peek
    match t.kind with
    | .bang =>
      let _ ← next
      let e ← unary operand n
      return .unary t e
    | .minus =>
      let _ ← next
      let number ← peek
      if number.kind = .number then
        let _ ← next
        integer number number.negatedInteger? (t.span.merge number.span)
      else
        let e ← unary operand n
        return .negation t e
    | _ => operand

/-- Operands with operators of one level between them, grouped from the left. -/
def chain (n : Nat) (isOperator : Token.Kind → Bool) (operand : Parser Expr) : Parser Expr := do
  let first ← operand
  let others ← many isOperator (do
    let operator ← next
    let right ← operand
    return (operator, right)) n
  return others.foldl (fun left (operator, right) => .binary operator left right) first

/-- One operand, or two with a comparison between them. -/
def comparison (operand : Parser Expr) : Parser Expr := do
  let left ← operand
  let t ← peek
  if t.kind.isComparison then
    let _ ← next
    let right ← operand
    return .binary t left right
  else return left

/-- An expression from at most `n` tokens, whose nested expressions are read by `nested`. -/
def expressionOf (n : Nat) (nested : Parser Expr) : Parser Expr :=
  comparison (chain n Token.Kind.isAdditive (chain n Token.Kind.isMultiplicative (unary
    (primary n nested) n)))

/-- An expression from at most `n` tokens. With no token left there is none. -/
def expression : Nat → Parser Expr
  | 0, eof, tokens => (do refuse .expectedExpression (← peek) : Parser Expr) eof tokens
  | n + 1, eof, tokens => expressionOf (n + 1) (expression n) eof tokens

end Parser
end StackLang
