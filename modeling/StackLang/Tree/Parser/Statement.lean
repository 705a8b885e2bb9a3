import StackLang.Tree.Parser.Expression

/-!
# Reading statements and declarations

The first token of a statement says which one it is, but for a name: with an equals sign after it,
it is assigned to, else it starts an expression. Functions take no parameters. Throughout, `n` is a
number that the tokens left do not exceed.
-/
namespace StackLang.Parser

/-- `let x = 1;` or `let x;` -/
def binding (n : Nat) : Parser Binding := do
  let keyword ← expect .letWord
  let name ← expect .identifier
  let value ← if ← accept .equal then some <$> expression n else pure none
  let semicolon ← expect .semicolon
  return ⟨name.text, value, keyword.span.merge semicolon.span⟩

/-- An expression in parentheses, as after `while` and `if`. -/
def condition (n : Nat) : Parser Expr := do
  let _ ← expect .leftParen
  let e ← expression n
  let _ ← expect .rightParen
  return e

/-- `return;` or `return x;` -/
def giveBack (n : Nat) : Parser Stmt := do
  let keyword ← expect .returnWord
  let t ← peek
  let value ← if t.kind = .semicolon then pure none else some <$> expression n
  let semicolon ← expect .semicolon
  return .giveBack value (keyword.span.merge semicolon.span)

/-- `x = 1;` -/
def assignment (n : Nat) : Parser Stmt := do
  let name ← expect .identifier
  let _ ← expect .equal
  let value ← expression n
  let semicolon ← expect .semicolon
  return .assign name.lexeme value (name.span.merge semicolon.span)

/-- `f();` -/
def evaluation (n : Nat) : Parser Stmt := do
  let e ← expression n
  let semicolon ← expect .semicolon
  return .evaluate e (e.span.merge semicolon.span)

/-- Statements between curly braces. -/
def block (n : Nat) (statement : Parser Stmt) : Parser (Block Stmt) := do
  let opening ← expect .leftCurly
  let statements ← many (fun kind => kind ≠ .rightCurly && kind ≠ .endOfFile) statement n
  let closing ← expect .rightCurly
  return ⟨statements, opening.span.merge closing.span⟩

/-- `while (c) { … }` -/
def loop (n : Nat) (statement : Parser Stmt) : Parser Stmt := do
  let keyword ← expect .whileWord
  let c ← condition n
  let body ← block n statement
  return .loop c body (keyword.span.merge body.span)

/-- What stands after `else`: a block, or another conditional as a block of its own. -/
def otherwise (n : Nat) (statement : Parser Stmt) : Parser (Block Stmt) := do
  let t ← peek
  if t.kind = .ifWord then
    let nested ← statement
    return ⟨[nested], nested.span⟩
  else block n statement

/-- `if (c) { … }`, with an `else` or without. -/
def conditional (n : Nat) (statement : Parser Stmt) : Parser Stmt := do
  let keyword ← expect .ifWord
  let c ← condition n
  let body ← block n statement
  if ← accept .elseWord then
    let other ← otherwise n statement
    return .ifElse c body other (keyword.span.merge other.span)
  else return .ifThen c body (keyword.span.merge body.span)

/-- A statement from at most `n` tokens, whose nested statements are read by `nested`. -/
def statementOf (n : Nat) (nested : Parser Stmt) : Parser Stmt := do
  let t ← peek
  match t.kind with
  | .letWord => .declare <$> binding n
  | .whileWord => loop n nested
  | .ifWord => conditional n nested
  | .returnWord => giveBack n
  | .identifier => if (← peekSecond) = .equal then assignment n else evaluation n
  | _ => evaluation n

/-- A statement from at most `n` tokens. With no token left there is none. -/
def statement : Nat → Parser Stmt
  | 0, eof, tokens => evaluation 0 eof tokens
  | n + 1, eof, tokens => statementOf (n + 1) (statement n) eof tokens

/-- `fun f() { … }` -/
def function (n : Nat) : Parser Function := do
  let keyword ← expect .funWord
  let name ← expect .identifier
  let _ ← expect .leftParen
  let t ← peek
  if t.kind ≠ .rightParen then fail (.functionParameters t)
  else
    let _ ← next
    let body ← block n (statement n)
    return ⟨name.lexeme, body, keyword.span.merge body.span⟩

/-- A function or a global variable. -/
def declaration (n : Nat) : Parser Declaration := do
  let t ← peek
  match t.kind with
  | .funWord => .function <$> function n
  | .letWord => .global <$> binding n
  | _ => refuse .expectedDeclaration t

/-- Declarations up to the end of the source. -/
def program (n : Nat) : Parser Tree := do
  let declarations ← many (· ≠ .endOfFile) (declaration n) n
  return ⟨declarations⟩

end Parser

/-- The program that a list of tokens spells, from a source with so many bytes. -/
def Tree.ofTokens (size : Nat) (tokens : List Token) : Except SyntaxError Tree :=
  (Parser.program tokens.length (Token.endOfFile size) tokens).map Prod.fst

/-- The program that a source text spells. -/
def Tree.ofSource (source : String) : Except SyntaxError Tree :=
  ofTokens (byteLength source.toList) (Token.scan source)

end StackLang
