import StackLang.Proofs.Token.Bytes
import StackLang.Tree.Parser.Statement

/-!
# A parser that keeps a position

The readers of the language again, as they are carried out: on the text of a source and on the kinds and
places of its tokens, which are found on the bytes. A reader keeps a position in them and moves on when it
takes a token, also past the last one. Nothing is certain here from the start. The text of a token and the
contents of a string are cut out of longer texts, which is undefined out of range and within a character,
as is a place for which 32 bits are too few; and readers that repeat or nest themselves are given a number
of turns, with no outcome where these are used up.

Results:
* `Cursor.bind_apply`: one reader after another.
-/
namespace StackLang

/-- A source text, with the kinds and places of its tokens. -/
structure Sheet where
  source : String
  places : List (Token.Kind × Span)

/-- The sheet of a source text. -/
def Sheet.of (source : String) : Sheet := ⟨source, Token.scanBytes 0 (utf8 source)⟩

/-- Why there is no value. -/
inductive Halt where
  | refused (e : SyntaxError)
  /-- A text is cut where it cannot be, or a place does not fit in 32 bits. -/
  | undefined
  /-- All turns are used up. -/
  | endless
  deriving DecidableEq, Repr

/-- A reader of `α` with a position: from the position of the next token to the value and the position
after it. -/
def Cursor (α : Type) : Type := Sheet → Nat → Except Halt (α × Nat)

namespace Cursor

variable {α β : Type}

instance : Monad Cursor where
  pure a := fun _ i => .ok (a, i)
  bind x f := fun s i =>
    match x s i with
    | .ok (a, j) => f a s j
    | .error halt => .error halt

theorem bind_apply (x : Cursor α) (f : α → Cursor β) (s : Sheet) (i : Nat) :
    (x >>= f) s i = match x s i with
      | .ok (a, j) => f a s j
      | .error halt => .error halt := rfl

/-- Ends without a value. -/
def halt (why : Halt) : Cursor α := fun _ _ => .error why

/-! ## Tokens -/

/-- Places that fit in 32 bits. -/
def fits (s : Span) : Bool := s.stop < 0x100000000

/-- The token of a kind at a place: its text is cut out of the source. -/
def cut (source : String) (kind : Token.Kind) (s : Span) : Except Halt Token :=
  match s.text? source with
  | some text => if fits s then .ok ⟨kind, s.start, text⟩ else .error .undefined
  | none => .error .undefined

/-- The next token, which is left in place; behind the last one stands the end of the source. -/
def peek : Cursor Token := fun s i =>
  match s.places[i]? with
  | some (kind, span) => (cut s.source kind span).map fun t => (t, i)
  | none => .ok (.endOfFile (byteLength s.source.toList), i)

/-- The kind of the token after the next one, both left in place. -/
def peekSecond : Cursor Token.Kind := fun s i =>
  .ok ((s.places[i + 1]?.map Prod.fst).getD .endOfFile, i)

/-- Moves the position on. -/
def step : Cursor Unit := fun _ i => .ok ((), i + 1)

/-- Takes the next token. -/
def next : Cursor Token := do
  let t ← peek
  step
  return t

/-- Stops with an error. -/
def fail (error : SyntaxError) : Cursor α := halt (.refused error)

/-- Stops because of a token: one that is no lexeme of the language has an error of its own. -/
def refuse (error : Token → SyntaxError) (t : Token) : Cursor α :=
  match t.kind with
  | .unterminatedString => fail (.unterminatedString t)
  | .unknown => fail (.unknownCharacter t)
  | _ => fail (error t)

/-- Takes the next token, which has to be of a kind. -/
def expect (kind : Token.Kind) : Cursor Token := do
  let t ← peek
  if t.kind = kind then next else refuse (.expected kind) t

/-- Takes the next token if it is of a kind, and says whether it was. -/
def accept (kind : Token.Kind) : Cursor Bool := do
  let t ← peek
  if t.kind = kind then do
    let _ ← next
    return true
  else return false

/-- Values one after the other, as long as the next token's kind starts one. -/
def many (starts : Token.Kind → Bool) (x : Cursor α) : Nat → Cursor (List α)
  | 0 => halt .endless
  | n + 1 => do
    let t ← peek
    if starts t.kind then do
      let a ← x
      let others ← many starts x n
      return a :: others
    else return []

/-! ## Expressions -/

/-- A number token's value, which may be out of range. -/
def integer (number : Token) (value : Option Int64) (span : Span) : Cursor Expr :=
  match value with
  | some value => pure (.integer value span)
  | none => fail (.integerTooLarge number)

/-- What stands between the quotes of a string token. -/
def contents (literal : Token) : Cursor (List Char) :=
  match Span.text? literal.text ⟨1, literal.length - 1⟩ with
  | some text => pure text.toList
  | none => halt .undefined

/-- A string token's text, in which an escape may be wrong. -/
def stringLiteral (literal : Token) : Cursor Expr := do
  let cs ← contents literal
  match unescape (literal.start + 1) cs with
  | .ok text => return .string (String.ofList text) literal.span
  | .error e => if fits e.span then fail (.invalidEscape e) else halt .undefined

/-- The arguments of a call, with commas between them, up to the closing parenthesis. -/
def arguments (n : Nat) (expression : Cursor Expr) : Cursor (List Expr) := do
  let t ← peek
  if t.kind = .rightParen then return []
  else
    let first ← expression
    let others ← many (· = .comma) (do let _ ← next; expression) n
    return first :: others

/-- A name and the arguments that it is called with. -/
def call (n : Nat) (expression : Cursor Expr) : Cursor Expr := do
  let name ← expect .identifier
  let _ ← expect .leftParen
  let args ← arguments n expression
  let closing ← expect .rightParen
  return .call name.lexeme args (name.span.merge closing.span)

/-- A literal, a name, a call, or an expression in parentheses. -/
def primary (n : Nat) (expression : Cursor Expr) : Cursor Expr := do
  let t ← peek
  match t.kind with
  | .number =>
    let _ ← next
    integer t t.integer? t.span
  | .string =>
    let _ ← next
    stringLiteral t
  | .identifier =>
    if (← peekSecond) = .leftParen then call n expression
    else
      let _ ← next
      return .reference t.lexeme
  | .leftParen =>
    let _ ← next
    let e ← expression
    let _ ← expect .rightParen
    return e
  | _ => refuse .expectedExpression t

/-- Prefix operators, then an operand. -/
def unary (operand : Cursor Expr) : Nat → Cursor Expr
  | 0 => halt .endless
  | n + 1 => do
    let t ← peek
    match t.kind with
    | .bang =>
      let _ ← next
      let e ← unary operand n
      return .unary t e
    | .minus =>
      if (← peekSecond) = .number then
        let _ ← next
        let number ← next
        integer number number.negatedInteger? (t.span.merge number.span)
      else
        let _ ← next
        let e ← unary operand n
        return .negation t e
    | _ => operand

/-- Operands with operators of one level between them, grouped from the left. -/
def chain (n : Nat) (isOperator : Token.Kind → Bool) (operand : Cursor Expr) : Cursor Expr := do
  let first ← operand
  let others ← many isOperator (do
    let operator ← next
    let right ← operand
    return (operator, right)) n
  return others.foldl (fun left (operator, right) => .binary operator left right) first

/-- One operand, or two with a comparison between them. -/
def comparison (operand : Cursor Expr) : Cursor Expr := do
  let left ← operand
  let t ← peek
  if t.kind.isComparison then
    let _ ← next
    let right ← operand
    return .binary t left right
  else return left

/-- A product, whose nested expressions are read by `nested`. -/
def term (n : Nat) (nested : Cursor Expr) : Cursor Expr :=
  chain n Token.Kind.isMultiplicative (unary (primary n nested) n)

/-- A sum, whose nested expressions are read by `nested`. -/
def additive (n : Nat) (nested : Cursor Expr) : Cursor Expr :=
  chain n Token.Kind.isAdditive (term n nested)

/-- An expression. -/
def expression : Nat → Cursor Expr
  | 0 => halt .endless
  | n + 1 => comparison (additive (n + 1) (expression n))

/-! ## Statements -/

/-- `let x = 1;` or `let x;` -/
def binding (n : Nat) : Cursor Binding := do
  let keyword ← expect .letWord
  let name ← expect .identifier
  let value ← if ← accept .equal then some <$> expression n else pure none
  let semicolon ← expect .semicolon
  return ⟨name.text, value, keyword.span.merge semicolon.span⟩

/-- An expression in parentheses, as after `while` and `if`. -/
def condition (n : Nat) : Cursor Expr := do
  let _ ← expect .leftParen
  let e ← expression n
  let _ ← expect .rightParen
  return e

/-- `return;` or `return x;` -/
def giveBack (n : Nat) : Cursor Stmt := do
  let keyword ← expect .returnWord
  let t ← peek
  let value ← if t.kind = .semicolon then pure none else some <$> expression n
  let semicolon ← expect .semicolon
  return .giveBack value (keyword.span.merge semicolon.span)

/-- `x = 1;` -/
def assignment (n : Nat) : Cursor Stmt := do
  let name ← expect .identifier
  let _ ← expect .equal
  let value ← expression n
  let semicolon ← expect .semicolon
  return .assign name.lexeme value (name.span.merge semicolon.span)

/-- `f();` -/
def evaluation (n : Nat) : Cursor Stmt := do
  let e ← expression n
  let semicolon ← expect .semicolon
  return .evaluate e (e.span.merge semicolon.span)

/-- Statements between curly braces. -/
def block (n : Nat) (statement : Cursor Stmt) : Cursor (Block Stmt) := do
  let opening ← expect .leftCurly
  let statements ← many (fun kind => kind ≠ .rightCurly && kind ≠ .endOfFile) statement n
  let closing ← expect .rightCurly
  return ⟨statements, opening.span.merge closing.span⟩

/-- `while (c) { … }` -/
def loop (n : Nat) (statement : Cursor Stmt) : Cursor Stmt := do
  let keyword ← expect .whileWord
  let c ← condition n
  let body ← block n statement
  return .loop c body (keyword.span.merge body.span)

/-- What stands after `else`: a block, or another conditional as a block of its own. -/
def otherwise (n : Nat) (statement : Cursor Stmt) : Cursor (Block Stmt) := do
  let t ← peek
  if t.kind = .ifWord then
    let nested ← statement
    return ⟨[nested], nested.span⟩
  else block n statement

/-- `if (c) { … }`, with an `else` or without. -/
def conditional (n : Nat) (statement : Cursor Stmt) : Cursor Stmt := do
  let keyword ← expect .ifWord
  let c ← condition n
  let body ← block n statement
  if ← accept .elseWord then
    let other ← otherwise n statement
    return .ifElse c body other (keyword.span.merge other.span)
  else return .ifThen c body (keyword.span.merge body.span)

/-- A statement, whose nested statements are read by `nested`. -/
def statementOf (n : Nat) (nested : Cursor Stmt) : Cursor Stmt := do
  let t ← peek
  match t.kind with
  | .letWord => .declare <$> binding n
  | .whileWord => loop n nested
  | .ifWord => conditional n nested
  | .returnWord => giveBack n
  | .identifier => if (← peekSecond) = .equal then assignment n else evaluation n
  | _ => evaluation n

/-- A statement. -/
def statement : Nat → Cursor Stmt
  | 0 => halt .endless
  | n + 1 => statementOf (n + 1) (statement n)

/-! ## Programs -/

/-- `fun f() { … }` -/
def function (n : Nat) : Cursor Function := do
  let keyword ← expect .funWord
  let name ← expect .identifier
  let _ ← expect .leftParen
  let t ← peek
  if t.kind ≠ .rightParen then fail (.functionParameters t)
  else
    let _ ← next
    let body ← block n (statement n)
    return ⟨name.lexeme, body, keyword.span.merge body.span⟩

/-- A function or a global variable. -/
def declaration (n : Nat) : Cursor Declaration := do
  let t ← peek
  match t.kind with
  | .funWord => .function <$> function n
  | .letWord => .global <$> binding n
  | _ => refuse .expectedDeclaration t

/-- Declarations up to the end of the source. -/
def program (n : Nat) : Cursor Tree := do
  let declarations ← many (· ≠ .endOfFile) (declaration n) n
  return ⟨declarations⟩

/-- A procedure of the parser, which reads something that cannot be empty, in at most so many turns. -/
inductive Procedure (n : Nat) : (α : Type) → Cursor α → Prop
  | declaration : Procedure n Declaration (declaration n)
  | function : Procedure n Function (function n)
  | block : Procedure n (Block Stmt) (block n (statement n))
  | statement : Procedure n Stmt (statement n)
  | binding : Procedure n Binding (binding n)
  | loop : Procedure n Stmt (loop n (statement n))
  | conditional : Procedure n Stmt (conditional n (statement n))
  | condition : Procedure n Expr (condition n)
  | giveBack : Procedure n Stmt (giveBack n)
  | assignment : Procedure n Stmt (assignment n)
  | expression : Procedure n Expr (expression n)
  | additive : Procedure n Expr (additive n (expression n))
  | term : Procedure n Expr (term n (expression n))
  | unary : Procedure n Expr (unary (primary n (expression n)) n)
  | primary : Procedure n Expr (primary n (expression n))
  | call : Procedure n Expr (call n (expression n))

end Cursor

/-- Reads a source text in at most so many turns. No tokens are made of one that is too long. -/
def Cursor.parse (n : Nat) (source : String) : Except Halt Tree :=
  if IsShort source then ((program n) (.of source) 0).map Prod.fst
  else .error .undefined

end StackLang
