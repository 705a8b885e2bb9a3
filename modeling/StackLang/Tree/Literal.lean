import StackLang.Text.Decimal
import StackLang.Token.Basic
import StackLang.Word

/-!
# The values of literals

A number is a run of decimal digits, with a sign or without, and must fit in 64 bits. In a string
literal a backslash and the character after it stand for one character.
-/
namespace StackLang

/-! ## Numbers -/

/-- The value of a number token. -/
def Token.integer? (t : Token) : Option Int64 := word? (decimalValue t.text.toList)

/-- The value of a number token with a minus sign before it. -/
def Token.negatedInteger? (t : Token) : Option Int64 := word? (-decimalValue t.text.toList)

/-! ## Strings -/

/-- The character that a backslash and `c` stand for. -/
def escaped? : Char → Option Char
  | 'n' => some '\n'
  | 't' => some '\t'
  | '"' => some '"'
  | '\\' => some '\\'
  | _ => none

/-- A backslash that is followed by no character it may stand before. -/
structure EscapeError where
  /-- The character after the backslash, if there is one. -/
  character : Option Char
  /-- Where the backslash and the character stand. -/
  span : Span
  deriving DecidableEq, Repr

/-- The text that the contents of a string literal stand for, given the byte position at which
they start. The first escape that is not in the language is an error. -/
def unescape (position : Nat) : List Char → Except EscapeError (List Char)
  | [] => .ok []
  | ['\\'] => .error ⟨none, ⟨position, position + 1⟩⟩
  | '\\' :: c :: cs =>
    match escaped? c with
    | some d => (unescape (position + 1 + c.utf8Size) cs).map (d :: ·)
    | none => .error ⟨some c, ⟨position, position + 1 + c.utf8Size⟩⟩
  | c :: cs => (unescape (position + c.utf8Size) cs).map (c :: ·)

/-- The text of a string token between its quotes. -/
def Token.contents (t : Token) : List Char := t.text.toList.tail.dropLast

/-- The text that a string token stands for. -/
def Token.unescaped (t : Token) : Except EscapeError String :=
  (unescape (t.start + 1) t.contents).map String.ofList

end StackLang
