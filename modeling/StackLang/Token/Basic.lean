import StackLang.Source.Span

/-!
# Tokens

A token is a lexeme of the language: its kind, where it starts, and the text it spells. The kinds
fall into those that are always spelled alike (punctuation, keywords) and those that are not.
-/
namespace StackLang

/-- The kinds of lexeme; `endOfFile` stands after the last one of a source. -/
inductive Token.Kind where
  | leftParen | rightParen | leftCurly | rightCurly
  | semicolon | comma
  | minus | plus | slash | star | percent
  | bang | bangEqual | equal | equalEqual | greater | greaterEqual | less | lessEqual
  | identifier | string | number
  | elseWord | funWord | ifWord | letWord | returnWord | whileWord
  | comment | unterminatedString | unknown | endOfFile
  deriving DecidableEq, Repr, Inhabited

namespace Token.Kind

/-- How a kind is named to the user: its spelling where it has only one. -/
def name : Token.Kind → String
  | leftParen => "("
  | rightParen => ")"
  | leftCurly => "\x7b"
  | rightCurly => "\x7d"
  | semicolon => ";"
  | comma => ","
  | minus => "-"
  | plus => "+"
  | slash => "/"
  | star => "*"
  | percent => "%"
  | bang => "!"
  | bangEqual => "!="
  | equal => "="
  | equalEqual => "=="
  | greater => ">"
  | greaterEqual => ">="
  | less => "<"
  | lessEqual => "<="
  | identifier => "Identifier"
  | string => "String"
  | number => "Number"
  | elseWord => "else"
  | funWord => "fun"
  | ifWord => "if"
  | letWord => "let"
  | returnWord => "return"
  | whileWord => "while"
  | comment => "Comment"
  | unterminatedString => "Unterminated String"
  | unknown => "Unknown Character"
  | endOfFile => "End of File"

/-- Every token of the kind is spelled with the same number of characters. -/
def hasFixedLength : Token.Kind → Bool
  | identifier | string | number | comment | unterminatedString | unknown => false
  | _ => true

/-- The six operators that compare two values. -/
def isComparison : Token.Kind → Bool
  | equalEqual | bangEqual | less | lessEqual | greater | greaterEqual => true
  | _ => false

/-- The operators of a sum. -/
def isAdditive : Token.Kind → Bool
  | plus | minus => true
  | _ => false

/-- The operators of a product. -/
def isMultiplicative : Token.Kind → Bool
  | star | slash | percent => true
  | _ => false

end Token.Kind

/-- A lexeme of a source: its kind, the byte position of its start, and its text. -/
structure Token where
  kind : Token.Kind
  start : Nat
  text : String
  deriving DecidableEq, Repr, Inhabited

namespace Token

/-- The number of bytes that the token takes up in the source. -/
def length (t : Token) : Nat := byteLength t.text.toList

/-- Where the token stands. -/
def span (t : Token) : Span := ⟨t.start, t.start + t.length⟩

/-- What stands after the last token of a source with so many bytes. -/
def endOfFile (size : Nat) : Token := ⟨.endOfFile, size, ""⟩

end Token
end StackLang
