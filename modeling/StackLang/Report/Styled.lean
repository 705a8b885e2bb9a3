/-!
# Styled text

Text for a terminal is a list of pieces, each with a style. The codes that switch a style on before a
piece and off after it are those of a terminal, and not fixed here; `coloured` writes the pieces with
any codes around them.
-/
namespace StackLang

/-- How a piece of text looks. -/
inductive Style where
  | plain | dimmed | bold
  /-- Bold and red. -/
  | alarm
  /-- Italic and cyan. -/
  | notice
  | blue | green | magenta | cyan
  deriving DecidableEq, Repr, Inhabited

/-- The codes before and after a text of a style. -/
abbrev StyleCodes := Style → String × String

namespace StyleCodes

/-- Codes stay on their line. -/
def NoLineFeed (codes : StyleCodes) : Prop :=
  ∀ style, '\n' ∉ (codes style).1.toList ∧ '\n' ∉ (codes style).2.toList

/-- Codes that most terminals know, as an instance. -/
def usual : StyleCodes
  | .plain => ("", "")
  | .dimmed => ("\x1b[2m", "\x1b[0m")
  | .bold => ("\x1b[1m", "\x1b[0m")
  | .alarm => ("\x1b[31m\x1b[1m", "\x1b[0m\x1b[39m")
  | .notice => ("\x1b[36m\x1b[3m", "\x1b[0m\x1b[39m")
  | .blue => ("\x1b[34m", "\x1b[0m")
  | .green => ("\x1b[32m", "\x1b[0m")
  | .magenta => ("\x1b[35m", "\x1b[0m")
  | .cyan => ("\x1b[36m", "\x1b[0m")

end StyleCodes

/-- A piece of text and its style. -/
structure Styled where
  style : Style
  text : String
  deriving DecidableEq, Repr, Inhabited

/-- A piece of text with the codes of its style around it. Plain text has none. -/
def Styled.parts (codes : StyleCodes) (s : Styled) : List String :=
  if s.style = .plain then [s.text] else [(codes s.style).1, s.text, (codes s.style).2]

/-- Pieces with the codes of their styles. -/
def coloured (codes : StyleCodes) (pieces : List Styled) : String :=
  String.join (pieces.flatMap (Styled.parts codes))

/-- Pieces without their styles. -/
def unstyled (pieces : List Styled) : String := String.join (pieces.map Styled.text)

end StackLang
