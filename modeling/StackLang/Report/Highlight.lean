import StackLang.Report.Styled
import StackLang.Token.Lexer

/-!
# Source text in colours

Tokens are coloured by kind; what lies between them, blanks and comments, is dimmed.

* `highlight_unstyled`: without the colours, the text is the source.
-/
namespace StackLang

/-- How a token of a kind looks. -/
def Token.Kind.style : Token.Kind → Style
  | .number => .blue
  | .string | .unterminatedString => .green
  | .elseWord | .ifWord | .returnWord | .whileWord => .cyan
  | .letWord | .funWord => .magenta
  | _ => .plain

/-- A text cut in two after the characters that lie within its first `n` bytes. -/
def cutBytes (n : Nat) : List Char → List Char × List Char
  | [] => ([], [])
  | c :: cs =>
    if c.utf8Size ≤ n then
      let (before, after) := cutBytes (n - c.utf8Size) cs
      (c :: before, after)
    else ([], c :: cs)

@[simp] theorem cutBytes_append (n : Nat) (cs : List Char) :
    (cutBytes n cs).1 ++ (cutBytes n cs).2 = cs := by
  induction cs generalizing n with
  | nil => rfl
  | cons c cs ih =>
    unfold cutBytes
    split
    · simp [ih]
    · rfl

/-- The pieces of a text that starts at a byte position and holds the tokens: before each token and
at the end a gap, which may be empty. -/
def highlightFrom (position : Nat) (cs : List Char) : List Token → List Styled
  | [] => [⟨.dimmed, String.ofList cs⟩]
  | t :: ts =>
    let (gap, rest) := cutBytes (t.start - position) cs
    let (text, after) := cutBytes t.length rest
    ⟨.dimmed, String.ofList gap⟩ :: ⟨t.kind.style, String.ofList text⟩ ::
      highlightFrom (t.start + t.length) after ts

/-- The pieces of a source text. -/
def highlight (source : String) : List Styled :=
  highlightFrom 0 source.toList (Token.scan source)

theorem highlightFrom_unstyled (position : Nat) (cs : List Char) (ts : List Token) :
    unstyled (highlightFrom position cs ts) = String.ofList cs := by
  induction ts generalizing position cs with
  | nil => simp [highlightFrom, unstyled]
  | cons t ts ih =>
    have ih := ih (t.start + t.length) (cutBytes t.length (cutBytes (t.start - position) cs).2).2
    unfold unstyled at ih
    simp only [highlightFrom, unstyled, List.map_cons, String.join_cons, ih]
    rw [← String.ofList_append, cutBytes_append, ← String.ofList_append, cutBytes_append]

theorem highlight_unstyled (source : String) : unstyled (highlight source) = source := by
  simp [highlight, highlightFrom_unstyled]

end StackLang
