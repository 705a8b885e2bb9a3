import StackLang.Token.Lexer
import StackLang.Tree.SyntaxError

/-!
# Readers of token lists

A `Parser α` reads a value of `α` off the front of a list of tokens and gives back the rest, or
stops with an error. It is told which token to show where the list has ended, so that every error
names a token.

Readers that repeat or nest themselves are told a number that the tokens left do not exceed. Each
turn takes a token, so the number is never what ends them: where it is 0, no token is left.
-/
namespace StackLang

/-- A reader of `α`: from the token to show at the end and the tokens left, to the value and the
tokens after it. -/
def Parser (α : Type) : Type := Token → List Token → Except SyntaxError (α × List Token)

namespace Parser

variable {α β : Type}

instance : Monad Parser where
  pure a := fun _ tokens => .ok (a, tokens)
  bind p f := fun eof tokens =>
    match p eof tokens with
    | .ok (a, rest) => f a eof rest
    | .error e => .error e

theorem bind_apply (p : Parser α) (f : α → Parser β) (eof : Token) (tokens : List Token) :
    (p >>= f) eof tokens = match p eof tokens with
      | .ok (a, rest) => f a eof rest
      | .error e => .error e := rfl

theorem bind_eq_ok_iff {p : Parser α} {f : α → Parser β} {eof : Token} {tokens rest : List Token}
    {b : β} : (p >>= f) eof tokens = .ok (b, rest) ↔
      ∃ a between, p eof tokens = .ok (a, between) ∧ f a eof between = .ok (b, rest) := by
  rw [bind_apply]
  constructor
  · intro h
    split at h
    · rename_i a between hp; exact ⟨a, between, hp, h⟩
    · cases h
  · rintro ⟨a, between, hp, hf⟩
    simp [hp, hf]

/-! ## Looking at tokens and taking them -/

/-- The next token, which is left in place. -/
def peek : Parser Token := fun eof tokens => .ok (tokens.headD eof, tokens)

/-- The kind of the token after the next one, both left in place. -/
def peekSecond : Parser Token.Kind := fun eof tokens => .ok ((tokens.tail.headD eof).kind, tokens)

/-- Takes the next token. -/
def next : Parser Token := fun eof tokens => .ok (tokens.headD eof, tokens.tail)

/-- Stops with an error. -/
def fail (error : SyntaxError) : Parser α := fun _ _ => .error error

/-- Stops because of a token: one that is no lexeme of the language has an error of its own. -/
def refuse (error : Token → SyntaxError) (t : Token) : Parser α :=
  match t.kind with
  | .unterminatedString => fail (.unterminatedString t)
  | .unknown => fail (.unknownCharacter t)
  | _ => fail (error t)

/-- Takes the next token, which has to be of a kind. -/
def expect (kind : Token.Kind) : Parser Token := do
  let t ← peek
  if t.kind = kind then next else refuse (.expected kind) t

/-- Takes the next token if it is of a kind, and says whether it was. -/
def accept (kind : Token.Kind) : Parser Bool := do
  let t ← peek
  if t.kind = kind then do
    let _ ← next
    return true
  else return false

/-! ## Repetition -/

/-- Values one after the other, as long as the next token's kind starts one, from at most `n`
tokens. -/
def many (starts : Token.Kind → Bool) (p : Parser α) : Nat → Parser (List α)
  | 0 => pure []
  | n + 1 => do
    let t ← peek
    if starts t.kind then do
      let a ← p
      let others ← many starts p n
      return a :: others
    else return []

end Parser
end StackLang
