import StackLang.Token.Basic

/-!
# Cutting a text into tokens

`lexeme c cs` says, of a text that starts with `c` and goes on with `cs`, what lexeme stands at its
head and how many of the characters `cs` belong to it. `Token.scan` repeats that from the front,
skips blanks and comments, and keeps the byte position.

* `scanFrom_lexeme`: a text that starts with a lexeme other than a comment gives that token, then
  the tokens of what follows.
* `scanFrom_blank`, `scanFrom_comment`: blanks and comments give none.
-/
namespace StackLang

/-! ## Classes of characters -/

/-- Space, tab, carriage return and line feed separate tokens. -/
def isBlank (c : Char) : Bool := c = ' ' || c = '\t' || c = '\r' || c = '\n'

/-- The characters that a name starts with: ASCII letters and the underscore. -/
def isWordStart (c : Char) : Bool := c.isAlpha || c = '_'

/-- The characters that a name goes on with: ASCII letters, digits and the underscore. -/
def isWordRest (c : Char) : Bool := c.isAlphanum || c = '_'

/-! ## Lexemes -/

/-- A name that is a keyword has a kind of its own. -/
def wordKind (word : List Char) : Token.Kind :=
  if word = ['e', 'l', 's', 'e'] then .elseWord
  else if word = ['f', 'u', 'n'] then .funWord
  else if word = ['i', 'f'] then .ifWord
  else if word = ['l', 'e', 't'] then .letWord
  else if word = ['r', 'e', 't', 'u', 'r', 'n'] then .returnWord
  else if word = ['w', 'h', 'i', 'l', 'e'] then .whileWord
  else .identifier

/-- The rest of a string after its opening quote, up to the first quote that no backslash escapes.
A backslash escapes whatever character follows it. -/
def quotedRest : List Char → Token.Kind × Nat
  | [] => (.unterminatedString, 0)
  | '"' :: _ => (.string, 1)
  | '\\' :: _ :: cs => ((quotedRest cs).1, (quotedRest cs).2 + 2)
  | _ :: cs => ((quotedRest cs).1, (quotedRest cs).2 + 1)

/-- The kind of a character that is a token by itself. -/
def punctuation? : Char → Option Token.Kind
  | '(' => some .leftParen
  | ')' => some .rightParen
  | '{' => some .leftCurly
  | '}' => some .rightCurly
  | ';' => some .semicolon
  | ',' => some .comma
  | '-' => some .minus
  | '+' => some .plus
  | '/' => some .slash
  | '*' => some .star
  | '%' => some .percent
  | '!' => some .bang
  | '=' => some .equal
  | '>' => some .greater
  | '<' => some .less
  | _ => none

/-- The kind of a character together with an equals sign after it. -/
def withEqualSign? : Char → Option Token.Kind
  | '!' => some .bangEqual
  | '=' => some .equalEqual
  | '>' => some .greaterEqual
  | '<' => some .lessEqual
  | _ => none

/-- One or two characters of punctuation, as many as possible; else one unknown character. -/
def operator (c : Char) (cs : List Char) : Token.Kind × Nat :=
  match if cs.head? = some '=' then withEqualSign? c else none with
  | some kind => (kind, 1)
  | none => ((punctuation? c).getD .unknown, 0)

/-- The lexeme at the head of a text that starts with `c`: its kind, and how many of the characters
`cs` that follow belong to it. -/
def lexeme (c : Char) (cs : List Char) : Token.Kind × Nat :=
  if c = '/' ∧ cs.head? = some '/' then (.comment, (cs.takeWhile (· ≠ '\n')).length)
  else if c = '"' then quotedRest cs
  else if c.isDigit then (.number, (cs.takeWhile Char.isDigit).length)
  else if isWordStart c then
    let rest := cs.takeWhile isWordRest
    (wordKind (c :: rest), rest.length)
  else operator c cs

/-! ## Tokens of a text -/

/-- The tokens of a text whose first character stands at byte position `start`. -/
def scanFrom (start : Nat) : List Char → List Token
  | [] => []
  | c :: cs =>
    if isBlank c then scanFrom (start + c.utf8Size) cs
    else
      let (kind, n) := lexeme c cs
      let text := c :: cs.take n
      let later := scanFrom (start + byteLength text) (cs.drop n)
      if kind = .comment then later else ⟨kind, start, String.ofList text⟩ :: later
termination_by cs => cs.length
decreasing_by all_goals simp only [List.length_drop, List.length_cons]; omega

/-- The tokens of a source text, in order. -/
def Token.scan (source : String) : List Token := scanFrom 0 source.toList

/-- The tokens of a source text, if it is short enough. -/
def Token.scan? (source : String) : Option (List Token) :=
  if IsShort source then some (Token.scan source) else none

@[simp] theorem scanFrom_nil (start : Nat) : scanFrom start [] = [] := by rw [scanFrom]

theorem scanFrom_blank {c : Char} (h : isBlank c) (start : Nat) (cs : List Char) :
    scanFrom start (c :: cs) = scanFrom (start + c.utf8Size) cs := by rw [scanFrom, if_pos h]

theorem scanFrom_comment {c : Char} {cs : List Char} {n : Nat} (hb : isBlank c = false)
    (h : lexeme c cs = (.comment, n)) (start : Nat) :
    scanFrom start (c :: cs) = scanFrom (start + byteLength (c :: cs.take n)) (cs.drop n) := by
  rw [scanFrom]; simp [hb, h]

theorem scanFrom_lexeme {c : Char} {cs : List Char} {kind : Token.Kind} {n : Nat}
    (hb : isBlank c = false) (h : lexeme c cs = (kind, n)) (hk : kind ≠ .comment) (start : Nat) :
    scanFrom start (c :: cs) = ⟨kind, start, String.ofList (c :: cs.take n)⟩ ::
      scanFrom (start + byteLength (c :: cs.take n)) (cs.drop n) := by
  rw [scanFrom]; simp [hb, h, hk]

end StackLang
