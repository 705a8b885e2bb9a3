import StackLang.Proofs.Token.Spacing
import StackLang.Proofs.Tree.Spanless
import StackLang.Tree.Parser.Statement

/-!
# Readers do not look at places

Where a token stands goes into spans and nothing else. So each reader, given two lists of tokens of
the same kinds and texts, either reads values that differ in their spans alone and leaves tokens of the
same kinds and texts, or stops in both with errors that differ in their places alone.

Results:
* `Blind.bind`, `blind_many`: readers that are put together of such readers.
* `blind_expression`, `blind_statement`, `blind_declaration`: the readers of the language.
* `readAlike_ofTokens`: whole lists of tokens.
* `layout_makes_no_difference`: sources that are laid out in different ways.
-/
namespace StackLang

/-! ## Without places -/

/-- A wrong escape, wherever it stands. -/
def EscapeError.placeless (e : EscapeError) : EscapeError := ⟨e.character, ⟨0, 0⟩⟩

/-- An error, wherever it was found. -/
def SyntaxError.placeless : SyntaxError → SyntaxError
  | expected kind received => .expected kind received.placeless
  | expectedExpression received => .expectedExpression received.placeless
  | expectedDeclaration received => .expectedDeclaration received.placeless
  | functionParameters received => .functionParameters received.placeless
  | unknownCharacter token => .unknownCharacter token.placeless
  | unterminatedString token => .unterminatedString token.placeless
  | invalidEscape escape => .invalidEscape escape.placeless
  | integerTooLarge token => .integerTooLarge token.placeless

/-- Two source texts are read as the same tree up to spans, or are refused with the same error up to
places. -/
inductive Tree.ReadAlike : Except SyntaxError Tree → Except SyntaxError Tree → Prop where
  | ok {t t' : Tree} (h : t.spanless = t'.spanless) : ReadAlike (.ok t) (.ok t')
  | error {e e' : SyntaxError} (h : e.placeless = e'.placeless) : ReadAlike (.error e) (.error e')

namespace Parser

variable {α β γ δ : Type}

/-! ## Readers that do not look at places -/

/-- Both readings gave values that are the same under `g` and left tokens that are the same without
their places, or both stopped with errors that are. -/
inductive Alike (g : α → γ) :
    Except SyntaxError (α × List Token) → Except SyntaxError (α × List Token) → Prop where
  | ok {a a' : α} {ts ts' : List Token} (value : g a = g a')
    (rest : ts.map Token.placeless = ts'.map Token.placeless) : Alike g (.ok (a, ts)) (.ok (a', ts'))
  | error {e e' : SyntaxError} (h : e.placeless = e'.placeless) : Alike g (.error e) (.error e')

/-- Two readers that read alike from tokens that are the same without their places. -/
def Blind (g : α → γ) (p p' : Parser α) : Prop :=
  ∀ ⦃eof eof' : Token⦄ ⦃ts ts' : List Token⦄, eof.placeless = eof'.placeless →
    ts.map Token.placeless = ts'.map Token.placeless → Alike g (p eof ts) (p' eof' ts')

variable {g : α → γ} {h : β → δ}

theorem blind_pure {a a' : α} (ha : g a = g a') : Blind g (pure a) (pure a') :=
  fun _ _ _ _ _ hts => .ok ha hts

theorem blind_fail {e e' : SyntaxError} (he : e.placeless = e'.placeless) :
    Blind g (fail e) (fail e') := fun _ _ _ _ _ _ => .error he

theorem Blind.bind {p p' : Parser α} {f f' : α → Parser β} (hp : Blind g p p')
    (hf : ∀ a a', g a = g a' → Blind h (f a) (f' a')) : Blind h (p >>= f) (p' >>= f') := by
  intro eof eof' ts ts' heof hts
  rw [bind_apply, bind_apply]
  have hread := hp heof hts
  generalize p eof ts = r at hread
  generalize p' eof' ts' = r' at hread
  cases hread with
  | ok value rest => exact hf _ _ value heof rest
  | error he => exact .error he

theorem Blind.map {p p' : Parser α} {f : α → β} (hp : Blind g p p')
    (hf : ∀ a a', g a = g a' → h (f a) = h (f a')) : Blind h (f <$> p) (f <$> p') :=
  hp.bind fun a a' ha => blind_pure (hf a a' ha)

/-! ## Looking at tokens and taking them -/

theorem blind_peek : Blind Token.placeless peek peek :=
  fun _ _ _ _ heof hts => .ok (Token.headD_placeless heof hts) hts

theorem blind_peekSecond : Blind id peekSecond peekSecond := fun _ _ _ _ heof hts =>
  .ok (Token.kind_eq_of_placeless (Token.headD_placeless heof (Token.tail_placeless hts))) hts

theorem blind_next : Blind Token.placeless next next :=
  fun _ _ _ _ heof hts => .ok (Token.headD_placeless heof hts) (Token.tail_placeless hts)

theorem blind_refuse (error : Token → SyntaxError)
    (herror : ∀ t, (error t).placeless = error t.placeless) {t t' : Token}
    (ht : t.placeless = t'.placeless) : Blind g (refuse error t) (refuse error t') := by
  have he : (error t).placeless = (error t').placeless := by rw [herror, herror, ht]
  obtain ⟨kind, start, start', text, rfl, rfl⟩ := Token.exists_starts ht
  cases kind with
  | unterminatedString | unknown => exact blind_fail rfl
  | _ => exact blind_fail he

theorem blind_expect (kind : Token.Kind) : Blind Token.placeless (expect kind) (expect kind) := by
  refine blind_peek.bind fun t t' ht => ?_
  rw [Token.kind_eq_of_placeless ht]
  split
  · exact blind_next
  · exact blind_refuse (SyntaxError.expected kind) (fun _ => rfl) ht

theorem blind_accept (kind : Token.Kind) : Blind id (accept kind) (accept kind) := by
  refine blind_peek.bind fun t t' ht => ?_
  rw [Token.kind_eq_of_placeless ht]
  split
  · exact blind_next.bind fun _ _ _ => blind_pure rfl
  · exact blind_pure rfl

theorem blind_many {starts : Token.Kind → Bool} {p p' : Parser α} (hp : Blind g p p') (n : Nat) :
    Blind (List.map g) (many starts p n) (many starts p' n) := by
  induction n with
  | zero => exact blind_pure rfl
  | succ n ih =>
    refine blind_peek.bind fun t t' ht => ?_
    rw [Token.kind_eq_of_placeless ht]
    split
    · refine hp.bind fun a a' ha => ih.bind fun as as' has => blind_pure ?_
      rw [List.map_cons, List.map_cons, ha, has]
    · exact blind_pure rfl

/-! ## Expressions -/

theorem spanless_lexeme {t t' : Token} (ht : t.placeless = t'.placeless) :
    t.lexeme.spanless = t'.lexeme.spanless :=
  congrArg (Lexeme.mk · ⟨0, 0⟩) (Token.text_eq_of_placeless ht)

theorem spanless_binary {t t' : Token} {l l' r r' : Expr} (ht : t.placeless = t'.placeless)
    (hl : l.spanless = l'.spanless) (hr : r.spanless = r'.spanless) :
    (Expr.binary t l r).spanless = (Expr.binary t' l' r').spanless := by
  simp only [Expr.binary, Expr.spanless, Expr.spanlessEach, spanless_lexeme ht, hl, hr]

theorem mapError_map {ε ε' : Type} (error : ε → ε') (f : α → β) (x : Except ε α) :
    (x.map f).mapError error = (x.mapError error).map f := by
  cases x <;> rfl

/-- Where the contents of a literal start does not matter to what they stand for. -/
theorem unescape_placeless (position position' : Nat) (cs : List Char) :
    (unescape position cs).mapError EscapeError.placeless =
      (unescape position' cs).mapError EscapeError.placeless := by
  fun_induction unescape position cs generalizing position' with
  | case1 => rfl
  | case2 => rfl
  | case3 position c cs d hd ih =>
    simp only [unescape, hd]
    rw [mapError_map, mapError_map, ih]
  | case4 position c cs hnone =>
    simp only [unescape, hnone]
    rfl
  | case5 position c cs hlast hescape ih =>
    rw [unescape] <;> try assumption
    rw [mapError_map, mapError_map, ih]

theorem unescaped_placeless {t t' : Token} (ht : t.placeless = t'.placeless) :
    t.unescaped.mapError EscapeError.placeless = t'.unescaped.mapError EscapeError.placeless := by
  have hcontents : t.contents = t'.contents := by
    rw [Token.contents, Token.contents, Token.text_eq_of_placeless ht]
  rw [Token.unescaped, Token.unescaped, hcontents, mapError_map, mapError_map,
    unescape_placeless (t.start + 1) (t'.start + 1)]

theorem blind_stringLiteral {t t' : Token} (ht : t.placeless = t'.placeless) :
    Blind Expr.spanless (stringLiteral t) (stringLiteral t') := by
  have htext := unescaped_placeless ht
  unfold stringLiteral
  cases h : t.unescaped with
  | ok text =>
    cases h' : t'.unescaped with
    | ok text' =>
      rw [h, h'] at htext
      cases htext
      exact blind_pure rfl
    | error e' =>
      rw [h, h'] at htext
      cases htext
  | error e =>
    cases h' : t'.unescaped with
    | ok text' =>
      rw [h, h'] at htext
      cases htext
    | error e' =>
      rw [h, h'] at htext
      exact blind_fail (congrArg SyntaxError.invalidEscape (Except.error.inj htext))

theorem blind_integer {t t' : Token} (ht : t.placeless = t'.placeless) (value : Option Int64)
    (span span' : Span) : Blind Expr.spanless (integer t value span) (integer t' value span') := by
  cases value with
  | some value => exact blind_pure rfl
  | none => exact blind_fail (congrArg SyntaxError.integerTooLarge ht)

variable {nested nested' operand operand' : Parser Expr}

theorem blind_arguments (hn : Blind Expr.spanless nested nested') (n : Nat) :
    Blind (List.map Expr.spanless) (arguments n nested) (arguments n nested') := by
  refine blind_peek.bind fun t t' ht => ?_
  rw [Token.kind_eq_of_placeless ht]
  split
  · exact blind_pure rfl
  · refine hn.bind fun a a' ha =>
      (blind_many (blind_next.bind fun _ _ _ => hn) n).bind fun as as' has => blind_pure ?_
    rw [List.map_cons, List.map_cons, ha, has]

theorem blind_primary (hn : Blind Expr.spanless nested nested') (n : Nat) :
    Blind Expr.spanless (primary n nested) (primary n nested') := by
  refine blind_peek.bind fun t t' ht => ?_
  have hlexeme := spanless_lexeme ht
  obtain ⟨kind, start, start', text, rfl, rfl⟩ := Token.exists_starts ht
  cases kind with
  | number => exact blind_next.bind fun _ _ _ => blind_integer ht _ _ _
  | string => exact blind_next.bind fun _ _ _ => blind_stringLiteral ht
  | identifier =>
    refine blind_next.bind fun _ _ _ => (blind_accept .leftParen).bind fun b b' hb => ?_
    cases hb
    cases b with
    | true =>
      refine (blind_arguments hn n).bind fun args args' hargs =>
        (blind_expect .rightParen).bind fun _ _ _ => blind_pure ?_
      simp only [Expr.spanless, Expr.spanlessEach_eq_map, hlexeme, hargs]
    | false => exact blind_pure (congrArg Expr.reference hlexeme)
  | leftParen =>
    exact blind_next.bind fun _ _ _ => hn.bind fun e e' he =>
      (blind_expect .rightParen).bind fun _ _ _ => blind_pure he
  | _ => exact blind_refuse SyntaxError.expectedExpression (fun _ => rfl) ht

theorem blind_unary (ho : Blind Expr.spanless operand operand') (n : Nat) :
    Blind Expr.spanless (unary operand n) (unary operand' n) := by
  induction n with
  | zero => exact ho
  | succ n ih =>
    refine blind_peek.bind fun t t' ht => ?_
    obtain ⟨kind, start, start', text, rfl, rfl⟩ := Token.exists_starts ht
    cases kind with
    | bang =>
      refine blind_next.bind fun _ _ _ => ih.bind fun e e' he => blind_pure ?_
      simp only [Expr.unary, Expr.spanless, Expr.spanlessEach, spanless_lexeme ht, he]
    | minus =>
      refine blind_next.bind fun _ _ _ => blind_peek.bind fun number number' hnumber => ?_
      rw [Token.kind_eq_of_placeless hnumber]
      split
      · rw [Token.negatedInteger?, Token.text_eq_of_placeless hnumber, ← Token.negatedInteger?]
        exact blind_next.bind fun _ _ _ => blind_integer hnumber _ _ _
      · exact ih.bind fun e e' he => blind_pure (spanless_binary ht rfl he)
    | _ => exact ho

/-- Operands that are joined from the left by operators, all the same without their places. -/
theorem spanless_foldl_binary {others others' : List (Token × Expr)} {first first' : Expr}
    (hfirst : first.spanless = first'.spanless)
    (h : others.map (Prod.map Token.placeless Expr.spanless) =
      others'.map (Prod.map Token.placeless Expr.spanless)) :
    (others.foldl (fun left x => Expr.binary x.1 left x.2) first).spanless =
      (others'.foldl (fun left x => Expr.binary x.1 left x.2) first').spanless := by
  induction others generalizing others' first first' with
  | nil =>
    cases others' with
    | nil => exact hfirst
    | cons => cases h
  | cons x others ih =>
    cases others' with
    | nil => cases h
    | cons x' others' =>
      obtain ⟨hx, hothers⟩ := List.cons.inj h
      obtain ⟨hoperator, hright⟩ := Prod.mk.inj hx
      rw [List.foldl_cons, List.foldl_cons]
      exact ih (spanless_binary hoperator hfirst hright) hothers

theorem blind_chain (ho : Blind Expr.spanless operand operand') (n : Nat)
    (isOperator : Token.Kind → Bool) :
    Blind Expr.spanless (chain n isOperator operand) (chain n isOperator operand') := by
  have hlink : Blind (Prod.map Token.placeless Expr.spanless)
      (do let operator ← next; let right ← operand; return (operator, right))
      (do let operator ← next; let right ← operand'; return (operator, right)) :=
    blind_next.bind fun t t' ht => ho.bind fun r r' hr => blind_pure (Prod.ext ht hr)
  exact ho.bind fun first first' hfirst => (blind_many hlink n).bind fun others others' hothers =>
    blind_pure (spanless_foldl_binary hfirst hothers)

theorem blind_comparison (ho : Blind Expr.spanless operand operand') :
    Blind Expr.spanless (comparison operand) (comparison operand') := by
  refine ho.bind fun l l' hl => blind_peek.bind fun t t' ht => ?_
  rw [Token.kind_eq_of_placeless ht]
  split
  · exact blind_next.bind fun _ _ _ => ho.bind fun r r' hr => blind_pure (spanless_binary ht hl hr)
  · exact blind_pure hl

theorem blind_expression (n : Nat) : Blind Expr.spanless (expression n) (expression n) := by
  induction n with
  | zero =>
    exact blind_peek.bind fun _ _ ht =>
      blind_refuse SyntaxError.expectedExpression (fun _ => rfl) ht
  | succ n ih =>
    exact blind_comparison (blind_chain (blind_chain (blind_unary (blind_primary ih _) _) _ _) _ _)

/-! ## Statements -/

theorem blind_binding (n : Nat) : Blind Binding.spanless (binding n) (binding n) := by
  refine (blind_expect .letWord).bind fun _ _ _ => (blind_expect .identifier).bind fun t t' ht =>
    (blind_accept .equal).bind fun b b' hb => ?_
  have hname : t.text = t'.text := Token.text_eq_of_placeless ht
  cases hb
  cases b with
  | true =>
    refine ((blind_expression n).map (h := Option.map Expr.spanless) fun e e' he => ?_).bind
      fun value value' hvalue => (blind_expect .semicolon).bind fun _ _ _ => blind_pure ?_
    · exact congrArg some he
    · simp only [Binding.spanless, hname, hvalue]
  | false =>
    refine (blind_expect .semicolon).bind fun _ _ _ => blind_pure ?_
    simp only [Binding.spanless, hname]

theorem blind_condition (n : Nat) : Blind Expr.spanless (condition n) (condition n) :=
  (blind_expect .leftParen).bind fun _ _ _ => (blind_expression n).bind fun _ _ he =>
    (blind_expect .rightParen).bind fun _ _ _ => blind_pure he

theorem blind_giveBack (n : Nat) : Blind Stmt.spanless (giveBack n) (giveBack n) := by
  refine (blind_expect .returnWord).bind fun _ _ _ => blind_peek.bind fun t t' ht => ?_
  rw [Token.kind_eq_of_placeless ht]
  split
  · exact (blind_expect .semicolon).bind fun _ _ _ => blind_pure rfl
  · refine ((blind_expression n).map (h := Option.map Expr.spanless) fun e e' he => ?_).bind
      fun value value' hvalue => (blind_expect .semicolon).bind fun _ _ _ => blind_pure ?_
    · exact congrArg some he
    · simp only [Stmt.spanless, hvalue]

theorem blind_assignment (n : Nat) : Blind Stmt.spanless (assignment n) (assignment n) := by
  refine (blind_expect .identifier).bind fun t t' ht => (blind_expect .equal).bind fun _ _ _ =>
    (blind_expression n).bind fun e e' he => (blind_expect .semicolon).bind fun _ _ _ =>
      blind_pure ?_
  simp only [Stmt.spanless, spanless_lexeme ht, he]

theorem blind_evaluation (n : Nat) : Blind Stmt.spanless (evaluation n) (evaluation n) := by
  refine (blind_expression n).bind fun e e' he => (blind_expect .semicolon).bind fun _ _ _ =>
    blind_pure ?_
  simp only [Stmt.spanless, he]

section

variable {inner inner' : Parser Stmt} (hi : Blind Stmt.spanless inner inner') (n : Nat)

include hi

theorem blind_block : Blind Stmt.spanlessBlock (block n inner) (block n inner') := by
  refine (blind_expect .leftCurly).bind fun _ _ _ => (blind_many hi n).bind fun ss ss' hss =>
    (blind_expect .rightCurly).bind fun _ _ _ => blind_pure ?_
  simp only [Stmt.spanlessBlock, Stmt.spanlessAll_eq_map, hss]

theorem blind_loop : Blind Stmt.spanless (loop n inner) (loop n inner') := by
  refine (blind_expect .whileWord).bind fun _ _ _ => (blind_condition n).bind fun c c' hc =>
    (blind_block hi n).bind fun b b' hb => blind_pure ?_
  simp only [Stmt.spanless, hc, hb]

theorem blind_otherwise : Blind Stmt.spanlessBlock (otherwise n inner) (otherwise n inner') := by
  refine blind_peek.bind fun t t' ht => ?_
  rw [Token.kind_eq_of_placeless ht]
  split
  · refine hi.bind fun s s' hs => blind_pure ?_
    simp only [Stmt.spanlessBlock, Stmt.spanlessAll, hs]
  · exact blind_block hi n

theorem blind_conditional : Blind Stmt.spanless (conditional n inner) (conditional n inner') := by
  refine (blind_expect .ifWord).bind fun _ _ _ => (blind_condition n).bind fun c c' hc =>
    (blind_block hi n).bind fun b b' hb => (blind_accept .elseWord).bind fun has has' hhas => ?_
  cases hhas
  cases has with
  | true =>
    refine (blind_otherwise hi n).bind fun o o' ho => blind_pure ?_
    simp only [Stmt.spanless, hc, hb, ho]
  | false =>
    refine blind_pure ?_
    simp only [Stmt.spanless, hc, hb]

theorem blind_statementOf : Blind Stmt.spanless (statementOf n inner) (statementOf n inner') := by
  refine blind_peek.bind fun t t' ht => ?_
  rw [Token.kind_eq_of_placeless ht]
  split
  · exact (blind_binding n).map fun b b' hb => congrArg Stmt.declare hb
  · exact blind_loop hi n
  · exact blind_conditional hi n
  · exact blind_giveBack n
  · refine blind_peekSecond.bind fun kind kind' hkind => ?_
    cases hkind
    split
    · exact blind_assignment n
    · exact blind_evaluation n
  · exact blind_evaluation n

end

theorem blind_statement (n : Nat) : Blind Stmt.spanless (statement n) (statement n) := by
  induction n with
  | zero => exact blind_evaluation 0
  | succ n ih => exact blind_statementOf ih (n + 1)

/-! ## Declarations -/

theorem blind_function (n : Nat) : Blind Function.spanless (function n) (function n) := by
  refine (blind_expect .funWord).bind fun _ _ _ => (blind_expect .identifier).bind fun t t' ht =>
    (blind_expect .leftParen).bind fun _ _ _ => blind_peek.bind fun u u' hu => ?_
  rw [Token.kind_eq_of_placeless hu]
  split
  · exact blind_fail (congrArg SyntaxError.functionParameters hu)
  · refine blind_next.bind fun _ _ _ => (blind_block (blind_statement n) n).bind fun b b' hb =>
      blind_pure ?_
    simp only [Function.spanless, spanless_lexeme ht, hb]

theorem blind_declaration (n : Nat) :
    Blind Declaration.spanless (declaration n) (declaration n) := by
  refine blind_peek.bind fun t t' ht => ?_
  obtain ⟨kind, start, start', text, rfl, rfl⟩ := Token.exists_starts ht
  cases kind with
  | funWord => exact (blind_function n).map fun f f' hf => congrArg Declaration.function hf
  | letWord => exact (blind_binding n).map fun b b' hb => congrArg Declaration.global hb
  | _ => exact blind_refuse SyntaxError.expectedDeclaration (fun _ => rfl) ht

theorem blind_program (n : Nat) : Blind Tree.spanless (program n) (program n) :=
  (blind_many (blind_declaration n) n).bind fun _ _ h => blind_pure (congrArg Tree.mk h)

end Parser

/-! ## Sources -/

/-- Lists of tokens of the same kinds and texts are read alike. -/
theorem Tree.readAlike_ofTokens (size size' : Nat) {ts ts' : List Token}
    (h : ts.map Token.placeless = ts'.map Token.placeless) :
    ReadAlike (ofTokens size ts) (ofTokens size' ts') := by
  have hlength : ts'.length = ts.length := by
    rw [← List.length_map (f := Token.placeless), ← h, List.length_map]
  have hread := Parser.blind_program ts.length
    (show (Token.endOfFile size).placeless = (Token.endOfFile size').placeless from rfl) h
  rw [ofTokens, ofTokens, hlength]
  generalize Parser.program ts.length (.endOfFile size) ts = r at hread
  generalize Parser.program ts.length (.endOfFile size') ts' = r' at hread
  cases hread with
  | ok value _ => exact .ok value
  | error he => exact .error he

/-- How a source is laid out makes no difference. Sources whose tokens have the same kinds and texts are
read alike; and space, put in at the start of a source or right after a token that is not an open string,
leaves the kinds and texts of the tokens as they are. -/
theorem Tree.layout_makes_no_difference :
    (∀ source source' : String,
      (Token.scan source).map Token.placeless = (Token.scan source').map Token.placeless →
        ReadAlike (ofSource source) (ofSource source')) ∧
    ∀ before gap after : List Char, Token.Spacing gap →
      (before = [] ∨ ∃ t ∈ Token.scan (String.ofList (before ++ after)),
        t.kind ≠ .unterminatedString ∧ t.span.stop = byteLength before) →
      (Token.scan (String.ofList (before ++ gap ++ after))).map Token.placeless =
        (Token.scan (String.ofList (before ++ after))).map Token.placeless := by
  refine ⟨fun source source' h => readAlike_ofTokens _ _ h, fun before gap after hgap hplace => ?_⟩
  rw [Token.scan, Token.scan, String.toList_ofList, String.toList_ofList, List.append_assoc]
  rw [Token.scan, String.toList_ofList] at hplace
  obtain rfl | ⟨t, ht, hk, hstop⟩ := hplace
  · exact Token.scanFrom_spacing hgap 0 after
  · exact Token.scanFrom_insert hgap ht hk (by rw [hstop, Nat.zero_add])

/-- A comment between a name and its parentheses. -/
theorem Tree.comment_makes_no_difference :
    (Token.scan "fun f // x\n() {}").map Token.placeless =
        (Token.scan "fun f() {}").map Token.placeless ∧
      ReadAlike (ofSource "fun f // x\n() {}") (ofSource "fun f() {}") := by
  have hspace : Token.Spacing (' ' :: '/' :: '/' :: ([' ', 'x'] ++ ['\n'])) :=
    .comment rfl (by decide)
  have hname : ⟨.identifier, 4, "f"⟩ ∈ Token.scan (String.ofList ("fun f".toList ++ "() {}".toList)) := by
    decide +kernel
  have h := layout_makes_no_difference.2 "fun f".toList _ "() {}".toList hspace
    (.inr ⟨_, hname, by decide, by decide⟩)
  exact ⟨h, layout_makes_no_difference.1 _ _ h⟩

end StackLang
