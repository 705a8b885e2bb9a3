import StackLang.Proofs.Grammar.Reading

/-!
# What an error says about its token

A reader that stops does so at a token that it has not taken, and the error says what is wrong with
that token: it is of a kind that could not stand there, or it is a literal without a value. A token
that is no lexeme of the language is named as such, but for one place. After the opening parenthesis of
a function anything but the closing one counts as a parameter.

Results:
* `Stops.bind`, `stops_many`: readers that are put together of others.
* `stops_expression`, `stops_statement`, `stops_declaration`: the readers of the language.
* `Tree.explained_of_ofTokens`: what is wrong with tokens that are no program.
-/
namespace StackLang

open Grammar

/-- The tokens end with `fun`, a name and an opening parenthesis. -/
def OpensFunction (ts : List Token) : Prop :=
  [.funWord, .identifier, .leftParen] <:+ ts.map Token.kind

instance (ts : List Token) : Decidable (OpensFunction ts) :=
  inferInstanceAs (Decidable (_ <:+ _))

theorem OpensFunction.after {ts : List Token} (h : OpensFunction ts) (before : List Token) :
    OpensFunction (before ++ ts) := by
  rw [OpensFunction, List.map_append]
  exact List.IsSuffix.trans h (List.suffix_append _ _)

/-- The error is about a token that stands after others, and says what is wrong with it. What the tokens
before are matters in one place only. -/
def SyntaxError.Explains (e : SyntaxError) (before : List Token) (t : Token) : Prop :=
  match e with
  | .expected kind received => received = t ∧ Known t.kind ∧ t.kind ≠ kind
  | .expectedExpression received | .expectedDeclaration received => received = t ∧ Known t.kind
  | .functionParameters received => received = t ∧ t.kind ≠ .rightParen ∧ OpensFunction before
  | .unknownCharacter token => token = t ∧ t.kind = .unknown
  | .unterminatedString token => token = t ∧ t.kind = .unterminatedString
  | .invalidEscape escape => t.kind = .string ∧ t.unescaped = .error escape
  | .integerTooLarge token => token = t ∧ t.kind = .number

namespace Parser

variable {α β : Type} {size : Nat} {before ts : List Token}

/-! ## Readers and where they stop -/

/-- What comes of reading tokens after the tokens `before`: some of them are left, or an error says
what is wrong with the first one that is. -/
inductive Stopped (before : List Token) (size : Nat) (ts : List Token) :
    Except SyntaxError (α × List Token) → Prop where
  | ok {a : α} {taken rest : List Token} (split : taken ++ rest = ts) :
    Stopped before size ts (.ok (a, rest))
  | error {e : SyntaxError} {taken rest : List Token} (split : taken ++ rest = ts)
    (explains : e.Explains (before ++ taken) (rest.headD (.endOfFile size))) :
    Stopped before size ts (.error e)

/-- A reader whose errors say what is wrong with the token that it stops at. -/
def Stops (p : Parser α) : Prop :=
  ∀ (before : List Token) (size : Nat) (ts : List Token), Stopped before size ts (p (.endOfFile size) ts)

/-- Some tokens are taken, and others are read after them. -/
theorem Stopped.after {taken : List Token} {r : Except SyntaxError (α × List Token)}
    (h : Stopped (before ++ taken) size ts r) : Stopped before size (taken ++ ts) r := by
  cases h with
  | ok split => exact .ok (by rw [List.append_assoc, split])
  | error split explains =>
    rw [List.append_assoc] at explains
    exact .error (by rw [List.append_assoc, split]) explains

theorem stops_pure (a : α) : Stops (pure a) := fun _ _ _ => .ok (List.nil_append _)

/-- Nothing is taken where the next token is what the error is about. -/
theorem stopped_fail {e : SyntaxError} (h : e.Explains before (ts.headD (.endOfFile size))) :
    Stopped before size ts ((fail e : Parser α) (.endOfFile size) ts) :=
  .error (List.nil_append _) (by rwa [List.append_nil])

theorem Stops.bind {p : Parser α} {f : α → Parser β} (hp : Stops p) (hf : ∀ a, Stops (f a)) :
    Stops (p >>= f) := by
  intro before size ts
  rw [bind_apply]
  have hread := hp before size ts
  generalize p (.endOfFile size) ts = r at hread
  cases hread with
  | @ok a taken rest split =>
    subst split
    exact (hf a (before ++ taken) size rest).after
  | error split explains => exact .error split explains

theorem Stops.map {p : Parser α} (hp : Stops p) (f : α → β) : Stops (f <$> p) :=
  hp.bind fun a => stops_pure (f a)

/-! ## Looking at tokens and taking them -/

theorem stops_peek : Stops peek := fun _ _ _ => .ok (List.nil_append _)

theorem stops_peekSecond : Stops peekSecond := fun _ _ _ => .ok (List.nil_append _)

theorem stops_next : Stops next := by
  intro before size ts
  have hsplit : ts.take 1 ++ ts.tail = ts := by
    rw [← List.drop_one]
    exact List.take_append_drop 1 ts
  exact .ok hsplit

/-- A token that is refused is explained if it would be as a token of the language. -/
theorem exists_explained (error : Token → SyntaxError) {t : Token}
    (h : Known t.kind → (error t).Explains before t) :
    ∃ e, (refuse error t : Parser α) = fail e ∧ e.Explains before t := by
  unfold refuse
  split
  · rename_i hkind
    exact ⟨_, rfl, rfl, hkind⟩
  · rename_i hkind
    exact ⟨_, rfl, rfl, hkind⟩
  · rename_i hterminated hknown
    exact ⟨_, rfl, h ⟨hknown, hterminated⟩⟩

theorem stopped_refuse {error : Token → SyntaxError}
    (h : ∀ t : Token, Known t.kind → (error t).Explains before t) :
    Stopped before size ts
      ((refuse error (ts.headD (.endOfFile size)) : Parser α) (.endOfFile size) ts) := by
  obtain ⟨e, he, hexplains⟩ := exists_explained (α := α) error (h (ts.headD (.endOfFile size)))
  rw [he]
  exact stopped_fail hexplains

/-- A token of a kind has to be there, and others are read after it. -/
theorem stopped_expect {kind : Token.Kind} (hkind : kind ≠ .endOfFile) {f : Token → Parser β}
    (h : ∀ (t : Terminal kind) (ts : List Token),
      Stopped (before ++ [t.1]) size ts (f t.1 (.endOfFile size) ts)) :
    Stopped before size ts ((expect kind >>= f) (.endOfFile size) ts) := by
  by_cases hfirst : firstKind ts = kind
  · obtain ⟨t, ts, rfl⟩ := exists_terminal hfirst hkind
    rw [expect_bind]
    have hrest : Stopped before size ([t.1] ++ ts) (f t.1 (.endOfFile size) ts) := (h t ts).after
    exact hrest
  · have hne : (ts.headD (.endOfFile size)).kind ≠ kind := by rwa [kind_headD]
    have hexpected : Known (ts.headD (.endOfFile size)).kind →
        (SyntaxError.expected kind (ts.headD (.endOfFile size))).Explains before
          (ts.headD (.endOfFile size)) := fun hknown => ⟨rfl, hknown, hne⟩
    obtain ⟨e, he, hexplains⟩ := exists_explained (α := Token) (.expected kind) hexpected
    rw [bind_apply, expect, peek_bind, if_neg hne, he]
    exact stopped_fail hexplains

theorem Stops.expect {kind : Token.Kind} (hkind : kind ≠ .endOfFile) {f : Token → Parser β}
    (h : ∀ t, Stops (f t)) : Stops (Parser.expect kind >>= f) :=
  fun _ _ _ => stopped_expect hkind fun t ts => h t.1 _ _ ts

theorem stops_accept (kind : Token.Kind) : Stops (accept kind) := by
  refine stops_peek.bind fun t => ?_
  split
  · exact stops_next.bind fun _ => stops_pure true
  · exact stops_pure false

theorem stops_many {starts : Token.Kind → Bool} {p : Parser α} (hp : Stops p) (n : Nat) :
    Stops (many starts p n) := by
  induction n with
  | zero => exact stops_pure []
  | succ n ih =>
    refine stops_peek.bind fun t => ?_
    split
    · exact hp.bind fun a => ih.bind fun as => stops_pure (a :: as)
    · exact stops_pure []

/-! ## Expressions -/

theorem explains_expectedExpression (t : Token) (h : Known t.kind) :
    (SyntaxError.expectedExpression t).Explains before t := ⟨rfl, h⟩

/-- A number is taken, which may have no value. -/
theorem stopped_integer {number : Token} (hkind : number.kind = .number) (value : Option Int64)
    (span : Span) : Stopped before size (number :: ts)
      ((next >>= fun _ => integer number value span) (.endOfFile size) (number :: ts)) := by
  rw [next_bind]
  cases value with
  | some value => exact .ok (List.singleton_append)
  | none => exact .error (List.nil_append _) ⟨rfl, hkind⟩

/-- A string is taken, in which an escape may be wrong. -/
theorem stopped_stringLiteral {t : Token} (hkind : t.kind = .string) :
    Stopped before size (t :: ts)
      ((next >>= fun _ => stringLiteral t) (.endOfFile size) (t :: ts)) := by
  rw [next_bind, stringLiteral]
  cases htext : t.unescaped with
  | ok text => exact .ok (List.singleton_append)
  | error e => exact .error (List.nil_append _) ⟨hkind, htext⟩

variable {nested operand : Parser Expr}

theorem stops_arguments (hn : Stops nested) (n : Nat) : Stops (arguments n nested) := by
  refine stops_peek.bind fun t => ?_
  split
  · exact stops_pure []
  · exact hn.bind fun first => (stops_many (stops_next.bind fun _ => hn) n).bind fun others =>
      stops_pure (first :: others)

theorem stops_primary (hn : Stops nested) (n : Nat) : Stops (primary n nested) := by
  intro before size ts
  rw [primary, peek_bind]
  cases ts with
  | nil => exact stopped_refuse explains_expectedExpression
  | cons t ts =>
    rw [List.headD_cons]
    cases hkind : t.kind with
    | number => exact stopped_integer hkind _ _
    | string => exact stopped_stringLiteral hkind
    | identifier =>
      have hname : Stops (next >>= fun _ => accept .leftParen >>= fun opened =>
          if opened then arguments n nested >>= fun args => expect .rightParen >>= fun closing =>
            pure (Expr.call t.lexeme args (t.span.merge closing.span))
          else pure (Expr.reference t.lexeme)) := by
        refine stops_next.bind fun _ => (stops_accept .leftParen).bind fun opened => ?_
        split
        · exact (stops_arguments hn n).bind fun args => .expect (by decide) fun closing =>
            stops_pure _
        · exact stops_pure _
      exact hname before size (t :: ts)
    | leftParen =>
      have hgroup : Stops (next >>= fun _ => nested >>= fun e => expect .rightParen >>= fun _ =>
          pure e) :=
        stops_next.bind fun _ => hn.bind fun e => .expect (by decide) fun _ => stops_pure e
      exact hgroup before size (t :: ts)
    | _ => exact stopped_refuse explains_expectedExpression

theorem stops_unary (ho : Stops operand) (n : Nat) : Stops (unary operand n) := by
  induction n with
  | zero => exact ho
  | succ n ih =>
    refine stops_peek.bind fun t => ?_
    split
    · exact stops_next.bind fun _ => ih.bind fun e => stops_pure _
    · refine stops_next.bind fun _ => fun before size ts => ?_
      rw [peek_bind]
      split
      · rename_i hkind
        rw [kind_headD] at hkind
        obtain ⟨number, ts, rfl⟩ := exists_terminal hkind (by decide)
        exact stopped_integer number.2 _ _
      · exact (ih.bind fun e => stops_pure _) before size ts
    · exact ho

theorem stops_chain (ho : Stops operand) (n : Nat) (isOperator : Token.Kind → Bool) :
    Stops (chain n isOperator operand) :=
  ho.bind fun _ => (stops_many (stops_next.bind fun _ => ho.bind fun _ => stops_pure _) n).bind
    fun _ => stops_pure _

theorem stops_comparison (ho : Stops operand) : Stops (comparison operand) := by
  refine ho.bind fun left => stops_peek.bind fun t => ?_
  split
  · exact stops_next.bind fun _ => ho.bind fun right => stops_pure _
  · exact stops_pure left

theorem stops_expression (n : Nat) : Stops (expression n) := by
  induction n with
  | zero => exact fun _ _ _ => stopped_refuse explains_expectedExpression
  | succ n ih =>
    exact stops_comparison (stops_chain (stops_chain (stops_unary (stops_primary ih _) _) _ _) _ _)

/-! ## Statements -/

theorem stops_binding (n : Nat) : Stops (binding n) := by
  refine .expect (by decide) fun keyword => .expect (by decide) fun target =>
    (stops_accept .equal).bind fun given => ?_
  have hend (value : Option Expr) : Stops (expect .semicolon >>= fun semicolon =>
      pure (⟨target.text, value, keyword.span.merge semicolon.span⟩ : Binding)) :=
    .expect (by decide) fun semicolon => stops_pure _
  cases given with
  | true => exact ((stops_expression n).map some).bind hend
  | false => exact hend none

theorem stops_condition (n : Nat) : Stops (condition n) :=
  .expect (by decide) fun _ => (stops_expression n).bind fun e => .expect (by decide) fun _ =>
    stops_pure e

theorem stops_giveBack (n : Nat) : Stops (giveBack n) := by
  refine .expect (by decide) fun keyword => stops_peek.bind fun t => ?_
  have hend (value : Option Expr) : Stops (expect .semicolon >>= fun semicolon =>
      pure (Stmt.giveBack value (keyword.span.merge semicolon.span))) :=
    .expect (by decide) fun semicolon => stops_pure _
  dsimp only
  split
  · exact hend none
  · exact ((stops_expression n).map some).bind hend

theorem stops_assignment (n : Nat) : Stops (assignment n) :=
  .expect (by decide) fun target => .expect (by decide) fun _ => (stops_expression n).bind fun value =>
    .expect (by decide) fun semicolon => stops_pure _

theorem stops_evaluation (n : Nat) : Stops (evaluation n) :=
  (stops_expression n).bind fun e => .expect (by decide) fun semicolon => stops_pure _

section

variable {inner : Parser Stmt} (hi : Stops inner) (n : Nat)

include hi

theorem stops_block : Stops (block n inner) :=
  .expect (by decide) fun opening => (stops_many hi n).bind fun statements =>
    .expect (by decide) fun closing => stops_pure _

theorem stops_loop : Stops (loop n inner) :=
  .expect (by decide) fun keyword => (stops_condition n).bind fun test =>
    (stops_block hi n).bind fun body => stops_pure _

theorem stops_otherwise : Stops (otherwise n inner) := by
  refine stops_peek.bind fun t => ?_
  split
  · exact hi.bind fun nested => stops_pure _
  · exact stops_block hi n

theorem stops_conditional : Stops (conditional n inner) := by
  refine .expect (by decide) fun keyword => (stops_condition n).bind fun test =>
    (stops_block hi n).bind fun body => (stops_accept .elseWord).bind fun continued => ?_
  split
  · exact (stops_otherwise hi n).bind fun other => stops_pure _
  · exact stops_pure _

theorem stops_statementOf : Stops (statementOf n inner) := by
  refine stops_peek.bind fun t => ?_
  split
  · exact (stops_binding n).map _
  · exact stops_loop hi n
  · exact stops_conditional hi n
  · exact stops_giveBack n
  · refine stops_peekSecond.bind fun kind => ?_
    split
    · exact stops_assignment n
    · exact stops_evaluation n
  · exact stops_evaluation n

end

theorem stops_statement (n : Nat) : Stops (statement n) := by
  induction n with
  | zero => exact stops_evaluation 0
  | succ n ih => exact stops_statementOf ih (n + 1)

/-! ## Declarations -/

theorem stops_function (n : Nat) : Stops (function n) := by
  intro before size ts
  refine stopped_expect (by decide) fun keyword ts => stopped_expect (by decide) fun callee ts =>
    stopped_expect (by decide) fun opening ts => ?_
  rw [peek_bind]
  split
  · rename_i hkind
    have hopens : OpensFunction [keyword.1, callee.1, opening.1] := by simp [OpensFunction]
    refine stopped_fail ⟨rfl, hkind, ?_⟩
    rw [List.append_assoc, List.append_assoc]
    exact hopens.after before
  · exact (stops_next.bind fun _ => (stops_block (stops_statement n) n).bind fun body =>
      stops_pure _) _ size ts

theorem stops_declaration (n : Nat) : Stops (declaration n) := by
  intro before size ts
  rw [declaration, peek_bind]
  cases (ts.headD (.endOfFile size)).kind with
  | funWord => exact (stops_function n).map _ before size ts
  | letWord => exact (stops_binding n).map _ before size ts
  | _ => exact stopped_refuse fun t h => ⟨rfl, h⟩

theorem stops_program (n : Nat) : Stops (program n) :=
  (stops_many (stops_declaration n) n).bind fun _ => stops_pure _

end Parser

/-- Where tokens are no program, the error says what is wrong with one of them, or with the end. -/
theorem Tree.explained_of_ofTokens {size : Nat} {ts : List Token} {e : SyntaxError}
    (h : ofTokens size ts = .error e) : ∃ before rest, before ++ rest = ts ∧
      e.Explains before (rest.headD (.endOfFile size)) := by
  have hread := Parser.stops_program ts.length [] size ts
  rw [Effect.except_map_eq_error.1 h] at hread
  cases hread with
  | error split explains => exact ⟨_, _, split, explains⟩

end StackLang
