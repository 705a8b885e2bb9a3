import StackLang.Proofs.Grammar.Complete
import StackLang.Proofs.Grammar.Prompt

/-!
# Errors at the earliest token

Each reader of the parser is prompt, by the readers that it is made of. What can still come after
the tokens that are taken is never written down: a reader that is followed by others can go on if
they can, and one token of each kind is enough to show it.

Results:
* `prompt_expression`, `prompt_statement`, `prompt_declaration`: the readers of the parser.
* `Tree.error_at_earliest_token`: a syntax error is about the first token that no program has there.
-/
namespace StackLang

open Grammar

/-- A number that has a value has one with a minus sign before it, too. -/
theorem Grammar.Phrase.valid_minus_of_valid {operator : Terminal .minus} {inner : Phrase .unary}
    (h : inner.Valid) : (minus operator inner).Valid := by
  cases hnumber : inner.number? with
  | none => exact (valid_minus hnumber).2 h
  | some t =>
    obtain ⟨t, rfl, rfl⟩ := number?_eq_some hnumber
    change Fits (decimalValue t.1.text.toList) at h
    change Fits (-decimalValue t.1.text.toList)
    unfold Fits at h ⊢
    omega

/-- An operand that is a whole expression. -/
def Grammar.Phrase.alone (inner : Phrase .primary) : Phrase .expression :=
  .single (.chain (.term (.chain (.factor (.plain inner)) .nil)) .nil)

@[simp] theorem Grammar.Phrase.tokens_alone (inner : Phrase .primary) :
    inner.alone.tokens = inner.tokens := by
  simp [alone]

theorem Grammar.Phrase.valid_alone {inner : Phrase .primary} (h : inner.Valid) : inner.alone.Valid :=
  ⟨⟨h, trivial⟩, trivial⟩

namespace Parser

variable {m k : Nat} {level : Level}

/-! ## Expressions -/

theorem prompt_arguments {nested : Nat → Parser Expr} (hn : Prompt m k .expression [] nested) :
    Prompt m k (.option .arguments) [] fun n => arguments n (nested n) := by
  have hnone : Spelled (.option .arguments) [] := ⟨.absent, rfl, trivial⟩
  have hargument (t : Token) (ht : t.kind = .comma) :
      PromptAt (some t) m k (.item .argument) [] fun n => next >>= fun _ => nested n :=
    .next (hn.wrap fun inner hv => ⟨.argument ⟨t, ht⟩ inner, rfl, hv⟩)
  have hsome : Prompt m k (.option .arguments) [] fun n => nested n >>= fun first =>
      many (· = .comma) (next >>= fun _ => nested n) n >>= fun others => pure (first :: others) := by
    refine hn.bind fun _ first hv => .bind ?_ fun _ others hvs =>
      .pure ⟨.present (.arguments first others), rfl, hv, hvs⟩
    exact prompt_many (i := .argument) (Nat.zero_le k) rfl fun t ht =>
      hargument t (of_decide_eq_true ht)
  refine .peek hnone.viable ((hsome.ends none).congr fun _ _ => rfl) fun t => ?_
  by_cases hclosing : t.kind = .rightParen
  · simp only [if_pos hclosing]
    exact (Prompt.pure hnone).ends _
  · simp only [if_neg hclosing]
    exact hsome.ends _

theorem viable_primary : Viable .primary [] := by
  have hzero : Spelled .primary ([] ++ [(Terminal.sample .number).1]) :=
    ⟨.number (.sample .number), rfl, by decide, by decide⟩
  exact hzero.viable.of_append (written_sample (by decide))

theorem prompt_primary {nested : Nat → Parser Expr} (hn : Prompt m (k + 1) .expression [] nested) :
    Prompt (m + 1) k .primary [] fun n => primary n (nested n) := by
  refine .peek viable_primary ?_ fun t => ?_
  · exact .refuse .expectedExpression (fun _ => rfl) viable_primary fun _ => rfl
  · cases hkind : t.kind with
    | number =>
      cases hvalue : t.integer? with
      | some value =>
        exact .next (.pure ⟨.number ⟨t, hkind⟩, rfl, (integer?_eq_some_iff.1 hvalue).1⟩)
      | none => exact .next_fail viable_primary rfl
    | string =>
      simp only [stringLiteral]
      cases htext : t.unescaped with
      | ok text =>
        obtain ⟨cs, hcs, -⟩ := Effect.except_map_eq_ok.1 htext
        exact .next (.pure ⟨.string ⟨t, hkind⟩, rfl, ((unescape_eq_ok_iff _ _).1 hcs).1⟩)
      | error e => exact .next_fail viable_primary ⟨hkind, Token.span_of_unescaped htext⟩
    | identifier =>
      refine .next_first (.accept (by decide) (fun opening => ?_)
        (.pure ⟨.name ⟨t, hkind⟩, rfl, trivial⟩))
      exact (prompt_arguments hn).bind fun _ values hv => .expect (by decide) fun closing =>
        .pure ⟨.call ⟨t, hkind⟩ opening values closing, by simp, hv⟩
    | leftParen =>
      exact .next_first (hn.bind fun _ inner hv => .expect (by decide) fun closing =>
        .pure ⟨.group ⟨t, hkind⟩ inner closing, by simp, hv⟩)
    | _ => exact .refuse .expectedExpression (fun _ => rfl) viable_primary fun _ => rfl

theorem unary_of_ne {operand : Parser Expr} {n size : Nat} {ts : List Token}
    (hbang : firstKind ts ≠ .bang) (hminus : firstKind ts ≠ .minus) :
    unary operand n (.endOfFile size) ts = operand (.endOfFile size) ts := by
  cases n with
  | zero => rfl
  | succ n =>
    rw [unary, peek_bind, kind_headD]
    cases hkind : firstKind ts with
    | bang => exact absurd hkind hbang
    | minus => exact absurd hkind hminus
    | _ => rfl

/-- What stands after a minus sign: a number, which the sign belongs to, or another operand. -/
theorem prompt_minus (minus : Terminal .minus) {operand : Nat → Parser Expr}
    (ho : Prompt m k .unary [] operand) : Prompt m k .unary [minus.1] fun n =>
      peek >>= fun number =>
        if number.kind = .number then
          next >>= fun _ => integer number number.negatedInteger? (minus.1.span.merge number.span)
        else operand n >>= fun e => pure (.negation minus.1 e) := by
  have hnegation : Prompt m k .unary [minus.1] fun n =>
      operand n >>= fun e => pure (Expr.negation minus.1 e) :=
    ho.bind fun _ inner hv => .pure ⟨.minus minus inner, rfl, Phrase.valid_minus_of_valid hv⟩
  refine .peek hnegation.viable ((hnegation.ends none).congr fun _ _ => rfl) fun t => ?_
  by_cases hkind : t.kind = .number
  · simp only [if_pos hkind]
    cases hvalue : t.negatedInteger? with
    | some value =>
      have hfits := (negatedInteger?_eq_some_iff.1 hvalue).1
      exact .next (.pure ⟨.minus minus (.plain (.number ⟨t, hkind⟩)), rfl, hfits⟩)
    | none => exact .next_fail hnegation.viable rfl
  · simp only [if_neg hkind]
    exact hnegation.ends _

theorem prompt_unary {operand : Nat → Parser Expr} (ho : Prompt m k .primary [] operand) :
    Prompt m k .unary [] fun n => unary (operand n) (n - k) := by
  have hplain {m k} (ho : Prompt m k .primary [] operand) : Prompt m k .unary [] operand :=
    ho.wrap fun inner hv => ⟨.plain inner, rfl, hv⟩
  have hother {m k first?} (ho : Prompt m k .primary [] operand)
      (hbang : firstKind first?.toList ≠ .bang) (hminus : firstKind first?.toList ≠ .minus) :
      PromptAt first? m k .unary [] fun n => unary (operand n) (n - k) :=
    ((hplain ho).ends first?).congr fun hhead _ =>
      unary_of_ne (by rwa [firstKind_of_head? hhead]) (by rwa [firstKind_of_head? hhead])
  induction m generalizing k with
  | zero => exact .of_head (hplain ho).viable (hother ho nofun nofun) fun _ => .zero
  | succ m ih =>
    refine .of_head (hplain ho).viable (hother ho nofun nofun) fun t => ?_
    have hinner : Prompt m (k + 1) .unary [] fun n => unary (operand n) (n - (k + 1)) :=
      ih (ho.mono (Nat.le_succ m) (Nat.le_succ k))
    have hsucc {n : Nat} (hn : k < n) : n - k = n - (k + 1) + 1 := by omega
    by_cases hbang : t.kind = .bang
    · have hbanged : Prompt m (k + 1) .unary [t] fun n =>
          unary (operand n) (n - (k + 1)) >>= fun e => pure (Expr.unary t e) :=
        hinner.bind fun _ inner hv => .pure ⟨.bang ⟨t, hbang⟩ inner, rfl, hv⟩
      refine .take hbanged ?_
      intro n size ts hn
      rw [hsucc hn, unary, peek_bind, List.headD_cons]
      simp only [hbang]
      rfl
    by_cases hminus : t.kind = .minus
    · refine .take (prompt_minus ⟨t, hminus⟩ hinner) ?_
      intro n size ts hn
      rw [hsucc hn, unary, peek_bind, List.headD_cons]
      simp only [hminus]
      rfl
    · exact hother ho hbang hminus

theorem prompt_chain {operand : Nat → Parser Expr} (ho : Prompt m k (.operand level) [] operand) :
    Prompt m k (.chain level) [] fun n => chain n (isOperator level) (operand n) := by
  have hlink (t : Token) (ht : isOperator level t.kind) :
      PromptAt (some t) m k (.item (.link level)) [] fun n =>
        next >>= fun operator => operand n >>= fun right => pure (operator, right) :=
    .next (ho.bind fun _ right hv => .pure ⟨.link t (isOperator_iff.1 ht) right, rfl, hv⟩)
  refine ho.bind fun _ first hv => .bind ?_ fun _ others hvs =>
    .pure ⟨.chain first others, rfl, hv, hvs⟩
  exact prompt_many (i := .link level) (Nat.zero_le k) (by cases level <;> rfl) hlink

theorem prompt_comparison {operand : Nat → Parser Expr} (ho : Prompt m k (.chain .sum) [] operand) :
    Prompt m k .expression [] fun n => comparison (operand n) := by
  refine ho.bind fun e left hv => ?_
  have hsingle : Spelled .expression left.tokens := ⟨.single left, rfl, hv⟩
  refine .peek hsingle.viable ?_ fun t => ?_
  · exact ((Prompt.pure (a := e) hsingle).ends none).congr fun _ _ => rfl
  · by_cases hop : t.kind.isComparison
    · simp only [if_pos hop]
      exact .next (ho.bind fun _ right hright =>
        .pure ⟨.compared left t (isComparison_iff.1 hop) right, by simp, hv, hright⟩)
    · simp only [if_neg hop]
      exact (Prompt.pure hsingle).ends _

theorem prompt_expressionOf {nested : Nat → Parser Expr} (hn : Prompt m 1 .expression [] nested) :
    Prompt (m + 1) 0 .expression [] fun n => expressionOf n (nested n) := by
  have hfactor : Prompt (m + 1) 0 (.operand .product) [] fun n => unary (primary n (nested n)) n :=
    (prompt_unary (prompt_primary hn)).wrap fun inner hv => ⟨.factor inner, rfl, hv⟩
  have hterm : Prompt (m + 1) 0 (.operand .sum) [] fun n =>
      chain n (isOperator .product) (unary (primary n (nested n)) n) :=
    (prompt_chain hfactor).wrap fun inner hv => ⟨.term inner, rfl, hv⟩
  exact prompt_comparison (prompt_chain hterm)

theorem prompt_expression : Prompt m k .expression [] expression := by
  suffices h : Prompt m 0 .expression [] expression from h.mono (Nat.le_refl m) (Nat.zero_le k)
  have hviable : Viable .expression [] := by
    rw [← List.append_nil ([] : List Token)]
    exact viable_primary.inside fun d hv =>
      Spelled.viable ⟨d.alone, d.tokens_alone, d.valid_alone hv⟩
  have hnil {m} : PromptAt none m 0 .expression [] expression :=
    .refuse .expectedExpression (fun _ => rfl) hviable fun {n size ts} hhead => by
      rw [List.head?_eq_none_iff.1 hhead]
      cases n <;> rfl
  induction m with
  | zero => exact .of_head hviable hnil fun _ => .zero
  | succ m ih =>
    refine .of_head hviable hnil fun t => ?_
    refine ((prompt_expressionOf (ih.shift 1)).ends (some t)).congr fun {n size ts} hhead hn => ?_
    obtain ⟨ts, rfl⟩ := List.head?_eq_some_iff.1 hhead
    cases n with
    | zero => cases hn
    | succ n => rfl

/-! ## Statements -/

theorem prompt_binding : Prompt m k .binding [] binding := by
  refine .expect (by decide) fun keyword => .expect (by decide) fun target =>
    .accept (by decide) (fun equal => ?_) ?_
  · exact (prompt_expression.map some).bind fun _ inner hv => .expect (by decide) fun semicolon =>
      .pure ⟨.binding keyword target (.present (.initializer equal inner)) semicolon, by simp, hv⟩
  · exact .expect (by decide) fun semicolon =>
      .pure ⟨.binding keyword target .absent semicolon, by simp, trivial⟩

theorem prompt_condition : Prompt m k .condition [] condition :=
  .expect (by decide) fun opening => prompt_expression.bind fun _ inner hv =>
    .expect (by decide) fun closing => .pure ⟨.condition opening inner closing, by simp, hv⟩

theorem prompt_giveBack : Prompt m k (.item .statement) [] giveBack := by
  refine .expect (by decide) fun keyword => ?_
  have habsent : Prompt m k (.item .statement) [keyword.1] fun _ =>
      expect .semicolon >>= fun semicolon =>
        pure (Stmt.giveBack none (keyword.1.span.merge semicolon.span)) :=
    .expect (by decide) fun semicolon =>
      .pure ⟨.giveBack keyword .absent semicolon, rfl, trivial⟩
  have hpresent : Prompt m k (.item .statement) [keyword.1] fun n =>
      some <$> expression n >>= fun value => expect .semicolon >>= fun semicolon =>
        pure (Stmt.giveBack value (keyword.1.span.merge semicolon.span)) :=
    (prompt_expression.map some).bind fun _ inner hv => .expect (by decide) fun semicolon =>
      .pure ⟨.giveBack keyword (.present (.result inner)) semicolon, by simp, hv⟩
  refine .peek habsent.viable ((hpresent.ends none).congr fun _ _ => rfl) fun t => ?_
  by_cases hkind : t.kind = .semicolon
  · simp only [if_pos hkind]
    exact habsent.ends _
  · simp only [if_neg hkind]
    exact hpresent.ends _

theorem prompt_evaluation : Prompt m k (.item .statement) [] evaluation :=
  prompt_expression.bind fun _ inner hv => .expect (by decide) fun semicolon =>
    .pure ⟨.evaluate inner semicolon, by simp, hv⟩

/-- Readers of nested statements. Where a conditional starts, they read nothing else. -/
structure PromptNested (m k : Nat) (nested : Nat → Parser Stmt) : Prop where
  statement : Prompt m k (.item .statement) [] nested
  conditional (t : Token) (ht : t.kind = .ifWord) : PromptAt (some t) m k .conditional [] nested

section

variable {nested : Nat → Parser Stmt}

theorem prompt_block (hn : Prompt m k (.item .statement) [] nested) :
    Prompt m k .block [] fun n => block n (nested n) := by
  refine .expect (by decide) fun opening => .bind ?_ fun _ statements hv =>
    .expect (by decide) fun closing => .pure ⟨.block opening statements closing, by simp, hv⟩
  exact prompt_many (i := .statement) (Nat.zero_le k) rfl fun t _ => hn.ends (some t)

theorem prompt_loop (hn : Prompt m (k + 1) (.item .statement) [] nested) :
    Prompt (m + 1) k (.item .statement) [] fun n => loop n (nested n) :=
  .expect_first (by decide) fun keyword => prompt_condition.bind fun _ test htest =>
    (prompt_block hn).bind fun _ body hbody =>
      .pure ⟨.loop keyword test body, by simp, htest, hbody⟩

/-- What stands after `else`, as a part of something larger. -/
theorem prompt_otherwise {c : Category} {before : List Token} {keyword : Terminal .elseWord}
    (hn : PromptNested m k nested) (hd : ∀ other : Phrase (.part .alternative), other.Valid →
      Spelled c (before ++ other.tokens)) :
    Prompt m k c (before ++ [keyword.1]) fun n => otherwise n (nested n) := by
  have hblock : Prompt m k c (before ++ [keyword.1]) fun n => block n (nested n) :=
    (prompt_block hn.statement).wrap fun body hv => by simpa using hd (.elseBlock keyword body) hv
  refine .peek hblock.viable ((hblock.ends none).congr fun _ _ => rfl) fun t => ?_
  by_cases hkind : t.kind = .ifWord
  · simp only [if_pos hkind]
    exact (hn.conditional t hkind).bind fun _ inner hv =>
      .pure (by simpa using hd (.elseIf keyword inner) hv)
  · simp only [if_neg hkind]
    exact hblock.ends _

theorem prompt_conditional (hn : PromptNested m (k + 1) nested) :
    Prompt (m + 1) k .conditional [] fun n => conditional n (nested n) := by
  refine .expect_first (by decide) fun keyword => prompt_condition.bind fun _ test htest =>
    (prompt_block hn.statement).bind fun _ body hbody => .accept (by decide) (fun elseWord => ?_) ?_
  · exact (prompt_otherwise hn fun other hother => ⟨.conditional keyword test body (.present other),
      by simp, htest, hbody, hother⟩).map _
  · exact .pure ⟨.conditional keyword test body .absent, by simp, htest, hbody, trivial⟩

end

/-- A statement that starts with a name is an assignment if an equals sign comes next. -/
theorem prompt_named {t : Token} (ht : t.kind = .identifier) :
    PromptAt (some t) (m + 1) k (.item .statement) [] fun n =>
      peekSecond >>= fun kind => if kind = .equal then assignment n else evaluation n := by
  have hassigned : Prompt m (k + 1) (.item .statement) [t] fun n =>
      expect .equal >>= fun _ => expression n >>= fun value => expect .semicolon >>= fun semicolon =>
        pure (Stmt.assign t.lexeme value (t.span.merge semicolon.span)) :=
    .expect (by decide) fun equal => prompt_expression.bind fun _ value hv =>
      .expect (by decide) fun semicolon =>
        .pure ⟨.assign ⟨t, ht⟩ equal value semicolon, by simp, hv⟩
  have hevaluated (first? : Option Token) :
      PromptAt first? m (k + 1) (.item .statement) [t] fun n eof ts =>
        evaluation n eof (t :: ts) := by
    have hread := @evaluation_tokens 0 (k + 2) [] (Phrase.name ⟨t, ht⟩).alone
      (.sample .semicolon) (Phrase.valid_alone trivial) (by simp)
    exact (prompt_evaluation.ends (some t)).drop (by simp; omega) hread
  have hequal {n size : Nat} {ts : List Token} (h : firstKind ts = .equal) :
      (peekSecond >>= fun kind => if kind = .equal then assignment n else evaluation n)
        (.endOfFile size) (t :: ts) = assignment n (.endOfFile size) (t :: ts) := by
    rw [peekSecond_bind, List.tail_cons, if_pos h]
  have hother {n size : Nat} {ts : List Token} (h : firstKind ts ≠ .equal) :
      (peekSecond >>= fun kind => if kind = .equal then assignment n else evaluation n)
        (.endOfFile size) (t :: ts) = evaluation n (.endOfFile size) (t :: ts) := by
    rw [peekSecond_bind, List.tail_cons, if_neg h]
  refine .take (q := fun n eof ts => (peekSecond >>= fun kind =>
    if kind = .equal then assignment n else evaluation n) eof (t :: ts)) ?_ fun _ => rfl
  refine ⟨hassigned.viable, fun first? => ?_⟩
  by_cases hkind : firstKind first?.toList = .equal
  · refine (hassigned.ends first?).congr fun hhead _ => ?_
    exact (hequal (by rwa [firstKind_of_head? hhead])).trans (expect_bind ⟨t, ht⟩ _ _ _)
  · exact (hevaluated first?).congr fun hhead _ => hother (by rwa [firstKind_of_head? hhead])

theorem prompt_statementOf {nested : Nat → Parser Stmt} (hn : PromptNested m 1 nested) :
    PromptNested (m + 1) 0 fun n => statementOf n (nested n) := by
  have hconditional : Prompt (m + 1) 0 .conditional [] fun n => conditional n (nested n) :=
    prompt_conditional hn
  refine ⟨.peek hn.statement.viable ?_ fun t => ?_, fun t ht => .peek ?_⟩
  · exact (prompt_evaluation.ends none).congr fun _ _ => rfl
  · cases hkind : t.kind with
    | letWord =>
      exact (prompt_binding.bind fun _ inner hv => .pure ⟨.declare inner, rfl, hv⟩).ends _
    | whileWord => exact (prompt_loop hn.statement).ends _
    | ifWord => exact (hconditional.ends _).wrap fun inner hv => ⟨.branch inner, rfl, hv⟩
    | returnWord => exact prompt_giveBack.ends _
    | identifier => exact prompt_named hkind
    | _ => exact prompt_evaluation.ends _
  · simp only [ht]
    exact hconditional.ends _

theorem prompt_statement : Prompt m k (.item .statement) [] statement := by
  suffices h : PromptNested m 0 statement from h.statement.mono (Nat.le_refl m) (Nat.zero_le k)
  have hviable : Viable (.item .statement) [] := (prompt_evaluation (m := 0) (k := 0)).viable
  have hnil {m} : PromptAt none m 0 (.item .statement) [] statement := by
    refine (prompt_evaluation.ends none).congr fun {n size ts} hhead _ => ?_
    rw [List.head?_eq_none_iff.1 hhead]
    cases n <;> rfl
  induction m with
  | zero => exact ⟨.of_head hviable hnil fun _ => .zero, fun _ _ => .zero⟩
  | succ m ih =>
    have hsame {t : Token} {n size : Nat} {ts : List Token} (hhead : ts.head? = some t)
        (hn : ts.length ≤ n) : statement n (.endOfFile size) ts =
          statementOf n (statement (n - 1)) (.endOfFile size) ts := by
      obtain ⟨ts, rfl⟩ := List.head?_eq_some_iff.1 hhead
      cases n with
      | zero => cases hn
      | succ n => rfl
    have hnested : PromptNested (m + 1) 0 fun n => statementOf n (statement (n - 1)) :=
      prompt_statementOf ⟨ih.statement.shift 1, fun t ht => (ih.conditional t ht).shift 1⟩
    exact ⟨.of_head hviable hnil fun t => (hnested.statement.ends (some t)).congr hsame,
      fun t ht => (hnested.conditional t ht).congr hsame⟩

/-! ## Declarations -/

theorem prompt_function : Prompt m k (.item .declaration) [] function := by
  refine .expect (by decide) fun keyword => .expect (by decide) fun callee =>
    .expect (by decide) fun opening => ?_
  have hclosed (closing : Terminal .rightParen) : Prompt m k (.item .declaration)
      ([keyword.1, callee.1, opening.1] ++ [closing.1]) fun n => block n (statement n) >>= fun body =>
        pure (⟨callee.1.lexeme, body, keyword.1.span.merge body.span⟩ : Function) :=
    (prompt_block prompt_statement).bind fun _ body hv =>
      .pure ⟨.function keyword callee opening closing body, rfl, hv⟩
  have hviable : Viable (.item .declaration) [keyword.1, callee.1, opening.1] :=
    (hclosed (.sample .rightParen)).viable.of_append (written_sample (by decide))
  refine .peek hviable (.stop hviable fun _ => ⟨_, rfl, rfl⟩) fun t => ?_
  by_cases hkind : t.kind = .rightParen
  · simp only [if_neg (not_not_intro hkind)]
    exact .next (hclosed ⟨t, hkind⟩)
  · simp only [if_pos hkind]
    exact .stop hviable fun _ => ⟨_, rfl, rfl⟩

theorem prompt_declaration : Prompt m k (.item .declaration) [] declaration := by
  have hglobal : Prompt m k (.item .declaration) [] fun n => Declaration.global <$> binding n :=
    (prompt_binding.wrap fun inner hv => ⟨.global inner, rfl, hv⟩).map _
  refine .peek hglobal.viable ?_ fun t => ?_
  · exact .refuse .expectedDeclaration (fun _ => rfl) hglobal.viable fun _ => rfl
  · cases hkind : t.kind with
    | funWord => exact (prompt_function.map _).ends _
    | letWord => exact hglobal.ends _
    | _ => exact .refuse .expectedDeclaration (fun _ => rfl) hglobal.viable fun _ => rfl

theorem prompt_program : Prompt m 0 (.many .declaration) [] program :=
  (prompt_many (i := .declaration) (Nat.le_refl 0) rfl fun t _ =>
    prompt_declaration.ends (some t)).map Tree.mk

end Parser

/-! ## Syntax errors -/

/-- Where tokens are no program, there is one among them, or the end, that the error is about. What
stands before it can be completed to a program, but not with this token. -/
theorem Parser.exists_refused {size : Nat} {ts : List Token} {e : SyntaxError}
    (h : Tree.ofTokens size ts = .error e) : ∃ pre rest, ts = pre ++ rest ∧
      e.Concerns (rest.headD (.endOfFile size)) ∧ Viable (.many .declaration) pre ∧
      ∀ size' rest', rest'.head? = rest.head? →
        ∃ e', Tree.ofTokens size' (pre ++ rest') = .error e' := by
  have hends := prompt_program.ends _ ts.length size ts rfl (Nat.le_refl _) (Nat.le_refl _)
  rw [Effect.except_map_eq_error.1 h] at hends
  cases hends with
  | @error e pre rest split concerns viable again =>
    refine ⟨pre, rest, split.symm, concerns, viable, fun size' rest' hhead => ?_⟩
    obtain ⟨e', he'⟩ := again hhead (Nat.le_refl _)
    exact ⟨e', Effect.except_map_eq_error.2 he'⟩

/-- A syntax error is about the earliest token that it can be about: the tokens before it can be
completed to a program, and no program starts with them and it. It may be the end of the source. -/
theorem Tree.error_at_earliest_token {source : String} {e : SyntaxError}
    (h : ofSource source = .error e) : ∃ p ≤ (Token.scan source).length,
      e.Concerns ((Token.scan source)[p]?.getD (.endOfFile (byteLength source.toList))) ∧
      (∃ more t, Written more ∧ ∀ size, ofTokens size ((Token.scan source).take p ++ more) = .ok t) ∧
      (p < (Token.scan source).length → ∀ size more, ∃ e',
        ofTokens size ((Token.scan source).take (p + 1) ++ more) = .error e') := by
  obtain ⟨pre, rest, hsplit, hconcerns, ⟨more, hmore, d, hd, hv⟩, hagain⟩ := Parser.exists_refused h
  have hhead : (Token.scan source)[pre.length]? = rest.head? := by
    rw [hsplit, List.getElem?_append_right (Nat.le_refl _), Nat.sub_self, List.head?_eq_getElem?]
  refine ⟨pre.length, by simp [hsplit], ?_, ⟨more, ⟨d.tree⟩, hmore, fun size => ?_⟩, ?_⟩
  · rwa [hhead, ← List.headD_eq_head?_getD]
  · rw [hsplit, List.take_left, ← hd]
    exact Parser.ofTokens_tokens d hv
  · intro hlt size more
    rw [List.take_add_one, hhead, hsplit, List.take_left, List.append_assoc]
    cases rest with
    | nil => simp [hsplit] at hlt
    | cons t rest => exact hagain size (t :: more) rfl

/-- A declaration whose value is missing is refused at its semicolon. -/
theorem Tree.missing_value_refused :
    ofSource "let x = ;" = .error (.expectedExpression ⟨.semicolon, 8, ";"⟩) ∧
      ∃ p ≤ (Token.scan "let x = ;").length,
      (SyntaxError.expectedExpression ⟨.semicolon, 8, ";"⟩).Concerns
        ((Token.scan "let x = ;")[p]?.getD (.endOfFile (byteLength "let x = ;".toList))) ∧
      (∃ more t, Written more ∧
        ∀ size, ofTokens size ((Token.scan "let x = ;").take p ++ more) = .ok t) ∧
      (p < (Token.scan "let x = ;").length → ∀ size more, ∃ e',
        ofTokens size ((Token.scan "let x = ;").take (p + 1) ++ more) = .error e') := by
  have hscan : Token.scan "let x = ;" = [⟨.letWord, 0, "let"⟩, ⟨.identifier, 4, "x"⟩,
      ⟨.equal, 6, "="⟩, ⟨.semicolon, 8, ";"⟩] := by decide +kernel
  have h : ofSource "let x = ;" = .error (.expectedExpression ⟨.semicolon, 8, ";"⟩) := by
    simp only [ofSource, hscan]
    rfl
  exact ⟨h, error_at_earliest_token h⟩

end StackLang
