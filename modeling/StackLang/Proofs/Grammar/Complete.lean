import StackLang.Proofs.Grammar.Reading

/-!
# What is derived is read

Each reader of the parser reads all phrases of its category: on the tokens of a phrase whose literals
are valid, followed by a token that the phrase does not go on with, it gives the tree of the phrase
and leaves what follows. The bound that readers are given has to be large enough for all tokens.

Results:
* `complete_expression`, `complete_statement`, `complete_declaration`: what each reader reads.
* `ofTokens_tokens`: the tokens of a derivation of a whole program are read.
-/
namespace StackLang.Parser

open Grammar

variable {size n : Nat} {rest : List Token} {level : Level}

/-- A reader reads all phrases of the category, from at most so many tokens. -/
def Complete (n : Nat) (c : Category) (p : Parser c.Meaning) : Prop :=
  ∀ (d : Phrase c) ⦃size : Nat⦄ ⦃rest : List Token⦄, d.Valid → d.tokens.length + rest.length ≤ n →
    firstKind rest ∉ c.continues → p (.endOfFile size) (d.tokens ++ rest) = .ok (d.tree, rest)

theorem Complete.bind {c : Category} {p : Parser c.Meaning} (hp : Complete n c p) {β : Type}
    (f : c.Meaning → Parser β) {d : Phrase c} (hv : d.Valid) (hn : d.tokens.length + rest.length ≤ n)
    (hrest : firstKind rest ∉ c.continues) :
    (p >>= f) (.endOfFile size) (d.tokens ++ rest) = f d.tree (.endOfFile size) rest := by
  rw [bind_apply, hp d hv hn hrest]

theorem Complete.map {c : Category} {p : Parser c.Meaning} (hp : Complete n c p) {β : Type}
    (g : c.Meaning → β) {d : Phrase c} (hv : d.Valid) (hn : d.tokens.length + rest.length ≤ n)
    (hrest : firstKind rest ∉ c.continues) :
    (g <$> p) (.endOfFile size) (d.tokens ++ rest) = .ok (g d.tree, rest) :=
  map_eq_ok_iff.2 ⟨_, hp d hv hn hrest, rfl⟩

theorem Complete.mono {c : Category} {p : Parser c.Meaning} (hp : Complete n c p) {k : Nat}
    (hk : k ≤ n) : Complete k c p := fun d _ _ hv hn => hp d hv (Nat.le_trans hn hk)

/-- A sequence is read to its end. -/
theorem many_tokens {i : Item} {starts : Token.Kind → Bool} {p : Parser i.Meaning} {k : Nat}
    (hp : Complete n (.item i) p) (hstarts : ∀ kind ∈ i.starts, starts kind) (d : Phrase (.many i))
    (hv : d.Valid) (hn : d.tokens.length + rest.length ≤ n) (hk : d.tokens.length + rest.length ≤ k)
    (hend : starts (firstKind rest) = false) (hrest : firstKind rest ∉ (Category.many i).continues) :
    many starts p k (.endOfFile size) (d.tokens ++ rest) = .ok (d.tree, rest) := by
  induction k generalizing d with
  | zero =>
    cases d with
    | nil => rfl
    | cons first others =>
      have hpos := first.length_pos trivial
      simp only [Phrase.tokens, List.length_append] at hk
      omega
  | succ k ih =>
    rw [many, peek_bind, kind_headD]
    cases d with
    | nil =>
      have hstop : ¬ starts (firstKind ((.nil : Phrase (.many i)).tokens ++ rest)) := by
        simp [Phrase.tokens, hend]
      rw [if_neg hstop]
      rfl
    | cons first others =>
      have hpos := first.length_pos trivial
      simp only [Phrase.tokens, List.append_assoc, List.length_append] at hn hk ⊢
      rw [if_pos (hstarts _ (first.firstKind_mem trivial _)),
        hp.bind _ hv.1 (by rw [List.length_append]; omega) (others.firstKind_not_mem_of_many hrest),
        bind_apply, ih others hv.2 (by omega) (by omega)]
      rfl

/-! ## Expressions -/

/-- The arguments of a call are read up to its closing parenthesis. -/
theorem arguments_tokens {nested : Parser Expr} (hp : Complete n .expression nested)
    (values : Phrase (.option .arguments)) (hv : values.Valid) (closing : Terminal .rightParen)
    (hn : values.tokens.length + (closing.1 :: rest).length ≤ n) {k : Nat} (hk : n ≤ k) :
    arguments k nested (.endOfFile size) (values.tokens ++ closing.1 :: rest) =
      .ok (values.tree.getD [], closing.1 :: rest) := by
  have harg : Complete n (.item .argument) (do let _ ← next; nested) := by
    intro d size rest hv hn hrest
    cases d with
    | argument comma inner =>
      exact hp inner hv (Nat.le_of_succ_le (by simpa [Phrase.tokens, Nat.succ_add] using hn)) hrest
  rw [arguments, peek_bind, kind_headD]
  cases values with
  | absent =>
    have hclosing : firstKind ((.absent : Phrase (.option .arguments)).tokens ++ closing.1 :: rest) =
        .rightParen := closing.2
    rw [if_pos hclosing]
    rfl
  | present inner =>
    cases inner with
    | arguments first others =>
      have hpos := first.length_pos trivial
      have hne : firstKind (first.tokens ++ (others.tokens ++ closing.1 :: rest)) ≠ .rightParen :=
        fun heq => absurd (heq ▸ first.firstKind_mem trivial _) (by decide)
      simp only [Phrase.tokens, List.append_assoc, List.length_append] at hn ⊢
      rw [if_neg hne, hp.bind _ hv.1 (by rw [List.length_append]; omega)
        (others.firstKind_not_mem_of_many (i := .argument) (closing.firstKind_not_mem (by decide))),
        bind_apply, many_tokens harg (by decide) others hv.2 (by omega) (by omega)
          (by rw [firstKind_cons, closing.2]; rfl) (closing.firstKind_not_mem (by decide))]
      rfl

theorem complete_primary {nested : Parser Expr} (hp : Complete n .expression nested) :
    Complete (n + 1) .primary (primary (n + 1) nested) := by
  intro d size rest hv hn hrest
  rw [primary, peek_bind]
  cases d with
  | number t =>
    have hvalue := integer?_eq_some_iff.2 ⟨hv, rfl⟩
    simp only [Phrase.tokens, List.cons_append, List.nil_append, List.headD_cons, t.kind_eq]
    rw [next_bind, hvalue]
    rfl
  | string t =>
    have htext : t.1.unescaped = .ok (String.ofList (literalText t.1.contents)) := by
      rw [Token.unescaped, (unescape_eq_ok_iff _ _).2 ⟨hv, rfl⟩]
      rfl
    simp only [Phrase.tokens, List.cons_append, List.nil_append, List.headD_cons, t.kind_eq]
    rw [next_bind, stringLiteral, htext]
    rfl
  | name t =>
    simp only [Phrase.tokens, List.cons_append, List.nil_append, List.headD_cons, t.kind_eq]
    rw [next_bind, accept_bind_of_ne fun heq => hrest (heq ▸ List.mem_singleton_self _)]
    rfl
  | call callee opening values closing =>
    simp only [Phrase.tokens, List.cons_append, List.append_assoc, List.nil_append, List.headD_cons,
      callee.kind_eq, List.length_cons, List.length_append] at hn ⊢
    rw [next_bind, accept_bind, if_pos rfl, bind_apply,
      arguments_tokens hp values hv closing (by simp only [List.length_cons]; omega) (Nat.le_succ n)]
    simp only
    rw [expect_bind]
    rfl
  | group opening inner closing =>
    simp only [Phrase.tokens, List.cons_append, List.append_assoc, List.nil_append, List.headD_cons,
      opening.kind_eq, List.length_cons, List.length_append] at hn ⊢
    rw [next_bind, hp.bind _ hv (by simp only [List.length_cons]; omega)
      (closing.firstKind_not_mem (by decide)), expect_bind]
    rfl

theorem unary_tokens {operand : Parser Expr} (ho : Complete n .primary operand) {k : Nat}
    (d : Phrase .unary) (hv : d.Valid) (hn : d.tokens.length + rest.length ≤ n)
    (hk : d.tokens.length + rest.length ≤ k) (hrest : firstKind rest ∉ Category.unary.continues) :
    unary operand k (.endOfFile size) (d.tokens ++ rest) = .ok (d.tree, rest) := by
  induction k generalizing d with
  | zero =>
    have hpos := d.length_pos trivial
    omega
  | succ k ih =>
    rw [unary, peek_bind]
    cases d with
    | bang operator inner =>
      simp only [Phrase.tokens, List.cons_append, List.headD_cons, operator.kind_eq,
        List.length_cons] at hn hk ⊢
      rw [next_bind, bind_apply, ih inner hv (by omega) (by omega)]
      rfl
    | minus operator inner =>
      simp only [Phrase.tokens, List.cons_append, List.headD_cons, operator.kind_eq,
        List.length_cons] at hn hk ⊢
      rw [next_bind, peek_bind, kind_headD]
      cases hnumber : inner.number? with
      | some t =>
        obtain ⟨number, rfl, -⟩ := Phrase.number?_eq_some hnumber
        have hvalue := negatedInteger?_eq_some_iff.2 ⟨hv, rfl⟩
        have hkind : firstKind ((Phrase.plain (.number number)).tokens ++ rest) = .number := number.2
        rw [if_pos hkind]
        simp only [Phrase.tokens, List.cons_append, List.nil_append, List.headD_cons]
        rw [next_bind, hvalue]
        rfl
      | none =>
        rw [if_neg (Phrase.firstKind_ne_number hnumber rest), bind_apply,
          ih inner ((Phrase.valid_minus hnumber).1 hv) (by omega) (by omega),
          Phrase.tree_minus hnumber]
        rfl
    | plain inner =>
      have hmem := inner.firstKind_mem trivial rest
      rw [← kind_headD size] at hmem
      simp only [Category.starts, List.mem_cons, List.not_mem_nil, or_false] at hmem
      simp only [Phrase.tokens] at hn ⊢
      rcases hmem with hkind | hkind | hkind | hkind <;> rw [hkind] <;> exact ho inner hv hn hrest

theorem complete_chain {operand : Parser Expr} (ho : Complete n (.operand level) operand) :
    Complete n (.chain level) (chain n (isOperator level) operand) := by
  have hlink : Complete n (.item (.link level))
      (do let operator ← next; let right ← operand; return (operator, right)) := by
    intro d size rest hv hn hrest
    cases d with
    | link operator known right =>
      simp only [Phrase.tokens, List.cons_append, List.length_cons] at hn ⊢
      rw [next_bind, ho.bind _ hv (by omega) hrest]
      rfl
  intro d size rest hv hn hrest
  cases d with
  | chain first others =>
    have hend : isOperator level (firstKind rest) = false := by
      rw [← Bool.not_eq_true, isOperator_iff]
      exact fun hmem => hrest (List.mem_append_left _ hmem)
    simp only [Phrase.tokens, List.append_assoc, List.length_append] at hn ⊢
    rw [chain, ho.bind _ hv.1 (by rw [List.length_append]; omega)
      (others.firstKind_not_mem_of_many hrest), bind_apply,
      many_tokens hlink (fun _ => isOperator_iff.2) others hv.2 (by omega) (by omega) hend hrest]
    rfl

theorem complete_comparison {operand : Parser Expr} (ho : Complete n (.chain .sum) operand) :
    Complete n .expression (comparison operand) := by
  intro d size rest hv hn hrest
  have hsum : firstKind rest ∉ (Category.chain .sum).continues :=
    fun hmem => hrest (List.mem_append_right _ hmem)
  rw [comparison]
  cases d with
  | single inner =>
    have hend : ¬ (firstKind rest).isComparison :=
      fun hop => hrest (List.mem_append_left _ (isComparison_iff.1 hop))
    simp only [Phrase.tokens] at hn ⊢
    rw [ho.bind _ hv hn hsum, peek_bind, kind_headD, if_neg hend]
    rfl
  | compared left operator known right =>
    simp only [Phrase.tokens, List.append_assoc, List.cons_append, List.length_append,
      List.length_cons] at hn ⊢
    have hop : firstKind (operator :: (right.tokens ++ rest)) ∉ (Category.chain .sum).continues :=
      not_mem_continues_of_mem_comparisons known
    rw [ho.bind _ hv.1 (by rw [List.length_cons, List.length_append]; omega) hop, peek_bind,
      List.headD_cons,
      if_pos (isComparison_iff.2 known), next_bind, ho.bind _ hv.2 (by omega) hsum]
    rfl

theorem complete_expressionOf {nested : Parser Expr} (hp : Complete n .expression nested) :
    Complete (n + 1) .expression (expressionOf (n + 1) nested) := by
  have hfactor : Complete (n + 1) (.operand .product)
      (unary (primary (n + 1) nested) (n + 1)) := by
    intro d size rest hv hn hrest
    cases d with
    | factor inner => exact unary_tokens (complete_primary hp) inner hv hn hn hrest
  have hterm : Complete (n + 1) (.operand .sum)
      (chain (n + 1) (isOperator .product) (unary (primary (n + 1) nested) (n + 1))) := by
    intro d size rest hv hn hrest
    cases d with
    | term inner => exact complete_chain hfactor inner hv hn hrest
  exact complete_comparison (complete_chain hterm)

theorem complete_expression : Complete n .expression (expression n) := by
  induction n with
  | zero =>
    intro d size rest _ hn _
    have hpos := d.length_pos trivial
    omega
  | succ n ih => exact complete_expressionOf ih

/-! ## Statements -/

theorem complete_binding : Complete n .binding (binding n) := by
  intro d size rest hv hn _
  rw [Parser.binding]
  cases d with
  | binding keyword target value semicolon =>
    simp only [Phrase.tokens, List.cons_append, List.append_assoc, List.nil_append,
      List.length_cons, List.length_append, List.length_nil] at hn ⊢
    rw [expect_bind, expect_bind]
    cases value with
    | absent =>
      simp only [Phrase.tokens, List.nil_append]
      rw [accept_bind_of_ne (by rw [firstKind_cons, semicolon.kind_eq]; nofun), if_neg nofun]
      show (expect .semicolon >>= _) _ _ = _
      rw [expect_bind]
      rfl
    | present inner =>
      cases inner with
      | initializer equal inner =>
        simp only [Phrase.tokens, List.cons_append, List.length_cons] at hn ⊢
        rw [accept_bind, if_pos rfl, map_bind, complete_expression.bind _ hv
          (by rw [List.length_cons]; omega) (semicolon.firstKind_not_mem (by decide))]
        show (expect .semicolon >>= _) _ _ = _
        rw [expect_bind]
        rfl

theorem complete_condition : Complete n .condition (condition n) := by
  intro d size rest hv hn _
  rw [condition]
  cases d with
  | condition opening inner closing =>
    simp only [Phrase.tokens, List.cons_append, List.append_assoc, List.nil_append,
      List.length_cons, List.length_append, List.length_nil] at hn ⊢
    rw [expect_bind, complete_expression.bind _ hv (by rw [List.length_cons]; omega)
      (closing.firstKind_not_mem (by decide)), expect_bind]
    rfl

theorem giveBack_tokens {keyword : Terminal .returnWord} {value : Phrase (.option .value)}
    {semicolon : Terminal .semicolon} (hv : value.Valid)
    (hn : value.tokens.length + (semicolon.1 :: rest).length ≤ n) :
    giveBack n (.endOfFile size) (keyword.1 :: (value.tokens ++ semicolon.1 :: rest)) =
      .ok ((Phrase.giveBack keyword value semicolon).tree, rest) := by
  rw [Parser.giveBack, expect_bind, peek_bind, kind_headD]
  cases value with
  | absent =>
    have hkind : firstKind ((.absent : Phrase (.option .value)).tokens ++ semicolon.1 :: rest) =
        .semicolon := semicolon.2
    rw [if_pos hkind]
    show (expect .semicolon >>= _) _ (semicolon.1 :: rest) = _
    rw [expect_bind]
    rfl
  | present inner =>
    cases inner with
    | result inner =>
      have hne : firstKind ((Phrase.present (.result inner)).tokens ++ semicolon.1 :: rest) ≠
          .semicolon := fun heq => absurd (heq ▸ inner.firstKind_mem trivial _) (by decide)
      rw [if_neg hne, map_bind]
      simp only [Phrase.tokens] at hn ⊢
      rw [complete_expression.bind _ hv hn (semicolon.firstKind_not_mem (by decide))]
      show (expect .semicolon >>= _) _ _ = _
      rw [expect_bind]
      rfl

theorem assignment_tokens {target : Terminal .identifier} {equal : Terminal .equal}
    {value : Phrase .expression} {semicolon : Terminal .semicolon} (hv : value.Valid)
    (hn : value.tokens.length + (semicolon.1 :: rest).length ≤ n) :
    assignment n (.endOfFile size) (target.1 :: equal.1 :: (value.tokens ++ semicolon.1 :: rest)) =
      .ok ((Phrase.assign target equal value semicolon).tree, rest) := by
  rw [assignment, expect_bind, expect_bind, complete_expression.bind _ hv hn
    (semicolon.firstKind_not_mem (by decide)), expect_bind]
  rfl

theorem evaluation_tokens {inner : Phrase .expression} {semicolon : Terminal .semicolon}
    (hv : inner.Valid) (hn : inner.tokens.length + (semicolon.1 :: rest).length ≤ n) :
    evaluation n (.endOfFile size) (inner.tokens ++ semicolon.1 :: rest) =
      .ok ((Phrase.evaluate inner semicolon).tree, rest) := by
  rw [evaluation, complete_expression.bind _ hv hn (semicolon.firstKind_not_mem (by decide)),
    expect_bind]
  rfl

section

variable {nested : Parser Stmt} (hp : Complete n (.item .statement) nested)
include hp

theorem complete_block {k : Nat} (hk : n ≤ k) : Complete (n + 1) .block (block k nested) := by
  intro d size rest hv hn _
  rw [Parser.block]
  cases d with
  | block opening statements closing =>
    simp only [Phrase.tokens, List.cons_append, List.append_assoc, List.nil_append,
      List.length_cons, List.length_append, List.length_nil] at hn ⊢
    rw [expect_bind, bind_apply, many_tokens hp (by decide) statements hv
      (by rw [List.length_cons]; omega) (by rw [List.length_cons]; omega)
      (by rw [firstKind_cons, closing.kind_eq]; rfl) (closing.firstKind_not_mem (by decide))]
    simp only
    rw [expect_bind]
    rfl

theorem loop_tokens {keyword : Terminal .whileWord} {test : Phrase .condition} {body : Phrase .block}
    (ht : test.Valid) (hb : body.Valid)
    (hn : test.tokens.length + (body.tokens.length + rest.length) ≤ n) :
    loop (n + 1) nested (.endOfFile size) (keyword.1 :: (test.tokens ++ (body.tokens ++ rest))) =
      .ok ((Phrase.loop keyword test body).tree, rest) := by
  rw [Parser.loop, expect_bind, complete_condition.bind _ ht (by rw [List.length_append]; omega)
    List.not_mem_nil, (complete_block hp (Nat.le_succ n)).bind _ hb (by omega) List.not_mem_nil]
  rfl

theorem otherwise_tokens {body : Phrase .block} (hb : body.Valid)
    (hn : body.tokens.length + rest.length ≤ n) :
    otherwise (n + 1) nested (.endOfFile size) (body.tokens ++ rest) = .ok (body.tree, rest) := by
  have hne : firstKind (body.tokens ++ rest) ≠ .ifWord :=
    fun heq => absurd (heq ▸ body.firstKind_mem trivial _) (by decide)
  rw [otherwise, peek_bind, kind_headD, if_neg hne]
  exact complete_block hp (Nat.le_succ n) body hb (by omega) List.not_mem_nil

theorem otherwise_tokens_if {inner : Phrase .conditional} (hi : inner.Valid)
    (hn : inner.tokens.length + rest.length ≤ n) (hrest : firstKind rest ≠ .elseWord) :
    otherwise (n + 1) nested (.endOfFile size) (inner.tokens ++ rest) =
      .ok (⟨[inner.tree], inner.tree.span⟩, rest) := by
  have hkind : firstKind (inner.tokens ++ rest) = .ifWord :=
    List.mem_singleton.1 (inner.firstKind_mem trivial _)
  have hread : nested (.endOfFile size) (inner.tokens ++ rest) = .ok (inner.tree, rest) :=
    hp (.branch inner) hi hn fun hmem => hrest (List.mem_singleton.1 hmem)
  rw [otherwise, peek_bind, kind_headD, if_pos hkind, bind_apply, hread]
  rfl

theorem complete_conditional : Complete (n + 1) .conditional (conditional (n + 1) nested) := by
  intro d size rest hv hn hrest
  rw [Parser.conditional]
  cases d with
  | conditional keyword test body other =>
    simp only [Phrase.tokens, List.cons_append, List.append_assoc, List.length_cons,
      List.length_append] at hn ⊢
    rw [expect_bind, complete_condition.bind _ hv.1 (by simp only [List.length_append]; omega)
      List.not_mem_nil, (complete_block hp (Nat.le_succ n)).bind _ hv.2.1
      (by rw [List.length_append]; omega) List.not_mem_nil]
    have hne : firstKind rest ≠ .elseWord := fun heq => hrest (heq ▸ List.mem_singleton_self _)
    cases other with
    | absent =>
      simp only [Phrase.tokens, List.nil_append]
      rw [accept_bind_of_ne hne]
      rfl
    | present inner =>
      cases inner with
      | elseBlock elseWord block =>
        simp only [Phrase.tokens, List.cons_append, List.length_cons] at hn ⊢
        rw [accept_bind, if_pos rfl, bind_apply, otherwise_tokens hp hv.2.2 (by omega)]
        rfl
      | elseIf elseWord inner =>
        simp only [Phrase.tokens, List.cons_append, List.length_cons] at hn ⊢
        rw [accept_bind, if_pos rfl, bind_apply, otherwise_tokens_if hp hv.2.2 (by omega) hne]
        rfl

theorem complete_statementOf :
    Complete (n + 1) (.item .statement) (statementOf (n + 1) nested) := by
  intro d size rest hv hn hrest
  rw [statementOf, peek_bind, kind_headD]
  cases d with
  | declare inner =>
    have hkind : firstKind ((Phrase.declare inner).tokens ++ rest) = .letWord :=
      List.mem_singleton.1 (inner.firstKind_mem trivial _)
    rw [hkind]
    exact complete_binding.map Stmt.declare hv hn List.not_mem_nil
  | loop keyword test body =>
    simp only [Phrase.tokens, List.cons_append, List.append_assoc, firstKind_cons, keyword.kind_eq,
      List.length_cons, List.length_append] at hn ⊢
    exact loop_tokens hp hv.1 hv.2 (by omega)
  | branch inner =>
    have hkind : firstKind ((Phrase.branch inner).tokens ++ rest) = .ifWord :=
      List.mem_singleton.1 (inner.firstKind_mem trivial _)
    rw [hkind]
    exact complete_conditional hp inner hv hn hrest
  | giveBack keyword value semicolon =>
    simp only [Phrase.tokens, List.cons_append, List.append_assoc, List.nil_append, firstKind_cons,
      keyword.kind_eq, List.length_cons, List.length_append, List.length_nil] at hn ⊢
    exact giveBack_tokens hv (by rw [List.length_cons]; omega)
  | assign target equal value semicolon =>
    simp only [Phrase.tokens, List.cons_append, List.append_assoc, List.nil_append, firstKind_cons,
      target.kind_eq, List.length_cons, List.length_append, List.length_nil] at hn ⊢
    have hsecond : firstKind (target.1 :: equal.1 :: (value.tokens ++ semicolon.1 :: rest)).tail =
        .equal := equal.2
    rw [peekSecond_bind, if_pos hsecond]
    exact assignment_tokens hv (by rw [List.length_cons]; omega)
  | evaluate inner semicolon =>
    simp only [Phrase.tokens, List.append_assoc, List.cons_append, List.nil_append,
      List.length_append, List.length_cons, List.length_nil] at hn ⊢
    have hmem := inner.firstKind_mem trivial (semicolon.1 :: rest)
    have hne : firstKind (semicolon.1 :: rest) ≠ .equal := by simp
    have hsecond := inner.secondKind_ne_equal trivial hne
    have hread : evaluation (n + 1) (.endOfFile size) (inner.tokens ++ semicolon.1 :: rest) =
        .ok ((Phrase.evaluate inner semicolon).tree, rest) :=
      evaluation_tokens hv (by rw [List.length_cons]; omega)
    simp only [Category.starts, expressionStarts, List.mem_cons, List.not_mem_nil, or_false] at hmem
    rcases hmem with hkind | hkind | hkind | hkind | hkind | hkind
    case inr.inr.inr.inr.inl =>
      simp only [hkind]
      rw [peekSecond_bind, if_neg (hsecond hkind)]
      exact hread
    all_goals
      rw [hkind]
      exact hread

end

theorem complete_statement : Complete n (.item .statement) (statement n) := by
  induction n with
  | zero =>
    intro d size rest _ hn _
    have hpos := d.length_pos trivial
    omega
  | succ n ih => exact complete_statementOf ih

/-! ## Declarations -/

theorem function_tokens {keyword : Terminal .funWord} {callee : Terminal .identifier}
    {opening : Terminal .leftParen} {closing : Terminal .rightParen} {body : Phrase .block}
    (hb : body.Valid) (hn : body.tokens.length + rest.length ≤ n) :
    (Declaration.function <$> function n) (.endOfFile size)
      (keyword.1 :: callee.1 :: opening.1 :: closing.1 :: (body.tokens ++ rest)) =
      .ok ((Phrase.function keyword callee opening closing body).tree, rest) := by
  refine map_eq_ok_iff.2 ⟨_, ?_, rfl⟩
  rw [Parser.function, expect_bind, expect_bind, expect_bind, peek_bind, List.headD_cons,
    if_neg (not_not_intro closing.2), next_bind,
    ((complete_block complete_statement (Nat.le_refl n)).mono (Nat.le_succ n)).bind _ hb hn
      List.not_mem_nil]
  rfl

theorem complete_declaration : Complete n (.item .declaration) (declaration n) := by
  intro d size rest hv hn _
  rw [declaration, peek_bind, kind_headD]
  cases d with
  | function keyword callee opening closing body =>
    simp only [Phrase.tokens, List.cons_append, firstKind_cons, keyword.kind_eq, List.length_cons]
      at hn ⊢
    exact function_tokens hv (by omega)
  | global inner =>
    have hkind : firstKind ((Phrase.global inner).tokens ++ rest) = .letWord :=
      List.mem_singleton.1 (inner.firstKind_mem trivial _)
    rw [hkind]
    exact complete_binding.map Declaration.global hv hn List.not_mem_nil

/-- The tokens of a derivation of a whole program are read. -/
theorem ofTokens_tokens (d : Phrase (.many .declaration)) (hv : d.Valid) :
    Tree.ofTokens size d.tokens = .ok ⟨d.tree⟩ := by
  have hread : many (· ≠ .endOfFile) (declaration d.tokens.length) d.tokens.length
      (.endOfFile size) (d.tokens ++ []) = .ok (d.tree, []) :=
    many_tokens complete_declaration (by decide) d hv (Nat.le_refl _) (Nat.le_refl _) rfl
      (Category.endOfFile_not_mem_continues _)
  rw [List.append_nil] at hread
  exact Effect.except_map_eq_ok.2 ⟨_, bind_eq_ok_iff.2 ⟨_, _, hread, rfl⟩, rfl⟩

end StackLang.Parser
