import StackLang.Proofs.Grammar.Reading

/-!
# What is read is derived

Each reader of the parser reads phrases of one category: where it gives a value, the tokens that it
has taken are those of a phrase, whose literals are valid, and the value is the tree of that phrase.
Whether it has read as much as it could does not matter here, so no bound on the tokens is needed.

Results:
* `sound_expression`, `sound_statement`, `sound_declaration`: what each reader reads.
* `exists_phrase_of_ofTokens`: a list of tokens that is read whole is derived.
-/
namespace StackLang.Parser

open Grammar

variable {size n : Nat} {ts rest : List Token} {level : Level}

/-- The tokens up to `rest` are a phrase of the category that stands for `a`. -/
def Spells (c : Category) (ts : List Token) (a : c.Meaning) (rest : List Token) : Prop :=
  ∃ d : Phrase c, ts = d.tokens ++ rest ∧ d.Valid ∧ d.tree = a

/-- What a reader reads are phrases of the category. -/
def Sound (c : Category) (p : Parser c.Meaning) : Prop :=
  ∀ ⦃size : Nat⦄ ⦃ts : List Token⦄ ⦃a : c.Meaning⦄ ⦃rest : List Token⦄,
    p (.endOfFile size) ts = .ok (a, rest) → Spells c ts a rest

theorem Sound.map_eq_ok {c : Category} {p : Parser c.Meaning} (hp : Sound c p) {β : Type}
    {g : c.Meaning → β} {b : β} (h : (g <$> p) (.endOfFile size) ts = .ok (b, rest)) :
    ∃ d : Phrase c, ts = d.tokens ++ rest ∧ d.Valid ∧ g d.tree = b := by
  obtain ⟨a, ha, rfl⟩ := map_eq_ok_iff.1 h
  obtain ⟨d, hts, hv, rfl⟩ := hp ha
  exact ⟨d, hts, hv, rfl⟩

theorem Sound.bind_eq_ok {c : Category} {p : Parser c.Meaning} (hp : Sound c p) {β : Type}
    {f : c.Meaning → Parser β} {b : β} (h : (p >>= f) (.endOfFile size) ts = .ok (b, rest)) :
    ∃ (d : Phrase c) (ts' : List Token), ts = d.tokens ++ ts' ∧ d.Valid ∧
      f d.tree (.endOfFile size) ts' = .ok (b, rest) := by
  obtain ⟨a, between, ha, hf⟩ := bind_eq_ok_iff.1 h
  obtain ⟨d, hts, hv, rfl⟩ := hp ha
  exact ⟨d, between, hts, hv, hf⟩

/-- Phrases one after the other are a sequence of them. -/
theorem spells_many {i : Item} {starts : Token.Kind → Bool} {p : Parser i.Meaning}
    (hp : ∀ {ts a rest}, starts (firstKind ts) → p (.endOfFile size) ts = .ok (a, rest) →
      Spells (.item i) ts a rest) {as : List i.Meaning}
    (h : many starts p n (.endOfFile size) ts = .ok (as, rest)) : Spells (.many i) ts as rest := by
  induction n generalizing ts as with
  | zero =>
    cases h
    exact ⟨.nil, rfl, trivial, rfl⟩
  | succ n ih =>
    rw [many, peek_bind, kind_headD] at h
    by_cases hs : starts (firstKind ts)
    · rw [if_pos hs] at h
      obtain ⟨a, ts₁, ha, h₁⟩ := bind_eq_ok_iff.1 h
      obtain ⟨as', ts₂, has, h₂⟩ := bind_eq_ok_iff.1 h₁
      cases h₂
      obtain ⟨d, rfl, hv, rfl⟩ := hp hs ha
      obtain ⟨ds, rfl, hvs, rfl⟩ := ih has
      exact ⟨.cons d ds, (List.append_assoc ..).symm, ⟨hv, hvs⟩, rfl⟩
    · rw [if_neg hs] at h
      cases h
      exact ⟨.nil, rfl, trivial, rfl⟩

/-! ## Expressions -/

theorem spells_integer {t : Terminal .number} {e : Expr}
    (h : integer t.1 t.1.integer? t.1.span (.endOfFile size) ts = .ok (e, rest)) :
    Spells .primary (t.1 :: ts) e rest := by
  cases hvalue : t.1.integer? with
  | some value =>
    obtain ⟨hfits, rfl⟩ := integer?_eq_some_iff.1 hvalue
    rw [hvalue] at h
    cases h
    exact ⟨.number t, rfl, hfits, rfl⟩
  | none =>
    rw [hvalue] at h
    cases h

theorem spells_stringLiteral {t : Terminal .string} {e : Expr}
    (h : stringLiteral t.1 (.endOfFile size) ts = .ok (e, rest)) :
    Spells .primary (t.1 :: ts) e rest := by
  unfold stringLiteral at h
  cases htext : t.1.unescaped with
  | ok text =>
    obtain ⟨cs, hcs, rfl⟩ := Effect.except_map_eq_ok.1 htext
    obtain ⟨hknown, rfl⟩ := (unescape_eq_ok_iff _ _).1 hcs
    rw [htext] at h
    cases h
    exact ⟨.string t, rfl, hknown, rfl⟩
  | error e =>
    rw [htext] at h
    cases h

/-- The arguments of a call, as far as they are read. -/
theorem spells_arguments {nested : Parser Expr} (hn : Sound .expression nested) {es : List Expr}
    (h : arguments n nested (.endOfFile size) ts = .ok (es, rest)) :
    ∃ values : Phrase (.option .arguments), ts = values.tokens ++ rest ∧ values.Valid ∧
      values.tree.getD [] = es := by
  rw [arguments, peek_bind, kind_headD] at h
  split at h
  · cases h
    exact ⟨.absent, rfl, trivial, rfl⟩
  · obtain ⟨first, ts₁, rfl, hfirst, h₁⟩ := hn.bind_eq_ok h
    obtain ⟨others, ts₂, hothers, h₂⟩ := bind_eq_ok_iff.1 h₁
    cases h₂
    obtain ⟨ds, rfl, hds, rfl⟩ := spells_many (i := .argument) (fun hcomma hread => by
      obtain ⟨comma, ts', rfl⟩ := exists_terminal (of_decide_eq_true hcomma) nofun
      rw [next_bind] at hread
      obtain ⟨d, rfl, hd, rfl⟩ := hn hread
      exact ⟨.argument comma d, rfl, hd, rfl⟩) hothers
    exact ⟨.present (.arguments first ds), (List.append_assoc ..).symm, ⟨hfirst, hds⟩, rfl⟩

theorem sound_primary {nested : Parser Expr} (hn : Sound .expression nested) :
    Sound .primary (primary n nested) := by
  intro size ts e rest h
  rw [primary, peek_bind] at h
  cases ts with
  | nil => exact absurd h refuse_ne_ok
  | cons t ts =>
    rw [List.headD_cons] at h
    cases hkind : t.kind with
    | number =>
      rw [hkind] at h
      exact spells_integer (t := ⟨t, hkind⟩) h
    | string =>
      rw [hkind] at h
      exact spells_stringLiteral (t := ⟨t, hkind⟩) h
    | identifier =>
      simp only [hkind] at h
      rw [next_bind] at h
      rcases accept_bind_eq_ok h nofun with ⟨opening, ts₁, rfl, h₁⟩ | h₁
      · obtain ⟨es, ts₂, hes, h₂⟩ := bind_eq_ok_iff.1 h₁
        obtain ⟨values, rfl, hv, rfl⟩ := spells_arguments hn hes
        obtain ⟨closing, ts₃, rfl, h₃⟩ := expect_bind_eq_ok h₂ nofun
        cases h₃
        exact ⟨.call ⟨t, hkind⟩ opening values closing, by simp [Phrase.tokens], hv, rfl⟩
      · cases h₁
        exact ⟨.name ⟨t, hkind⟩, rfl, trivial, rfl⟩
    | leftParen =>
      simp only [hkind] at h
      rw [next_bind] at h
      obtain ⟨inner, ts₁, rfl, hv, h₁⟩ := hn.bind_eq_ok h
      obtain ⟨closing, ts₂, rfl, h₂⟩ := expect_bind_eq_ok h₁ nofun
      cases h₂
      exact ⟨.group ⟨t, hkind⟩ inner closing, by simp [Phrase.tokens], hv, rfl⟩
    | _ =>
      rw [hkind] at h
      exact absurd h refuse_ne_ok

/-- A minus sign is part of the number directly after it. -/
theorem spells_minus (operator : Terminal .minus) (number : Terminal .number) {e : Expr}
    (h : integer number.1 number.1.negatedInteger? (operator.1.span.merge number.1.span)
      (.endOfFile size) ts = .ok (e, rest)) :
    Spells .unary (operator.1 :: number.1 :: ts) e rest := by
  cases hvalue : number.1.negatedInteger? with
  | some value =>
    obtain ⟨hfits, rfl⟩ := negatedInteger?_eq_some_iff.1 hvalue
    rw [hvalue] at h
    cases h
    exact ⟨.minus operator (.plain (.number number)), rfl, hfits, rfl⟩
  | none =>
    rw [hvalue] at h
    cases h

theorem sound_unary {operand : Parser Expr} (ho : Sound .primary operand) :
    Sound .unary (unary operand n) := by
  intro size ts e rest h
  have plain {ts : List Token} {e : Expr} (h : operand (.endOfFile size) ts = .ok (e, rest)) :
      Spells .unary ts e rest := by
    obtain ⟨d, rfl, hv, rfl⟩ := ho h
    exact ⟨.plain d, rfl, hv, rfl⟩
  induction n generalizing ts e with
  | zero => exact plain h
  | succ n ih =>
    rw [unary, peek_bind] at h
    cases ts with
    | nil => exact plain h
    | cons t ts =>
      rw [List.headD_cons] at h
      cases hkind : t.kind with
      | bang =>
        simp only [hkind] at h
        rw [next_bind] at h
        obtain ⟨e', ts₁, he, h₁⟩ := bind_eq_ok_iff.1 h
        cases h₁
        obtain ⟨d, rfl, hv, rfl⟩ := ih he
        exact ⟨.bang ⟨t, hkind⟩ d, rfl, hv, rfl⟩
      | minus =>
        simp only [hkind] at h
        rw [next_bind, peek_bind, kind_headD] at h
        by_cases hnumber : firstKind ts = .number
        · obtain ⟨number, ts₁, rfl⟩ := exists_terminal hnumber nofun
          rw [if_pos hnumber, next_bind] at h
          exact spells_minus ⟨t, hkind⟩ number h
        · rw [if_neg hnumber] at h
          obtain ⟨e', ts₁, he, h₁⟩ := bind_eq_ok_iff.1 h
          cases h₁
          obtain ⟨d, rfl, hv, rfl⟩ := ih he
          have hnone : d.number? = none := by
            cases hsome : d.number? with
            | none => rfl
            | some number =>
              obtain ⟨number, rfl, -⟩ := Phrase.number?_eq_some hsome
              exact absurd number.2 hnumber
          exact ⟨.minus ⟨t, hkind⟩ d, rfl, (Phrase.valid_minus hnone).2 hv, Phrase.tree_minus hnone⟩
      | _ =>
        rw [hkind] at h
        exact plain h

theorem sound_chain {operand : Parser Expr} (ho : Sound (.operand level) operand) :
    Sound (.chain level) (chain n (isOperator level) operand) := by
  intro size ts e rest h
  obtain ⟨first, ts₁, rfl, hfirst, h₁⟩ := ho.bind_eq_ok h
  obtain ⟨links, ts₂, hlinks, h₂⟩ := bind_eq_ok_iff.1 h₁
  cases h₂
  obtain ⟨others, rfl, hothers, rfl⟩ := spells_many (i := .link level) (fun hop hread => by
    rename_i ts a rest
    cases ts with
    | nil => cases level <;> cases hop
    | cons operator ts =>
      rw [next_bind] at hread
      obtain ⟨right, ts₁, rfl, hright, h₁⟩ := ho.bind_eq_ok hread
      cases h₁
      exact ⟨.link operator (isOperator_iff.1 hop) right, rfl, hright, rfl⟩) hlinks
  exact ⟨.chain first others, (List.append_assoc ..).symm, ⟨hfirst, hothers⟩, rfl⟩

theorem sound_comparison {operand : Parser Expr} (ho : Sound (.chain .sum) operand) :
    Sound .expression (comparison operand) := by
  intro size ts e rest h
  obtain ⟨left, ts₁, rfl, hleft, h₁⟩ := ho.bind_eq_ok h
  rw [peek_bind, kind_headD] at h₁
  by_cases hop : (firstKind ts₁).isComparison
  · rw [if_pos hop] at h₁
    cases ts₁ with
    | nil => cases hop
    | cons operator ts₁ =>
      rw [next_bind] at h₁
      obtain ⟨right, ts₂, rfl, hright, h₂⟩ := ho.bind_eq_ok h₁
      cases h₂
      exact ⟨.compared left operator (isComparison_iff.1 hop) right, by simp [Phrase.tokens],
        ⟨hleft, hright⟩, rfl⟩
  · rw [if_neg hop] at h₁
    cases h₁
    exact ⟨.single left, rfl, hleft, rfl⟩

theorem sound_expressionOf {nested : Parser Expr} (hn : Sound .expression nested) :
    Sound .expression (expressionOf n nested) := by
  have hfactor : Sound (.operand .product) (unary (primary n nested) n) := fun _ _ _ _ h => by
    obtain ⟨d, rfl, hv, rfl⟩ := sound_unary (sound_primary hn) h
    exact ⟨.factor d, rfl, hv, rfl⟩
  have hterm : Sound (.operand .sum) (chain n (isOperator .product) (unary (primary n nested) n)) :=
    fun _ _ _ _ h => by
      obtain ⟨d, rfl, hv, rfl⟩ := sound_chain hfactor h
      exact ⟨.term d, rfl, hv, rfl⟩
  exact sound_comparison (sound_chain hterm)

theorem sound_expression : Sound .expression (expression n) := by
  induction n with
  | zero => exact fun _ _ _ _ h => absurd h refuse_ne_ok
  | succ n ih => exact sound_expressionOf ih

/-! ## Statements -/

theorem sound_binding : Sound .binding (binding n) := by
  intro size ts b rest h
  obtain ⟨keyword, ts₁, rfl, h₁⟩ := expect_bind_eq_ok h nofun
  obtain ⟨target, ts₂, rfl, h₂⟩ := expect_bind_eq_ok h₁ nofun
  rcases accept_bind_eq_ok h₂ nofun with ⟨equal, ts₃, rfl, h₃⟩ | h₃
  · obtain ⟨value, ts₄, hvalue, h₄⟩ := bind_eq_ok_iff.1 h₃
    obtain ⟨inner, rfl, hv, rfl⟩ := sound_expression.map_eq_ok hvalue
    obtain ⟨semicolon, ts₅, rfl, h₅⟩ := expect_bind_eq_ok h₄ nofun
    cases h₅
    exact ⟨.binding keyword target (.present (.initializer equal inner)) semicolon,
      by simp [Phrase.tokens], hv, rfl⟩
  · obtain ⟨semicolon, ts₄, rfl, h₄⟩ := expect_bind_eq_ok h₃ nofun
    cases h₄
    exact ⟨.binding keyword target .absent semicolon, rfl, trivial, rfl⟩

theorem sound_condition : Sound .condition (condition n) := by
  intro size ts e rest h
  obtain ⟨opening, ts₁, rfl, h₁⟩ := expect_bind_eq_ok h nofun
  obtain ⟨inner, ts₂, rfl, hv, h₂⟩ := sound_expression.bind_eq_ok h₁
  obtain ⟨closing, ts₃, rfl, h₃⟩ := expect_bind_eq_ok h₂ nofun
  cases h₃
  exact ⟨.condition opening inner closing, by simp [Phrase.tokens], hv, rfl⟩

theorem sound_giveBack : Sound (.item .statement) (giveBack n) := by
  intro size ts s rest h
  obtain ⟨keyword, ts₁, rfl, h₁⟩ := expect_bind_eq_ok h nofun
  rw [peek_bind, kind_headD] at h₁
  by_cases hkind : firstKind ts₁ = .semicolon
  · rw [if_pos hkind] at h₁
    obtain ⟨semicolon, ts₂, rfl, h₂⟩ := expect_bind_eq_ok h₁ nofun
    cases h₂
    exact ⟨.giveBack keyword .absent semicolon, rfl, trivial, rfl⟩
  · rw [if_neg hkind] at h₁
    obtain ⟨value, ts₂, hvalue, h₂⟩ := bind_eq_ok_iff.1 h₁
    obtain ⟨inner, rfl, hv, rfl⟩ := sound_expression.map_eq_ok hvalue
    obtain ⟨semicolon, ts₃, rfl, h₃⟩ := expect_bind_eq_ok h₂ nofun
    cases h₃
    exact ⟨.giveBack keyword (.present (.result inner)) semicolon, by simp [Phrase.tokens], hv, rfl⟩

theorem sound_assignment : Sound (.item .statement) (assignment n) := by
  intro size ts s rest h
  obtain ⟨target, ts₁, rfl, h₁⟩ := expect_bind_eq_ok h nofun
  obtain ⟨equal, ts₂, rfl, h₂⟩ := expect_bind_eq_ok h₁ nofun
  obtain ⟨value, ts₃, rfl, hv, h₃⟩ := sound_expression.bind_eq_ok h₂
  obtain ⟨semicolon, ts₄, rfl, h₄⟩ := expect_bind_eq_ok h₃ nofun
  cases h₄
  exact ⟨.assign target equal value semicolon, by simp [Phrase.tokens], hv, rfl⟩

theorem sound_evaluation : Sound (.item .statement) (evaluation n) := by
  intro size ts s rest h
  obtain ⟨inner, ts₁, rfl, hv, h₁⟩ := sound_expression.bind_eq_ok h
  obtain ⟨semicolon, ts₂, rfl, h₂⟩ := expect_bind_eq_ok h₁ nofun
  cases h₂
  exact ⟨.evaluate inner semicolon, by simp [Phrase.tokens], hv, rfl⟩

/-- A statement that starts like a conditional is one. -/
theorem exists_conditional {d : Phrase (.item .statement)}
    (h : firstKind (d.tokens ++ rest) = .ifWord) : ∃ inner, d = .branch inner := by
  have hlead := h ▸ d.firstKind_mem_leads rest
  cases d with
  | branch inner => exact ⟨inner, rfl⟩
  | _ => exact absurd hlead (by simp [Phrase.leads, expressionStarts])

section

variable {nested : Parser Stmt} (hn : Sound (.item .statement) nested)
include hn

theorem sound_block : Sound .block (block n nested) := by
  intro size ts s rest h
  obtain ⟨opening, ts₁, rfl, h₁⟩ := expect_bind_eq_ok h nofun
  obtain ⟨ss, ts₂, hss, h₂⟩ := bind_eq_ok_iff.1 h₁
  obtain ⟨statements, rfl, hv, rfl⟩ := spells_many (i := .statement) (fun _ h => hn h) hss
  obtain ⟨closing, ts₃, rfl, h₃⟩ := expect_bind_eq_ok h₂ nofun
  cases h₃
  exact ⟨.block opening statements closing, by simp [Phrase.tokens], hv, rfl⟩

theorem sound_loop : Sound (.item .statement) (loop n nested) := by
  intro size ts s rest h
  obtain ⟨keyword, ts₁, rfl, h₁⟩ := expect_bind_eq_ok h nofun
  obtain ⟨test, ts₂, rfl, htest, h₂⟩ := sound_condition.bind_eq_ok h₁
  obtain ⟨body, ts₃, rfl, hbody, h₃⟩ := (sound_block hn).bind_eq_ok h₂
  cases h₃
  exact ⟨.loop keyword test body, by simp [Phrase.tokens], ⟨htest, hbody⟩, rfl⟩

theorem spells_otherwise (keyword : Terminal .elseWord) {other : Block Stmt}
    (h : otherwise n nested (.endOfFile size) ts = .ok (other, rest)) :
    Spells (.part .alternative) (keyword.1 :: ts) other rest := by
  rw [otherwise, peek_bind, kind_headD] at h
  by_cases hkind : firstKind ts = .ifWord
  · rw [if_pos hkind] at h
    obtain ⟨d, ts₁, rfl, hv, h₁⟩ := hn.bind_eq_ok h
    obtain ⟨inner, rfl⟩ := exists_conditional hkind
    cases h₁
    exact ⟨.elseIf keyword inner, rfl, hv, rfl⟩
  · rw [if_neg hkind] at h
    obtain ⟨body, rfl, hv, rfl⟩ := sound_block hn h
    exact ⟨.elseBlock keyword body, rfl, hv, rfl⟩

theorem sound_conditional : Sound .conditional (conditional n nested) := by
  intro size ts s rest h
  obtain ⟨keyword, ts₁, rfl, h₁⟩ := expect_bind_eq_ok h nofun
  obtain ⟨test, ts₂, rfl, htest, h₂⟩ := sound_condition.bind_eq_ok h₁
  obtain ⟨body, ts₃, rfl, hbody, h₃⟩ := (sound_block hn).bind_eq_ok h₂
  rcases accept_bind_eq_ok h₃ nofun with ⟨elseWord, ts₄, rfl, h₄⟩ | h₄
  · obtain ⟨block, ts₅, hblock, h₅⟩ := bind_eq_ok_iff.1 h₄
    obtain ⟨other, hts, hother, rfl⟩ := spells_otherwise hn elseWord hblock
    cases h₅
    exact ⟨.conditional keyword test body (.present other), by simp [Phrase.tokens, hts],
      ⟨htest, hbody, hother⟩, rfl⟩
  · cases h₄
    exact ⟨.conditional keyword test body .absent, by simp [Phrase.tokens],
      ⟨htest, hbody, trivial⟩, rfl⟩

theorem sound_statementOf : Sound (.item .statement) (statementOf n nested) := by
  intro size ts s rest h
  rw [statementOf, peek_bind, kind_headD] at h
  cases hkind : firstKind ts with
  | letWord =>
    rw [hkind] at h
    obtain ⟨inner, rfl, hv, rfl⟩ := sound_binding.map_eq_ok h
    exact ⟨.declare inner, rfl, hv, rfl⟩
  | whileWord =>
    rw [hkind] at h
    exact sound_loop hn h
  | ifWord =>
    rw [hkind] at h
    obtain ⟨inner, rfl, hv, rfl⟩ := sound_conditional hn h
    exact ⟨.branch inner, rfl, hv, rfl⟩
  | returnWord =>
    rw [hkind] at h
    exact sound_giveBack h
  | identifier =>
    simp only [hkind] at h
    rw [peekSecond_bind] at h
    split at h
    · exact sound_assignment h
    · exact sound_evaluation h
  | _ =>
    rw [hkind] at h
    exact sound_evaluation h

end

theorem sound_statement : Sound (.item .statement) (statement n) := by
  induction n with
  | zero => exact sound_evaluation
  | succ n ih => exact sound_statementOf ih

/-! ## Declarations -/

theorem sound_function {f : Function}
    (h : function n (.endOfFile size) ts = .ok (f, rest)) :
    Spells (.item .declaration) ts (.function f) rest := by
  obtain ⟨keyword, ts₁, rfl, h₁⟩ := expect_bind_eq_ok h nofun
  obtain ⟨callee, ts₂, rfl, h₂⟩ := expect_bind_eq_ok h₁ nofun
  obtain ⟨opening, ts₃, rfl, h₃⟩ := expect_bind_eq_ok h₂ nofun
  rw [peek_bind, kind_headD] at h₃
  by_cases hkind : firstKind ts₃ = .rightParen
  · obtain ⟨closing, ts₄, rfl⟩ := exists_terminal hkind nofun
    rw [if_neg (not_not_intro hkind), next_bind] at h₃
    obtain ⟨body, ts₅, rfl, hv, h₅⟩ := (sound_block sound_statement).bind_eq_ok h₃
    cases h₅
    exact ⟨.function keyword callee opening closing body, rfl, hv, rfl⟩
  · rw [if_pos hkind] at h₃
    cases h₃

theorem sound_declaration : Sound (.item .declaration) (declaration n) := by
  intro size ts a rest h
  rw [declaration, peek_bind, kind_headD] at h
  cases hkind : firstKind ts with
  | funWord =>
    rw [hkind] at h
    obtain ⟨f, hf, rfl⟩ := map_eq_ok_iff.1 h
    exact sound_function hf
  | letWord =>
    rw [hkind] at h
    obtain ⟨inner, rfl, hv, rfl⟩ := sound_binding.map_eq_ok h
    exact ⟨.global inner, rfl, hv, rfl⟩
  | _ =>
    rw [hkind] at h
    exact absurd h refuse_ne_ok

end StackLang.Parser
