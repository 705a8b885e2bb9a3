import StackLang.Proofs.Grammar.Follow

/-!
# The grammar is unambiguous

Two derivations of the same category that spell the same tokens are the same. More generally they
are if they stand in the same place, and each is followed by a token that it does not go on with:
then they end in the same place, too.

Results:
* `Phrase.isUnique`: derivations that stand in the same place are the same.
* `Phrase.eq_of_tokens_eq`: derivations that spell the same tokens are the same.
-/
namespace StackLang.Grammar

/-- Two terminals of a kind that stand in the same place are the same. -/
theorem Terminal.cons_inj {kind : Token.Kind} {t t' : Terminal kind} {ts ts' : List Token}
    (h : t.1 :: ts = t'.1 :: ts') : t = t' ∧ ts = ts' := by
  obtain ⟨ht, hts⟩ := List.cons.inj h
  exact ⟨Terminal.ext ht, hts⟩

namespace Phrase

/-- The phrase is the only one of its category in its place. -/
def IsUnique {c : Category} (d : Phrase c) : Prop :=
  ∀ (d' : Phrase c) {ts ts' : List Token}, d.tokens ++ ts = d'.tokens ++ ts' →
    firstKind ts ∉ c.continues → firstKind ts' ∉ c.continues → d = d' ∧ ts = ts'

/-- A phrase between terminals that it does not go on with. -/
theorem IsUnique.enclosed {c : Category} {d d' : Phrase c} (hd : d.IsUnique) {kind : Token.Kind}
    (hkind : kind ∉ c.continues) {closing closing' : Terminal kind} {ts ts' : List Token}
    (h : d.tokens ++ closing.1 :: ts = d'.tokens ++ closing'.1 :: ts') :
    d = d' ∧ closing = closing' ∧ ts = ts' := by
  obtain ⟨hd, hts⟩ := hd d' h (closing.firstKind_not_mem hkind) (closing'.firstKind_not_mem hkind)
  exact ⟨hd, Terminal.cons_inj hts⟩

/-- A phrase between an opening terminal and a closing one. -/
theorem IsUnique.between {c : Category} {d d' : Phrase c} (hd : d.IsUnique) {first last : Token.Kind}
    (hlast : last ∉ c.continues) {opening opening' : Terminal first} {closing closing' : Terminal last}
    {ts ts' : List Token}
    (h : opening.1 :: (d.tokens ++ closing.1 :: ts) =
      opening'.1 :: (d'.tokens ++ closing'.1 :: ts')) :
    opening = opening' ∧ d = d' ∧ closing = closing' ∧ ts = ts' := by
  obtain ⟨hopening, h₁⟩ := Terminal.cons_inj h
  exact ⟨hopening, hd.enclosed hlast h₁⟩

/-- A phrase after a terminal. -/
theorem IsUnique.after {c : Category} {d d' : Phrase c} (hd : d.IsUnique) {kind : Token.Kind}
    {t t' : Terminal kind} {ts ts' : List Token}
    (h : t.1 :: (d.tokens ++ ts) = t'.1 :: (d'.tokens ++ ts'))
    (hts : firstKind ts ∉ c.continues) (hts' : firstKind ts' ∉ c.continues) :
    t = t' ∧ d = d' ∧ ts = ts' := by
  obtain ⟨ht, h₁⟩ := Terminal.cons_inj h
  exact ⟨ht, hd d' h₁ hts hts'⟩

/-! ## What is repeated or left out -/

theorem isUnique_nil {i : Item} : (nil : Phrase (.many i)).IsUnique := by
  intro d' ts ts' h hts _
  cases d' with
  | nil => exact ⟨rfl, h⟩
  | cons first others =>
    rw [show ts = _ from h, tokens, List.append_assoc] at hts
    exact absurd (List.mem_append_left _ (first.firstKind_mem trivial _)) hts

/-- A phrase before a sequence. -/
theorem IsUnique.followed {c : Category} {i : Item} {first first' : Phrase c}
    {others others' : Phrase (.many i)} (hc : c.continues = i.continues) (hf : first.IsUnique)
    (ho : others.IsUnique) {ts ts' : List Token}
    (h : first.tokens ++ (others.tokens ++ ts) = first'.tokens ++ (others'.tokens ++ ts'))
    (hts : firstKind ts ∉ (Category.many i).continues)
    (hts' : firstKind ts' ∉ (Category.many i).continues) :
    first = first' ∧ others = others' ∧ ts = ts' := by
  obtain ⟨rfl, h₁⟩ := hf first' h (hc ▸ others.firstKind_not_mem_of_many hts)
    (hc ▸ others'.firstKind_not_mem_of_many hts')
  obtain ⟨rfl, h₂⟩ := ho others' h₁ hts hts'
  exact ⟨rfl, rfl, h₂⟩

theorem isUnique_cons {i : Item} {first : Phrase (.item i)} {others : Phrase (.many i)}
    (hf : first.IsUnique) (ho : others.IsUnique) : (cons first others).IsUnique := by
  intro d' ts ts' h hts hts'
  cases d' with
  | nil => cases (isUnique_nil (cons first others) h.symm hts' hts).1
  | cons first' others' =>
    simp only [tokens, List.append_assoc] at h
    obtain ⟨rfl, rfl, h₁⟩ := hf.followed rfl ho h hts hts'
    exact ⟨rfl, h₁⟩

theorem isUnique_absent {p : Part} : (absent : Phrase (.option p)).IsUnique := by
  intro d' ts ts' h hts _
  cases d' with
  | absent => exact ⟨rfl, h⟩
  | present inner =>
    rw [show ts = _ from h, tokens] at hts
    exact absurd (List.mem_append_left _ (inner.firstKind_mem trivial _)) hts

theorem isUnique_present {p : Part} {inner : Phrase (.part p)} (hi : inner.IsUnique) :
    (present inner).IsUnique := by
  intro d' ts ts' h hts hts'
  cases d' with
  | absent => cases (isUnique_absent (present inner) h.symm hts' hts).1
  | present inner' =>
    obtain ⟨rfl, h₁⟩ := hi inner' h (fun hmem => hts (List.mem_append_right _ hmem))
      (fun hmem => hts' (List.mem_append_right _ hmem))
    exact ⟨rfl, h₁⟩

/-! ## Expressions -/

theorem isUnique_number (t : Terminal .number) : (number t).IsUnique := by
  intro d' ts ts' h _ _
  cases d' with
  | number t' =>
    obtain ⟨rfl, h₁⟩ := Terminal.cons_inj h
    exact ⟨rfl, h₁⟩
  | _ => exact absurd (congrArg firstKind h) (by simp [tokens])

theorem isUnique_string (t : Terminal .string) : (string t).IsUnique := by
  intro d' ts ts' h _ _
  cases d' with
  | string t' =>
    obtain ⟨rfl, h₁⟩ := Terminal.cons_inj h
    exact ⟨rfl, h₁⟩
  | _ => exact absurd (congrArg firstKind h) (by simp [tokens])

theorem isUnique_name (t : Terminal .identifier) : (name t).IsUnique := by
  intro d' ts ts' h hts _
  cases d' with
  | name t' =>
    obtain ⟨rfl, h₁⟩ := Terminal.cons_inj h
    exact ⟨rfl, h₁⟩
  | call callee opening values closing =>
    have hnext : ts = opening.1 :: _ := (Terminal.cons_inj h).2
    rw [hnext] at hts
    exact absurd hts (by simp [Category.continues])
  | _ => exact absurd (congrArg firstKind h) (by simp [tokens])

theorem isUnique_call {values : Phrase (.option .arguments)} (hv : values.IsUnique)
    (callee : Terminal .identifier) (opening : Terminal .leftParen)
    (closing : Terminal .rightParen) : (call callee opening values closing).IsUnique := by
  intro d' ts ts' h hts hts'
  cases d' with
  | name t => cases (isUnique_name t (call callee opening values closing) h.symm hts' hts).1
  | call callee' opening' values' closing' =>
    simp only [tokens, List.cons_append, List.append_assoc, List.nil_append] at h
    obtain ⟨rfl, h₁⟩ := Terminal.cons_inj h
    obtain ⟨rfl, rfl, rfl, h₂⟩ := hv.between (by decide) h₁
    exact ⟨rfl, h₂⟩
  | _ => exact absurd (congrArg firstKind h) (by simp [tokens])

theorem isUnique_group {inner : Phrase .expression} (hi : inner.IsUnique)
    (opening : Terminal .leftParen) (closing : Terminal .rightParen) :
    (group opening inner closing).IsUnique := by
  intro d' ts ts' h _ _
  cases d' with
  | group opening' inner' closing' =>
    simp only [tokens, List.cons_append, List.append_assoc, List.nil_append] at h
    obtain ⟨rfl, rfl, rfl, h₁⟩ := hi.between (by decide) h
    exact ⟨rfl, h₁⟩
  | _ => exact absurd (congrArg firstKind h) (by simp [tokens])

theorem isUnique_arguments {first : Phrase .expression} {others : Phrase (.many .argument)}
    (hf : first.IsUnique) (ho : others.IsUnique) : (arguments first others).IsUnique := by
  intro d' ts ts' h hts hts'
  cases d' with
  | arguments first' others' =>
    simp only [tokens, List.append_assoc] at h
    obtain ⟨rfl, rfl, h₁⟩ := hf.followed rfl ho h hts hts'
    exact ⟨rfl, h₁⟩

theorem isUnique_argument {inner : Phrase .expression} (hi : inner.IsUnique)
    (comma : Terminal .comma) : (argument comma inner).IsUnique := by
  intro d' ts ts' h hts hts'
  cases d' with
  | argument comma' inner' =>
    obtain ⟨rfl, rfl, h₁⟩ := hi.after h hts hts'
    exact ⟨rfl, h₁⟩

/-- A prefix operator is no operand. -/
theorem not_mem_starts_primary {kind : Token.Kind} (t : Terminal kind) {inner : Phrase .primary}
    {ts ts' : List Token} (hkind : kind ∉ Category.primary.starts) :
    t.1 :: ts ≠ inner.tokens ++ ts' := by
  intro h
  have hmem := inner.firstKind_mem trivial ts'
  rw [← h, firstKind_cons, t.2] at hmem
  exact hkind hmem

theorem isUnique_bang {inner : Phrase .unary} (hi : inner.IsUnique) (operator : Terminal .bang) :
    (bang operator inner).IsUnique := by
  intro d' ts ts' h hts hts'
  cases d' with
  | bang operator' inner' =>
    obtain ⟨rfl, rfl, h₁⟩ := hi.after h hts hts'
    exact ⟨rfl, h₁⟩
  | minus operator' inner' => exact absurd (congrArg firstKind h) (by simp [tokens])
  | plain inner' => exact absurd h (not_mem_starts_primary operator (by decide))

theorem isUnique_minus {inner : Phrase .unary} (hi : inner.IsUnique) (operator : Terminal .minus) :
    (minus operator inner).IsUnique := by
  intro d' ts ts' h hts hts'
  cases d' with
  | bang operator' inner' => exact absurd (congrArg firstKind h) (by simp [tokens])
  | minus operator' inner' =>
    obtain ⟨rfl, rfl, h₁⟩ := hi.after h hts hts'
    exact ⟨rfl, h₁⟩
  | plain inner' => exact absurd h (not_mem_starts_primary operator (by decide))

theorem isUnique_plain {inner : Phrase .primary} (hi : inner.IsUnique) : (plain inner).IsUnique := by
  intro d' ts ts' h hts hts'
  cases d' with
  | bang operator _ => exact absurd h.symm (not_mem_starts_primary operator (by decide))
  | minus operator _ => exact absurd h.symm (not_mem_starts_primary operator (by decide))
  | plain inner' =>
    obtain ⟨rfl, h₁⟩ := hi inner' h hts hts'
    exact ⟨rfl, h₁⟩

theorem isUnique_factor {inner : Phrase .unary} (hi : inner.IsUnique) : (factor inner).IsUnique := by
  intro d' ts ts' h hts hts'
  cases d' with
  | factor inner' =>
    obtain ⟨rfl, h₁⟩ := hi inner' h hts hts'
    exact ⟨rfl, h₁⟩

theorem isUnique_term {inner : Phrase (.chain .product)} (hi : inner.IsUnique) :
    (term inner).IsUnique := by
  intro d' ts ts' h hts hts'
  cases d' with
  | term inner' =>
    obtain ⟨rfl, h₁⟩ := hi inner' h hts hts'
    exact ⟨rfl, h₁⟩

theorem isUnique_link {level : Level} {right : Phrase (.operand level)} (hr : right.IsUnique)
    (operator : Token) (known : operator.kind ∈ level.operators) :
    (link operator known right).IsUnique := by
  intro d' ts ts' h hts hts'
  cases d' with
  | link operator' known' right' =>
    obtain ⟨rfl, h₁⟩ := List.cons.inj h
    obtain ⟨rfl, h₂⟩ := hr right' h₁ hts hts'
    exact ⟨rfl, h₂⟩

theorem isUnique_chain {level : Level} {first : Phrase (.operand level)}
    {others : Phrase (.many (.link level))} (hf : first.IsUnique) (ho : others.IsUnique) :
    (chain first others).IsUnique := by
  intro d' ts ts' h hts hts'
  cases d' with
  | chain first' others' =>
    simp only [tokens, List.append_assoc] at h
    obtain ⟨rfl, rfl, h₁⟩ := hf.followed rfl ho h hts hts'
    exact ⟨rfl, h₁⟩

theorem isUnique_single {inner : Phrase (.chain .sum)} (hi : inner.IsUnique) :
    (single inner).IsUnique := by
  intro d' ts ts' h hts hts'
  have hsum : firstKind ts ∉ (Category.chain .sum).continues :=
    fun hmem => hts (List.mem_append_right _ hmem)
  cases d' with
  | single inner' =>
    obtain ⟨rfl, h₁⟩ := hi inner' h hsum fun hmem => hts' (List.mem_append_right _ hmem)
    exact ⟨rfl, h₁⟩
  | compared left operator known right =>
    simp only [tokens, List.append_assoc, List.cons_append] at h
    obtain ⟨rfl, rfl⟩ := hi left h hsum (not_mem_continues_of_mem_comparisons known)
    exact absurd (List.mem_append_left _ known) hts

theorem isUnique_compared {left right : Phrase (.chain .sum)} (hl : left.IsUnique)
    (hr : right.IsUnique) (operator : Token) (known : operator.kind ∈ comparisons) :
    (compared left operator known right).IsUnique := by
  intro d' ts ts' h hts hts'
  cases d' with
  | single inner =>
    simp only [tokens, List.append_assoc, List.cons_append] at h
    obtain ⟨rfl, rfl⟩ := hl inner h (not_mem_continues_of_mem_comparisons known)
      fun hmem => hts' (List.mem_append_right _ hmem)
    exact absurd (List.mem_append_left _ known) hts'
  | compared left' operator' known' right' =>
    simp only [tokens, List.append_assoc, List.cons_append] at h
    obtain ⟨rfl, h₁⟩ := hl left' h (not_mem_continues_of_mem_comparisons known)
      (not_mem_continues_of_mem_comparisons known')
    obtain ⟨rfl, h₂⟩ := List.cons.inj h₁
    obtain ⟨rfl, h₃⟩ := hr right' h₂ (fun hmem => hts (List.mem_append_right _ hmem))
      fun hmem => hts' (List.mem_append_right _ hmem)
    exact ⟨rfl, h₃⟩

/-! ## Statements -/

theorem isUnique_initializer {inner : Phrase .expression} (hi : inner.IsUnique)
    (equal : Terminal .equal) : (initializer equal inner).IsUnique := by
  intro d' ts ts' h hts hts'
  cases d' with
  | initializer equal' inner' =>
    obtain ⟨rfl, rfl, h₁⟩ := hi.after h hts hts'
    exact ⟨rfl, h₁⟩

theorem isUnique_result {inner : Phrase .expression} (hi : inner.IsUnique) :
    (result inner).IsUnique := by
  intro d' ts ts' h hts hts'
  cases d' with
  | result inner' =>
    obtain ⟨rfl, h₁⟩ := hi inner' h hts hts'
    exact ⟨rfl, h₁⟩

theorem isUnique_binding {value : Phrase (.option .initializer)} (hv : value.IsUnique)
    (keyword : Terminal .letWord) (target : Terminal .identifier) (semicolon : Terminal .semicolon) :
    (binding keyword target value semicolon).IsUnique := by
  intro d' ts ts' h _ _
  cases d' with
  | binding keyword' target' value' semicolon' =>
    simp only [tokens, List.cons_append, List.append_assoc, List.nil_append] at h
    obtain ⟨rfl, h₁⟩ := Terminal.cons_inj h
    obtain ⟨rfl, rfl, rfl, h₂⟩ := hv.between (by decide) h₁
    exact ⟨rfl, h₂⟩

theorem isUnique_condition {inner : Phrase .expression} (hi : inner.IsUnique)
    (opening : Terminal .leftParen) (closing : Terminal .rightParen) :
    (condition opening inner closing).IsUnique := by
  intro d' ts ts' h _ _
  cases d' with
  | condition opening' inner' closing' =>
    simp only [tokens, List.cons_append, List.append_assoc, List.nil_append] at h
    obtain ⟨rfl, rfl, rfl, h₁⟩ := hi.between (by decide) h
    exact ⟨rfl, h₁⟩

theorem isUnique_block {statements : Phrase (.many .statement)} (hs : statements.IsUnique)
    (opening : Terminal .leftCurly) (closing : Terminal .rightCurly) :
    (block opening statements closing).IsUnique := by
  intro d' ts ts' h _ _
  cases d' with
  | block opening' statements' closing' =>
    simp only [tokens, List.cons_append, List.append_assoc, List.nil_append] at h
    obtain ⟨rfl, rfl, rfl, h₁⟩ := hs.between (by decide) h
    exact ⟨rfl, h₁⟩

theorem isUnique_loop {test : Phrase .condition} {body : Phrase .block} (ht : test.IsUnique)
    (hb : body.IsUnique) (keyword : Terminal .whileWord) : (loop keyword test body).IsUnique := by
  intro d' ts ts' h _ _
  cases d' with
  | loop keyword' test' body' =>
    simp only [tokens, List.cons_append, List.append_assoc] at h
    obtain ⟨rfl, rfl, h₁⟩ := ht.after h List.not_mem_nil List.not_mem_nil
    obtain ⟨rfl, h₂⟩ := hb body' h₁ List.not_mem_nil List.not_mem_nil
    exact ⟨rfl, h₂⟩
  | _ => exact absurd (exists_common_lead h) (by simp [leads, expressionStarts])

theorem isUnique_giveBack {value : Phrase (.option .value)} (hv : value.IsUnique)
    (keyword : Terminal .returnWord) (semicolon : Terminal .semicolon) :
    (giveBack keyword value semicolon).IsUnique := by
  intro d' ts ts' h _ _
  cases d' with
  | giveBack keyword' value' semicolon' =>
    simp only [tokens, List.cons_append, List.append_assoc, List.nil_append] at h
    obtain ⟨rfl, rfl, rfl, h₁⟩ := hv.between (by decide) h
    exact ⟨rfl, h₁⟩
  | _ => exact absurd (exists_common_lead h) (by simp [leads, expressionStarts])

theorem isUnique_declare {inner : Phrase .binding} (hi : inner.IsUnique) :
    (declare inner).IsUnique := by
  intro d' ts ts' h _ _
  cases d' with
  | declare inner' =>
    obtain ⟨rfl, h₁⟩ := hi inner' h List.not_mem_nil List.not_mem_nil
    exact ⟨rfl, h₁⟩
  | _ => exact absurd (exists_common_lead h) (by simp [leads, expressionStarts])

theorem isUnique_branch {inner : Phrase .conditional} (hi : inner.IsUnique) :
    (branch inner).IsUnique := by
  intro d' ts ts' h hts hts'
  cases d' with
  | branch inner' =>
    obtain ⟨rfl, h₁⟩ := hi inner' h hts hts'
    exact ⟨rfl, h₁⟩
  | _ => exact absurd (exists_common_lead h) (by simp [leads, expressionStarts])

/-- An assignment is no expression. -/
theorem assign_ne_evaluate {target : Terminal .identifier} {equal : Terminal .equal}
    {inner : Phrase .expression} {semicolon : Terminal .semicolon} {ts ts' : List Token}
    (h : target.1 :: equal.1 :: ts = inner.tokens ++ semicolon.1 :: ts') : False := by
  have hne : firstKind (semicolon.1 :: ts') ≠ .equal := by simp
  have hsecond := inner.secondKind_ne_equal trivial hne
  rw [← h] at hsecond
  exact hsecond target.2 equal.2

theorem isUnique_assign {value : Phrase .expression} (hv : value.IsUnique)
    (target : Terminal .identifier) (equal : Terminal .equal) (semicolon : Terminal .semicolon) :
    (assign target equal value semicolon).IsUnique := by
  intro d' ts ts' h _ _
  cases d' with
  | assign target' equal' value' semicolon' =>
    simp only [tokens, List.cons_append, List.append_assoc, List.nil_append] at h
    obtain ⟨rfl, h₁⟩ := Terminal.cons_inj h
    obtain ⟨rfl, rfl, rfl, h₂⟩ := hv.between (by decide) h₁
    exact ⟨rfl, h₂⟩
  | evaluate inner semicolon' =>
    simp only [tokens, List.cons_append, List.append_assoc, List.nil_append] at h
    exact (assign_ne_evaluate h).elim
  | _ => exact absurd (exists_common_lead h) (by simp [leads])

theorem isUnique_evaluate {inner : Phrase .expression} (hi : inner.IsUnique)
    (semicolon : Terminal .semicolon) : (evaluate inner semicolon).IsUnique := by
  intro d' ts ts' h _ _
  cases d' with
  | assign target equal value semicolon' =>
    simp only [tokens, List.cons_append, List.append_assoc, List.nil_append] at h
    exact (assign_ne_evaluate h.symm).elim
  | evaluate inner' semicolon' =>
    simp only [tokens, List.append_assoc, List.cons_append, List.nil_append] at h
    obtain ⟨rfl, rfl, h₁⟩ := hi.enclosed (by decide) h
    exact ⟨rfl, h₁⟩
  | _ => exact absurd (exists_common_lead h) (by simp [leads, expressionStarts])

theorem isUnique_conditional {test : Phrase .condition} {body : Phrase .block}
    {other : Phrase (.option .alternative)} (ht : test.IsUnique) (hb : body.IsUnique)
    (ho : other.IsUnique) (keyword : Terminal .ifWord) :
    (conditional keyword test body other).IsUnique := by
  intro d' ts ts' h hts hts'
  cases d' with
  | conditional keyword' test' body' other' =>
    simp only [tokens, List.cons_append, List.append_assoc] at h
    obtain ⟨rfl, rfl, h₁⟩ := ht.after h List.not_mem_nil List.not_mem_nil
    obtain ⟨rfl, h₂⟩ := hb body' h₁ List.not_mem_nil List.not_mem_nil
    have hdouble {kind : Token.Kind} (hkind : kind ∉ Category.conditional.continues) :
        kind ∉ (Category.option .alternative).continues :=
      fun hmem => hkind ((List.mem_append.1 hmem).elim id id)
    obtain ⟨rfl, h₃⟩ := ho other' h₂ (hdouble hts) (hdouble hts')
    exact ⟨rfl, h₃⟩

/-- A block is no conditional. -/
theorem block_ne_conditional {body : Phrase .block} {inner : Phrase .conditional}
    {ts ts' : List Token} : body.tokens ++ ts ≠ inner.tokens ++ ts' := by
  intro h
  have hbody := body.firstKind_mem trivial ts
  have hinner := inner.firstKind_mem trivial ts'
  rw [h, List.mem_singleton.1 hinner] at hbody
  exact absurd hbody (by decide)

theorem isUnique_elseBlock {body : Phrase .block} (hb : body.IsUnique)
    (keyword : Terminal .elseWord) : (elseBlock keyword body).IsUnique := by
  intro d' ts ts' h _ _
  cases d' with
  | elseBlock keyword' body' =>
    obtain ⟨rfl, rfl, h₁⟩ := hb.after h List.not_mem_nil List.not_mem_nil
    exact ⟨rfl, h₁⟩
  | elseIf keyword' inner => exact absurd (Terminal.cons_inj h).2 block_ne_conditional

theorem isUnique_elseIf {inner : Phrase .conditional} (hi : inner.IsUnique)
    (keyword : Terminal .elseWord) : (elseIf keyword inner).IsUnique := by
  intro d' ts ts' h hts hts'
  cases d' with
  | elseBlock keyword' body => exact absurd (Terminal.cons_inj h).2.symm block_ne_conditional
  | elseIf keyword' inner' =>
    obtain ⟨rfl, rfl, h₁⟩ := hi.after h hts hts'
    exact ⟨rfl, h₁⟩

/-! ## Declarations -/

theorem isUnique_function {body : Phrase .block} (hb : body.IsUnique) (keyword : Terminal .funWord)
    (callee : Terminal .identifier) (opening : Terminal .leftParen) (closing : Terminal .rightParen) :
    (function keyword callee opening closing body).IsUnique := by
  intro d' ts ts' h _ _
  cases d' with
  | function keyword' callee' opening' closing' body' =>
    obtain ⟨rfl, h₁⟩ := Terminal.cons_inj h
    obtain ⟨rfl, h₂⟩ := Terminal.cons_inj h₁
    obtain ⟨rfl, h₃⟩ := Terminal.cons_inj h₂
    obtain ⟨rfl, rfl, h₄⟩ := hb.after h₃ List.not_mem_nil List.not_mem_nil
    exact ⟨rfl, h₄⟩
  | global inner =>
    have hmem := inner.firstKind_mem trivial ts'
    rw [← show _ = inner.tokens ++ ts' from h] at hmem
    exact absurd hmem (by simp [tokens, Category.starts])

theorem isUnique_global {inner : Phrase .binding} (hi : inner.IsUnique) :
    (global inner).IsUnique := by
  intro d' ts ts' h _ _
  cases d' with
  | function keyword callee opening closing body =>
    have hmem := inner.firstKind_mem trivial ts
    rw [show inner.tokens ++ ts = _ from h] at hmem
    exact absurd hmem (by simp [tokens, Category.starts])
  | global inner' =>
    obtain ⟨rfl, h₁⟩ := hi inner' h List.not_mem_nil List.not_mem_nil
    exact ⟨rfl, h₁⟩

/-! ## All phrases -/

/-- Derivations that stand in the same place are the same. -/
theorem isUnique {c : Category} (d : Phrase c) : d.IsUnique := by
  induction d with
  | nil => exact isUnique_nil
  | cons first others hf ho => exact isUnique_cons hf ho
  | absent => exact isUnique_absent
  | present inner hi => exact isUnique_present hi
  | number t => exact isUnique_number t
  | string t => exact isUnique_string t
  | name t => exact isUnique_name t
  | call callee opening values closing hv => exact isUnique_call hv callee opening closing
  | group opening inner closing hi => exact isUnique_group hi opening closing
  | arguments first others hf ho => exact isUnique_arguments hf ho
  | argument comma inner hi => exact isUnique_argument hi comma
  | bang operator inner hi => exact isUnique_bang hi operator
  | minus operator inner hi => exact isUnique_minus hi operator
  | plain inner hi => exact isUnique_plain hi
  | factor inner hi => exact isUnique_factor hi
  | term inner hi => exact isUnique_term hi
  | link operator known right hr => exact isUnique_link hr operator known
  | chain first others hf ho => exact isUnique_chain hf ho
  | single inner hi => exact isUnique_single hi
  | compared left operator known right hl hr => exact isUnique_compared hl hr operator known
  | initializer equal inner hi => exact isUnique_initializer hi equal
  | result inner hi => exact isUnique_result hi
  | binding keyword target value semicolon hv => exact isUnique_binding hv keyword target semicolon
  | condition opening inner closing hi => exact isUnique_condition hi opening closing
  | block opening statements closing hs => exact isUnique_block hs opening closing
  | declare inner hi => exact isUnique_declare hi
  | loop keyword test body ht hb => exact isUnique_loop ht hb keyword
  | branch inner hi => exact isUnique_branch hi
  | giveBack keyword value semicolon hv => exact isUnique_giveBack hv keyword semicolon
  | assign target equal value semicolon hv => exact isUnique_assign hv target equal semicolon
  | evaluate inner semicolon hi => exact isUnique_evaluate hi semicolon
  | conditional keyword test body other ht hb ho => exact isUnique_conditional ht hb ho keyword
  | elseBlock keyword body hb => exact isUnique_elseBlock hb keyword
  | elseIf keyword inner hi => exact isUnique_elseIf hi keyword
  | function keyword callee opening closing body hb =>
    exact isUnique_function hb keyword callee opening closing
  | global inner hi => exact isUnique_global hi

/-- Derivations that spell the same tokens are the same. -/
theorem eq_of_tokens_eq {c : Category} {d d' : Phrase c} (h : d.tokens = d'.tokens) : d = d' :=
  (d.isUnique d' (congrArg (· ++ []) h) c.endOfFile_not_mem_continues
    c.endOfFile_not_mem_continues).1

end Phrase
end StackLang.Grammar
