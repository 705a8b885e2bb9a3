import StackLang.Proofs.Grammar.Phrase

/-!
# What a phrase starts with, and what ends it

One token tells which phrase starts, and one token after a phrase tells that it has ended: a phrase
does not go on with any kind that may stand after it. Two phrases that are told apart only by their
second token are an assignment and an expression that starts with a name.

Results:
* `Phrase.firstKind_mem`: what the first token of a phrase is.
* `Item.not_mem_continues`: a phrase that is repeated ends where the next one starts.
* `Phrase.secondKind_ne_equal`: an expression does not start like an assignment.
-/
namespace StackLang.Grammar

/-- The kind of the first token, where the end has a kind of its own. -/
def firstKind : List Token → Token.Kind
  | [] => .endOfFile
  | t :: _ => t.kind

@[simp] theorem firstKind_nil : firstKind [] = .endOfFile := rfl

@[simp] theorem firstKind_cons (t : Token) (ts : List Token) : firstKind (t :: ts) = t.kind := rfl

/-! ## First tokens -/

/-- The kinds that an expression starts with. -/
def expressionStarts : List Token.Kind :=
  [.bang, .minus, .number, .string, .identifier, .leftParen]

/-- The kinds that a repeated phrase starts with. -/
def Item.starts : Item → List Token.Kind
  | link level => level.operators
  | argument => [.comma]
  | statement => expressionStarts ++ [.letWord, .whileWord, .ifWord, .returnWord]
  | declaration => [.funWord, .letWord]

/-- The kinds that a phrase which may be left out starts with. -/
def Part.starts : Part → List Token.Kind
  | arguments | value => expressionStarts
  | initializer => [.equal]
  | alternative => [.elseWord]

/-- The kinds that a phrase starts with, unless it is empty. -/
def Category.starts : Category → List Token.Kind
  | item i | many i => i.starts
  | part p | option p => p.starts
  | primary => [.number, .string, .identifier, .leftParen]
  | unary | operand _ | chain _ | expression => expressionStarts
  | binding => [.letWord]
  | condition => [.leftParen]
  | block => [.leftCurly]
  | conditional => [.ifWord]

/-- No phrase of the category is empty. -/
def Category.IsFull : Category → Prop
  | many _ | option _ => False
  | _ => True

/-- What the first token of a phrase is. -/
theorem Phrase.firstKind_cases {c : Category} (d : Phrase c) (ts : List Token) :
    firstKind (d.tokens ++ ts) ∈ c.starts ∨ ¬ c.IsFull ∧ d.tokens = [] := by
  have start {c c' : Category} {d : Phrase c'} {ts : List Token} (full : c'.IsFull)
      (sub : c'.starts ⊆ c.starts)
      (ih : ∀ ts, firstKind (d.tokens ++ ts) ∈ c'.starts ∨ ¬ c'.IsFull ∧ d.tokens = []) :
      firstKind (d.tokens ++ ts) ∈ c.starts := sub ((ih ts).resolve_right fun h => h.1 full)
  induction d generalizing ts with
  | nil | absent => exact .inr ⟨id, rfl⟩
  | cons first others ih | arguments first others ih | chain first others ih =>
    rw [tokens, List.append_assoc]
    exact .inl (start trivial (List.Subset.refl _) ih)
  | evaluate inner semicolon ih | compared inner operator known right ih =>
    rw [tokens, List.append_assoc]
    exact .inl (start trivial (by decide) ih)
  | present inner ih => exact .inl (start (d := inner) trivial (List.Subset.refl _) ih)
  | plain inner ih | factor inner ih | term inner ih | single inner ih | result inner ih
  | declare inner ih | branch inner ih | global inner ih =>
    exact .inl (start (d := inner) trivial (by decide) ih)
  | link operator known right => exact .inl known
  | _ => simp [tokens, Category.starts, Item.starts, Part.starts, expressionStarts]

theorem Phrase.firstKind_mem {c : Category} (d : Phrase c) (h : c.IsFull) (ts : List Token) :
    firstKind (d.tokens ++ ts) ∈ c.starts := (d.firstKind_cases ts).resolve_right fun h' => h'.1 h

theorem Category.endOfFile_not_mem_starts (c : Category) : .endOfFile ∉ c.starts := by
  rcases c with ((_ | _) | _ | _ | _) | ((_ | _) | _ | _ | _) | (_ | _ | _ | _) | (_ | _ | _ | _) |
    _ | _ | (_ | _) | (_ | _) | _ | _ | _ | _ | _ <;> decide

theorem Phrase.length_pos {c : Category} (d : Phrase c) (h : c.IsFull) : 0 < d.tokens.length := by
  refine List.length_pos_iff.2 fun hnil => ?_
  have hmem := d.firstKind_mem h []
  rw [hnil] at hmem
  exact c.endOfFile_not_mem_starts hmem

/-- What stands after a sequence that may be empty. -/
theorem Phrase.firstKind_many {i : Item} (d : Phrase (.many i)) (ts : List Token) :
    firstKind (d.tokens ++ ts) ∈ i.starts ∨ firstKind (d.tokens ++ ts) = firstKind ts :=
  (d.firstKind_cases ts).imp_right fun h => by rw [h.2, List.nil_append]

/-- The kinds that a statement of the same sort starts with. -/
def Phrase.leads : Phrase (.item .statement) → List Token.Kind
  | .declare _ => [.letWord]
  | .loop .. => [.whileWord]
  | .branch _ => [.ifWord]
  | .giveBack .. => [.returnWord]
  | .assign .. => [.identifier]
  | .evaluate .. => expressionStarts

theorem Phrase.firstKind_mem_leads (d : Phrase (.item .statement)) (ts : List Token) :
    firstKind (d.tokens ++ ts) ∈ d.leads := by
  cases d with
  | declare inner => exact inner.firstKind_mem trivial ts
  | branch inner => exact inner.firstKind_mem trivial ts
  | evaluate inner semicolon =>
    rw [tokens, List.append_assoc]
    exact inner.firstKind_mem trivial _
  | loop | giveBack | assign => simp [tokens, leads]

/-- Statements that stand in the same place start alike. -/
theorem Phrase.exists_common_lead {d d' : Phrase (.item .statement)} {ts ts' : List Token}
    (h : d.tokens ++ ts = d'.tokens ++ ts') : ∃ kind, kind ∈ d.leads ∧ kind ∈ d'.leads :=
  ⟨_, d.firstKind_mem_leads ts, h ▸ d'.firstKind_mem_leads ts'⟩

/-! ## Tokens that end a phrase -/

/-- The kinds that an operand of a level may go on with. -/
def Level.continues : Level → List Token.Kind
  | product => [.leftParen]
  | sum => Level.product.operators ++ [.leftParen]

/-- The kinds that an expression may go on with. -/
def expressionContinues : List Token.Kind :=
  comparisons ++ (Level.sum.operators ++ Level.sum.continues)

/-- The kinds that a repeated phrase may go on with. -/
def Item.continues : Item → List Token.Kind
  | link level => level.continues
  | argument => expressionContinues
  | statement => [.elseWord]
  | declaration => []

/-- The kinds that a phrase which may be left out may go on with. -/
def Part.continues : Part → List Token.Kind
  | arguments => Item.argument.starts ++ expressionContinues
  | initializer | value => expressionContinues
  | alternative => [.elseWord]

/-- The kinds that a phrase may go on with where it could also end. -/
def Category.continues : Category → List Token.Kind
  | item i => i.continues
  | many i => i.starts ++ i.continues
  | part p => p.continues
  | option p => p.starts ++ p.continues
  | primary | unary => [.leftParen]
  | operand level => level.continues
  | chain level => level.operators ++ level.continues
  | expression => expressionContinues
  | binding | condition | block => []
  | conditional => [.elseWord]

theorem Category.endOfFile_not_mem_continues (c : Category) : .endOfFile ∉ c.continues := by
  rcases c with ((_ | _) | _ | _ | _) | ((_ | _) | _ | _ | _) | (_ | _ | _ | _) | (_ | _ | _ | _) |
    _ | _ | (_ | _) | (_ | _) | _ | _ | _ | _ | _ <;> decide

/-- A comparison ends a sum. -/
theorem not_mem_continues_of_mem_comparisons {kind : Token.Kind} (h : kind ∈ comparisons) :
    kind ∉ (Category.chain .sum).continues := by
  revert kind
  decide

/-- A phrase that is repeated ends where the next one starts. -/
theorem Item.not_mem_continues {i : Item} {kind : Token.Kind} (h : kind ∈ i.starts) :
    kind ∉ i.continues := by
  revert kind
  rcases i with (_ | _) | _ | _ | _ <;> decide

/-- What ends a sequence ends each phrase in it. -/
theorem Phrase.firstKind_not_mem_of_many {i : Item} (d : Phrase (.many i)) {ts : List Token}
    (h : firstKind ts ∉ (Category.many i).continues) :
    firstKind (d.tokens ++ ts) ∉ i.continues := by
  rcases d.firstKind_many ts with hstart | hend
  · exact Item.not_mem_continues hstart
  · rw [hend]
    exact fun hmem => h (List.mem_append_right _ hmem)

theorem Terminal.firstKind_not_mem {kind : Token.Kind} (t : Terminal kind) {ts : List Token}
    {kinds : List Token.Kind} (h : kind ∉ kinds) : firstKind (t.1 :: ts) ∉ kinds := by
  rwa [firstKind_cons, t.2]

/-! ## Second tokens -/

/-- The category is one of a level of expressions. -/
def Category.IsExpression : Category → Prop
  | primary | unary | operand _ | chain _ | expression => True
  | _ => False

/-- An expression does not start like an assignment. -/
theorem Phrase.secondKind_ne_equal {c : Category} (d : Phrase c) (hc : c.IsExpression)
    {ts : List Token} (h : firstKind ts ≠ .equal)
    (hname : firstKind (d.tokens ++ ts) = .identifier) : firstKind (d.tokens ++ ts).tail ≠ .equal := by
  induction d generalizing ts with
  | name t => exact h
  | plain inner ih | factor inner ih | term inner ih | single inner ih => exact ih trivial h hname
  | @chain level first others ih =>
    rw [tokens, List.append_assoc] at hname ⊢
    refine ih trivial (fun heq => ?_) hname
    rcases others.firstKind_many ts with hstart | hend
    · rw [heq] at hstart
      exact absurd hstart (by cases level <;> decide)
    · exact h (hend ▸ heq)
  | compared left operator known right ih =>
    rw [tokens, List.append_assoc] at hname ⊢
    refine ih trivial (fun heq => ?_) hname
    rw [List.cons_append, firstKind_cons] at heq
    rw [heq] at known
    exact absurd known (by decide)
  | number | string | call | group | bang | minus => simp [tokens] at hname ⊢
  | _ => exact hc.elim

/-- An operand that is no number does not start with one. -/
theorem Phrase.firstKind_ne_number {d : Phrase .unary} (h : d.number? = none) (ts : List Token) :
    firstKind (d.tokens ++ ts) ≠ .number := by
  cases d with
  | bang | minus => simp [tokens]
  | plain inner =>
    cases inner with
    | number t => cases h
    | string | name | call | group => simp [tokens]

end StackLang.Grammar
