import StackLang.Proofs.Grammar.Literals
import StackLang.Tree.Parser.Statement

/-!
# The grammar and its derivations

A `Phrase c` is a derivation of the category `c`: each constructor is a production, with the tokens
and the phrases that it puts next to each other, in order. It spells the tokens at its leaves, and
it says by itself which tree it stands for. That tree is only meant if each literal has a value.

Results:
* `Phrase.known`: each token that is derived is one that the language has.
* `Phrase.number?_eq_some`: an operand that is just a number.
-/
namespace StackLang.Grammar

/-- A token of a kind. -/
@[ext] structure Terminal (kind : Token.Kind) where
  token : Token
  kind_eq : token.kind = kind

attribute [simp] Terminal.kind_eq

/-! ## Categories -/

/-- The levels on which operators stand between any number of operands. -/
inductive Level where
  | sum
  | product

/-- The operators of a level. -/
def Level.operators : Level → List Token.Kind
  | sum => [.plus, .minus]
  | product => [.star, .slash, .percent]

/-- The operators of a comparison. -/
def comparisons : List Token.Kind :=
  [.equalEqual, .bangEqual, .less, .greater, .lessEqual, .greaterEqual]

/-- What the grammar repeats. -/
inductive Item where
  /-- `operator operand` -/
  | link (level : Level)
  /-- `"," expression` -/
  | argument
  | statement
  | declaration

/-- What the grammar may leave out. -/
inductive Part where
  /-- `expression { "," expression }` -/
  | arguments
  /-- `"=" expression` -/
  | initializer
  /-- `expression` -/
  | value
  /-- `"else" ( block | conditional )` -/
  | alternative

/-- What the grammar has productions for. -/
inductive Category where
  | item (i : Item)
  /-- `{ item }` -/
  | many (i : Item)
  | part (p : Part)
  /-- `[ part ]` -/
  | option (p : Part)
  | primary
  | unary
  /-- What stands between the operators of a level. -/
  | operand (level : Level)
  | chain (level : Level)
  | expression
  | binding
  /-- `"(" expression ")"` -/
  | condition
  | block
  | conditional

/-! ## Derivations -/

/-- A derivation of a category. -/
inductive Phrase : Category → Type where
  | nil {i : Item} : Phrase (.many i)
  | cons {i : Item} (first : Phrase (.item i)) (others : Phrase (.many i)) : Phrase (.many i)
  | absent {p : Part} : Phrase (.option p)
  | present {p : Part} (inner : Phrase (.part p)) : Phrase (.option p)
  | number (t : Terminal .number) : Phrase .primary
  | string (t : Terminal .string) : Phrase .primary
  | name (t : Terminal .identifier) : Phrase .primary
  | call (callee : Terminal .identifier) (opening : Terminal .leftParen)
    (values : Phrase (.option .arguments)) (closing : Terminal .rightParen) : Phrase .primary
  | group (opening : Terminal .leftParen) (inner : Phrase .expression)
    (closing : Terminal .rightParen) : Phrase .primary
  | arguments (first : Phrase .expression) (others : Phrase (.many .argument)) :
    Phrase (.part .arguments)
  | argument (comma : Terminal .comma) (inner : Phrase .expression) : Phrase (.item .argument)
  | bang (operator : Terminal .bang) (inner : Phrase .unary) : Phrase .unary
  | minus (operator : Terminal .minus) (inner : Phrase .unary) : Phrase .unary
  | plain (inner : Phrase .primary) : Phrase .unary
  | factor (inner : Phrase .unary) : Phrase (.operand .product)
  | term (inner : Phrase (.chain .product)) : Phrase (.operand .sum)
  | link {level : Level} (operator : Token) (known : operator.kind ∈ level.operators)
    (right : Phrase (.operand level)) : Phrase (.item (.link level))
  | chain {level : Level} (first : Phrase (.operand level))
    (others : Phrase (.many (.link level))) : Phrase (.chain level)
  | single (inner : Phrase (.chain .sum)) : Phrase .expression
  | compared (left : Phrase (.chain .sum)) (operator : Token) (known : operator.kind ∈ comparisons)
    (right : Phrase (.chain .sum)) : Phrase .expression
  | initializer (equal : Terminal .equal) (inner : Phrase .expression) :
    Phrase (.part .initializer)
  | result (inner : Phrase .expression) : Phrase (.part .value)
  | binding (keyword : Terminal .letWord) (target : Terminal .identifier)
    (value : Phrase (.option .initializer)) (semicolon : Terminal .semicolon) : Phrase .binding
  | condition (opening : Terminal .leftParen) (inner : Phrase .expression)
    (closing : Terminal .rightParen) : Phrase .condition
  | block (opening : Terminal .leftCurly) (statements : Phrase (.many .statement))
    (closing : Terminal .rightCurly) : Phrase .block
  | declare (inner : Phrase .binding) : Phrase (.item .statement)
  | loop (keyword : Terminal .whileWord) (test : Phrase .condition) (body : Phrase .block) :
    Phrase (.item .statement)
  | branch (inner : Phrase .conditional) : Phrase (.item .statement)
  | giveBack (keyword : Terminal .returnWord) (value : Phrase (.option .value))
    (semicolon : Terminal .semicolon) : Phrase (.item .statement)
  | assign (target : Terminal .identifier) (equal : Terminal .equal) (value : Phrase .expression)
    (semicolon : Terminal .semicolon) : Phrase (.item .statement)
  | evaluate (inner : Phrase .expression) (semicolon : Terminal .semicolon) :
    Phrase (.item .statement)
  | conditional (keyword : Terminal .ifWord) (test : Phrase .condition) (body : Phrase .block)
    (other : Phrase (.option .alternative)) : Phrase .conditional
  | elseBlock (keyword : Terminal .elseWord) (body : Phrase .block) : Phrase (.part .alternative)
  | elseIf (keyword : Terminal .elseWord) (inner : Phrase .conditional) :
    Phrase (.part .alternative)
  | function (keyword : Terminal .funWord) (callee : Terminal .identifier)
    (opening : Terminal .leftParen) (closing : Terminal .rightParen) (body : Phrase .block) :
    Phrase (.item .declaration)
  | global (inner : Phrase .binding) : Phrase (.item .declaration)

/-- The tokens that a derivation spells. -/
@[simp] def Phrase.tokens {c : Category} : Phrase c → List Token
  | .nil | .absent => []
  | .cons first others => first.tokens ++ others.tokens
  | .present inner | .plain inner | .factor inner | .term inner | .single inner | .result inner
  | .declare inner | .branch inner | .global inner => inner.tokens
  | .number t => [t.1]
  | .string t => [t.1]
  | .name t => [t.1]
  | .call callee opening values closing =>
    callee.1 :: opening.1 :: (values.tokens ++ [closing.1])
  | .group opening inner closing | .condition opening inner closing =>
    opening.1 :: (inner.tokens ++ [closing.1])
  | .arguments first others => first.tokens ++ others.tokens
  | .argument comma inner => comma.1 :: inner.tokens
  | .bang operator inner => operator.1 :: inner.tokens
  | .minus operator inner => operator.1 :: inner.tokens
  | .link operator _ right => operator :: right.tokens
  | .chain first others => first.tokens ++ others.tokens
  | .compared left operator _ right => left.tokens ++ operator :: right.tokens
  | .initializer equal inner => equal.1 :: inner.tokens
  | .binding keyword target value semicolon =>
    keyword.1 :: target.1 :: (value.tokens ++ [semicolon.1])
  | .block opening statements closing => opening.1 :: (statements.tokens ++ [closing.1])
  | .loop keyword test body => keyword.1 :: (test.tokens ++ body.tokens)
  | .giveBack keyword value semicolon => keyword.1 :: (value.tokens ++ [semicolon.1])
  | .assign target equal value semicolon =>
    target.1 :: equal.1 :: (value.tokens ++ [semicolon.1])
  | .evaluate inner semicolon => inner.tokens ++ [semicolon.1]
  | .conditional keyword test body other =>
    keyword.1 :: (test.tokens ++ (body.tokens ++ other.tokens))
  | .elseBlock keyword body => keyword.1 :: body.tokens
  | .elseIf keyword inner => keyword.1 :: inner.tokens
  | .function keyword callee opening closing body =>
    keyword.1 :: callee.1 :: opening.1 :: closing.1 :: body.tokens

/-- The token of an operand that is just a number. -/
def Phrase.number? : Phrase .unary → Option Token
  | .plain (.number t) => some t.1
  | _ => none

theorem Phrase.number?_eq_some {d : Phrase .unary} {t : Token} (h : d.number? = some t) :
    ∃ t' : Terminal .number, d = .plain (.number t') ∧ t'.1 = t := by
  unfold number? at h
  split at h
  · exact ⟨_, rfl, Option.some.inj h⟩
  · cases h

/-! ## Trees -/

/-- Each literal has a value: the text of a string has no escapes but those of the language, and a
number fits in 64 bits, as it is written or with the minus sign that stands directly before it. -/
def Phrase.Valid {c : Category} : Phrase c → Prop
  | .nil | .absent | .name _ => True
  | .cons first others => first.Valid ∧ others.Valid
  | .present inner | .plain inner | .factor inner | .term inner | .single inner | .result inner
  | .declare inner | .branch inner | .global inner | .argument _ inner | .bang _ inner
  | .initializer _ inner | .group _ inner _ | .condition _ inner _ | .evaluate inner _
  | .elseIf _ inner => inner.Valid
  | .number t => Fits (decimalValue t.1.text.toList)
  | .string t => EscapesKnown t.1.contents
  | .call _ _ values _ => values.Valid
  | .arguments first others => first.Valid ∧ others.Valid
  | .minus _ inner =>
    match inner.number? with
    | some t => Fits (-decimalValue t.text.toList)
    | none => inner.Valid
  | .link _ _ right => right.Valid
  | .chain first others => first.Valid ∧ others.Valid
  | .compared left _ _ right => left.Valid ∧ right.Valid
  | .binding _ _ value _ => value.Valid
  | .block _ statements _ => statements.Valid
  | .loop _ test body => test.Valid ∧ body.Valid
  | .giveBack _ value _ => value.Valid
  | .assign _ _ value _ => value.Valid
  | .conditional _ test body other => test.Valid ∧ body.Valid ∧ other.Valid
  | .elseBlock _ body => body.Valid
  | .function _ _ _ _ body => body.Valid

/-- What a repeated phrase stands for. -/
@[reducible] def Item.Meaning : Item → Type
  | link _ => Token × Expr
  | argument => Expr
  | statement => Stmt
  | declaration => Declaration

/-- What a phrase that may be left out stands for. -/
@[reducible] def Part.Meaning : Part → Type
  | arguments => List Expr
  | initializer | value => Expr
  | alternative => Block Stmt

/-- What a phrase stands for. -/
@[reducible] def Category.Meaning : Category → Type
  | item i => i.Meaning
  | many i => List i.Meaning
  | part p => p.Meaning
  | option p => Option p.Meaning
  | primary | unary | operand _ | chain _ | expression | condition => Expr
  | binding => Binding
  | block => Block Stmt
  | conditional => Stmt

/-- The tree that a phrase stands for. Operators group from the left, parentheses leave nothing, a
minus sign belongs to the number directly after it, and an `else if` is a block of one statement. -/
def Phrase.tree {c : Category} : Phrase c → c.Meaning
  | .nil => []
  | .cons first others => first.tree :: others.tree
  | .absent => none
  | .present inner => some inner.tree
  | .plain inner | .factor inner | .term inner | .single inner | .result inner
  | .branch inner => inner.tree
  | .argument _ inner | .initializer _ inner | .group _ inner _ | .condition _ inner _ => inner.tree
  | .number t => .integer (Int64.ofInt (decimalValue t.1.text.toList)) t.1.span
  | .string t => .string (String.ofList (literalText t.1.contents)) t.1.span
  | .name t => .reference ⟨t.1.text, t.1.span⟩
  | .call callee _ values closing =>
    .call ⟨callee.1.text, callee.1.span⟩ (values.tree.getD []) (callee.1.span.merge closing.1.span)
  | .arguments first others => first.tree :: others.tree
  | .bang operator inner => .unary operator.1 inner.tree
  | .minus operator inner =>
    match inner.number? with
    | some t => .integer (Int64.ofInt (-decimalValue t.text.toList)) (operator.1.span.merge t.span)
    | none => .binary operator.1 (.integer 0 operator.1.span) inner.tree
  | .link operator _ right => (operator, right.tree)
  | .chain first others =>
    others.tree.foldl (fun left (operator, right) => .binary operator left right) first.tree
  | .compared left operator _ right => .binary operator left.tree right.tree
  | .binding keyword target value semicolon =>
    ⟨target.1.text, value.tree, keyword.1.span.merge semicolon.1.span⟩
  | .block opening statements closing => ⟨statements.tree, opening.1.span.merge closing.1.span⟩
  | .declare inner => .declare inner.tree
  | .loop keyword test body => .loop test.tree body.tree (keyword.1.span.merge body.tree.span)
  | .giveBack keyword value semicolon =>
    .giveBack value.tree (keyword.1.span.merge semicolon.1.span)
  | .assign target _ value semicolon =>
    .assign ⟨target.1.text, target.1.span⟩ value.tree (target.1.span.merge semicolon.1.span)
  | .evaluate inner semicolon => .evaluate inner.tree (inner.tree.span.merge semicolon.1.span)
  | .conditional keyword test body other =>
    match other.tree with
    | none => .ifThen test.tree body.tree (keyword.1.span.merge body.tree.span)
    | some other => .ifElse test.tree body.tree other (keyword.1.span.merge other.span)
  | .elseBlock _ body => body.tree
  | .elseIf _ inner => ⟨[inner.tree], inner.tree.span⟩
  | .function keyword callee _ _ body => .function
    ⟨⟨callee.1.text, callee.1.span⟩, body.tree, keyword.1.span.merge body.tree.span⟩
  | .global inner => .global inner.tree

theorem Phrase.valid_minus {operator : Terminal .minus} {inner : Phrase .unary}
    (h : inner.number? = none) : (minus operator inner).Valid ↔ inner.Valid := by
  have hdef : (minus operator inner).Valid = match inner.number? with
    | some t => Fits (-decimalValue t.text.toList)
    | none => inner.Valid := rfl
  rw [hdef, h]

theorem Phrase.tree_minus {operator : Terminal .minus} {inner : Phrase .unary}
    (h : inner.number? = none) : (minus operator inner).tree = .negation operator.1 inner.tree := by
  have hdef : (minus operator inner).tree = match inner.number? with
    | some t => .integer (Int64.ofInt (-decimalValue t.text.toList)) (operator.1.span.merge t.span)
    | none => .binary operator.1 (.integer 0 operator.1.span) inner.tree := rfl
  rw [hdef, h]
  rfl

/-! ## Tokens of the language -/

/-- A kind of token that the language has. -/
def Known (kind : Token.Kind) : Prop := kind ≠ .unknown ∧ kind ≠ .unterminatedString

instance : DecidablePred Known := fun _ => inferInstanceAs (Decidable (_ ∧ _))

/-- An operator is of no kind that neither level lists. -/
theorem Level.ne_of_mem {level : Level} {kind other : Token.Kind} (h : kind ∈ level.operators)
    (hother : other ∉ sum.operators ++ product.operators) : kind ≠ other := by
  rintro rfl
  cases level with
  | sum => exact hother (List.mem_append_left _ h)
  | product => exact hother (List.mem_append_right _ h)

theorem Level.known_of_mem {level : Level} {kind : Token.Kind} (h : kind ∈ level.operators) :
    Known kind :=
  ⟨ne_of_mem h (by decide), ne_of_mem h (by decide)⟩

theorem known_of_mem_comparisons {kind : Token.Kind} (h : kind ∈ comparisons) : Known kind := by
  revert kind
  decide

/-- Each token that is derived is one that the language has. -/
theorem Phrase.known {c : Category} (d : Phrase c) : ∀ t ∈ d.tokens, Known t.kind := by
  induction d with
  | link operator known right ih => exact List.forall_mem_cons.2 ⟨Level.known_of_mem known, ih⟩
  | compared left operator known right ihl ihr =>
    exact List.forall_mem_append.2 ⟨ihl,
      List.forall_mem_cons.2 ⟨known_of_mem_comparisons known, ihr⟩⟩
  | nil | absent => exact List.forall_mem_nil _
  | _ =>
    simp only [tokens, List.forall_mem_append, List.forall_mem_cons, Terminal.kind_eq]
    and_intros <;> first | assumption | decide

end StackLang.Grammar
