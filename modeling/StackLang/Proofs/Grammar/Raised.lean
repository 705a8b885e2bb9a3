import StackLang.Proofs.Grammar.Unambiguous
import StackLang.Proofs.Token.Slices
import StackLang.Proofs.Tree.Nodes

/-!
# Phrases that stand somewhere else

A phrase whose tokens are put somewhere else is a phrase, with the same literals. If all of them are put
so many bytes further on, then so is the tree that it stands for.

Results:
* `Phrase.tokens_place`, `Phrase.valid_place`: a phrase with its tokens put somewhere else.
* `Phrase.tree_raise`: the tree of a phrase that stands further on.
* `Phrase.exists_of_map_raise`: tokens that are those of a phrase but for a common distance.
-/
namespace StackLang

/-- A token that starts at another position. -/
def Token.place (f : Nat → Nat) (t : Token) : Token := ⟨t.kind, f t.start, t.text⟩

theorem Token.span_raise (k : Nat) (t : Token) : (t.raise k).span = t.span.raise k :=
  congrArg (Span.mk (t.start + k)) (Nat.add_right_comm ..)

namespace Expr

variable (k : Nat) (t : Token)

theorem raise_binary (l r : Expr) :
    (binary t l r).raise k = binary (t.raise k) (l.raise k) (r.raise k) := by
  simp only [binary, raise, raiseEach, span_raise, Span.raise_merge, Lexeme.raise, Token.lexeme,
    Token.span_raise]
  rfl

theorem raise_unary (e : Expr) : (unary t e).raise k = unary (t.raise k) (e.raise k) := by
  simp only [unary, raise, raiseEach, span_raise, Span.raise_merge, Lexeme.raise, Token.lexeme,
    Token.span_raise]
  rfl

theorem raise_negation (e : Expr) : (negation t e).raise k = negation (t.raise k) (e.raise k) := by
  rw [negation, raise_binary, raise, ← Token.span_raise]
  rfl

theorem raise_foldl (first : Expr) (links : List (Token × Expr)) :
    (links.foldl (fun left (symbol, right) => binary symbol left right) first).raise k =
      (links.map fun (symbol, right) => (symbol.raise k, right.raise k)).foldl
        (fun left (symbol, right) => binary symbol left right) (first.raise k) := by
  induction links generalizing first with
  | nil => rfl
  | cons link links ih => rw [List.foldl_cons, ih, raise_binary, List.map_cons, List.foldl_cons]

end Expr

namespace Grammar

/-! ## Phrases and their tokens -/

/-- A token of the kind that starts at another position. -/
def Terminal.place (f : Nat → Nat) {kind : Token.Kind} (t : Terminal kind) : Terminal kind :=
  ⟨t.1.place f, t.2⟩

/-- A phrase whose tokens start at other positions. -/
@[simp] def Phrase.place (f : Nat → Nat) {c : Category} : Phrase c → Phrase c
  | .nil => .nil
  | .cons first others => .cons (first.place f) (others.place f)
  | .absent => .absent
  | .present inner => .present (inner.place f)
  | .number t => .number (t.place f)
  | .string t => .string (t.place f)
  | .name t => .name (t.place f)
  | .call callee opening values closing =>
    .call (callee.place f) (opening.place f) (values.place f) (closing.place f)
  | .group opening inner closing => .group (opening.place f) (inner.place f) (closing.place f)
  | .arguments first others => .arguments (first.place f) (others.place f)
  | .argument comma inner => .argument (comma.place f) (inner.place f)
  | .bang operator inner => .bang (operator.place f) (inner.place f)
  | .minus operator inner => .minus (operator.place f) (inner.place f)
  | .plain inner => .plain (inner.place f)
  | .factor inner => .factor (inner.place f)
  | .term inner => .term (inner.place f)
  | .link operator known right => .link (operator.place f) known (right.place f)
  | .chain first others => .chain (first.place f) (others.place f)
  | .single inner => .single (inner.place f)
  | .compared left operator known right =>
    .compared (left.place f) (operator.place f) known (right.place f)
  | .initializer equal inner => .initializer (equal.place f) (inner.place f)
  | .result inner => .result (inner.place f)
  | .binding keyword target value semicolon =>
    .binding (keyword.place f) (target.place f) (value.place f) (semicolon.place f)
  | .condition opening inner closing =>
    .condition (opening.place f) (inner.place f) (closing.place f)
  | .block opening statements closing =>
    .block (opening.place f) (statements.place f) (closing.place f)
  | .declare inner => .declare (inner.place f)
  | .loop keyword test body => .loop (keyword.place f) (test.place f) (body.place f)
  | .branch inner => .branch (inner.place f)
  | .giveBack keyword value semicolon =>
    .giveBack (keyword.place f) (value.place f) (semicolon.place f)
  | .assign target equal value semicolon =>
    .assign (target.place f) (equal.place f) (value.place f) (semicolon.place f)
  | .evaluate inner semicolon => .evaluate (inner.place f) (semicolon.place f)
  | .conditional keyword test body other =>
    .conditional (keyword.place f) (test.place f) (body.place f) (other.place f)
  | .elseBlock keyword body => .elseBlock (keyword.place f) (body.place f)
  | .elseIf keyword inner => .elseIf (keyword.place f) (inner.place f)
  | .function keyword callee opening closing body =>
    .function (keyword.place f) (callee.place f) (opening.place f) (closing.place f) (body.place f)
  | .global inner => .global (inner.place f)

variable {c : Category} (d : Phrase c)

theorem Phrase.tokens_place (f : Nat → Nat) : (d.place f).tokens = d.tokens.map (Token.place f) := by
  induction d with
  | nil | absent | number | string | name => rfl
  | _ => simp [place, Terminal.place, *]

theorem Phrase.number?_place (f : Nat → Nat) (d : Phrase .unary) :
    (d.place f).number? = d.number?.map (Token.place f) := by
  cases d with
  | plain inner => cases inner <;> rfl
  | _ => rfl

/-- The literals have values wherever they stand. -/
theorem Phrase.valid_place (f : Nat → Nat) (hv : d.Valid) : (d.place f).Valid := by
  induction d with
  | nil | absent | name => trivial
  | number t => exact hv
  | string t => exact hv
  | minus operator inner ih =>
    cases hnumber : inner.number? with
    | none =>
      have hplace : (inner.place f).number? = none := by rw [number?_place, hnumber, Option.map_none]
      exact (valid_minus hplace).2 (ih ((valid_minus hnumber).1 hv))
    | some t =>
      obtain ⟨t, rfl, -⟩ := number?_eq_some hnumber
      exact hv
  | cons _ _ ih ihs | arguments _ _ ih ihs | chain _ _ ih ihs | compared _ _ _ _ ih ihs
  | loop _ _ _ ih ihs => exact ⟨ih hv.1, ihs hv.2⟩
  | conditional _ _ _ _ iht ihb iho => exact ⟨iht hv.1, ihb hv.2.1, iho hv.2.2⟩
  | call _ _ _ _ ih | binding _ _ _ _ ih | block _ _ _ ih | giveBack _ _ _ ih | assign _ _ _ _ ih
  | function _ _ _ _ _ ih | bang _ _ ih | link _ _ _ ih | elseBlock _ _ ih | group _ _ _ ih
  | condition _ _ _ ih | evaluate _ _ ih | argument _ _ ih | initializer _ _ ih | elseIf _ _ ih
  | present _ ih | plain _ ih | factor _ ih | term _ ih | single _ ih | result _ ih | declare _ ih
  | branch _ ih | global _ ih => exact ih hv

/-! ## Phrases and their trees -/

/-- What an item stands for, so many bytes further on. -/
def Item.raise (k : Nat) : (i : Item) → i.Meaning → i.Meaning
  | .link _, (t, e) => (t.raise k, e.raise k)
  | .argument, e => e.raise k
  | .statement, s => s.raise k
  | .declaration, d => d.raise k

/-- What a part stands for, so many bytes further on. -/
def Part.raise (k : Nat) : (p : Part) → p.Meaning → p.Meaning
  | .arguments, es => Expr.raiseEach k es
  | .initializer, e | .value, e => e.raise k
  | .alternative, b => Stmt.raiseBlock k b

/-- What a phrase stands for, so many bytes further on. -/
def Category.raise (k : Nat) : (c : Category) → c.Meaning → c.Meaning
  | .item i, x => i.raise k x
  | .many i, xs => xs.map (i.raise k)
  | .part p, x => p.raise k x
  | .option p, x => x.map (p.raise k)
  | .primary, e | .unary, e | .operand _, e | .chain _, e | .expression, e | .condition, e => e.raise k
  | .binding, b => Stmt.raiseBinding k b
  | .block, b => Stmt.raiseBlock k b
  | .conditional, s => s.raise k

/-- The tree of a phrase that stands further on. -/
theorem Phrase.tree_raise (k : Nat) : (d.place (· + k)).tree = c.raise k d.tree := by
  have hspan (t : Token) : (t.place (· + k)).span = t.span.raise k := t.span_raise k
  induction d with
  | nil | absent => rfl
  | cons first others ih ihs => simp only [place, tree, ih, ihs, Category.raise, List.map_cons]
  | present inner ih => simp only [place, tree, ih, Category.raise, Option.map_some]
  | plain inner ih | factor inner ih | term inner ih | single inner ih | result inner ih
  | branch inner ih | group _ inner _ ih | condition _ inner _ ih | argument _ inner ih
  | initializer _ inner ih | elseBlock _ inner ih => exact ih
  | declare inner ih => exact congrArg Stmt.declare ih
  | global inner ih => exact congrArg Declaration.global ih
  | number t => exact congrArg (Expr.integer _) (hspan t.1)
  | string t => exact congrArg (Expr.string _) (hspan t.1)
  | name t => exact congrArg (fun s => Expr.reference ⟨t.1.text, s⟩) (hspan t.1)
  | call callee opening values closing ih =>
    simp only [place, tree, ih, Terminal.place, hspan, ← Span.raise_merge]
    cases values with
    | absent => rfl
    | present values => rfl
  | arguments first others ih ihs =>
    simp only [place, tree, ih, ihs]
    exact congrArg (first.tree.raise k :: ·) (Expr.raiseEach_eq_map k others.tree).symm
  | bang operator inner ih =>
    simp only [place, tree, ih]
    exact (Expr.raise_unary k operator.1 inner.tree).symm
  | minus operator inner ih =>
    cases hnumber : inner.number? with
    | none =>
      have hplace : (inner.place (· + k)).number? = none := by
        rw [number?_place, hnumber, Option.map_none]
      rw [place, tree_minus hplace, tree_minus hnumber, ih]
      exact (Expr.raise_negation k operator.1 inner.tree).symm
    | some t =>
      obtain ⟨t, rfl, -⟩ := number?_eq_some hnumber
      refine congrArg (Expr.integer _) ?_
      rw [Span.raise_merge, ← hspan, ← hspan]
      rfl
  | link operator known right ih => exact congrArg (Prod.mk _) ih
  | chain first others ih ihs =>
    simp only [place, tree, ih, ihs]
    exact (Expr.raise_foldl k first.tree others.tree).symm
  | compared left operator known right ih ihs =>
    simp only [place, tree, ih, ihs]
    exact (Expr.raise_binary k operator left.tree right.tree).symm
  | binding keyword target value semicolon ih =>
    simp only [place, tree, ih, Terminal.place, hspan, ← Span.raise_merge]
    rfl
  | block opening statements closing ih =>
    simp only [place, tree, ih, Terminal.place, hspan, ← Span.raise_merge, Category.raise,
      Stmt.raiseBlock, Stmt.raiseAll_eq_map]
    rfl
  | loop keyword test body iht ihb =>
    simp only [place, tree, iht, ihb, Terminal.place, hspan, Category.raise, Stmt.span_raiseBlock,
      ← Span.raise_merge]
    rfl
  | giveBack keyword value semicolon ih =>
    simp only [place, tree, ih, Terminal.place, hspan, ← Span.raise_merge]
    rfl
  | assign target equal value semicolon ih =>
    simp only [place, tree, ih, Terminal.place, hspan, ← Span.raise_merge]
    rfl
  | evaluate inner semicolon ih =>
    simp only [place, tree, ih, Terminal.place, hspan, Category.raise, Expr.span_raise,
      ← Span.raise_merge]
    rfl
  | conditional keyword test body other iht ihb iho =>
    simp only [place, tree, iht, ihb, iho, Terminal.place, hspan, Category.raise]
    cases other.tree with
    | none => simp only [Option.map_none, Stmt.raise, Stmt.span_raiseBlock, ← Span.raise_merge]
    | some other =>
      simp only [Option.map_some, Part.raise, Stmt.raise, Stmt.span_raiseBlock, ← Span.raise_merge]
  | elseIf keyword inner ih =>
    simp only [place, tree, ih, Category.raise, Stmt.span_raise]
    rfl
  | function keyword callee opening closing body ih =>
    simp only [place, tree, ih, Terminal.place, hspan, Category.raise, Stmt.span_raiseBlock,
      ← Span.raise_merge]
    rfl

/-- Tokens that are those of a phrase but for a common distance are those of a phrase, and so are the
trees. -/
theorem Phrase.exists_of_map_raise {ts : List Token} {k s : Nat} (hv : d.Valid)
    (h : ts.map (Token.raise s) = d.tokens.map (Token.raise k)) :
    ∃ d' : Phrase c, d'.tokens = ts ∧ d'.Valid ∧ c.raise s d'.tree = c.raise k d.tree := by
  have htokens : (d.place fun i => i + k - s).tokens = ts := by
    have hback : (Token.place (· - s)) ∘ (Token.raise s) = id :=
      funext fun t => congrArg (Token.mk t.kind · t.text) (Nat.add_sub_cancel t.start s)
    have hmap := congrArg (List.map (Token.place (· - s))) h
    rw [List.map_map, List.map_map, hback, List.map_id] at hmap
    rw [tokens_place, hmap]
    rfl
  refine ⟨d.place fun i => i + k - s, htokens, d.valid_place _ hv, ?_⟩
  rw [← tree_raise, ← tree_raise]
  refine congrArg tree (eq_of_tokens_eq ?_)
  rw [tokens_place, htokens, tokens_place]
  exact h

end Grammar
end StackLang
