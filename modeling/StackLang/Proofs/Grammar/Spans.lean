import StackLang.Proofs.Grammar.Phrase
import StackLang.Proofs.Token.Tiling
import StackLang.Proofs.Tree.Nodes

/-!
# Where the nodes of a phrase stand

The node that a phrase stands for takes up the span from the first of its tokens to the last, and the
nodes below it stand in there in order. There are two exceptions. What an operator applies to may be in
parentheses, and the span of the operator, like that of a statement that starts with it, does not take in
the first of them. And a node that no phrase stands for is implied: the 0 of a prefix minus, and the block
of an `else if`.

Results:
* `Row.binary`, `Row.tight`: nodes from the nodes below them.
* `Phrase.faithful`: where the nodes of a phrase stand.
-/
namespace StackLang

open Grammar

theorem Token.text_of_minus {t : Token} (h : t.kind.Spells t.text.toList) (hkind : t.kind = .minus) :
    t.text = "-" := by
  rw [hkind] at h
  obtain h | ⟨h, -⟩ := h
  · exact String.toList_inj.1 h
  · cases h

/-! ## Nodes among tokens -/

/-- The phrase is some of the tokens, one after the other, and they take up the span. -/
structure Grammar.Phrase.StandsAt (ts : List Token) (s : Span) {c : Category} (d : Phrase c) : Prop where
  valid : d.Valid
  tokens : d.tokens <:+: ts
  span : s.Covers (d.tokens.map Token.span)

namespace Node

variable (ts : List Token)

/-- The node is an operator or a statement that evaluates: it can start inside of parentheses. -/
def IsOpen : Node → Prop
  | expression (.operator ..) | statement (.evaluate ..) => True
  | _ => False

/-- The node is what a phrase stands for, and its span is what the tokens of the phrase take up. -/
inductive Written : Node → Prop
  | declaration (d : Phrase (.item .declaration)) (h : d.StandsAt ts d.tree.span) : Written d.tree.node
  | block (d : Phrase .block) (h : d.StandsAt ts d.tree.span) : Written (block d.tree)
  | statement (d : Phrase (.item .statement)) (h : d.StandsAt ts d.tree.span) :
    Written (statement d.tree)
  | expression (d : Phrase .expression) (h : d.StandsAt ts d.tree.span) : Written (expression d.tree)

end Node

/-- The span starts where a token does and stops where one does. -/
def Span.Anchored (ts : List Token) (s : Span) : Prop :=
  (∃ t ∈ ts, t.span.start = s.start) ∧ ∃ t ∈ ts, t.span.stop = s.stop

/-- The statement is a conditional. -/
def Stmt.IsConditional : Stmt → Prop
  | ifThen .. | ifElse .. => True
  | _ => False

namespace Node

/-- The nodes that are not written but implied by the node above them: the 0 from which a prefix minus
subtracts, which stands where the sign does, and the block of an `else if`, which stands where the
conditional does. -/
inductive Implies : Node → Node → Prop
  | zero (place s : Span) (e : Expr) :
    Implies (expression (.operator ⟨"-", place⟩ [.integer 0 place, e] s)) (expression (.integer 0 place))
  | elseIf (c : Expr) (body : Block Stmt) {other : Stmt} (s : Span) (h : other.IsConditional) :
    Implies (statement (.ifElse c body ⟨[other], other.span⟩ s)) (block ⟨[other], other.span⟩)

/-- The block of an `else if`. -/
inductive IsElseIf : Node → Prop
  | intro {other : Stmt} (h : other.IsConditional) : IsElseIf (block ⟨[other], other.span⟩)

variable (ts : List Token)

/-- An operator is one of the tokens, and its span goes from its first operand to its second, or from
the operator itself to its only operand. -/
def OperatorSpan : Node → Prop
  | expression (.operator symbol operands s) => (∃ t ∈ ts, symbol = t.lexeme) ∧
    ((∃ l r, operands = [l, r] ∧ s = ⟨l.span.start, r.span.stop⟩) ∨
      ∃ e, operands = [e] ∧ s = ⟨symbol.span.start, e.span.stop⟩)
  | _ => True

/-- The node is written, though its first token may not be that of its phrase. -/
def Stands (n : Node) : Prop := n.IsOpen ∨ n.Written ts

/-- What can stand below a node. -/
def Allows (n c : Node) : Prop := n.Implies c ∨ c.Stands ts

/-- The node and the nodes below it stand among the tokens as they should. -/
inductive Faithful : Node → Prop
  | intro {n : Node} (anchored : n.span.Anchored ts)
    (ordered : Span.Ordered n.span.start n.span.stop (n.children.map span)) (operator : n.OperatorSpan ts)
    (allowed : ∀ c ∈ n.children, n.Allows ts c) (below : ∀ c ∈ n.children, Faithful c) : Faithful n

end Node

/-- Nodes with a property that stand one after the other between two positions, as they should. -/
structure Row (ts : List Token) (P : Node → Prop) (lo hi : Nat) (ns : List Node) : Prop where
  ordered : Span.Ordered lo hi (ns.map Node.span)
  each : ∀ n ∈ ns, n.Faithful ts ∧ P n

namespace Row

variable {ts : List Token} {P Q : Node → Prop} {lo mid hi : Nat} {n : Node} {ns ns' : List Node}

theorem nil (h : lo ≤ hi) : Row ts P lo hi [] := ⟨h, fun _ h => by cases h⟩

theorem single (hs : Span.Ordered lo hi [n.span]) (hn : n.Faithful ts) (hp : P n) :
    Row ts P lo hi [n] := by
  refine ⟨hs, fun m hm => ?_⟩
  obtain rfl := List.mem_singleton.1 hm
  exact ⟨hn, hp⟩

theorem append (h : Row ts P lo mid ns) (h' : Row ts P mid hi ns') : Row ts P lo hi (ns ++ ns') := by
  refine ⟨?_, fun n hn => (List.mem_append.1 hn).elim (h.each n) (h'.each n)⟩
  rw [List.map_append]
  exact Span.ordered_append.2 ⟨mid, h.ordered, h'.ordered⟩

theorem imp (h : Row ts P lo hi ns) (hpq : ∀ n ∈ ns, P n → Q n) : Row ts Q lo hi ns :=
  ⟨h.ordered, fun n hn => ⟨(h.each n hn).1, hpq n hn (h.each n hn).2⟩⟩

/-- Nodes that are written can stand below any node. -/
theorem allowed (h : Row ts (Node.Stands ts) lo hi ns) : Row ts (n.Allows ts) lo hi ns :=
  h.imp fun _ _ => .inr

theorem mono {lo' hi' : Nat} (h : Row ts P lo hi ns) (hlo : lo' ≤ lo) (hhi : hi ≤ hi') :
    Row ts P lo' hi' ns := ⟨h.ordered.mono hlo hhi, h.each⟩

theorem anchored (h : Row ts P lo hi [n]) : n.span.Anchored ts := by
  cases (h.each n List.mem_cons_self).1
  assumption

theorem tighten (h : Row ts P lo hi [n]) : Row ts P n.span.start n.span.stop [n] :=
  ⟨⟨Nat.le_refl _, h.ordered.2.1, Nat.le_refl _⟩, h.each⟩

/-- A node stands as it should if the nodes below it do. -/
theorem faithful (h : Row ts (n.Allows ts) n.span.start n.span.stop n.children)
    (hanchored : n.span.Anchored ts) (hoperator : n.OperatorSpan ts) : n.Faithful ts :=
  .intro hanchored h.ordered hoperator (fun c hc => (h.each c hc).2) fun c hc => (h.each c hc).1

/-! ## Operators -/

variable {t : Token} {l r e : Expr}

theorem bounds (h : Row ts P lo hi [.expression e]) :
    lo ≤ e.span.start ∧ e.span.start < e.span.stop ∧ e.span.stop ≤ hi := h.ordered

/-- An operator between two operands, the first of which may be implied. -/
theorem binary (ht : t ∈ ts)
    (hl : Row ts (Node.Allows ts (.expression (.binary t l r))) lo mid [.expression l])
    (hr : Row ts (Node.Stands ts) mid hi [.expression r]) :
    Row ts (Node.Stands ts) lo hi [.expression (.binary t l r)] := by
  obtain ⟨hlo, hlt, hmid⟩ := hl.bounds
  obtain ⟨hmid', hlt', hhi⟩ := hr.bounds
  have hspan : l.span.merge r.span = ⟨l.span.start, r.span.stop⟩ :=
    Span.merge_of_le (by omega) (by omega)
  have hnode : (Node.expression (.binary t l r)).span = ⟨l.span.start, r.span.stop⟩ := hspan
  refine single ?_ (faithful ?_ ?_ ?_) (.inl trivial)
  · rw [hnode]
    exact ⟨hlo, by dsimp only; omega, hhi⟩
  · rw [hnode]
    exact (hl.tighten.mono (Nat.le_refl _) (Nat.le_trans hmid hmid')).append
      hr.tighten.allowed
  · rw [hnode]
    exact ⟨hl.anchored.1, hr.anchored.2⟩
  · exact ⟨⟨t, ht, rfl⟩, .inl ⟨l, r, rfl, hspan⟩⟩

/-- An operator before its operand. -/
theorem unary (ht : t ∈ ts) (hlt : t.span.start < t.span.stop) (hlo : lo ≤ t.span.start)
    (he : Row ts (Node.Stands ts) t.span.stop hi [.expression e]) :
    Row ts (Node.Stands ts) lo hi [.expression (.unary t e)] := by
  obtain ⟨hmid, hlt', hhi⟩ := he.bounds
  have hspan : t.span.merge e.span = ⟨t.span.start, e.span.stop⟩ :=
    Span.merge_of_le (by omega) (by omega)
  have hnode : (Node.expression (.unary t e)).span = ⟨t.span.start, e.span.stop⟩ := hspan
  refine single ?_ (faithful ?_ ?_ ?_) (.inl trivial)
  · rw [hnode]
    exact ⟨hlo, by dsimp only; omega, hhi⟩
  · rw [hnode]
    exact (he.tighten.mono (by dsimp only [Node.span]; omega) (Nat.le_refl _)).allowed
  · rw [hnode]
    exact ⟨⟨t, ht, rfl⟩, he.anchored.2⟩
  · exact ⟨⟨t, ht, rfl⟩, .inr ⟨e, rfl, hspan⟩⟩

/-- A prefix minus, before which stands the 0 that it implies. -/
theorem negation (ht : t ∈ ts) (htext : t.text = "-") (hlt : t.span.start < t.span.stop)
    (hlo : lo ≤ t.span.start) (he : Row ts (Node.Stands ts) t.span.stop hi [.expression e]) :
    Row ts (Node.Stands ts) lo hi [.expression (.negation t e)] := by
  refine binary ht (single ⟨hlo, hlt, Nat.le_refl _⟩ (faithful (nil (Nat.le_of_lt hlt)) ?_ trivial) ?_) he
  · exact ⟨⟨t, ht, rfl⟩, t, ht, rfl⟩
  · refine .inl ?_
    rw [Expr.binary, Token.lexeme, htext]
    exact .zero _ _ _

/-- A statement that evaluates, up to its semicolon. -/
theorem evaluate (ht : t ∈ ts) (he : Row ts (Node.Stands ts) lo mid [.expression e])
    (hs : Span.Ordered mid hi [t.span]) :
    Row ts (Node.Stands ts) lo hi [.statement (.evaluate e (e.span.merge t.span))] := by
  obtain ⟨hlo, hlt, hmid⟩ := he.bounds
  obtain ⟨hmid', hlt', hhi⟩ := hs
  have hspan : (Node.statement (.evaluate e (e.span.merge t.span))).span =
      ⟨e.span.start, t.span.stop⟩ := Span.merge_of_le (by omega) (by omega)
  refine single ?_ (faithful ?_ ?_ trivial) (.inl trivial)
  · rw [hspan]
    exact ⟨hlo, by dsimp only; omega, hhi⟩
  · rw [hspan]
    exact (he.tighten.mono (Nat.le_refl _) (by dsimp only [Node.span]; omega)).allowed
  · rw [hspan]
    exact ⟨he.anchored.1, t, ht, rfl⟩

/-- Operators of one level, grouped from the left. -/
theorem foldl {links : List (Token × Expr)} {first : Expr} (hts : ∀ link ∈ links, link.1 ∈ ts)
    (hfirst : Row ts (Node.Stands ts) lo mid [.expression first])
    (hlinks : Row ts (Node.Stands ts) mid hi (links.map (.expression ·.2))) :
    Row ts (Node.Stands ts) lo hi
      [.expression (links.foldl (fun left (symbol, right) => .binary symbol left right) first)] := by
  induction links generalizing mid first with
  | nil => exact hfirst.mono (Nat.le_refl lo) hlinks.ordered.le
  | cons link links ih =>
    have hordered : Span.Ordered mid hi
        ([link.2.span] ++ (links.map (Node.expression ·.2)).map Node.span) := hlinks.ordered
    obtain ⟨mid', hright, hlater⟩ := Span.ordered_append.1 hordered
    refine @ih mid' _ (fun l hl => hts l (List.mem_cons_of_mem _ hl)) ?_ ?_
    · exact binary (hts link List.mem_cons_self) hfirst.allowed
        ⟨hright, fun n hn => hlinks.each n (List.mem_cons.2 (.inl (List.mem_singleton.1 hn)))⟩
    · exact ⟨hlater, fun n hn => hlinks.each n (List.mem_cons_of_mem _ hn)⟩

end Row

/-! ## What the tokens of a phrase take up -/

namespace Span

variable {lo hi : Nat} {a s : Span} {l l' : List Span}

theorem covers_singleton (s : Span) : s.Covers [s] := ⟨rfl, rfl⟩

/-- Spans in order take up what the first of them and the last few do. -/
theorem Ordered.covers_merge (h : Ordered lo hi (a :: l)) (hlast : l' <:+ l) (hs : s.Covers l') :
    (a.merge s).Covers (a :: l) := by
  obtain ⟨-, hlt, hlater⟩ := h
  obtain ⟨init, rfl⟩ := hlast
  obtain ⟨mid, hl, hl'⟩ := ordered_append.1 hlater
  obtain ⟨hmid, hlt', -⟩ := (hl'.cover hs).1
  have hle := hl.le
  obtain ⟨b, hlast, hb⟩ := Option.map_eq_some_iff.1 hs.2
  rw [merge_of_le (by omega) (by omega), Covers]
  refine ⟨rfl, ?_⟩
  rw [List.getLast?_cons, List.getLast?_append, hlast, ← hb]
  rfl

end Span

namespace Grammar.Phrase

variable {ts : List Token} {lo hi : Nat}

theorem covers_block : ∀ d : Phrase .block, Span.Ordered lo hi (d.tokens.map Token.span) →
    d.tree.span.Covers (d.tokens.map Token.span)
  | .block opening statements closing, h => by
    simp only [tokens, List.map_cons, List.map_append, List.map_nil] at h ⊢
    exact h.covers_merge (List.suffix_append _ _) (Span.covers_singleton _)

theorem covers_binding : ∀ d : Phrase .binding, Span.Ordered lo hi (d.tokens.map Token.span) →
    d.tree.span.Covers (d.tokens.map Token.span)
  | .binding keyword target value semicolon, h => by
    simp only [tokens, List.map_cons, List.map_append, List.map_nil] at h ⊢
    exact h.covers_merge (List.suffix_append (target.1.span :: _) _) (Span.covers_singleton _)

/-- What stands last among the parts of a conditional. -/
theorem suffix_alternative (test body other : List Span) (keyword : Span) :
    other <:+ test ++ (body ++ keyword :: other) :=
  ((List.suffix_cons _ _).trans (List.suffix_append _ _)).trans (List.suffix_append _ _)

/-- A conditional takes up what its tokens do, also with a conditional after its last `else`. -/
theorem covers_conditional : ∀ (d : Phrase .conditional) {lo hi : Nat},
    Span.Ordered lo hi (d.tokens.map Token.span) → d.tree.span.Covers (d.tokens.map Token.span)
  | .conditional keyword test body .absent, lo, hi, h => by
    simp only [tokens, List.map_cons, List.map_append, List.append_nil] at h ⊢
    have hlast := List.suffix_append (test.tokens.map Token.span) (body.tokens.map Token.span)
    exact h.covers_merge hlast (covers_block body (h.sublist (hlast.sublist.cons _)))
  | .conditional keyword test body (.present (.elseBlock elseWord other)), lo, hi, h => by
    simp only [tokens, List.map_cons, List.map_append] at h ⊢
    have hlast := suffix_alternative (test.tokens.map Token.span) (body.tokens.map Token.span)
      (other.tokens.map Token.span) elseWord.1.span
    exact h.covers_merge hlast (covers_block other (h.sublist (hlast.sublist.cons _)))
  | .conditional keyword test body (.present (.elseIf elseWord other)), lo, hi, h => by
    simp only [tokens, List.map_cons, List.map_append] at h ⊢
    have hlast := suffix_alternative (test.tokens.map Token.span) (body.tokens.map Token.span)
      (other.tokens.map Token.span) elseWord.1.span
    exact h.covers_merge hlast (covers_conditional other (h.sublist (hlast.sublist.cons _)))

end Grammar.Phrase

/-! ## The nodes of a phrase -/

namespace Grammar

/-- The nodes that an item stands for. -/
def Item.nodes : (i : Item) → i.Meaning → List Node
  | .link _, (_, e) | .argument, e => [.expression e]
  | .statement, s => [.statement s]
  | .declaration, d => [d.node]

/-- The nodes that a part stands for. -/
def Part.nodes : (p : Part) → p.Meaning → List Node
  | .arguments, es => es.map .expression
  | .initializer, e | .value, e => [.expression e]
  | .alternative, b => [.block b]

/-- The nodes that a phrase stands for. The declaration of a variable is a node only with what it is
part of. -/
def Category.nodes : (c : Category) → c.Meaning → List Node
  | .item i, x => i.nodes x
  | .many i, xs => xs.flatMap i.nodes
  | .part p, x => p.nodes x
  | .option p, x => x.elim [] p.nodes
  | .primary, e | .unary, e | .operand _, e | .chain _, e | .expression, e | .condition, e =>
    [.expression e]
  | .binding, b => Node.ofOption b.value
  | .block, b => [.block b]
  | .conditional, s => [.statement s]

/-- What a node of a phrase can be: the block after an `else` can be implied. -/
def Category.Stands (ts : List Token) : Category → Node → Prop
  | .part .alternative, n | .option .alternative, n => n.IsElseIf ∨ n.Stands ts
  | _, n => n.Stands ts

namespace Phrase

variable {c c' c₁ c₂ : Category} {ts : List Token} {lo hi : Nat}

/-- The nodes of the phrase stand as they should where the phrase is some of the tokens. -/
def Faithful (ts : List Token) (d : Phrase c) : Prop :=
  d.Valid → d.tokens <:+: ts → ∀ ⦃lo hi⦄, Span.Ordered lo hi (d.tokens.map Token.span) →
    Row ts (c.Stands ts) lo hi (c.nodes d.tree)

/-- The nodes of a phrase among some of the tokens. -/
theorem Faithful.within {d : Phrase c} (h : d.Faithful ts) (hv : d.Valid) {l : List Token}
    (hsub : d.tokens <:+: l) (hl : l <:+: ts) (ho : Span.Ordered lo hi (l.map Token.span)) :
    Row ts (c.Stands ts) lo hi (c.nodes d.tree) :=
  h hv (hsub.trans hl) (ho.sublist (hsub.sublist.map _))

/-- The nodes of two phrases one after the other. -/
theorem Faithful.both {d₁ : Phrase c₁} {d₂ : Phrase c₂} (h₁ : d₁.Faithful ts) (h₂ : d₂.Faithful ts)
    (hv₁ : d₁.Valid) (hv₂ : d₂.Valid) {l : List Token} (hsub : d₁.tokens ++ d₂.tokens <:+: l)
    (hl : l <:+: ts) (ho : Span.Ordered lo hi (l.map Token.span)) :
    ∃ mid, Row ts (c₁.Stands ts) lo mid (c₁.nodes d₁.tree) ∧
      Row ts (c₂.Stands ts) mid hi (c₂.nodes d₂.tree) := by
  have hboth := ho.sublist (hsub.sublist.map Token.span)
  rw [List.map_append] at hboth
  obtain ⟨mid, ho₁, ho₂⟩ := Span.ordered_append.1 hboth
  exact ⟨mid, h₁ hv₁ ((List.prefix_append _ _).isInfix.trans (hsub.trans hl)) ho₁,
    h₂ hv₂ ((List.suffix_append _ _).isInfix.trans (hsub.trans hl)) ho₂⟩

theorem StandsAt.anchored {d : Phrase c} {s : Span} (h : d.StandsAt ts s) : s.Anchored ts := by
  obtain ⟨hfirst, hlast⟩ := h.span
  simp only [List.head?_map, List.getLast?_map, Option.map_map, Option.map_eq_some_iff,
    Function.comp_apply] at hfirst hlast
  obtain ⟨t, ht, hstart⟩ := hfirst
  obtain ⟨u, hu, hstop⟩ := hlast
  exact ⟨⟨t, h.tokens.subset (List.mem_of_head? ht), hstart⟩,
    u, h.tokens.subset (List.mem_of_getLast? hu), hstop⟩

/-- A node that takes up what the tokens of a phrase do. -/
theorem StandsAt.row {d : Phrase c} {n : Node} {P : Node → Prop} (h : d.StandsAt ts n.span)
    (ho : Span.Ordered lo hi (d.tokens.map Token.span)) (hoperator : n.OperatorSpan ts) (hp : P n)
    (hrow : Span.Ordered n.span.start n.span.stop (d.tokens.map Token.span) →
      Row ts (n.Allows ts) n.span.start n.span.stop n.children) : Row ts P lo hi [n] :=
  have hcover := ho.cover h.span
  .single hcover.1 ((hrow hcover.2).faithful h.anchored hoperator) hp

/-- An expression that is an operand. -/
def ofUnary (d : Phrase .unary) : Phrase .expression :=
  .single (.chain (.term (.chain (.factor d) .nil)) .nil)

theorem tokens_ofUnary (d : Phrase .unary) : d.ofUnary.tokens = d.tokens := by
  simp only [ofUnary, tokens, List.append_nil]

theorem StandsAt.stands {d : Phrase .unary} (h : d.StandsAt ts d.tree.span) :
    (Node.expression d.tree).Stands ts :=
  .inr (.expression d.ofUnary ⟨⟨⟨h.valid, trivial⟩, trivial⟩, d.tokens_ofUnary ▸ h.tokens,
    d.tokens_ofUnary ▸ h.span⟩)

theorem StandsAt.stands_plain {d : Phrase .primary} (h : d.StandsAt ts d.tree.span) :
    (Node.expression d.tree).Stands ts :=
  StandsAt.stands (d := .plain d) ⟨h.valid, h.tokens, h.span⟩

/-- The operators of a chain are among its tokens. -/
theorem mem_tokens_of_link {level : Level} : ∀ (d : Phrase (.many (.link level))),
    ∀ l ∈ d.tree, l.1 ∈ d.tokens
  | .nil, _, h => by cases h
  | .cons (.link operator known right) others, l, h => by
    rcases List.mem_cons.1 h with rfl | h
    · exact List.mem_cons_self
    · exact List.mem_append_right _ (mem_tokens_of_link others l h)

theorem isConditional_tree : ∀ d : Phrase .conditional, d.tree.IsConditional
  | .conditional _ _ _ .absent => trivial
  | .conditional _ _ _ (.present _) => trivial

/-- An expression of one token. -/
theorem faithful_of_single {d : Phrase .primary} {t : Token} (htokens : d.tokens = [t])
    (hspan : d.tree.span = t.span) (hchildren : (Node.expression d.tree).children = [])
    (hoperator : (Node.expression d.tree).OperatorSpan ts) : d.Faithful ts := by
  intro hv hin lo hi ho
  have h : d.StandsAt ts d.tree.span := ⟨hv, hin, by
    rw [htokens, hspan]
    exact Span.covers_singleton _⟩
  refine h.row (n := .expression d.tree) ho hoperator h.stands_plain fun ho' => ?_
  rw [hchildren]
  exact .nil ho'.le

/-- A prefix minus, which can be a part of a number. -/
theorem faithful_minus (hspells : ∀ t ∈ ts, t.kind.Spells t.text.toList) {operator : Terminal .minus}
    {inner : Phrase .unary} (ih : inner.Faithful ts) : (minus operator inner).Faithful ts := by
  intro hv hin lo hi ho
  have hmem : operator.1 ∈ ts := hin.subset List.mem_cons_self
  cases hnumber : inner.number? with
  | none =>
    rw [tree_minus hnumber]
    have htext := Token.text_of_minus (hspells _ hmem) operator.2
    exact .negation hmem htext ho.2.1 ho.1
      (ih ((valid_minus hnumber).1 hv) ((List.suffix_cons _ _).isInfix.trans hin) ho.2.2)
  | some t =>
    obtain ⟨t, rfl, -⟩ := number?_eq_some hnumber
    have h : (minus operator (plain (number t))).StandsAt ts
        (minus operator (plain (number t))).tree.span :=
      ⟨hv, hin, ho.covers_merge List.suffix_rfl (Span.covers_singleton t.1.span)⟩
    exact h.row ho trivial h.stands fun ho' => .nil ho'.le

/-- An assignment, of which the name that is assigned to is a node. -/
theorem faithful_assign {target : Terminal .identifier} {equal : Terminal .equal}
    {value : Phrase .expression} {semicolon : Terminal .semicolon} (ih : value.Faithful ts) :
    (assign target equal value semicolon).Faithful ts := by
  intro hv hin lo hi ho
  have hlast := (List.suffix_append (equal.1 :: value.tokens) [semicolon.1]).map Token.span
  have h : (assign target equal value semicolon).StandsAt ts
      (assign target equal value semicolon).tree.span :=
    ⟨hv, hin, ho.covers_merge hlast (Span.covers_singleton _)⟩
  refine h.row ho trivial (.inr (.statement _ h)) fun ho' => ?_
  have hname : (name target).Faithful ts := faithful_of_single rfl rfl rfl trivial
  have htarget := hname trivial (List.IsInfix.trans ⟨[], _, rfl⟩ hin)
    ⟨ho'.1, ho'.2.1, Nat.le_refl target.1.span.stop⟩
  have hvalue := ih.within hv ⟨[equal.1], [semicolon.1], rfl⟩ ((List.suffix_cons _ _).isInfix.trans hin)
    ho'.2.2
  exact (htarget.append hvalue).allowed

/-- A conditional, with an `else` or without. -/
theorem faithful_conditional {keyword : Terminal .ifWord} {test : Phrase .condition}
    {body : Phrase .block} {other : Phrase (.option .alternative)} (iht : test.Faithful ts)
    (ihb : body.Faithful ts) (iho : other.Faithful ts) :
    (conditional keyword test body other).Faithful ts := by
  intro hv hin lo hi ho
  have h : (conditional keyword test body other).StandsAt ts
      (conditional keyword test body other).tree.span := ⟨hv, hin, covers_conditional _ ho⟩
  have hwritten := Node.Written.statement (branch (conditional keyword test body other))
    ⟨hv, hin, h.span⟩
  have hopen : (Node.statement (conditional keyword test body other).tree).OperatorSpan ts := by
    cases other <;> trivial
  refine h.row ho hopen (.inr hwritten) fun ho' => ?_
  simp only [tokens, List.map_cons, List.map_append] at ho'
  obtain ⟨hstart, hlt, hparts⟩ := ho'
  obtain ⟨mid, hotest, hparts⟩ := Span.ordered_append.1 hparts
  obtain ⟨mid', hobody, hoother⟩ := Span.ordered_append.1 hparts
  have htest := iht hv.1 (List.IsInfix.trans ⟨[keyword.1], _, rfl⟩ hin) hotest
  have hbody := ihb hv.2.1 (List.IsInfix.trans ⟨keyword.1 :: test.tokens, other.tokens, by simp⟩ hin)
    hobody
  have hother := iho hv.2.2
    (List.IsInfix.trans ⟨keyword.1 :: (test.tokens ++ body.tokens), [], by simp⟩ hin) hoother
  have hfirst := (htest.append hbody).mono (Nat.le_trans hstart (Nat.le_of_lt hlt)) (Nat.le_refl mid')
  cases other with
  | absent => exact (hfirst.mono (Nat.le_refl _) hoother.le).allowed
  | present inner =>
    refine hfirst.allowed.append (hother.imp fun n hn hstands => hstands.imp_left fun helse => ?_)
    obtain rfl := List.mem_singleton.1 hn
    show (Node.statement (.ifElse test.tree body.tree inner.tree _)).Implies (.block inner.tree)
    generalize inner.tree = other at helse
    obtain ⟨hconditional⟩ := helse
    exact .elseIf _ _ _ hconditional

/-- The nodes of a phrase stand as they should. -/
theorem faithful (hspells : ∀ t ∈ ts, t.kind.Spells t.text.toList) (d : Phrase c) : d.Faithful ts := by
  induction d with
  | nil | absent => exact fun _ _ lo hi ho => .nil ho
  | cons first others ih ihs =>
    intro hv hin lo hi ho
    obtain ⟨mid, hfirst, hothers⟩ := ih.both ihs hv.1 hv.2 List.infix_rfl hin ho
    exact hfirst.append hothers
  | @present p inner ih =>
    intro hv hin lo hi ho
    cases p <;> exact ih hv hin ho
  | plain inner ih | factor inner ih | term inner ih | single inner ih | result inner ih
  | branch inner ih => exact ih
  | group opening inner closing ih | condition opening inner closing ih =>
    exact fun hv hin lo hi ho => ih.within hv ⟨[opening.1], [closing.1], rfl⟩ hin ho
  | argument comma inner ih | initializer comma inner ih =>
    exact fun hv hin lo hi ho => ih.within hv (List.suffix_cons _ _).isInfix hin ho
  | link operator known right ih =>
    exact fun hv hin lo hi ho => ih.within hv (List.suffix_cons _ _).isInfix hin ho
  | elseBlock keyword body ih =>
    exact fun hv hin lo hi ho => (ih.within hv (List.suffix_cons _ _).isInfix hin ho).imp
      fun _ _ => .inr
  | number t => exact faithful_of_single rfl rfl rfl trivial
  | string t => exact faithful_of_single rfl rfl rfl trivial
  | name t => exact faithful_of_single rfl rfl rfl trivial
  | call callee opening values closing ih =>
    intro hv hin lo hi ho
    have hlast : [closing.1.span] <:+ (opening.1 :: (values.tokens ++ [closing.1])).map Token.span := by
      simp
    have h : (call callee opening values closing).StandsAt ts
        (call callee opening values closing).tree.span :=
      ⟨hv, hin, ho.covers_merge hlast (Span.covers_singleton _)⟩
    refine h.row ho trivial h.stands_plain fun ho' => ?_
    have hrow := ih.within hv ⟨[callee.1, opening.1], [closing.1], rfl⟩ hin ho'
    cases values <;> exact hrow.allowed
  | arguments first others ih ihs =>
    intro hv hin lo hi ho
    obtain ⟨mid, hfirst, hothers⟩ := ih.both ihs hv.1 hv.2 List.infix_rfl hin ho
    have hmap : others.tree.map Node.expression = others.tree.flatMap (Item.nodes .argument) :=
      List.map_eq_flatMap
    show Row ts _ lo hi (.expression first.tree :: others.tree.map Node.expression)
    rw [hmap]
    exact hfirst.append hothers
  | bang operator inner ih =>
    intro hv hin lo hi ho
    exact .unary (hin.subset List.mem_cons_self) ho.2.1 ho.1
      (ih hv ((List.suffix_cons _ _).isInfix.trans hin) ho.2.2)
  | minus operator inner ih => exact faithful_minus hspells ih
  | chain first others ih ihs =>
    intro hv hin lo hi ho
    obtain ⟨mid, hfirst, hothers⟩ := ih.both ihs hv.1 hv.2 List.infix_rfl hin ho
    have hmap : others.tree.map (Node.expression ·.2) = others.tree.flatMap (Item.nodes (.link _)) :=
      List.map_eq_flatMap
    refine .foldl (fun l hl => ?_) hfirst (hmap ▸ hothers)
    exact hin.subset (List.mem_append_right _ (others.mem_tokens_of_link l hl))
  | compared left operator known right ih ihs =>
    intro hv hin lo hi ho
    simp only [tokens, List.map_append, List.map_cons] at ho
    obtain ⟨mid, hleft, hop⟩ := Span.ordered_append.1 ho
    have hmid : mid ≤ operator.span.stop := Nat.le_trans hop.1 (Nat.le_of_lt hop.2.1)
    have hrow := ih hv.1 ((List.prefix_append _ _).isInfix.trans hin) hleft
    exact .binary (hin.subset (List.mem_append_right _ List.mem_cons_self))
      (hrow.mono (Nat.le_refl lo) hmid).allowed
      (ihs hv.2 (((List.suffix_cons _ _).trans (List.suffix_append _ _)).isInfix.trans hin) hop.2.2)
  | binding keyword target value semicolon ih =>
    intro hv hin lo hi ho
    have hrow := ih.within hv ⟨[keyword.1, target.1], [semicolon.1], rfl⟩ hin ho
    cases value <;> exact hrow
  | block opening statements closing ih =>
    intro hv hin lo hi ho
    have h : (block opening statements closing).StandsAt ts (opening.1.span.merge closing.1.span) :=
      ⟨hv, hin, covers_block _ ho⟩
    refine h.row ho trivial (.inr (.block _ h)) fun ho' => ?_
    have hmap : statements.tree.map Node.statement = statements.tree.flatMap (Item.nodes .statement) :=
      List.map_eq_flatMap
    show Row ts _ _ _ (statements.tree.map Node.statement)
    rw [hmap]
    exact (ih.within hv ⟨[opening.1], [closing.1], rfl⟩ hin ho').allowed
  | declare inner ih =>
    intro hv hin lo hi ho
    have h : (declare inner).StandsAt ts inner.tree.span := ⟨hv, hin, covers_binding inner ho⟩
    exact h.row ho trivial (.inr (.statement _ h)) fun ho' => (ih hv hin ho').allowed
  | global inner ih =>
    intro hv hin lo hi ho
    have h : (global inner).StandsAt ts inner.tree.span := ⟨hv, hin, covers_binding inner ho⟩
    exact h.row ho trivial (.inr (.declaration _ h)) fun ho' => (ih hv hin ho').allowed
  | loop keyword test body iht ihb =>
    intro hv hin lo hi ho
    have hlast := (List.suffix_append test.tokens body.tokens).map Token.span
    have h : (loop keyword test body).StandsAt ts (loop keyword test body).tree.span :=
      ⟨hv, hin, ho.covers_merge hlast (covers_block body (ho.sublist (hlast.sublist.cons _)))⟩
    refine h.row ho trivial (.inr (.statement _ h)) fun ho' => ?_
    obtain ⟨mid, htest, hbody⟩ := iht.both ihb hv.1 hv.2 (List.suffix_cons _ _).isInfix hin ho'
    exact (htest.append hbody).allowed
  | giveBack keyword value semicolon ih =>
    intro hv hin lo hi ho
    have hlast := (List.suffix_append value.tokens [semicolon.1]).map Token.span
    have h : (giveBack keyword value semicolon).StandsAt ts
        (giveBack keyword value semicolon).tree.span :=
      ⟨hv, hin, ho.covers_merge hlast (Span.covers_singleton _)⟩
    refine h.row ho trivial (.inr (.statement _ h)) fun ho' => ?_
    have hrow := ih.within hv ⟨[keyword.1], [semicolon.1], rfl⟩ hin ho'
    cases value <;> exact hrow.allowed
  | assign target equal value semicolon ih => exact faithful_assign ih
  | evaluate inner semicolon ih =>
    intro hv hin lo hi ho
    simp only [tokens, List.map_append, List.map_cons, List.map_nil] at ho
    obtain ⟨mid, hinner, hsemicolon⟩ := Span.ordered_append.1 ho
    exact .evaluate (hin.subset (List.mem_append_right _ List.mem_cons_self))
      (ih hv ((List.prefix_append _ _).isInfix.trans hin) hinner) hsemicolon
  | conditional keyword test body other iht ihb iho => exact faithful_conditional iht ihb iho
  | elseIf keyword inner ih =>
    intro hv hin lo hi ho
    have hrow := ih hv ((List.suffix_cons _ _).isInfix.trans hin) ho.2.2
    have hblock : (Node.block ⟨[inner.tree], inner.tree.span⟩).Faithful ts :=
      Row.faithful hrow.tighten.allowed hrow.anchored trivial
    exact .single (hrow.ordered.mono (Nat.le_trans ho.1 (Nat.le_of_lt ho.2.1)) (Nat.le_refl hi)) hblock
      (.inl ⟨inner.isConditional_tree⟩)
  | function keyword callee opening closing body ih =>
    intro hv hin lo hi ho
    have hlast : body.tokens.map Token.span <:+
        (callee.1 :: opening.1 :: closing.1 :: body.tokens).map Token.span :=
      List.IsSuffix.map _ ⟨[callee.1, opening.1, closing.1], rfl⟩
    have h : (function keyword callee opening closing body).StandsAt ts
        (function keyword callee opening closing body).tree.span :=
      ⟨hv, hin, ho.covers_merge hlast (covers_block body (ho.sublist (hlast.sublist.cons _)))⟩
    exact h.row ho trivial (.inr (.declaration _ h)) fun ho' =>
      (ih.within hv ⟨[keyword.1, callee.1, opening.1, closing.1], [], by simp⟩ hin ho').allowed

end Phrase
end Grammar
end StackLang
