import StackLang.Proofs.Grammar.Source
import StackLang.Proofs.Grammar.Spans
import StackLang.Proofs.Tree.Blamed

/-!
# What names and operators are spelled by

A name in a tree is spelled by a token of the source, where the tree says that it stands. An operator is
spelled by a token that says how many operands it takes, and has that many: the grammar puts one operand
after a `!`, and one on each side of any other operator, with a 0 for the one that a prefix minus lacks.

Results:
* `Phrase.spelled`: the nodes of a phrase.
* `Tree.spelled_of_ofSource`: the nodes of a tree that is read from a source text.
* `Tree.operatorsApplied_of_ofSource`: operators that are read are applied to what they take.
-/
namespace StackLang

open Grammar

/-! ## Nodes that are spelled -/

namespace Node

/-- The name of the node is one of the tokens, and an operator has as many operands as it takes. -/
def NameSpelled (ts : List Token) : Node → Prop
  | function f => ∃ t ∈ ts, t.lexeme = f.name
  | expression (.reference name) => ∃ t ∈ ts, t.lexeme = name
  | expression (.call callee _ _) => ∃ t ∈ ts, t.lexeme = callee
  | expression (.operator symbol operands _) => operandCount? symbol.text = some operands.length
  | _ => True

/-- The name of the node is spelled, and so are those of all nodes below it. -/
inductive Spelled (ts : List Token) : Node → Prop
  | intro {n : Node} (name : n.NameSpelled ts) (children : ∀ c ∈ n.children, Spelled ts c) :
    Spelled ts n

variable {ts : List Token} {t : Token} {l r : Expr}

theorem Spelled.name {n : Node} (h : n.Spelled ts) : n.NameSpelled ts := by
  cases h
  assumption

theorem Spelled.children {n : Node} (h : n.Spelled ts) : ∀ c ∈ n.children, c.Spelled ts := by
  cases h
  assumption

theorem spelled_integer (value : Int64) (s : Span) : (expression (.integer value s)).Spelled ts :=
  .intro trivial (List.forall_mem_nil _)

theorem spelled_binary (ht : operandCount? t.text = some 2) (hl : (expression l).Spelled ts)
    (hr : (expression r).Spelled ts) : (expression (.binary t l r)).Spelled ts :=
  .intro ht (List.forall_mem_cons.2 ⟨hl, List.forall_mem_singleton.2 hr⟩)

theorem spelled_foldl {links : List (Token × Expr)} {first : Expr}
    (hfirst : (expression first).Spelled ts)
    (hlinks : ∀ link ∈ links, operandCount? link.1.text = some 2 ∧ (expression link.2).Spelled ts) :
    (expression (links.foldl (fun left (symbol, right) => .binary symbol left right) first)).Spelled
      ts := by
  induction links generalizing first with
  | nil => exact hfirst
  | cons link links ih =>
    obtain ⟨hlink, hlinks⟩ := List.forall_mem_cons.1 hlinks
    exact ih (spelled_binary hlink.1 hfirst hlink.2) hlinks

end Node

/-! ## Operators -/

/-- A token whose kind is spelled in one way only has that text. -/
theorem Token.text_of_operator {t : Token} (h : t.kind.Spells t.text.toList)
    (hk : t.kind ∈ Level.sum.operators ++ Level.product.operators ++ .bang :: comparisons) :
    t.text = t.kind.name := by
  have hform : t.kind.Form t.text.toList := by
    obtain hform | ⟨hunknown, -⟩ := h
    · exact hform
    · rw [hunknown] at hk
      exact absurd hk (by decide)
  cases hkind : t.kind <;> rw [hkind] at hk hform <;>
    first | exact absurd hk (by decide) | exact String.toList_inj.1 hform

namespace Grammar

variable {ts : List Token} {t : Token}

theorem operandCount?_of_operator {level : Level} (h : t.kind.Spells t.text.toList)
    (hk : t.kind ∈ level.operators) : operandCount? t.text = some 2 := by
  have hmem : t.kind ∈ Level.sum.operators ++ Level.product.operators ++ .bang :: comparisons := by
    cases level <;> simp [hk]
  rw [Token.text_of_operator h hmem]
  generalize t.kind = kind at hk
  revert kind
  cases level <;> decide

theorem operandCount?_of_comparison (h : t.kind.Spells t.text.toList) (hk : t.kind ∈ comparisons) :
    operandCount? t.text = some 2 := by
  rw [Token.text_of_operator h (by simp [hk])]
  generalize t.kind = kind at hk
  revert kind
  decide

/-! ## Phrases -/

namespace Phrase

/-- The operators of a chain take two operands. -/
theorem operandCount?_of_link (hspells : ∀ t ∈ ts, t.kind.Spells t.text.toList) {level : Level} :
    ∀ d : Phrase (.many (.link level)), d.tokens ⊆ ts →
      ∀ l ∈ d.tree, operandCount? l.1.text = some 2
  | .nil, _, _, h => by cases h
  | .cons (.link operator known right) others, hsub, l, h => by
    simp only [tokens, List.append_subset, List.cons_subset] at hsub
    obtain rfl | h := List.mem_cons.1 h
    · exact operandCount?_of_operator (hspells _ hsub.1.1) known
    · exact operandCount?_of_link hspells others hsub.2 l h

/-- The nodes of a phrase are spelled by its tokens. -/
theorem spelled (hspells : ∀ t ∈ ts, t.kind.Spells t.text.toList) {c : Category} (d : Phrase c)
    (hsub : d.tokens ⊆ ts) : ∀ n ∈ c.nodes d.tree, n.Spelled ts := by
  induction d with
  | nil | absent => exact List.forall_mem_nil _
  | cons first others ih ihs =>
    obtain ⟨hfirst, hothers⟩ := List.append_subset.1 hsub
    exact List.forall_mem_append.2 ⟨ih hfirst, ihs hothers⟩
  | present inner ih | plain inner ih | factor inner ih | term inner ih | single inner ih
  | result inner ih | branch inner ih => exact ih hsub
  | number t => exact List.forall_mem_singleton.2 (Node.spelled_integer _ _)
  | string t => exact List.forall_mem_singleton.2 (.intro trivial (List.forall_mem_nil _))
  | name t =>
    exact List.forall_mem_singleton.2
      (.intro ⟨t.1, hsub List.mem_cons_self, rfl⟩ (List.forall_mem_nil _))
  | call callee opening values closing ih =>
    simp only [tokens, List.cons_subset, List.append_subset] at hsub
    refine List.forall_mem_singleton.2 (.intro ⟨callee.1, hsub.1, rfl⟩ ?_)
    cases values with
    | absent => exact List.forall_mem_nil _
    | present values => exact ih hsub.2.2.1
  | group _ inner _ ih | condition _ inner _ ih =>
    simp only [tokens, List.cons_subset, List.append_subset] at hsub
    exact ih hsub.2.1
  | arguments first others ih ihs =>
    obtain ⟨hfirst, hothers⟩ := List.append_subset.1 hsub
    have hmap : others.tree.map Node.expression = others.tree.flatMap (Item.nodes .argument) :=
      List.map_eq_flatMap
    have hall : ∀ n ∈ others.tree.map Node.expression, n.Spelled ts := hmap ▸ ihs hothers
    exact List.forall_mem_cons.2 ⟨ih hfirst _ List.mem_cons_self, hall⟩
  | argument _ inner ih | initializer _ inner ih | elseBlock _ inner ih =>
    exact ih (List.cons_subset.1 hsub).2
  | link _ _ inner ih => exact ih (List.cons_subset.1 hsub).2
  | bang operator inner ih =>
    obtain ⟨hoperator, hinner⟩ := List.cons_subset.1 hsub
    have htext := Token.text_of_operator (hspells _ hoperator) (by simp)
    refine List.forall_mem_singleton.2 (.intro ?_ (ih hinner))
    show operandCount? operator.1.text = some 1
    rw [htext, operator.2]
    decide
  | minus operator inner ih =>
    obtain ⟨hoperator, hinner⟩ := List.cons_subset.1 hsub
    cases hnumber : inner.number? with
    | none =>
      rw [tree_minus hnumber]
      have hknown : operator.1.kind ∈ Level.sum.operators := by rw [operator.2]; decide
      have hcount := operandCount?_of_operator (hspells _ hoperator) hknown
      exact List.forall_mem_singleton.2 (Node.spelled_binary hcount (Node.spelled_integer _ _)
        (ih hinner _ List.mem_cons_self))
    | some t =>
      obtain ⟨t, rfl, -⟩ := number?_eq_some hnumber
      exact List.forall_mem_singleton.2 (Node.spelled_integer _ _)
  | chain first others ih ihs =>
    obtain ⟨hfirst, hothers⟩ := List.append_subset.1 hsub
    refine List.forall_mem_singleton.2 (Node.spelled_foldl (ih hfirst _ List.mem_cons_self) ?_)
    intro l hl
    exact ⟨operandCount?_of_link hspells others hothers l hl,
      ihs hothers _ (List.mem_flatMap.2 ⟨l, hl, List.mem_cons_self⟩)⟩
  | compared left operator known right ihl ihr =>
    simp only [tokens, List.append_subset, List.cons_subset] at hsub
    have hcount := operandCount?_of_comparison (hspells _ hsub.2.1) known
    exact List.forall_mem_singleton.2 (Node.spelled_binary hcount (ihl hsub.1 _ List.mem_cons_self)
      (ihr hsub.2.2 _ List.mem_cons_self))
  | binding keyword target value semicolon ih =>
    simp only [tokens, List.cons_subset, List.append_subset] at hsub
    cases value <;> exact ih hsub.2.2.1
  | block opening statements closing ih =>
    simp only [tokens, List.cons_subset, List.append_subset] at hsub
    have hmap : statements.tree.map Node.statement = statements.tree.flatMap (Item.nodes .statement) :=
      List.map_eq_flatMap
    have hall : ∀ n ∈ statements.tree.map Node.statement, n.Spelled ts := hmap ▸ ih hsub.2.1
    exact List.forall_mem_singleton.2 (.intro trivial hall)
  | declare inner ih | global inner ih =>
    exact List.forall_mem_singleton.2 (.intro trivial (ih hsub))
  | loop keyword test body iht ihb =>
    simp only [tokens, List.cons_subset, List.append_subset] at hsub
    exact List.forall_mem_singleton.2
      (.intro trivial (List.forall_mem_append.2 ⟨iht hsub.2.1, ihb hsub.2.2⟩))
  | giveBack keyword value semicolon ih =>
    simp only [tokens, List.cons_subset, List.append_subset] at hsub
    refine List.forall_mem_singleton.2 (.intro trivial ?_)
    cases value <;> exact ih hsub.2.1
  | assign target equal value semicolon ih =>
    simp only [tokens, List.cons_subset, List.append_subset] at hsub
    have htarget : (Node.expression (.reference target.1.lexeme)).Spelled ts :=
      .intro ⟨target.1, hsub.1, rfl⟩ (List.forall_mem_nil _)
    exact List.forall_mem_singleton.2
      (.intro trivial (List.forall_mem_cons.2 ⟨htarget, ih hsub.2.2.1⟩))
  | evaluate inner semicolon ih =>
    exact List.forall_mem_singleton.2 (.intro trivial (ih (List.append_subset.1 hsub).1))
  | conditional keyword test body other iht ihb iho =>
    simp only [tokens, List.cons_subset, List.append_subset] at hsub
    have hboth := List.forall_mem_append.2 ⟨iht hsub.2.1, ihb hsub.2.2.1⟩
    cases other with
    | absent => exact List.forall_mem_singleton.2 (.intro trivial hboth)
    | present other =>
      exact List.forall_mem_singleton.2
        (.intro trivial (List.forall_mem_append.2 ⟨hboth, iho hsub.2.2.2⟩))
  | elseIf keyword inner ih =>
    exact List.forall_mem_singleton.2 (.intro trivial (ih (List.cons_subset.1 hsub).2))
  | function keyword callee opening closing body ih =>
    simp only [tokens, List.cons_subset] at hsub
    exact List.forall_mem_singleton.2 (.intro ⟨callee.1, hsub.2.1, rfl⟩ (ih hsub.2.2.2.2))

end Phrase
end Grammar

/-! ## Trees of source texts -/

/-- The nodes of a tree that is read are spelled by the tokens of the source. -/
theorem Tree.spelled_of_ofSource {source : String} {t : Tree} (h : ofSource source = .ok t) {n : Node}
    (hn : t.Has n) : n.Spelled (Token.scan source) := by
  obtain ⟨d, htokens, -, -, -, rfl⟩ := (ofSource_eq_ok_iff source t).1 h
  have hspells := fun token htoken => (Token.tiles_scanFrom 0 source.toList).spells (t := token) htoken
  induction hn with
  | @declaration declaration hd =>
    refine d.spelled hspells (htokens ▸ List.Subset.refl _) _ ?_
    exact List.mem_flatMap.2 ⟨declaration, hd, List.mem_cons_self⟩
  | child _ hc ih => exact ih.children _ hc

/-- Operators that are read have as many operands as they take. -/
theorem Tree.operatorsApplied_of_ofSource {source : String} {t : Tree} (h : ofSource source = .ok t) :
    t.OperatorsApplied := fun _ _ _ has => (spelled_of_ofSource h has).name

end StackLang
