import Mathlib.Data.List.Forall2
import StackLang.Proofs.Grammar.Source

/-!
# String literals of a tree

The string literals of a source text are its string tokens. Reading keeps each of them, in the order in
which they are written, with the text that the token stands for.

Results:
* `Tree.literals_of_ofSource`: the literals of a tree are the string tokens of its source.
* `Tree.printed_sublist`: the literals that a function prints at once are among those of the program.
-/
namespace StackLang

/-- A string literal: the text that it stands for, and where it is written. -/
structure StringLiteral where
  value : String
  span : Span
  deriving DecidableEq, Repr

/-! ## Literals of trees -/

namespace Expr

mutual

/-- The string literals in an expression, as they are written. -/
def literals : Expr → List StringLiteral
  | .integer .. | .reference _ => []
  | .string value span => [⟨value, span⟩]
  | .operator _ operands _ => literalsOfEach operands
  | .call _ args _ => literalsOfEach args

/-- The string literals in expressions, as they are written. -/
def literalsOfEach : List Expr → List StringLiteral
  | [] => []
  | e :: es => literals e ++ literalsOfEach es

end

theorem literalsOfEach_eq_flatMap (es : List Expr) : literalsOfEach es = es.flatMap literals := by
  induction es with
  | nil => rfl
  | cons e es ih => rw [literalsOfEach, ih, List.flatMap_cons]

/-- The string literals in an expression that may be missing. -/
def optionalLiterals : Option Expr → List StringLiteral
  | some e => e.literals
  | none => []

/-- The literal that an expression prints at once: it calls `putstr`, and has nothing but the literal as
an argument. -/
def printed : Expr → List StringLiteral
  | .call callee [.string value span] _ => if callee.text = "putstr" then [⟨value, span⟩] else []
  | _ => []

theorem literals_binary (operator : Token) (left right : Expr) :
    (binary operator left right).literals = left.literals ++ right.literals := by
  simp [binary, literals, literalsOfEach]

theorem literals_unary (operator : Token) (operand : Expr) :
    (unary operator operand).literals = operand.literals := by
  simp [unary, literals, literalsOfEach]

theorem literals_negation (minus : Token) (operand : Expr) :
    (negation minus operand).literals = operand.literals := by
  simp [negation, literals_binary, literals]

/-- The literals of a chain of operators are those of its operands. -/
theorem literals_foldl (first : Expr) (links : List (Token × Expr)) :
    (links.foldl (fun left (symbol, right) => binary symbol left right) first).literals =
      first.literals ++ links.flatMap (·.2.literals) := by
  induction links generalizing first with
  | nil => simp
  | cons link links ih => rw [List.foldl_cons, ih, literals_binary, List.flatMap_cons, List.append_assoc]

theorem printed_sublist (e : Expr) : e.printed.Sublist e.literals := by
  unfold printed
  split
  · split
    · exact List.Sublist.refl _
    · exact List.nil_sublist _
  · exact List.nil_sublist _

end Expr

namespace Stmt

mutual

/-- The string literals in a statement, as they are written. -/
def literals : Stmt → List StringLiteral
  | .declare binding => Expr.optionalLiterals binding.value
  | .evaluate e _ | .assign _ e _ => e.literals
  | .loop c body _ | .ifThen c body _ => c.literals ++ literalsOfBlock body
  | .ifElse c body other _ => c.literals ++ literalsOfBlock body ++ literalsOfBlock other
  | .giveBack value _ => Expr.optionalLiterals value

/-- The string literals in a block, as they are written. -/
def literalsOfBlock : Block Stmt → List StringLiteral
  | ⟨statements, _⟩ => literalsOfAll statements

/-- The string literals in statements, as they are written. -/
def literalsOfAll : List Stmt → List StringLiteral
  | [] => []
  | s :: ss => literals s ++ literalsOfAll ss

end

theorem literalsOfAll_eq_flatMap (ss : List Stmt) : literalsOfAll ss = ss.flatMap literals := by
  induction ss with
  | nil => rfl
  | cons s ss ih => rw [literalsOfAll, ih, List.flatMap_cons]

mutual

/-- The literals that a statement prints at once. -/
def printed : Stmt → List StringLiteral
  | .evaluate e _ => e.printed
  | .loop _ body _ | .ifThen _ body _ => printedOfBlock body
  | .ifElse _ body other _ => printedOfBlock body ++ printedOfBlock other
  | .declare _ | .assign .. | .giveBack .. => []

/-- The literals that a block prints at once. -/
def printedOfBlock : Block Stmt → List StringLiteral
  | ⟨statements, _⟩ => printedOfAll statements

/-- The literals that statements print at once. -/
def printedOfAll : List Stmt → List StringLiteral
  | [] => []
  | s :: ss => printed s ++ printedOfAll ss

end

mutual

theorem printed_sublist : ∀ s : Stmt, s.printed.Sublist s.literals
  | .declare _ | .assign .. | .giveBack .. => List.nil_sublist _
  | .evaluate e _ => e.printed_sublist
  | .loop _ body _ | .ifThen _ body _ =>
    (printedOfBlock_sublist body).trans (List.sublist_append_right _ _)
  | .ifElse _ body other _ =>
    ((printedOfBlock_sublist body).trans (List.sublist_append_right _ _)).append
      (printedOfBlock_sublist other)

theorem printedOfBlock_sublist : ∀ b : Block Stmt, (printedOfBlock b).Sublist (literalsOfBlock b)
  | ⟨statements, _⟩ => printedOfAll_sublist statements

theorem printedOfAll_sublist : ∀ ss : List Stmt, (printedOfAll ss).Sublist (literalsOfAll ss)
  | [] => List.nil_sublist _
  | s :: ss => (printed_sublist s).append (printedOfAll_sublist ss)

end

end Stmt

/-- The literals that a function prints at once, as they are written. -/
def Function.printed (f : Function) : List StringLiteral := Stmt.printedOfBlock f.body

/-- The string literals in a declaration. -/
def Declaration.literals : Declaration → List StringLiteral
  | .function f => Stmt.literalsOfBlock f.body
  | .global binding => Expr.optionalLiterals binding.value

/-- The string literals of a program, as they are written. -/
def Tree.literals (t : Tree) : List StringLiteral := t.declarations.flatMap Declaration.literals

/-- The literals that a function prints at once are among those of the program. -/
theorem Tree.printed_sublist {t : Tree} {f : Function} (hf : f ∈ t.functions) :
    f.printed.Sublist t.literals := by
  obtain ⟨d, hd, hdf⟩ := List.mem_filterMap.1 hf
  have hliterals : d.literals.Sublist t.literals :=
    List.sublist_flatten_of_mem (List.mem_map_of_mem hd)
  cases d with
  | function g =>
    cases hdf
    exact (Stmt.printedOfBlock_sublist f.body).trans hliterals
  | global binding => cases hdf

/-! ## Literals of phrases -/

/-- A token that a literal is read from. -/
structure StringLiteral.ReadFrom (l : StringLiteral) (t : Token) : Prop where
  kind : t.kind = .string
  span : t.span = l.span
  value : t.unescaped = .ok l.value

namespace Grammar

/-- The string literals in what an item stands for. -/
def Item.literals : (i : Item) → i.Meaning → List StringLiteral
  | .link _, (_, e) | .argument, e => e.literals
  | .statement, s => s.literals
  | .declaration, d => d.literals

/-- The string literals in what a part stands for. -/
def Part.literals : (p : Part) → p.Meaning → List StringLiteral
  | .arguments, es => Expr.literalsOfEach es
  | .initializer, e | .value, e => e.literals
  | .alternative, b => Stmt.literalsOfBlock b

/-- The string literals in what a phrase stands for. -/
def Category.literals : (c : Category) → c.Meaning → List StringLiteral
  | .item i, x => i.literals x
  | .many i, xs => xs.flatMap i.literals
  | .part p, x => p.literals x
  | .option p, x => x.elim [] p.literals
  | .primary, e | .unary, e | .operand _, e | .chain _, e | .expression, e | .condition, e => e.literals
  | .binding, b => Expr.optionalLiterals b.value
  | .block, b => Stmt.literalsOfBlock b
  | .conditional, s => s.literals

/-- The string tokens among those that a phrase spells. -/
def Phrase.strings {c : Category} (d : Phrase c) : List Token := d.tokens.filter (·.kind = .string)

/-- The literals of what a phrase stands for are read from the string tokens that it spells. -/
def Phrase.KeepsStrings {c : Category} (d : Phrase c) : Prop :=
  List.Forall₂ StringLiteral.ReadFrom (c.literals d.tree) d.strings

namespace Phrase.KeepsStrings

variable {c : Category} {d : Phrase c}

theorem none (hliterals : c.literals d.tree = []) (hstrings : d.strings = []) : d.KeepsStrings := by
  rw [KeepsStrings, hliterals, hstrings]
  exact .nil

/-- A phrase with one phrase within. -/
theorem inner {c' : Category} {d' : Phrase c'} (h : d'.KeepsStrings)
    (hliterals : c.literals d.tree = c'.literals d'.tree) (hstrings : d.strings = d'.strings) :
    d.KeepsStrings := by
  rwa [KeepsStrings, hliterals, hstrings]

/-- A phrase with two phrases within. -/
theorem both {c₁ c₂ : Category} {d₁ : Phrase c₁} {d₂ : Phrase c₂} (h₁ : d₁.KeepsStrings)
    (h₂ : d₂.KeepsStrings)
    (hliterals : c.literals d.tree = c₁.literals d₁.tree ++ c₂.literals d₂.tree)
    (hstrings : d.strings = d₁.strings ++ d₂.strings) : d.KeepsStrings := by
  rw [KeepsStrings, hliterals, hstrings]
  exact List.rel_append h₁ h₂

end Phrase.KeepsStrings

theorem ne_string_of_mem_comparisons {kind : Token.Kind} (h : kind ∈ comparisons) : kind ≠ .string := by
  revert kind
  decide

/-- Each phrase whose literals have values keeps its strings. -/
theorem Phrase.keepsStrings {c : Category} (d : Phrase c) (hv : d.Valid) : d.KeepsStrings := by
  induction d with
  | nil | absent => exact .nil
  | number t | name t => exact .none rfl (by simp [strings])
  | string t =>
    have hvalue := (unescape_eq_ok_iff (t.1.start + 1) t.1.contents).2 ⟨hv, rfl⟩
    have hread : StringLiteral.ReadFrom ⟨String.ofList (literalText t.1.contents), t.1.span⟩ t.1 :=
      ⟨t.2, rfl, by rw [Token.unescaped, hvalue]; rfl⟩
    rw [KeepsStrings, strings, tokens, List.filter_cons_of_pos (by simp)]
    exact .cons hread .nil
  | present inner ih | plain inner ih | factor inner ih | term inner ih | single inner ih
  | result inner ih | declare inner ih | branch inner ih | global inner ih => exact ih hv
  | argument _ inner ih | initializer _ inner ih | elseBlock _ inner ih | group _ inner _ ih
  | condition _ inner _ ih | evaluate inner _ ih | assign _ _ inner _ ih =>
    exact (ih hv).inner rfl (by simp [strings])
  | bang operator inner ih =>
    exact (ih hv).inner (Expr.literals_unary operator.1 inner.tree) (by simp [strings])
  | minus operator inner ih =>
    cases hnumber : inner.number? with
    | none =>
      refine (ih ((valid_minus hnumber).1 hv)).inner ?_ (by simp [strings])
      rw [tree_minus hnumber]
      exact Expr.literals_negation operator.1 inner.tree
    | some t =>
      obtain ⟨t, rfl, -⟩ := number?_eq_some hnumber
      exact .none rfl (by simp [strings])
  | call callee opening values closing ih =>
    refine (ih hv).inner ?_ (by simp [strings])
    cases values with
    | absent => rfl
    | present values => cases values; rfl
  | arguments first others ih ihs =>
    refine (ih hv.1).both (ihs hv.2) ?_ (by simp [strings])
    exact congrArg (first.tree.literals ++ ·) (Expr.literalsOfEach_eq_flatMap others.tree)
  | cons first others ih ihs => exact (ih hv.1).both (ihs hv.2) List.flatMap_cons (by simp [strings])
  | link operator known right ih =>
    have hoperator : operator.kind ≠ .string := Level.ne_of_mem known (by decide)
    exact (ih hv).inner rfl (by simp [strings, hoperator])
  | compared left operator known right ih ihs =>
    exact (ih hv.1).both (ihs hv.2) (Expr.literals_binary operator left.tree right.tree)
      (by simp [strings, ne_string_of_mem_comparisons known])
  | chain first others ih ihs =>
    exact (ih hv.1).both (ihs hv.2) (Expr.literals_foldl first.tree others.tree) (by simp [strings])
  | binding keyword target value semicolon ih =>
    refine (ih hv).inner ?_ (by simp [strings])
    cases value with
    | absent => rfl
    | present value => cases value; rfl
  | block opening statements closing ih =>
    exact (ih hv).inner (Stmt.literalsOfAll_eq_flatMap statements.tree) (by simp [strings])
  | loop keyword test body iht ihb =>
    exact (iht hv.1).both (ihb hv.2) rfl (by simp [strings])
  | giveBack keyword value semicolon ih =>
    refine (ih hv).inner ?_ (by simp [strings])
    cases value with
    | absent => rfl
    | present value => cases value; rfl
  | conditional keyword test body other iht ihb iho =>
    have hliterals : Category.conditional.literals (conditional keyword test body other).tree =
        Category.condition.literals test.tree ++ (Category.block.literals body.tree ++
          (Category.option .alternative).literals other.tree) := by
      cases other with
      | absent => exact congrArg (_ ++ ·) (List.append_nil _).symm
      | present other => exact List.append_assoc ..
    have hstrings : (conditional keyword test body other).strings =
        test.strings ++ (body.strings ++ other.strings) := by simp [strings]
    rw [KeepsStrings, hliterals, hstrings]
    exact List.rel_append (iht hv.1) (List.rel_append (ihb hv.2.1) (iho hv.2.2))
  | elseIf keyword inner ih =>
    exact (ih hv).inner (List.append_nil _) (by simp [strings])
  | function keyword callee opening closing body ih =>
    exact (ih hv).inner rfl (by simp [strings])

end Grammar

/-- The string literals of a tree are the string tokens of its source, in the same order and each with the
text that the token stands for. -/
theorem Tree.literals_of_ofSource {source : String} {t : Tree} (h : ofSource source = .ok t) :
    List.Forall₂ StringLiteral.ReadFrom t.literals ((Token.scan source).filter (·.kind = .string)) := by
  obtain ⟨d, htokens, -, -, hv, rfl⟩ := (Tree.ofSource_eq_ok_iff source t).1 h
  rw [← htokens]
  exact d.keepsStrings hv

end StackLang
