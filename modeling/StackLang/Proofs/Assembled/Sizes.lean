import StackLang.Proofs.Assembled.Acceptance
import StackLang.Proofs.Grammar.Standalone

/-!
# How many labels a source text takes

What takes labels is written with at least as many tokens, and each token takes up a byte. So a source text
whose places can be numbered has no more labels than there are numbers for, and of a tree that is read the
first violation is always reported.

Results:
* `Phrase.labels_le`: a phrase has as many tokens as labels.
* `Tree.labelCount_of_ofSource`: a source text has as many bytes as labels.
* `Tree.head?_violations_of_assemble`: which error comes of a source text that is read but not assembled.
-/
namespace StackLang

open Grammar

/-- Spans in order have room for each other. -/
theorem Span.Ordered.length_le {lo hi : Nat} {ss : List Span} (h : Ordered lo hi ss) :
    lo + ss.length ≤ hi := by
  induction ss generalizing lo with
  | nil => exact h
  | cons s ss ih =>
    obtain ⟨hlo, hlt, hlater⟩ := h
    have := ih hlater
    rw [List.length_cons]
    omega

namespace Grammar

/-- How many labels a repeated phrase takes. -/
def Item.labels : (i : Item) → i.Meaning → Nat
  | .link _, _ | .argument, _ => 0
  | .statement, s => s.labelCount
  | .declaration, .function f => 2 + Stmt.blockLabelCount f.body
  | .declaration, .global _ => 0

/-- How many labels repeated phrases take. -/
def Item.labelsOfAll (i : Item) : List i.Meaning → Nat
  | [] => 0
  | x :: xs => i.labels x + labelsOfAll i xs

/-- How many labels a phrase takes that may be left out. -/
def Part.labels : (p : Part) → p.Meaning → Nat
  | .arguments, _ | .initializer, _ | .value, _ => 0
  | .alternative, b => Stmt.blockLabelCount b

/-- How many labels a phrase takes. -/
def Category.labels : (c : Category) → c.Meaning → Nat
  | .item i, x => i.labels x
  | .many i, xs => i.labelsOfAll xs
  | .part p, x => p.labels x
  | .option p, x => x.elim 0 p.labels
  | .primary, _ | .unary, _ | .operand _, _ | .chain _, _ | .expression, _ | .condition, _
  | .binding, _ => 0
  | .block, b => Stmt.blockLabelCount b
  | .conditional, s => s.labelCount

theorem allLabelCount_eq (ss : List Stmt) :
    Stmt.allLabelCount ss = Item.statement.labelsOfAll ss := by
  induction ss with
  | nil => rfl
  | cons s ss ih => exact congrArg (s.labelCount + ·) ih

theorem functionLabelCount_eq (ds : List Declaration) :
    functionLabelCount (ds.filterMap Declaration.function?) = Item.declaration.labelsOfAll ds := by
  induction ds with
  | nil => rfl
  | cons d ds ih =>
    rw [Item.labelsOfAll, ← ih]
    cases d with
    | function f => rfl
    | global b => exact (Nat.zero_add _).symm

/-- A phrase has at least as many tokens as it takes labels. -/
theorem Phrase.labels_le {c : Category} (d : Phrase c) : c.labels d.tree ≤ d.tokens.length := by
  induction d with
  | nil | absent => exact Nat.le_refl 0
  | cons first others ih ihs =>
    rw [tokens, List.length_append]
    exact Nat.add_le_add ih ihs
  | @present p inner ih => exact ih
  | branch inner ih => exact ih
  | elseBlock keyword body ih => exact Nat.le_succ_of_le ih
  | elseIf keyword inner ih => exact Nat.le_succ_of_le ih
  | block opening statements closing ih =>
    have hlabels : Category.block.labels (block opening statements closing).tree =
        Category.labels (.many .statement) statements.tree := allLabelCount_eq statements.tree
    rw [hlabels, tokens, List.length_cons, List.length_append]
    exact Nat.le_trans ih (by omega)
  | loop keyword test body iht ihb =>
    have hlabels : Category.labels (.item .statement) (loop keyword test body).tree =
        2 + Category.block.labels body.tree := rfl
    have htest := test.length_pos trivial
    rw [hlabels, tokens, List.length_cons, List.length_append]
    omega
  | conditional keyword test body other iht ihb iho =>
    have htest := test.length_pos trivial
    rw [tokens, List.length_cons, List.length_append, List.length_append]
    cases other with
    | absent =>
      have hlabels : Category.conditional.labels (conditional keyword test body .absent).tree =
          1 + Category.block.labels body.tree := rfl
      omega
    | present other =>
      have hlabels : Category.conditional.labels
          (conditional keyword test body (.present other)).tree = 2 + Category.block.labels body.tree +
            (Category.option .alternative).labels (Phrase.present other).tree := rfl
      omega
  | function keyword callee opening closing body ih =>
    have hlabels : Category.labels (.item .declaration)
        (function keyword callee opening closing body).tree = 2 + Category.block.labels body.tree := rfl
    rw [hlabels]
    simp only [tokens, List.length_cons]
    omega
  | _ => exact Nat.zero_le _

end Grammar

/-- A source text has at least as many bytes as its tree takes labels, but for that of the entry. -/
theorem Tree.labelCount_of_ofSource {source : String} {t : Tree} (h : ofSource source = .ok t) :
    t.labelCount ≤ byteLength source.toList + 1 := by
  obtain ⟨d, htokens, -, -, -, rfl⟩ := (ofSource_eq_ok_iff source t).1 h
  have hroom := (Token.tiles_scanFrom 0 source.toList).ordered.length_le
  have hlabels : functionLabelCount (Tree.functions ⟨d.tree⟩) ≤ d.tokens.length := by
    rw [functions, functionLabelCount_eq]
    exact d.labels_le
  rw [← Token.scan, ← htokens, List.length_map] at hroom
  rw [labelCount]
  omega

/-- What is reported of a source text that is read but not assembled is its first violation. -/
theorem Tree.head?_violations_of_assemble {source : String} {t : Tree} {e : AssemblyError}
    (hsize : IsShort source) (hparse : ofSource source = .ok t)
    (hassemble : t.assemble = .error e) : t.violations.head? = some e := by
  have hlabels := labelCount_of_ofSource hparse
  have hbytes : byteLength source.toList < 0xFFFFFFFF := hsize
  exact ((assemble_reports (by omega)).2 e).1 hassemble

end StackLang
