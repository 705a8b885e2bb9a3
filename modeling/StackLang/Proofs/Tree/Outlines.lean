import StackLang.Proofs.Text.Fields
import StackLang.Proofs.Text.Quoted
import StackLang.Proofs.Tree.Spanless
import StackLang.Tree.Printer

/-!
# Outlines tell the tree

The lines of an outline can be taken apart again, whatever the labels are: what belongs to a label is on
the lines that are drawn to the right of it, and the next line that is not tells whether the label was the
last one. The labels of a tree tell what the nodes are, so an outline tells the tree but for its spans.

Results:
* `Outline.lines_append_inj`: the outline at the head of some lines.
* `Expr.outline_inj`, `Stmt.outline_inj`, `Declaration.outline_inj`: different trees have different
  outlines.
* `Tree.spanless_eq_of_lines`: the same of the lines of whole programs.
-/
namespace StackLang

namespace Outline

/-! ## Lines -/

/-- The first line, if there is one, has something to the right of a margin. -/
def Under (indent : String) (lines : List String) : Prop := ∃ line ∈ lines.head?, ∃ s, line = indent ++ s

theorem branch_append_inj {isLast isLast' : Bool} {s s' : String}
    (h : branch isLast ++ s = branch isLast' ++ s') : isLast = isLast' ∧ s = s' := by
  have hsame : isLast = isLast' := by
    have hchars := congrArg String.toList h
    cases isLast <;> cases isLast' <;> simp [branch] at hchars ⊢
  subst hsame
  exact ⟨rfl, (String.append_right_inj _).1 h⟩

/-- A line to a label is not one to the right of it. -/
theorem branch_append_ne (isLast isLast' : Bool) (s s' : String) :
    branch isLast ++ s ≠ margin isLast' ++ s' := fun h => by
  have hchars := congrArg String.toList h
  cases isLast <;> cases isLast' <;> simp [branch, margin] at hchars

theorem not_under_nil (indent : String) : ¬ Under indent [] := by
  rintro ⟨line, h, -⟩
  cases h

/-- What is to the right of more is to the right of less. -/
theorem Under.of_append {indent more : String} {lines : List String}
    (h : Under (indent ++ more) lines) : Under indent lines := by
  obtain ⟨line, hline, s, rfl⟩ := h
  exact ⟨_, hline, more ++ s, String.append_assoc⟩

/-- The line to a label stands at the label's own indent, -/
theorem under_lines (indent : String) (isLast : Bool) (o : Outline) (rest : List String) :
    Under indent (o.lines indent isLast ++ rest) := by
  cases o with
  | node label parts => exact ⟨_, rfl, branch isLast ++ label, String.append_assoc⟩

/-- and not to the right of another label there. -/
theorem not_under_lines (indent : String) (isLast isLast' : Bool) (o : Outline) (rest : List String) :
    ¬ Under (indent ++ margin isLast') (o.lines indent isLast ++ rest) := by
  cases o with
  | node label parts =>
    rintro ⟨line, hline, s, rfl⟩
    have heq := Option.some.inj hline
    rw [String.append_assoc, String.append_assoc] at heq
    exact branch_append_ne _ _ _ _ ((String.append_right_inj _).1 heq)

/-- After an outline come lines that are not to the right of its label. -/
theorem not_under_partLines {indent : String} {rest : List String} (h : ¬ Under indent rest)
    (isLast : Bool) (parts : List Outline) :
    ¬ Under (indent ++ margin isLast) (partLines indent parts ++ rest) := by
  cases parts with
  | nil => exact fun hunder => h hunder.of_append
  | cons part parts =>
    rw [partLines, List.append_assoc]
    exact not_under_lines _ _ _ _ _

mutual

/-- The outline at the head of some lines, if none of those after it is to the right of its label. -/
theorem lines_append_inj {indent : String} {isLast isLast' : Bool} {rest rest' : List String} :
    ∀ {o o' : Outline}, o.lines indent isLast ++ rest = o'.lines indent isLast' ++ rest' →
      (∀ b, ¬ Under (indent ++ margin b) rest) → (∀ b, ¬ Under (indent ++ margin b) rest') →
      isLast = isLast' ∧ o = o' ∧ rest = rest'
  | .node label parts, .node label' parts', h, hrest, hrest' => by
    obtain ⟨hline, hothers⟩ := List.cons.inj h
    rw [String.append_assoc, String.append_assoc] at hline
    obtain ⟨rfl, rfl⟩ := branch_append_inj ((String.append_right_inj _).1 hline)
    obtain ⟨rfl, rfl⟩ := partLines_append_inj hothers (hrest _) (hrest' _)
    exact ⟨rfl, rfl, rfl⟩

/-- The outlines at the head of some lines, if none of those after them belongs to the same label. -/
theorem partLines_append_inj {indent : String} {rest rest' : List String} :
    ∀ {parts parts' : List Outline},
      partLines indent parts ++ rest = partLines indent parts' ++ rest' →
      ¬ Under indent rest → ¬ Under indent rest' → parts = parts' ∧ rest = rest'
  | [], [], h, _, _ => ⟨rfl, h⟩
  | [], part' :: parts', h, hrest, _ => by
    rw [partLines, partLines, List.nil_append, List.append_assoc] at h
    exact absurd (h ▸ under_lines ..) hrest
  | part :: parts, [], h, _, hrest' => by
    rw [partLines, partLines, List.nil_append, List.append_assoc] at h
    exact absurd (h ▸ under_lines ..) hrest'
  | part :: parts, part' :: parts', h, hrest, hrest' => by
    rw [partLines, partLines, List.append_assoc, List.append_assoc] at h
    obtain ⟨-, rfl, hothers⟩ := lines_append_inj h (fun b => not_under_partLines hrest b parts)
      fun b => not_under_partLines hrest' b parts'
    obtain ⟨rfl, rfl⟩ := partLines_append_inj hothers hrest hrest'
    exact ⟨rfl, rfl⟩

end

/-- The outlines that some lines were drawn from, none of them as the last. -/
theorem roots_inj {os os' : List Outline}
    (h : os.flatMap (·.lines "" false) = os'.flatMap (·.lines "" false)) : os = os' := by
  have after (os : List Outline) (b : Bool) :
      ¬ Under ("" ++ margin b) (os.flatMap (·.lines "" false)) := by
    cases os with
    | nil => exact not_under_nil _
    | cons o os => exact not_under_lines _ _ _ _ _
  induction os generalizing os' with
  | nil =>
    cases os' with
    | nil => rfl
    | cons o' os' => cases o'; cases h
  | cons o os ih =>
    cases os' with
    | nil => cases o; cases h
    | cons o' os' =>
      obtain ⟨-, rfl, hothers⟩ := lines_append_inj h (after os) (after os')
      rw [ih hothers]

/-! ## Labels -/

/-- The first two characters of the label, by which nodes are told apart. -/
def tag : Outline → List Char
  | node label _ => label.toList.take 2

end Outline

/-- What stands between the same texts. -/
theorem between_inj {before after s s' : String} (h : before ++ s ++ after = before ++ s' ++ after) :
    s = s' := (String.append_right_inj _).1 ((String.append_left_inj _).1 h)

namespace Expr

/-- How the label of an expression starts. -/
def tag : Expr → List Char
  | integer .. => ['I', 'n']
  | string .. => ['S', 't']
  | reference _ => ['V', 'a']
  | operator .. => ['O', 'p']
  | call .. => ['C', 'a']

theorem tag_outline (e : Expr) : e.outline.tag = e.tag := by
  cases e <;> simp [outline, Outline.tag, tag]

theorem tag_eq {e e' : Expr} (h : e.outline = e'.outline) : e.tag = e'.tag := by
  rw [← tag_outline, h, tag_outline]

mutual

/-- Different expressions have different outlines. -/
theorem outline_inj : ∀ {e e' : Expr}, e.outline = e'.outline → e.spanless = e'.spanless
  | .integer value _, e', h => by
    have htag := tag_eq h
    cases e' with
    | integer value' _ =>
      simp only [outline, Outline.node.injEq] at h
      rw [spanless, spanless, toString_int64_inj (between_inj h.1)]
    | _ => cases htag
  | .string value _, e', h => by
    have htag := tag_eq h
    cases e' with
    | string value' _ =>
      simp only [outline, Outline.node.injEq, String.append_right_inj] at h
      rw [spanless, spanless, quoted_inj h.1]
    | _ => cases htag
  | .reference name, e', h => by
    have htag := tag_eq h
    cases e' with
    | reference name' =>
      simp only [outline, Outline.node.injEq] at h
      rw [spanless, spanless, Lexeme.spanless, Lexeme.spanless, between_inj h.1]
    | _ => cases htag
  | .operator symbol operands _, e', h => by
    have htag := tag_eq h
    cases e' with
    | operator symbol' operands' _ =>
      simp only [outline, Outline.node.injEq] at h
      rw [spanless, spanless, Lexeme.spanless, Lexeme.spanless, between_inj h.1, outlines_inj h.2]
    | _ => cases htag
  | .call callee args _, e', h => by
    have htag := tag_eq h
    cases e' with
    | call callee' args' _ =>
      simp only [outline, Outline.node.injEq] at h
      rw [spanless, spanless, Lexeme.spanless, Lexeme.spanless, between_inj h.1, outlines_inj h.2]
    | _ => cases htag

theorem outlines_inj : ∀ {es es' : List Expr}, outlines es = outlines es' →
    spanlessEach es = spanlessEach es'
  | [], [], _ => rfl
  | [], _ :: _, h => by cases h
  | _ :: _, [], h => by cases h
  | e :: es, e' :: es', h => by
    obtain ⟨hfirst, hothers⟩ := List.cons.inj h
    rw [spanlessEach, spanlessEach, outline_inj hfirst, outlines_inj hothers]

end

end Expr

/-- The outline of an expression that may be missing tells whether it is. -/
theorem optionalOutline_inj {e e' : Option Expr} (h : optionalOutline e = optionalOutline e') :
    e.map Expr.spanless = e'.map Expr.spanless := by
  cases e with
  | none =>
    cases e' with
    | none => rfl
    | some e' => cases h
  | some e =>
    cases e' with
    | none => cases h
    | some e' => exact congrArg some (Expr.outline_inj (List.cons.inj h).1)

theorem conditionOutline_inj {e e' : Expr} (h : conditionOutline e = conditionOutline e') :
    e.spanless = e'.spanless := by
  simp only [conditionOutline, Outline.node.injEq, List.cons.injEq] at h
  exact Expr.outline_inj h.2.1

theorem Binding.outline_inj {b b' : Binding} (h : b.outline = b'.outline) :
    b.spanless = b'.spanless := by
  simp only [outline, Outline.node.injEq] at h
  rw [spanless, spanless, between_inj h.1, optionalOutline_inj h.2]

namespace Stmt

/-- How the label of a statement starts. One that is an expression has no label of its own. -/
def tag : Stmt → List Char
  | declare _ => ['L', 'e']
  | evaluate e _ => e.tag
  | loop .. => ['W', 'h']
  | ifThen .. | ifElse .. => ['I', 'f']
  | assign .. => ['A', 's']
  | giveBack .. => ['R', 'e']

theorem tag_outline (s : Stmt) : s.outline.tag = s.tag := by
  cases s with
  | evaluate e _ => exact e.tag_outline
  | _ => simp [outline, Binding.outline, Outline.tag, tag]

theorem tag_eq {s s' : Stmt} (h : s.outline = s'.outline) : s.tag = s'.tag := by
  rw [← tag_outline, h, tag_outline]

mutual

/-- Different statements have different outlines. -/
theorem outline_inj : ∀ {s s' : Stmt}, s.outline = s'.outline → s.spanless = s'.spanless
  | .declare binding, s', h => by
    have htag := tag_eq h
    cases s' with
    | declare binding' => exact congrArg declare (Binding.outline_inj h)
    | evaluate e _ => cases e <;> cases htag
    | _ => cases htag
  | .evaluate e _, s', h => by
    have htag := tag_eq h
    cases s' with
    | evaluate e' _ =>
      rw [spanless, spanless, Expr.outline_inj h]
    | _ => cases e <;> cases htag
  | .loop c body _, s', h => by
    have htag := tag_eq h
    cases s' with
    | loop c' body' _ =>
      simp only [outline, Outline.node.injEq, List.cons.injEq] at h
      rw [spanless, spanless, conditionOutline_inj h.2.1, blockOutline_inj h.2.2.1]
    | evaluate e _ => cases e <;> cases htag
    | _ => cases htag
  | .ifThen c body _, s', h => by
    have htag := tag_eq h
    cases s' with
    | ifThen c' body' _ =>
      simp only [outline, Outline.node.injEq, List.cons.injEq] at h
      rw [spanless, spanless, conditionOutline_inj h.2.1, blockOutline_inj h.2.2.1]
    | ifElse => simp [outline] at h
    | evaluate e _ => cases e <;> cases htag
    | _ => cases htag
  | .ifElse c body other _, s', h => by
    have htag := tag_eq h
    cases s' with
    | ifElse c' body' other' _ =>
      simp only [outline, Outline.node.injEq, List.cons.injEq] at h
      rw [spanless, spanless, conditionOutline_inj h.2.1, blockOutline_inj h.2.2.1,
        blockOutline_inj h.2.2.2.1]
    | ifThen => simp [outline] at h
    | evaluate e _ => cases e <;> cases htag
    | _ => cases htag
  | .assign target value _, s', h => by
    have htag := tag_eq h
    cases s' with
    | assign target' value' _ =>
      simp only [outline, Outline.node.injEq, List.cons.injEq] at h
      rw [spanless, spanless, Lexeme.spanless, Lexeme.spanless, between_inj h.1,
        Expr.outline_inj h.2.1]
    | evaluate e _ => cases e <;> cases htag
    | _ => cases htag
  | .giveBack value _, s', h => by
    have htag := tag_eq h
    cases s' with
    | giveBack value' _ =>
      simp only [outline, Outline.node.injEq] at h
      rw [spanless, spanless, optionalOutline_inj h.2]
    | evaluate e _ => cases e <;> cases htag
    | _ => cases htag

theorem blockOutline_inj : ∀ {b b' : Block Stmt}, blockOutline b = blockOutline b' →
    spanlessBlock b = spanlessBlock b'
  | ⟨statements, _⟩, ⟨statements', _⟩, h => by
    simp only [blockOutline, Outline.node.injEq] at h
    rw [spanlessBlock, spanlessBlock, outlines_inj h.2]

theorem outlines_inj : ∀ {ss ss' : List Stmt}, outlines ss = outlines ss' →
    spanlessAll ss = spanlessAll ss'
  | [], [], _ => rfl
  | [], _ :: _, h => by cases h
  | _ :: _, [], h => by cases h
  | s :: ss, s' :: ss', h => by
    obtain ⟨hfirst, hothers⟩ := List.cons.inj h
    rw [spanlessAll, spanlessAll, outline_inj hfirst, outlines_inj hothers]

end

end Stmt

/-- Different declarations have different outlines. -/
theorem Declaration.outline_inj {d d' : Declaration} (h : d.outline = d'.outline) :
    d.spanless = d'.spanless := by
  have htag := congrArg Outline.tag h
  cases d with
  | function f =>
    cases d' with
    | function f' =>
      simp only [outline, Outline.node.injEq, List.cons.injEq] at h
      rw [spanless, spanless, Function.spanless, Function.spanless, Lexeme.spanless, Lexeme.spanless,
        between_inj h.1, Stmt.blockOutline_inj h.2.1]
    | global binding' => simp [outline, Binding.outline, Outline.tag] at htag
  | global binding =>
    cases d' with
    | function f' => simp [outline, Binding.outline, Outline.tag] at htag
    | global binding' => exact congrArg global (Binding.outline_inj h)

theorem Declaration.outlines_inj {ds ds' : List Declaration}
    (h : ds.map outline = ds'.map outline) : ds.map spanless = ds'.map spanless := by
  induction ds generalizing ds' with
  | nil =>
    cases ds' with
    | nil => rfl
    | cons d' ds' => cases h
  | cons d ds ih =>
    cases ds' with
    | nil => cases h
    | cons d' ds' =>
      obtain ⟨hfirst, hothers⟩ := List.cons.inj h
      rw [List.map_cons, List.map_cons, outline_inj hfirst, ih hothers]

/-- The lines of a program. -/
def Tree.lines (t : Tree) : List String := t.declarations.flatMap fun d => d.outline.lines "" false

/-- The lines of a program tell its tree. -/
theorem Tree.spanless_eq_of_lines {t t' : Tree} (h : t.lines = t'.lines) : t.spanless = t'.spanless := by
  have hroots : (t.declarations.map Declaration.outline).flatMap (Outline.lines "" false) =
      (t'.declarations.map Declaration.outline).flatMap (Outline.lines "" false) := by
    rw [List.flatMap_map, List.flatMap_map]
    exact h
  exact congrArg Tree.mk (Declaration.outlines_inj (Outline.roots_inj hroots))

end StackLang
