import StackLang.Proofs.Grammar.Source
import StackLang.Proofs.Tree.Outlines

/-!
# A printout tells the tree

Only strings can hold line feeds, and they are shown quoted. So each label of a tree that was read from a
source is one line, the text of the tree is cut into its lines, and these tell the tree.

Results:
* `Phrase.labels_plain`: the labels of what a phrase stands for are lines.
* `Tree.spanless_eq_of_text`: trees of sources that have one text are the same up to spans.
-/
namespace StackLang

namespace Outline

mutual

/-- Each label is one line. -/
def Plain : Outline → Prop
  | node label parts => '\n' ∉ label.toList ∧ AllPlain parts

/-- Each label of the outlines is one line. -/
def AllPlain : List Outline → Prop
  | [] => True
  | part :: parts => Plain part ∧ AllPlain parts

end

mutual

theorem newline_notMem_lines {indent : String} (hindent : '\n' ∉ indent.toList) {isLast : Bool} :
    ∀ {o : Outline}, o.Plain → ∀ line ∈ o.lines indent isLast, '\n' ∉ line.toList
  | .node label parts, h => by
    have hbranch : '\n' ∉ (branch isLast).toList := by cases isLast <;> decide
    have hmargin : '\n' ∉ (indent ++ margin isLast).toList := by
      cases isLast <;> simp [margin, hindent]
    refine List.forall_mem_cons.2 ⟨?_, newline_notMem_partLines hmargin h.2⟩
    simp [hindent, hbranch, h.1]

theorem newline_notMem_partLines {indent : String} (hindent : '\n' ∉ indent.toList) :
    ∀ {parts : List Outline}, AllPlain parts → ∀ line ∈ partLines indent parts, '\n' ∉ line.toList
  | [], _ => fun _ h => nomatch h
  | _ :: _, h => List.forall_mem_append.2
    ⟨newline_notMem_lines hindent h.1, newline_notMem_partLines hindent h.2⟩

end

end Outline

/-! ## Labels -/

/-- A text between others is on one line with them. -/
theorem newline_notMem_label {before text later : String} (hbefore : '\n' ∉ before.toList)
    (htext : '\n' ∉ text.toList) (hlater : '\n' ∉ later.toList) :
    '\n' ∉ (before ++ text ++ later).toList := by
  simp only [String.toList_append, List.mem_append, not_or]
  exact ⟨⟨hbefore, htext⟩, hlater⟩

theorem Expr.plain_integer (value : Int64) (span : Span) : (integer value span).outline.Plain := by
  have hvalue : '\n' ∉ (toString value).toList := notMem_toString_int64 rfl (by decide) value
  exact ⟨newline_notMem_label (by decide) hvalue (by decide), trivial⟩

theorem Expr.plain_string (value : String) (span : Span) : (string value span).outline.Plain := by
  have hvalue : '\n' ∉ ("String " ++ quoted value).toList := by
    simp [newline_notMem_quoted]
  exact ⟨hvalue, trivial⟩

theorem Expr.plain_binary {operator : Token} {left right : Expr}
    (hop : '\n' ∉ operator.text.toList) (hl : left.outline.Plain) (hr : right.outline.Plain) :
    (Expr.binary operator left right).outline.Plain :=
  ⟨newline_notMem_label (by decide) hop (by decide), hl, hr, trivial⟩

theorem Expr.plain_unary {operator : Token} {operand : Expr} (hop : '\n' ∉ operator.text.toList)
    (h : operand.outline.Plain) : (Expr.unary operator operand).outline.Plain :=
  ⟨newline_notMem_label (by decide) hop (by decide), h, trivial⟩

theorem Stmt.allPlain_outlines {statements : List Stmt} (h : ∀ s ∈ statements, s.outline.Plain) :
    Outline.AllPlain (outlines statements) := by
  induction statements with
  | nil => trivial
  | cons s statements ih =>
    obtain ⟨hfirst, hothers⟩ := List.forall_mem_cons.1 h
    exact ⟨hfirst, ih hothers⟩

theorem Expr.allPlain_outlines {es : List Expr} (h : ∀ e ∈ es, e.outline.Plain) :
    Outline.AllPlain (outlines es) := by
  induction es with
  | nil => trivial
  | cons e es ih =>
    obtain ⟨hfirst, hothers⟩ := List.forall_mem_cons.1 h
    exact ⟨hfirst, ih hothers⟩

theorem allPlain_optionalOutline {e : Option Expr} (h : ∀ x ∈ e, x.outline.Plain) :
    Outline.AllPlain (optionalOutline e) := by
  cases e with
  | none => trivial
  | some e => exact ⟨h e rfl, trivial⟩

/-! ## Phrases -/

namespace Grammar

/-- The labels of what a repeated phrase stands for are lines. -/
def Item.Plain : (i : Item) → i.Meaning → Prop
  | .link _, (operator, right) => '\n' ∉ operator.text.toList ∧ right.outline.Plain
  | .argument, e => e.outline.Plain
  | .statement, s => s.outline.Plain
  | .declaration, d => d.outline.Plain

/-- The labels of what a phrase that may be left out stands for are lines. -/
def Part.Plain : (p : Part) → p.Meaning → Prop
  | .arguments, es => ∀ e ∈ es, e.outline.Plain
  | .initializer, e | .value, e => e.outline.Plain
  | .alternative, b => (Stmt.blockOutline b).Plain

/-- The labels of what a phrase stands for are lines. -/
def Category.Plain : (c : Category) → c.Meaning → Prop
  | .item i, x => i.Plain x
  | .many i, xs => ∀ x ∈ xs, i.Plain x
  | .part p, x => p.Plain x
  | .option p, x => ∀ y ∈ x, p.Plain y
  | .primary, e | .unary, e | .operand _, e | .chain _, e | .expression, e | .condition, e =>
    e.outline.Plain
  | .binding, b => b.outline.Plain
  | .block, b => (Stmt.blockOutline b).Plain
  | .conditional, s => s.outline.Plain

theorem plain_foldl {first : Expr} (hfirst : first.outline.Plain) {others : List (Token × Expr)}
    (h : ∀ x ∈ others, '\n' ∉ x.1.text.toList ∧ x.2.outline.Plain) :
    (others.foldl (fun left (operator, right) => .binary operator left right)
      first).outline.Plain := by
  induction others generalizing first with
  | nil => exact hfirst
  | cons x others ih =>
    obtain ⟨hx, hothers⟩ := List.forall_mem_cons.1 h
    exact ih (Expr.plain_binary hx.1 hfirst hx.2) hothers

/-- The labels of what a phrase stands for are lines, if only its strings are not. -/
theorem Phrase.labels_plain {c : Category} (d : Phrase c)
    (h : ∀ t ∈ d.tokens, t.kind ≠ .string → '\n' ∉ t.text.toList) : c.Plain d.tree := by
  induction d with
  | nil => exact fun _ h => nomatch h
  | absent => exact fun _ h => nomatch h
  | cons first others ihf iho =>
    obtain ⟨hf, ho⟩ := List.forall_mem_append.1 h
    exact List.forall_mem_cons.2 ⟨ihf hf, iho ho⟩
  | present inner ih =>
    rintro y ⟨⟩
    exact ih h
  | number t => exact Expr.plain_integer _ t.1.span
  | string t => exact Expr.plain_string _ t.1.span
  | name t =>
    have ht := h t.1 List.mem_cons_self (by simp)
    exact ⟨newline_notMem_label (by decide) ht (by decide), trivial⟩
  | call callee opening values closing ih =>
    simp only [tokens, List.forall_mem_cons, List.forall_mem_append] at h
    obtain ⟨hcallee, -, hvalues, -⟩ := h
    have hargs : Outline.AllPlain (Expr.outlines (values.tree.getD [])) := by
      refine Expr.allPlain_outlines fun e he => ?_
      cases hv : values.tree with
      | none => rw [hv] at he; cases he
      | some es => rw [hv] at he; exact ih hvalues es hv e he
    exact ⟨newline_notMem_label (by decide) (hcallee (by simp)) (by decide), hargs⟩
  | group opening inner closing ih | condition opening inner closing ih =>
    simp only [tokens, List.forall_mem_cons, List.forall_mem_append] at h
    exact ih h.2.1
  | arguments first others ihf iho =>
    obtain ⟨hf, ho⟩ := List.forall_mem_append.1 h
    exact List.forall_mem_cons.2 ⟨ihf hf, iho ho⟩
  | argument token inner ih | initializer token inner ih =>
    exact ih (List.forall_mem_cons.1 h).2
  | bang operator inner ih =>
    obtain ⟨hop, hinner⟩ := List.forall_mem_cons.1 h
    exact Expr.plain_unary (hop (by simp)) (ih hinner)
  | minus operator inner ih =>
    obtain ⟨hop, hinner⟩ := List.forall_mem_cons.1 h
    cases hnumber : inner.number? with
    | some t =>
      simp only [tree, hnumber]
      exact Expr.plain_integer _ (operator.1.span.merge t.span)
    | none =>
      rw [tree_minus hnumber]
      exact Expr.plain_binary (hop (by simp)) (Expr.plain_integer ..) (ih hinner)
  | plain inner ih | factor inner ih | term inner ih | single inner ih | result inner ih
  | branch inner ih => exact ih h
  | link operator known right ih =>
    obtain ⟨hop, hright⟩ := List.forall_mem_cons.1 h
    exact ⟨hop (Level.ne_of_mem known (by decide)), ih hright⟩
  | chain first others ihf iho =>
    obtain ⟨hf, ho⟩ := List.forall_mem_append.1 h
    exact plain_foldl (ihf hf) (iho ho)
  | compared left operator known right ihl ihr =>
    simp only [tokens, List.forall_mem_cons, List.forall_mem_append] at h
    refine Expr.plain_binary (h.2.1 fun hs => ?_) (ihl h.1) (ihr h.2.2)
    rw [hs] at known
    revert known
    decide
  | binding keyword target value semicolon ih =>
    simp only [tokens, List.forall_mem_cons, List.forall_mem_append] at h
    have htarget := h.2.1 (by simp)
    exact ⟨newline_notMem_label (by decide) htarget (by decide),
      allPlain_optionalOutline (ih h.2.2.1)⟩
  | block opening statements closing ih =>
    simp only [tokens, List.forall_mem_cons, List.forall_mem_append] at h
    exact ⟨by decide, Stmt.allPlain_outlines (ih h.2.1)⟩
  | declare inner ih | global inner ih => exact ih h
  | loop keyword test body iht ihb =>
    simp only [tokens, List.forall_mem_cons, List.forall_mem_append] at h
    exact ⟨by decide, ⟨by decide, iht h.2.1, trivial⟩, ihb h.2.2, trivial⟩
  | giveBack keyword value semicolon ih =>
    simp only [tokens, List.forall_mem_cons, List.forall_mem_append] at h
    exact ⟨by decide, allPlain_optionalOutline (ih h.2.1)⟩
  | assign target equal value semicolon ih =>
    simp only [tokens, List.forall_mem_cons, List.forall_mem_append] at h
    have htarget := h.1 (by simp)
    exact ⟨newline_notMem_label (by decide) htarget (by decide), ih h.2.2.1, trivial⟩
  | evaluate inner semicolon ih =>
    exact ih (List.forall_mem_append.1 h).1
  | conditional keyword test body other iht ihb iho =>
    simp only [tokens, List.forall_mem_cons, List.forall_mem_append] at h
    have hcondition := iht h.2.1
    have hbody := ihb h.2.2.1
    have hother := iho h.2.2.2
    simp only [tree]
    cases htree : other.tree with
    | none => exact ⟨by decide, ⟨by decide, hcondition, trivial⟩, hbody, trivial⟩
    | some block =>
      exact ⟨by decide, ⟨by decide, hcondition, trivial⟩, hbody, hother block htree, trivial⟩
  | elseBlock keyword body ih => exact ih (List.forall_mem_cons.1 h).2
  | elseIf keyword inner ih =>
    exact ⟨by decide, ih (List.forall_mem_cons.1 h).2, trivial⟩
  | function keyword callee opening closing body ih =>
    simp only [tokens, List.forall_mem_cons] at h
    have hcallee := h.2.1 (by simp)
    exact ⟨newline_notMem_label (by decide) hcallee (by decide), ih h.2.2.2.2, trivial⟩

end Grammar

/-- The lines of a tree that was read from a source are lines. -/
theorem Tree.newline_notMem_lines {source : String} {t : Tree} (h : ofSource source = .ok t) :
    ∀ line ∈ t.lines, '\n' ∉ line.toList := by
  obtain ⟨d, htokens, -, hknown, -, rfl⟩ := (ofSource_eq_ok_iff source t).1 h
  have hlabels : ∀ declaration ∈ d.tree, declaration.outline.Plain := by
    refine d.labels_plain fun token htoken hstring => ?_
    rw [htokens] at htoken
    obtain hform | ⟨hunknown, -⟩ := (Token.tiles_scanFrom 0 source.toList).spells htoken
    · exact hform.newline_notMem hstring (hknown token htoken).2
    · exact absurd hunknown (hknown token htoken).1
  intro line hline
  obtain ⟨declaration, hmem, hline⟩ := List.mem_flatMap.1 hline
  exact Outline.newline_notMem_lines (by decide) (hlabels declaration hmem) line hline

/-- A printout tells the tree. If the trees of two sources have one text, they are the same up to
spans: in declarations, names, statements, values, operators and calls, and in what is left out. -/
theorem Tree.spanless_eq_of_text {source source' : String} {t t' : Tree}
    (h : Tree.ofSource source = .ok t) (h' : Tree.ofSource source' = .ok t')
    (htext : t.text = t'.text) : t.spanless = t'.spanless :=
  spanless_eq_of_lines (lines_inj (newline_notMem_lines h) (newline_notMem_lines h') htext)

/-- A minus sign before a name is a subtraction from 0. -/
theorem Tree.negation_printed_as_subtraction : ∃ t t',
    Tree.ofSource "fun f() \x7b -x; \x7d" = .ok t ∧ Tree.ofSource "fun f() \x7b 0 - x; \x7d" = .ok t' ∧
    t ≠ t' ∧ t.text = t'.text ∧ t.spanless = t'.spanless := by
  have hscan : Token.scan "fun f() \x7b -x; \x7d" = [⟨.funWord, 0, "fun"⟩, ⟨.identifier, 4, "f"⟩,
    ⟨.leftParen, 5, "("⟩, ⟨.rightParen, 6, ")"⟩, ⟨.leftCurly, 8, "\x7b"⟩, ⟨.minus, 10, "-"⟩,
    ⟨.identifier, 11, "x"⟩, ⟨.semicolon, 12, ";"⟩, ⟨.rightCurly, 14, "\x7d"⟩] := by decide +kernel
  have hscan' : Token.scan "fun f() \x7b 0 - x; \x7d" = [⟨.funWord, 0, "fun"⟩,
    ⟨.identifier, 4, "f"⟩, ⟨.leftParen, 5, "("⟩, ⟨.rightParen, 6, ")"⟩, ⟨.leftCurly, 8, "\x7b"⟩,
    ⟨.number, 10, "0"⟩, ⟨.minus, 12, "-"⟩, ⟨.identifier, 14, "x"⟩, ⟨.semicolon, 15, ";"⟩,
    ⟨.rightCurly, 17, "\x7d"⟩] := by decide +kernel
  obtain ⟨t, t', ht, ht', hne, htext⟩ : ∃ t t', Tree.ofSource "fun f() \x7b -x; \x7d" = .ok t ∧
      Tree.ofSource "fun f() \x7b 0 - x; \x7d" = .ok t' ∧ t ≠ t' ∧ t.text = t'.text := by
    simp only [Tree.ofSource, hscan, hscan']
    refine ⟨_, _, rfl, rfl, fun h => ?_, rfl⟩
    exact absurd (congrArg (fun t => t.declarations.map Declaration.span) h) (by decide)
  exact ⟨t, t', ht, ht', hne, htext, spanless_eq_of_text ht ht' htext⟩

end StackLang
