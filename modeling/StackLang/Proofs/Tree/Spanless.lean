import StackLang.Tree.Basic

/-!
# Trees without spans

A tree with its spans left out is what a program says, wherever it is written. Two trees are the same
up to spans just if they are equal without them.
-/
namespace StackLang

/-- A text, wherever it is spelled. -/
def Lexeme.spanless (l : Lexeme) : Lexeme := ⟨l.text, ⟨0, 0⟩⟩

theorem Lexeme.text_eq_of_spanless {l l' : Lexeme} (h : l.spanless = l'.spanless) :
    l.text = l'.text := by
  show l.spanless.text = l'.spanless.text
  rw [h]

namespace Expr

mutual

/-- An expression, wherever it stands. -/
def spanless : Expr → Expr
  | .integer value _ => .integer value ⟨0, 0⟩
  | .string value _ => .string value ⟨0, 0⟩
  | .reference name => .reference name.spanless
  | .operator symbol operands _ => .operator symbol.spanless (spanlessEach operands) ⟨0, 0⟩
  | .call callee args _ => .call callee.spanless (spanlessEach args) ⟨0, 0⟩

/-- Expressions, wherever they stand. -/
def spanlessEach : List Expr → List Expr
  | [] => []
  | e :: es => spanless e :: spanlessEach es

end

theorem spanlessEach_eq_map (es : List Expr) : spanlessEach es = es.map spanless := by
  induction es with
  | nil => rfl
  | cons e es ih => rw [spanlessEach, ih, List.map_cons]

end Expr

namespace Stmt

mutual

/-- A statement, wherever it stands. -/
def spanless : Stmt → Stmt
  | .declare binding => .declare ⟨binding.name, binding.value.map Expr.spanless, ⟨0, 0⟩⟩
  | .evaluate e _ => .evaluate e.spanless ⟨0, 0⟩
  | .loop condition body _ => .loop condition.spanless (spanlessBlock body) ⟨0, 0⟩
  | .ifThen condition body _ => .ifThen condition.spanless (spanlessBlock body) ⟨0, 0⟩
  | .ifElse condition body other _ =>
    .ifElse condition.spanless (spanlessBlock body) (spanlessBlock other) ⟨0, 0⟩
  | .assign target value _ => .assign target.spanless value.spanless ⟨0, 0⟩
  | .giveBack value _ => .giveBack (value.map Expr.spanless) ⟨0, 0⟩

/-- A block, wherever it stands. -/
def spanlessBlock : Block Stmt → Block Stmt
  | ⟨statements, _⟩ => ⟨spanlessAll statements, ⟨0, 0⟩⟩

/-- Statements, wherever they stand. -/
def spanlessAll : List Stmt → List Stmt
  | [] => []
  | s :: ss => spanless s :: spanlessAll ss

end

theorem spanlessAll_eq_map (ss : List Stmt) : spanlessAll ss = ss.map spanless := by
  induction ss with
  | nil => rfl
  | cons s ss ih => rw [spanlessAll, ih, List.map_cons]

end Stmt

/-- The declaration of a variable, wherever it stands. -/
def Binding.spanless (b : Binding) : Binding := ⟨b.name, b.value.map Expr.spanless, ⟨0, 0⟩⟩

/-- The declaration of a function, wherever it stands. -/
def Function.spanless (f : Function) : Function :=
  ⟨f.name.spanless, Stmt.spanlessBlock f.body, ⟨0, 0⟩⟩

/-- A declaration, wherever it stands. -/
def Declaration.spanless : Declaration → Declaration
  | function f => .function f.spanless
  | global binding => .global binding.spanless

/-- A program, wherever its parts stand. -/
def Tree.spanless (t : Tree) : Tree := ⟨t.declarations.map Declaration.spanless⟩

end StackLang
