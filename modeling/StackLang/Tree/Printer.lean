import StackLang.Text.Quoted
import StackLang.Tree.Basic

/-!
# Syntax trees as indented outlines

A tree is first turned into an `Outline`, labels with outlines below them, and that is drawn with
one line a label. Spans are left out.
-/
namespace StackLang

/-- A label and what belongs to it. -/
inductive Outline where
  | node (label : String) (parts : List Outline)
  deriving Repr, Inhabited

namespace Outline

/-- The line from a label to the one that it belongs to. -/
def branch (isLast : Bool) : String := if isLast then "╰─ " else "├─ "

/-- What stands left of the parts of a label. -/
def margin (isLast : Bool) : String := if isLast then "   " else "│  "

mutual

/-- The lines of an outline, `indent` standing left of each. -/
def lines (indent : String) (isLast : Bool) : Outline → List String
  | node label parts => (indent ++ branch isLast ++ label) ::
      partLines (indent ++ margin isLast) parts

/-- The lines of outlines that belong to one label. -/
def partLines (indent : String) : List Outline → List String
  | [] => []
  | part :: parts => lines indent parts.isEmpty part ++ partLines indent parts

end

end Outline

namespace Expr

mutual

/-- The outline of an expression. -/
def outline : Expr → Outline
  | .integer value _ => .node ("Integer (" ++ toString value ++ ")") []
  | .string value _ => .node ("String " ++ quoted value) []
  | .reference name => .node ("Variable (" ++ name.text ++ ")") []
  | .operator symbol operands _ =>
    .node ("Operator (" ++ symbol.text ++ ")") (outlines operands)
  | .call callee args _ => .node ("Call (" ++ callee.text ++ ")") (outlines args)

/-- The outlines of expressions. -/
def outlines : List Expr → List Outline
  | [] => []
  | e :: es => outline e :: outlines es

end

end Expr

/-- The outline of an expression that may be missing. -/
def optionalOutline (e : Option Expr) : List Outline := (e.map Expr.outline).toList

/-- The outline of a variable's declaration. -/
def Binding.outline (b : Binding) : Outline :=
  .node ("Let '" ++ b.name ++ "' =") (optionalOutline b.value)

/-- The outline of the condition of a loop or a conditional. -/
def conditionOutline (e : Expr) : Outline := .node "Condition" [e.outline]

namespace Stmt

mutual

/-- The outline of a statement. -/
def outline : Stmt → Outline
  | .declare binding => binding.outline
  | .evaluate e _ => e.outline
  | .loop c body _ => .node "While" [conditionOutline c, blockOutline body]
  | .ifThen c body _ => .node "If" [conditionOutline c, blockOutline body]
  | .ifElse c body other _ =>
    .node "If" [conditionOutline c, blockOutline body, blockOutline other]
  | .assign target value _ => .node ("Assign '" ++ target.text ++ "' =") [value.outline]
  | .giveBack value _ => .node "Return" (optionalOutline value)

/-- The outline of a block. -/
def blockOutline : Block Stmt → Outline
  | ⟨statements, _⟩ => .node "Block" (outlines statements)

/-- The outlines of statements. -/
def outlines : List Stmt → List Outline
  | [] => []
  | s :: ss => outline s :: outlines ss

end

end Stmt

/-- The outline of a declaration. -/
def Declaration.outline : Declaration → Outline
  | .function f => .node ("Function (" ++ f.name.text ++ ")") [Stmt.blockOutline f.body]
  | .global binding => binding.outline

/-- A program as text: the outlines of its declarations, none of them drawn as the last. -/
def Tree.text (t : Tree) : String :=
  String.join ((t.declarations.flatMap fun d => d.outline.lines "" false).map (· ++ "\n"))

end StackLang
