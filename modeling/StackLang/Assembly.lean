import StackLang.Core.Emit
import StackLang.Core.Resolve

/-!
# Assembling

From a syntax tree to a linked program that starts at its `main` function.
-/
namespace StackLang

/-- The linked program of a core program. -/
def Core.Module.assemble (m : Core.Module) : Except AssemblyError Program :=
  (m.draft.link m.entry).mapError .unresolvedLabel

/-- The linked program of a syntax tree, or what is wrong with the tree. -/
def Tree.assemble (t : Tree) : Except AssemblyError Program := do
  (← t.resolve).assemble

end StackLang
