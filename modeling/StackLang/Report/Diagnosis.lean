import StackLang.Assembly
import StackLang.Report.Excerpt
import StackLang.Report.Message
import StackLang.Tree.Parser.Statement

/-!
# What is wrong with a source text

A source that is no program, or that cannot be assembled, gets a message, and an excerpt if the
error is somewhere in the source.
-/
namespace StackLang

/-- A message about a source and the place it is about. -/
structure Diagnosis where
  message : Message
  span? : Option Span
  deriving DecidableEq, Repr, Inhabited

namespace Diagnosis

/-- What a syntax error tells. -/
def ofSyntaxError (e : SyntaxError) : Diagnosis := ⟨.ofSyntaxError e, some e.span⟩

/-- What an error in assembling tells. -/
def ofAssemblyError (e : AssemblyError) : Diagnosis := ⟨.ofAssemblyError e, e.span?⟩

/-- The lines of source around the place that a diagnosis is about. -/
def excerpt? (d : Diagnosis) (file source : String) : Option (List Styled) :=
  d.span?.map (excerpt file source)

end Diagnosis

/-- The syntax tree of a source text. -/
def readTree (source : String) : Except Diagnosis Tree :=
  (Tree.ofSource source).mapError .ofSyntaxError

/-- The linked program of a source text. -/
def readProgram (source : String) : Except Diagnosis Program := do
  (← readTree source).assemble.mapError .ofAssemblyError

end StackLang
