import StackLang.Assembly
import StackLang.Code.Draft
import StackLang.Code.Instruction
import StackLang.Code.Listing
import StackLang.Code.Opcode
import StackLang.Code.Program
import StackLang.Code.Statics
import StackLang.Code.Table
import StackLang.CommandLine.Execute
import StackLang.CommandLine.Options
import StackLang.Core.AssemblyError
import StackLang.Core.Basic
import StackLang.Core.Emit
import StackLang.Core.Resolve
import StackLang.Machine.Basic
import StackLang.Machine.Execute
import StackLang.Machine.Fault
import StackLang.Machine.Heap
import StackLang.Machine.Run
import StackLang.Machine.Sink
import StackLang.Machine.Text
import StackLang.Main
import StackLang.Proofs.Assembled.Acceptance
import StackLang.Proofs.Assembled.Attribution
import StackLang.Proofs.Assembled.Calls
import StackLang.Proofs.Assembled.Correctness
import StackLang.Proofs.Assembled.Heights
import StackLang.Proofs.Assembled.Labels
import StackLang.Proofs.Assembled.Listing
import StackLang.Proofs.Assembled.Literals
import StackLang.Proofs.Assembled.Located
import StackLang.Proofs.Assembled.Naming
import StackLang.Proofs.Assembled.Order
import StackLang.Proofs.Assembled.Safety
import StackLang.Proofs.Assembled.Sizes
import StackLang.Proofs.Assembled.Slots
import StackLang.Proofs.Code.Interning
import StackLang.Proofs.Code.Link
import StackLang.Proofs.Code.Linked
import StackLang.Proofs.Code.Listing
import StackLang.Proofs.Code.Pool
import StackLang.Proofs.Code.Statics
import StackLang.Proofs.CommandLine.Observers
import StackLang.Proofs.Core.Activation
import StackLang.Proofs.Core.Alike
import StackLang.Proofs.Core.Chain
import StackLang.Proofs.Core.Frames
import StackLang.Proofs.Core.Heights
import StackLang.Proofs.Core.Jumps
import StackLang.Proofs.Core.Labels
import StackLang.Proofs.Core.Layout
import StackLang.Proofs.Core.Names
import StackLang.Proofs.Core.Operands
import StackLang.Proofs.Core.Places
import StackLang.Proofs.Core.Prints
import StackLang.Proofs.Core.Resolution
import StackLang.Proofs.Core.Scoping
import StackLang.Proofs.Core.Shown
import StackLang.Proofs.Core.Slots
import StackLang.Proofs.Core.Valid
import StackLang.Proofs.Cursor.Follows
import StackLang.Proofs.Cursor.Reader
import StackLang.Proofs.Cursor.Total
import StackLang.Proofs.Effect
import StackLang.Proofs.Grammar.Complete
import StackLang.Proofs.Grammar.Earliest
import StackLang.Proofs.Grammar.Escaped
import StackLang.Proofs.Grammar.Escapes
import StackLang.Proofs.Grammar.Follow
import StackLang.Proofs.Grammar.Literals
import StackLang.Proofs.Grammar.Phrase
import StackLang.Proofs.Grammar.Placeless
import StackLang.Proofs.Grammar.Problems
import StackLang.Proofs.Grammar.Prompt
import StackLang.Proofs.Grammar.Raised
import StackLang.Proofs.Grammar.Reading
import StackLang.Proofs.Grammar.Reasons
import StackLang.Proofs.Grammar.Sound
import StackLang.Proofs.Grammar.Source
import StackLang.Proofs.Grammar.Spans
import StackLang.Proofs.Grammar.Spellings
import StackLang.Proofs.Grammar.Standalone
import StackLang.Proofs.Grammar.Strings
import StackLang.Proofs.Grammar.Unambiguous
import StackLang.Proofs.Report.Excerpt
import StackLang.Proofs.Report.Highlight
import StackLang.Proofs.Report.Pieces
import StackLang.Proofs.Run.Aside
import StackLang.Proofs.Run.Control
import StackLang.Proofs.Run.Correspondence
import StackLang.Proofs.Run.Cut
import StackLang.Proofs.Run.Defined
import StackLang.Proofs.Run.Failing
import StackLang.Proofs.Run.Heap
import StackLang.Proofs.Run.Input
import StackLang.Proofs.Run.Instructions
import StackLang.Proofs.Run.Labels
import StackLang.Proofs.Run.Limits
import StackLang.Proofs.Run.Moves
import StackLang.Proofs.Run.Session
import StackLang.Proofs.Run.Standing
import StackLang.Proofs.Run.Steps
import StackLang.Proofs.Run.Strings
import StackLang.Proofs.Run.Turns
import StackLang.Proofs.Run.Watched
import StackLang.Proofs.Semantics.Core
import StackLang.Proofs.Semantics.Resolved
import StackLang.Proofs.Semantics.Source
import StackLang.Proofs.Semantics.World
import StackLang.Proofs.Simulation.Agreement
import StackLang.Proofs.Simulation.Expression
import StackLang.Proofs.Simulation.Function
import StackLang.Proofs.Simulation.Statement
import StackLang.Proofs.Source.Lines
import StackLang.Proofs.Text.Fields
import StackLang.Proofs.Text.Quoted
import StackLang.Proofs.Text.Utf8
import StackLang.Proofs.Token.Bytes
import StackLang.Proofs.Token.Slices
import StackLang.Proofs.Token.Spacing
import StackLang.Proofs.Token.Tiling
import StackLang.Proofs.Tree.Blamed
import StackLang.Proofs.Tree.FirstViolation
import StackLang.Proofs.Tree.Nodes
import StackLang.Proofs.Tree.Occurrences
import StackLang.Proofs.Tree.Outlines
import StackLang.Proofs.Tree.Printout
import StackLang.Proofs.Tree.Reachable
import StackLang.Proofs.Tree.Spanless
import StackLang.Proofs.Tree.WellFormed
import StackLang.Report.Diagnosis
import StackLang.Report.Excerpt
import StackLang.Report.Highlight
import StackLang.Report.Message
import StackLang.Report.Styled
import StackLang.Report.Terminal
import StackLang.Source.Lines
import StackLang.Source.Span
import StackLang.Text.Decimal
import StackLang.Text.Padding
import StackLang.Text.Printable
import StackLang.Text.Quoted
import StackLang.Text.Utf8
import StackLang.Token.Basic
import StackLang.Token.Lexer
import StackLang.Tree.Basic
import StackLang.Tree.Literal
import StackLang.Tree.Parser.Basic
import StackLang.Tree.Parser.Expression
import StackLang.Tree.Parser.Statement
import StackLang.Tree.Printer
import StackLang.Tree.SyntaxError
import StackLang.Word
