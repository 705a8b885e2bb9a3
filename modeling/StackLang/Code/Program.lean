import StackLang.Code.Instruction
import StackLang.Code.Statics
import StackLang.Code.Table

/-!
# Linked programs

A program is code with its static data. Linking finds the address of each label that the code
marks; where a label is marked twice, the later address counts.
-/
namespace StackLang

/-- The addresses of labels, by the number of the label. -/
abbrev Labels := Table Nat

/-- The address of a label, if the table has it. -/
def Labels.resolve? (table : Labels) (l : Label) : Option Nat := table.get? l.id

/-- Enters the label that an instruction marks, if it marks one. -/
def Labels.note (table : Labels) (i : Instruction) (address : Nat) : Labels :=
  match i.marked? with
  | some l => table.insert l.id address
  | none => table

/-- The addresses of the labels that code marks. -/
def link (code : List Instruction) : Labels :=
  code.zipIdx.foldl (fun table (i, address) => table.note i address) Table.empty

/-- Code that can be run, with its static data and the names of its functions. -/
structure Program where
  code : Array Instruction
  labels : Labels
  statics : List UInt8
  /-- Where a run starts; at the first instruction if there is none. -/
  entry? : Option Label
  /-- The names of labels, by the number of the label. -/
  names : Table String
  deriving Inhabited

namespace Program

/-- A program of instructions alone, which starts at the first one. -/
def ofCode (code : List Instruction) (statics : List UInt8) : Program :=
  ⟨code.toArray, link code, statics, none, .empty⟩

/-- The program with its labels looked for again. -/
def linkAgain (p : Program) : Program := { p with labels := link p.code.toList }

/-- The address at which a run starts. -/
def start (p : Program) : Nat := (p.entry?.bind p.labels.resolve?).getD 0

/-- The named labels that have an address, in the order of their numbers. -/
def functions (p : Program) : List (Nat × String) :=
  p.names.entries.filterMap fun (id, name) => (p.labels.get? id).map (·, name)

/-- The name with the greatest address among those no later than an address. -/
def nearest? (address : Nat) (functions : List (Nat × String)) : Option (Nat × String) :=
  functions.foldl (fun best (start, name) =>
    if start ≤ address ∧ (∀ b, best = some b → b.1 ≤ start) then some (start, name) else best) none

/-- The name of the function that holds an address. -/
def functionNameAt? (p : Program) (address : Nat) : Option String :=
  (nearest? address p.functions).map Prod.snd

/-- How a label is shown: by its name if it has one. -/
def labelName (p : Program) (l : Label) : String := (p.names.get? l.id).getD l.text

end Program

end StackLang
