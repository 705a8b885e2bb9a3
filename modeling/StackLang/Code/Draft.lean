import StackLang.Code.Program

/-!
# Programs in the making

A draft is added to instruction by instruction and linked at the end. Labels are handed out before
their place is known, and instructions may refer to them before they are marked.

* `link_ok`: a draft that can be linked keeps its code, data and names.
-/
namespace StackLang

/-- A program in the making. -/
structure Draft where
  code : Array Instruction
  /-- How many labels have been handed out. -/
  labelCount : Nat
  strings : StringPool
  names : Table String
  deriving Inhabited

namespace Draft

/-- The draft without instructions. -/
def empty : Draft := ⟨#[], 0, .empty, .empty⟩

/-- A label that has not been handed out before. -/
def newLabel (d : Draft) : Label × Draft :=
  (⟨d.labelCount⟩, { d with labelCount := d.labelCount + 1 })

/-- Gives a label a name to be shown by. -/
def nameLabel (d : Draft) (l : Label) (name : String) : Draft :=
  { d with names := d.names.insert l.id name }

/-- Adds an instruction at the end. -/
def add (d : Draft) (i : Instruction) : Draft := { d with code := d.code.push i }

/-- Marks the next address as that of a label. -/
def mark (d : Draft) (l : Label) : Draft := d.add (.ofLabel .mark l)

/-- Adds a string to the static data and says where it starts. -/
def addString (d : Draft) (text : String) : Nat × Draft :=
  (d.strings.offset text, { d with strings := d.strings.intern text })

/-- The first label that code refers to and does not mark, or else the entry if it is not marked. -/
def unresolved? (code : List Instruction) (entry : Label) : Option Label :=
  let labels := StackLang.link code
  (code.filterMap Instruction.label? ++ [entry]).find? fun l => (labels.resolve? l).isNone

/-- The program, to be started at a label; or a label that is used and not marked. -/
def link (d : Draft) (entry : Label) : Except Label Program :=
  match unresolved? d.code.toList entry with
  | some l => .error l
  | none => .ok ⟨d.code, StackLang.link d.code.toList, d.strings.bytes, some entry, d.names⟩

theorem link_ok {d : Draft} {entry : Label} {p : Program} (h : d.link entry = .ok p) :
    p = ⟨d.code, StackLang.link d.code.toList, d.strings.bytes, some entry, d.names⟩ ∧
      ∀ i ∈ d.code.toList, ∀ l, i.label? = some l → p.labels.resolve? l ≠ none := by
  unfold link at h
  split at h
  · cases h
  · rename_i hn
    cases h
    refine ⟨rfl, fun i hi l hl => ?_⟩
    have := List.find?_eq_none.1 hn l
      (List.mem_append_left _ (List.mem_filterMap.2 ⟨i, hi, hl⟩))
    simpa using this

end Draft
end StackLang
