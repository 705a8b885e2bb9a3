/-!
# Text in columns

Widths are counted in characters. Text that is wider than its column is not cut.
-/
namespace StackLang

/-- Where a text stands in its column. -/
inductive Alignment where
  | left | right | centre
  deriving DecidableEq, Repr

/-- How many places of the fill go before the text; in the centre, the odd place goes after it. -/
def Alignment.before (align : Alignment) (spare : Nat) : Nat :=
  match align with
  | .left => 0
  | .right => spare
  | .centre => spare / 2

/-- A text filled up to a width. -/
def padded (fill : Char) (align : Alignment) (width : Nat) (text : String) : String :=
  let spare := width - text.length
  let before := align.before spare
  String.ofList (List.replicate before fill) ++ text ++
    String.ofList (List.replicate (spare - before) fill)

/-- The first characters of a text, no more than a limit if one is given. -/
def truncated (limit : Option Nat) (text : String) : String :=
  match limit with
  | none => text
  | some n => String.ofList (text.toList.take n)

/-- An address in a listing: four digits at least. -/
def addressText (address : Nat) : String := padded '0' .right 4 (toString address)

end StackLang
