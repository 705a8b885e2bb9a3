/-!
# Decimal numbers
-/
namespace StackLang

/-- The number that decimal digits spell, the first one worth most. -/
def decimalValue (digits : List Char) : Nat :=
  digits.foldl (fun n c => 10 * n + (c.toNat - '0'.toNat)) 0

end StackLang
