/-!
# UTF-8

The bytes of a text, and the text of bytes that may not be one. Malformed bytes are cut into parts:
a part is as long as it could still have started a character, and at least one byte.

* `textOf?` reads bytes that are all well formed.
* `lossyText` shows each malformed part as U+FFFD.
-/
namespace StackLang

/-- The UTF-8 form of a text. -/
def utf8 (text : String) : List UInt8 := text.toList.flatMap String.utf8EncodeChar

@[simp] theorem utf8_append (a b : String) : utf8 (a ++ b) = utf8 a ++ utf8 b := by
  simp [utf8]

/-- The ranges that the bytes after a first byte have to lie in, if it can start a character. -/
def continuation? (b : UInt8) : Option (List (UInt8 × UInt8)) :=
  if b < 0x80 then some []
  else if b < 0xC2 then none
  else if b < 0xE0 then some [(0x80, 0xBF)]
  else if b = 0xE0 then some [(0xA0, 0xBF), (0x80, 0xBF)]
  else if b = 0xED then some [(0x80, 0x9F), (0x80, 0xBF)]
  else if b < 0xF0 then some [(0x80, 0xBF), (0x80, 0xBF)]
  else if b = 0xF0 then some [(0x90, 0xBF), (0x80, 0xBF), (0x80, 0xBF)]
  else if b < 0xF4 then some [(0x80, 0xBF), (0x80, 0xBF), (0x80, 0xBF)]
  else if b = 0xF4 then some [(0x80, 0x8F), (0x80, 0xBF), (0x80, 0xBF)]
  else none

/-- How many bytes lie in the ranges given for them, up to the first that does not. -/
def inRanges : List (UInt8 × UInt8) → List UInt8 → Nat
  | (low, high) :: ranges, b :: bytes =>
    if low ≤ b ∧ b ≤ high then inRanges ranges bytes + 1 else 0
  | _, _ => 0

/-- The bits that a first byte gives to its character, fewer the more bytes follow. -/
def leadBits (b : UInt8) : Nat → Nat
  | 0 => b.toNat
  | 1 => b.toNat % 32
  | 2 => b.toNat % 16
  | _ => b.toNat % 8

/-- The character of a first byte and the bytes after it, each of which gives six bits. -/
def joinBytes (b : UInt8) (later : List UInt8) : Char :=
  Char.ofNat (later.foldl (fun n c => 64 * n + c.toNat % 64) (leadBits b later.length))

/-- The character at the head of bytes that start with `b`, if it is well formed, and how many of
the bytes after `b` belong to it or to the malformed part. -/
def decodeFirst (b : UInt8) (bytes : List UInt8) : Option Char × Nat :=
  match continuation? b with
  | none => (none, 0)
  | some ranges =>
    let n := inRanges ranges bytes
    (if n = ranges.length then some (joinBytes b (bytes.take n)) else none, n)

/-- The characters of a sequence of bytes, `none` for each malformed part. -/
def decode : List UInt8 → List (Option Char)
  | [] => []
  | b :: bytes => (decodeFirst b bytes).1 :: decode (bytes.drop (decodeFirst b bytes).2)
termination_by bytes => bytes.length
decreasing_by simp only [List.length_drop, List.length_cons]; omega

/-- The text that well-formed bytes spell. -/
def textOf? (bytes : List UInt8) : Option String := ((decode bytes).mapM id).map String.ofList

/-- The text of any bytes, U+FFFD for each malformed part. -/
def lossyText (bytes : List UInt8) : String :=
  String.ofList ((decode bytes).map (·.getD '\uFFFD'))

end StackLang
