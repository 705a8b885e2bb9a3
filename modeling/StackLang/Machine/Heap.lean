import StackLang.Code.Statics

/-!
# The heap

A run of bytes that grows at its end and never shrinks. What is allocated starts where the heap
ended before and is all zero.
-/
namespace StackLang

/-- The bytes that have been allocated. -/
structure Heap where
  bytes : List UInt8
  deriving DecidableEq, Repr, Inhabited

namespace Heap

/-- The heap without bytes. -/
def empty : Heap := ⟨[]⟩

/-- How many bytes there are. -/
def size (h : Heap) : Nat := h.bytes.length

/-- Adds zeros at the end and says where they start. -/
def allocate (h : Heap) (count : Nat) : Nat × Heap :=
  (h.size, ⟨h.bytes ++ List.replicate count 0⟩)

/-- Puts data in place of the bytes from an offset on, if all of it fits. -/
def write? (h : Heap) (offset : Nat) (data : List UInt8) : Option Heap :=
  if offset + data.length ≤ h.size then
    some ⟨h.bytes.take offset ++ data ++ h.bytes.drop (offset + data.length)⟩
  else none

/-- Adds a string and a NUL at the end and says where they start. -/
def allocateString (h : Heap) (string : List UInt8) : Nat × Heap :=
  (h.size, ⟨h.bytes ++ string ++ [0]⟩)

/-- The string that starts at an offset. -/
def string? (h : Heap) (offset : Nat) : Option (List UInt8) := stringAt? h.bytes offset

/-- A string is allocated as zeros into which it is then written. -/
theorem allocateString_eq (h : Heap) (string : List UInt8) :
    (h.allocate (string.length + 1)).2.write? h.size string = some (h.allocateString string).2 := by
  have hle : h.size + string.length ≤ (h.allocate (string.length + 1)).2.size := by
    simp [allocate, size]
  rw [write?, if_pos hle]
  simp [allocate, allocateString, size, List.drop_append]

end Heap
end StackLang
