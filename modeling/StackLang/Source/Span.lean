/-!
# Spans

A place in a source text is a range of byte positions of its UTF-8 form. `Span.text?` reads the
text at a span and answers `none` where the range is reversed or cuts a character in two.
-/
namespace StackLang

/-- A range of byte positions; `stop` is the first position after it. -/
structure Span where
  start : Nat
  stop : Nat
  deriving DecidableEq, Repr, Inhabited

namespace Span

/-- The least span that covers both. -/
def merge (a b : Span) : Span := ⟨min a.start b.start, max a.stop b.stop⟩

end Span

/-! ## Cutting text at byte positions -/

/-- The number of bytes in the UTF-8 form of a text. -/
def byteLength : List Char → Nat
  | [] => 0
  | c :: cs => c.utf8Size + byteLength cs

@[simp] theorem byteLength_nil : byteLength [] = 0 := rfl

@[simp] theorem byteLength_cons (c : Char) (cs : List Char) :
    byteLength (c :: cs) = c.utf8Size + byteLength cs := rfl

@[simp] theorem byteLength_append (a b : List Char) :
    byteLength (a ++ b) = byteLength a + byteLength b := by
  induction a with
  | nil => simp
  | cons c a ih => simp [ih, Nat.add_assoc]

/-- Positions in a source text are words of 32 bits, and the last of these is no position. -/
def positionLimit : Nat := 0xFFFFFFFF

/-- The source text is short enough for the positions in it. Only such a text is cut into tokens or
lines. -/
def IsShort (source : String) : Prop := byteLength source.toList < positionLimit

instance (source : String) : Decidable (IsShort source) :=
  inferInstanceAs (Decidable (byteLength source.toList < positionLimit))

/-- The text after its first `n` bytes, if they end between two characters. -/
def dropBytes? : Nat → List Char → Option (List Char)
  | 0, cs => some cs
  | _ + 1, [] => none
  | n + 1, c :: cs => if c.utf8Size ≤ n + 1 then dropBytes? (n + 1 - c.utf8Size) cs else none

/-- The first `n` bytes of a text, if they end between two characters. -/
def takeBytes? : Nat → List Char → Option (List Char)
  | 0, _ => some []
  | _ + 1, [] => none
  | n + 1, c :: cs =>
    if c.utf8Size ≤ n + 1 then (takeBytes? (n + 1 - c.utf8Size) cs).map (c :: ·) else none

theorem dropBytes?_append (a b : List Char) : dropBytes? (byteLength a) (a ++ b) = some b := by
  induction a with
  | nil => cases b <;> simp [dropBytes?]
  | cons c a ih =>
    obtain ⟨n, hn⟩ : ∃ n, c.utf8Size + byteLength a = n + 1 :=
      ⟨c.utf8Size + byteLength a - 1, by have := c.utf8Size_pos; omega⟩
    have hs : n + 1 - c.utf8Size = byteLength a := by omega
    simp only [byteLength_cons, List.cons_append, hn, dropBytes?]
    rw [if_pos (by omega), hs, ih]

theorem takeBytes?_append (a b : List Char) : takeBytes? (byteLength a) (a ++ b) = some a := by
  induction a with
  | nil => cases b <;> simp [takeBytes?]
  | cons c a ih =>
    obtain ⟨n, hn⟩ : ∃ n, c.utf8Size + byteLength a = n + 1 :=
      ⟨c.utf8Size + byteLength a - 1, by have := c.utf8Size_pos; omega⟩
    have hs : n + 1 - c.utf8Size = byteLength a := by omega
    simp only [byteLength_cons, List.cons_append, hn, takeBytes?]
    rw [if_pos (by omega), hs, ih]; rfl

/-- The source text at a span, its end cut to the end of the source. -/
def Span.text? (source : String) (s : Span) : Option String :=
  let cs := source.toList
  let stop := min s.stop (byteLength cs)
  if s.start ≤ stop then
    (dropBytes? s.start cs).bind fun rest =>
      (takeBytes? (stop - s.start) rest).map String.ofList
  else none

/-- The text between two others is what its span reads. -/
theorem Span.text?_append (a b c : List Char) :
    Span.text? (String.ofList (a ++ b ++ c)) ⟨byteLength a, byteLength a + byteLength b⟩ =
      some (String.ofList b) := by
  simp [Span.text?, dropBytes?_append, takeBytes?_append]

end StackLang
