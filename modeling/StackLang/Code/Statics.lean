import StackLang.Text.Utf8

/-!
# Static data

Strings are kept as bytes, each with a NUL after it. A string that starts at an offset ends before
the next NUL, or where the data ends.

* `StringPool.offset_intern`: a string's offset does not change when others are added.
* `staticRows`: data as the strings that follow each other in it.
-/
namespace StackLang

/-- The bytes from an offset up to the next NUL, or to the end. There is no string past the end. -/
def stringAt? (data : List UInt8) (offset : Nat) : Option (List UInt8) :=
  if offset < data.length then some ((data.drop offset).takeWhile (· ≠ 0)) else none

/-- The strings of data from `offset` on, each with where it starts. -/
def staticRows (offset : Nat) : List UInt8 → List (Nat × List UInt8)
  | [] => []
  | b :: bytes =>
    let row := (b :: bytes).takeWhile (· ≠ 0)
    (offset, row) :: staticRows (offset + row.length + 1) (bytes.drop row.length)
termination_by bytes => bytes.length
decreasing_by simp only [List.length_drop, List.length_cons]; omega

/-- Different strings, in the order in which they were added. -/
structure StringPool where
  strings : List String
  nodup : strings.Nodup

namespace StringPool

/-- The pool without strings. -/
def empty : StringPool := ⟨[], .nil⟩

instance : Inhabited StringPool := ⟨empty⟩

/-- Where a string starts among others; past the end if it is none of them. -/
def offsetIn (text : String) : List String → Nat
  | [] => 0
  | t :: ts => if t = text then 0 else (utf8 t).length + 1 + offsetIn text ts

/-- Where a string starts, or would start if it were added. -/
def offset (pool : StringPool) (text : String) : Nat := offsetIn text pool.strings

/-- Adds a string that is not there yet. -/
def intern (pool : StringPool) (text : String) : StringPool :=
  if h : text ∈ pool.strings then pool
  else ⟨pool.strings ++ [text], List.nodup_append.2 ⟨pool.nodup, by simp, by
    rintro a ha b hb rfl
    exact h (List.mem_singleton.1 hb ▸ ha)⟩⟩

/-- The strings of a list, each once. -/
def ofList (texts : List String) : StringPool := texts.foldl intern empty

/-- The bytes of the strings, a NUL after each. -/
def bytes (pool : StringPool) : List UInt8 := pool.strings.flatMap fun text => utf8 text ++ [0]

theorem offsetIn_append_of_mem {text : String} {a : List String} (h : text ∈ a) (b : List String) :
    offsetIn text (a ++ b) = offsetIn text a := by
  induction a with
  | nil => cases h
  | cons t ts ih =>
    simp only [List.cons_append, offsetIn]
    split
    · rfl
    · rename_i hne
      rw [ih ((List.mem_cons.1 h).resolve_left fun e => hne e.symm)]

theorem mem_intern (pool : StringPool) (text : String) : text ∈ (pool.intern text).strings := by
  unfold intern
  split
  · assumption
  · simp

theorem offset_intern (pool : StringPool) {text : String} (h : text ∈ pool.strings)
    (other : String) : (pool.intern other).offset text = pool.offset text := by
  unfold intern
  split
  · rfl
  · exact offsetIn_append_of_mem h _

theorem offset_intern_self (pool : StringPool) (text : String) :
    (pool.intern text).offset text = pool.offset text := by
  unfold intern
  split
  · rfl
  · rename_i h
    simp only [offset]
    generalize pool.strings = strings at h
    induction strings with
    | nil => simp [offsetIn]
    | cons t ts ih =>
      obtain ⟨hne, hts⟩ := not_or.1 (fun e => h (List.mem_cons.2 e))
      have : t ≠ text := fun e => hne e.symm
      simp [offsetIn, this, ih hts]

end StringPool
end StackLang
