import StackLang.Code.Statics
import StackLang.Word

/-!
# Strings in static data

A string that was added to a pool is in the static data at its offset, up to its own first NUL.

Results:
* `StringPool.mem_ofList`: each text of a list is in the pool of the list.
* `StringPool.stringAt?_offset`: the string at a text's offset is the text up to its first NUL.
* `StringPool.isSome_string_word`: there is a string at each offset, even if a word cannot hold it.
-/
namespace StackLang

/-- The bytes of a text, up to the first NUL. -/
def stringOf (text : String) : List UInt8 := (utf8 text).takeWhile (· ≠ 0)

namespace StringPool

theorem mem_intern_of_mem (pool : StringPool) {text : String} (h : text ∈ pool.strings)
    (other : String) : text ∈ (pool.intern other).strings := by
  unfold intern
  split
  · exact h
  · exact List.mem_append_left _ h

/-- Each text of a list is in the pool of the list. -/
theorem mem_ofList {texts : List String} {text : String} (h : text ∈ texts) :
    text ∈ (ofList texts).strings := by
  have kept : ∀ (texts : List String) (pool : StringPool), text ∈ pool.strings →
      text ∈ (texts.foldl intern pool).strings := by
    intro texts
    induction texts with
    | nil => exact fun pool h => h
    | cons t texts ih => exact fun pool h => ih _ (mem_intern_of_mem pool h t)
  have added : ∀ (texts : List String) (pool : StringPool), text ∈ texts →
      text ∈ (texts.foldl intern pool).strings := by
    intro texts
    induction texts with
    | nil => intro pool h; cases h
    | cons t texts ih =>
      intro pool h
      rcases List.mem_cons.1 h with rfl | h
      · exact kept texts _ (mem_intern pool text)
      · exact ih _ h
  exact added texts empty h

/-- A pool's data from a text's offset on starts with the text and a NUL. -/
theorem drop_offset {pool : StringPool} {text : String} (h : text ∈ pool.strings) :
    ∃ rest, pool.bytes.drop (pool.offset text) = utf8 text ++ 0 :: rest := by
  unfold bytes offset
  generalize pool.strings = strings at h
  induction strings with
  | nil => cases h
  | cons t ts ih =>
    rw [offsetIn, List.flatMap_cons]
    split
    · rename_i heq
      subst heq
      exact ⟨_, by rw [List.drop_zero, List.append_assoc]; rfl⟩
    · rename_i hne
      obtain ⟨rest, hr⟩ := ih ((List.mem_cons.1 h).resolve_left fun e => hne e.symm)
      refine ⟨rest, ?_⟩
      rw [← hr, ← List.drop_drop, ← List.length_singleton (a := (0 : UInt8)), ← List.length_append,
        List.drop_left]

theorem offset_lt {pool : StringPool} {text : String} (h : text ∈ pool.strings) :
    pool.offset text < pool.bytes.length := by
  obtain ⟨rest, hr⟩ := drop_offset h
  have := congrArg List.length hr
  simp only [List.length_drop, List.length_append, List.length_cons] at this
  omega

/-- The string at a text's offset is the text up to its first NUL. -/
theorem stringAt?_offset {pool : StringPool} {text : String} (h : text ∈ pool.strings) :
    stringAt? pool.bytes (pool.offset text) = some (stringOf text) := by
  obtain ⟨rest, hr⟩ := drop_offset h
  rw [stringAt?, if_pos (offset_lt h), hr, List.takeWhile_append, stringOf]
  split
  · rename_i hall
    rw [List.takeWhile_cons_of_neg (by simp), List.append_nil,
      (List.takeWhile_prefix _).eq_of_length hall]
  · rfl

theorem string_word {pool : StringPool} {text : String} (h : text ∈ pool.strings)
    (hb : pool.bytes.length < 0x8000000000000000) :
    (wordSize? (sizeWord (pool.offset text))).bind (stringAt? pool.bytes) =
      some (stringOf text) := by
  have := offset_lt h
  rw [wordSize?_sizeWord (by omega), Option.bind_some, stringAt?_offset h]

/-- There is a string at each offset: the greatest word, which stands for an offset that is too
large for a word, is no larger. -/
theorem isSome_string_word {pool : StringPool} {text : String} (h : text ∈ pool.strings) :
    ((wordSize? (sizeWord (pool.offset text))).bind (stringAt? pool.bytes)).isSome := by
  have hlt := offset_lt h
  by_cases hb : pool.offset text < 0x8000000000000000
  · rw [wordSize?_sizeWord hb, Option.bind_some, stringAt?_offset h]; rfl
  · have hmax : wordSize? Int64.maxValue = some 0x7fffffffffffffff := by decide
    rw [sizeWord, if_neg hb, hmax, Option.bind_some, stringAt?, if_pos (by omega)]; rfl

end StringPool
end StackLang
