/-!
# Words

Values are 64-bit words in two's complement. Sizes and positions are natural numbers: a word that
is not negative reads as one, and a size too large for a word is shown as the greatest word.
-/
namespace StackLang

/-- An integer as a word, if it is in range. -/
def word? (n : Int) : Option Int64 :=
  if -0x8000000000000000 ≤ n ∧ n < 0x8000000000000000 then some (Int64.ofInt n) else none

theorem toInt_of_word?_eq_some {n : Int} {w : Int64} (h : word? n = some w) : w.toInt = n := by
  simp only [word?] at h
  split at h
  · cases h
    exact Int64.toInt_ofInt_of_le (by omega) (by omega)
  · cases h

/-- The difference of two words, if it is in range. -/
def difference? (a b : Int64) : Option Int64 := word? (a.toInt - b.toInt)

theorem difference?_eq_some_iff {a b c : Int64} :
    difference? a b = some c ↔ c.toInt = a.toInt - b.toInt := by
  constructor
  · exact toInt_of_word?_eq_some
  · intro h
    rw [difference?, ← h, word?, if_pos ⟨c.le_toInt, c.toInt_lt⟩, Int64.ofInt_toInt]

/-- A size as a word. -/
def sizeWord (n : Nat) : Int64 := if n < 0x8000000000000000 then Int64.ofNat n else Int64.maxValue

theorem toInt_sizeWord {n : Nat} (h : n < 0x8000000000000000) : (sizeWord n).toInt = n := by
  rw [sizeWord, if_pos h, Int64.toInt_ofNat_of_lt h]

/-- The size that a word stands for, unless it is negative. -/
def wordSize? (w : Int64) : Option Nat := w.toInt.toNat?

theorem wordSize?_eq_some_iff {w : Int64} {n : Nat} : wordSize? w = some n ↔ w.toInt = n :=
  Int.mem_toNat?

theorem wordSize?_sizeWord {n : Nat} (h : n < 0x8000000000000000) : wordSize? (sizeWord n) = some n := by
  rw [wordSize?, toInt_sizeWord h]; rfl

/-- 1 for true and 0 for false. -/
def truthWord (b : Bool) : Int64 := if b then 1 else 0

end StackLang
