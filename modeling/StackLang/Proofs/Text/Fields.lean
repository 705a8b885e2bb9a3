import Mathlib.Logic.Basic
import StackLang.Text.Padding

/-!
# Texts that are made of fields

A text that is made of fields can be taken apart again where a character that is not in a field stands
after it, or before it. A text of lines is made of fields that each end in a line feed.

Results:
* `cut_inj`, `cutLast_inj`: the fields before and after the first, or the last, of some character.
* `exists_pieces`: a list is made of pieces without the separator.
* `lines_inj`: a text is of the lines that it was made of.
* `addressText_inj`, `toString_int64_inj`: numbers are shown by different texts.
-/
namespace StackLang

/-! ## Separators -/

section

variable {α : Type} {a : α} {x y rest rest' : List α}

/-- What is before the first of some separators, and what is after it. -/
theorem cut_inj (hx : a ∉ x) (hy : a ∉ y) (h : x ++ a :: rest = y ++ a :: rest') :
    x = y ∧ rest = rest' := by
  obtain ⟨z, rfl, hz⟩ | ⟨z, rfl, hz⟩ := List.append_eq_append_iff.1 h
  · cases z with
    | nil => exact ⟨(List.append_nil x).symm, (List.cons.inj hz).2⟩
    | cons b z =>
      obtain ⟨rfl, -⟩ := List.cons.inj hz
      exact absurd (List.mem_append_right x List.mem_cons_self) hy
  · cases z with
    | nil => exact ⟨List.append_nil y, (List.cons.inj hz).2.symm⟩
    | cons b z =>
      obtain ⟨rfl, -⟩ := List.cons.inj hz
      exact absurd (List.mem_append_right y List.mem_cons_self) hx

/-- What is before the last of some separators, and what is after it. -/
theorem cutLast_inj (hrest : a ∉ rest) (hrest' : a ∉ rest') (h : x ++ a :: rest = y ++ a :: rest') :
    x = y ∧ rest = rest' := by
  have hreverse := congrArg List.reverse h
  simp only [List.reverse_append, List.reverse_cons, List.append_assoc, List.singleton_append]
    at hreverse
  obtain ⟨hr, hx⟩ := cut_inj (mt List.mem_reverse.1 hrest) (mt List.mem_reverse.1 hrest') hreverse
  exact ⟨List.reverse_inj.1 hx, List.reverse_inj.1 hr⟩

/-- A list is made of pieces without a separator, if one is put after it. -/
theorem exists_pieces (a : α) (x : List α) : ∃ pieces : List (List α), (∀ piece ∈ pieces, a ∉ piece) ∧
    x ++ [a] = pieces.flatMap (· ++ [a]) := by
  induction x with
  | nil => exact ⟨[[]], by simp, rfl⟩
  | cons b x ih =>
    obtain ⟨pieces, hpieces, heq⟩ := ih
    by_cases hb : b = a
    · refine ⟨[] :: pieces, List.forall_mem_cons.2 ⟨List.not_mem_nil, hpieces⟩, ?_⟩
      rw [List.flatMap_cons, ← heq, hb]
      rfl
    · cases pieces with
      | nil => simp at heq
      | cons piece pieces =>
        obtain ⟨hpiece, hothers⟩ := List.forall_mem_cons.1 hpieces
        refine ⟨(b :: piece) :: pieces, List.forall_mem_cons.2 ⟨?_, hothers⟩, ?_⟩
        · exact fun hmem => (List.mem_cons.1 hmem).elim (fun h => hb h.symm) hpiece
        · rw [List.flatMap_cons] at heq ⊢
          rw [List.cons_append, heq]
          rfl

theorem notMem_intercalate {parts : List (List α)} (hx : a ∉ x) (h : ∀ part ∈ parts, a ∉ part) :
    a ∉ x.intercalate parts := by
  induction parts with
  | nil => exact List.not_mem_nil
  | cons part parts ih =>
    obtain ⟨hpart, hparts⟩ := List.forall_mem_cons.1 h
    cases parts with
    | nil => rwa [List.intercalate_singleton]
    | cons part' parts =>
      rw [List.intercalate_cons_cons, List.mem_append, List.mem_append]
      exact fun hmem => hmem.elim (·.elim hpart hx) (ih hparts)

end

/-- The first fields, if they do not hold the character that stands after them. -/
theorem cutText_inj {c : Char} {x y rest rest' : String} (hx : c ∉ x.toList) (hy : c ∉ y.toList)
    (h : x ++ String.singleton c ++ rest = y ++ String.singleton c ++ rest') :
    x = y ∧ rest = rest' := by
  have hchars := congrArg String.toList h
  simp only [String.toList_append, String.toList_singleton, List.append_assoc, List.singleton_append]
    at hchars
  obtain ⟨hx, hrest⟩ := cut_inj hx hy hchars
  exact ⟨String.toList_inj.1 hx, String.toList_inj.1 hrest⟩

/-- A text is of the lines that it was made of. -/
theorem lines_inj {a b : List String} (ha : ∀ line ∈ a, '\n' ∉ line.toList)
    (hb : ∀ line ∈ b, '\n' ∉ line.toList)
    (h : String.join (a.map (· ++ "\n")) = String.join (b.map (· ++ "\n"))) : a = b := by
  have hchars := congrArg String.toList h
  simp only [String.toList_join, List.flatMap_map, String.toList_append] at hchars
  clear h
  induction a generalizing b with
  | nil =>
    cases b with
    | nil => rfl
    | cons line b => simp at hchars
  | cons line a ih =>
    cases b with
    | nil => simp at hchars
    | cons line' b =>
      simp only [List.flatMap_cons, List.append_assoc] at hchars
      obtain ⟨hline, hrest⟩ := cut_inj (ha line List.mem_cons_self) (hb line' List.mem_cons_self) hchars
      rw [String.toList_inj.1 hline, ih (fun l hl => ha l (List.mem_cons_of_mem _ hl))
        (fun l hl => hb l (List.mem_cons_of_mem _ hl)) hrest]

/-! ## Numbers -/

theorem notMem_padded {c fill : Char} {align : Alignment} {width : Nat} {text : String}
    (hfill : c ≠ fill) (h : c ∉ text.toList) : c ∉ (padded fill align width text).toList := by
  simp [padded, h, hfill]

section

variable {c : Char} (hc : c.isDigit = false)
include hc

theorem notMem_repr (n : Nat) : c ∉ n.repr.toList := fun h => by
  rw [Nat.repr_eq_ofList_toDigits, String.toList_ofList] at h
  have := Nat.isDigit_of_mem_toDigits (by decide) (by decide) h
  simp [hc] at this

/-- Only digits are in an address. -/
theorem notMem_addressText (address : Nat) : c ∉ (addressText address).toList :=
  notMem_padded (by rintro rfl; cases hc) (notMem_repr hc address)

end

theorem ofDigitChars_repr (n : Nat) : Nat.ofDigitChars 10 n.repr.toList 0 = n := by
  rw [Nat.repr_eq_ofList_toDigits, String.toList_ofList, Nat.ofDigitChars_ten_toDigits]

theorem repr_inj {m n : Nat} (h : m.repr.toList = n.repr.toList) : m = n := by
  rw [← ofDigitChars_repr m, h, ofDigitChars_repr]

/-- The zeros in front do not change what the digits of an address spell. -/
theorem ofDigitChars_addressText (address : Nat) :
    Nat.ofDigitChars 10 (addressText address).toList 0 = address := by
  have hchars : (addressText address).toList =
      List.replicate (4 - (toString address).length) '0' ++ address.repr.toList := by
    simp [addressText, padded, Alignment.before]
  rw [hchars, Nat.ofDigitChars_append, Nat.ofDigitChars_replicate_zero, Nat.mul_zero,
    ofDigitChars_repr]

/-- Addresses are shown by different texts. -/
theorem addressText_inj {a b : Nat} (h : addressText a = addressText b) : a = b := by
  rw [← ofDigitChars_addressText a, h, ofDigitChars_addressText]

/-- A word is shown by its digits, with a minus sign before them if it is negative. -/
theorem toList_toString_int64 (x : Int64) : (toString x).toList =
    (if 0 ≤ x.toInt then [] else ['-']) ++ x.toInt.natAbs.repr.toList := by
  show x.toInt.repr.toList = _
  rw [Int.repr_eq_if]
  split
  · rw [show x.toInt.toNat = x.toInt.natAbs by omega]
    rfl
  · rw [show (-x.toInt).toNat = x.toInt.natAbs by omega, String.toList_append]
    rfl

theorem notMem_toString_int64 {c : Char} (hc : c.isDigit = false) (hsign : c ≠ '-') (x : Int64) :
    c ∉ (toString x).toList := fun h => by
  rw [toList_toString_int64] at h
  rcases List.mem_append.1 h with h | h
  · split at h
    · cases h
    · exact hsign (List.mem_singleton.1 h)
  · exact notMem_repr hc _ h

/-- Words are shown by different texts. -/
theorem toString_int64_inj {x y : Int64} (h : toString x = toString y) : x = y := by
  have hchars := congrArg String.toList h
  rw [toList_toString_int64, toList_toString_int64] at hchars
  have unsigned {m n : Nat} (h : m.repr.toList = '-' :: n.repr.toList) : False :=
    notMem_repr (c := '-') rfl m (h ▸ List.mem_cons_self)
  rw [← Int64.toInt_inj]
  split at hchars <;> split at hchars
  · have := repr_inj hchars
    omega
  · exact (unsigned hchars).elim
  · exact (unsigned hchars.symm).elim
  · have := repr_inj (List.cons.inj hchars).2
    omega

end StackLang
