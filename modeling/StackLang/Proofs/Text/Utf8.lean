import Mathlib.Data.List.Forall2
import StackLang.Source.Span
import StackLang.Text.Utf8

/-!
# Decoding what was encoded

The bytes of a text are well formed, so no part of them is shown as U+FFFD: reading them gives the text
again. Whatever the bytes are, a text that is read from them is no longer than they are.

Results:
* `decode_utf8EncodeChar`: the bytes of a character are read as the character.
* `textOf?_utf8`, `lossyText_utf8`: the bytes of a text are read and shown as the text.
* `byteLength_le_of_textOf?`: the size of a text that is read.
-/
namespace StackLang

variable {b : UInt8} {ranges : List (UInt8 × UInt8)} {later : List UInt8}

/-- Bytes that lie in their ranges are counted, whatever comes after them. -/
theorem inRanges_append (h : List.Forall₂ (fun r d => r.1 ≤ d ∧ d ≤ r.2) ranges later)
    (rest : List UInt8) : inRanges ranges (later ++ rest) = later.length := by
  induction h with
  | nil => rfl
  | cons hd _ ih => rw [List.cons_append, inRanges, if_pos hd, ih, List.length_cons]

/-- A first byte and bytes in the ranges that it asks for are read as one character. -/
theorem decode_append (hranges : continuation? b = some ranges)
    (h : List.Forall₂ (fun r d => r.1 ≤ d ∧ d ≤ r.2) ranges later) (rest : List UInt8) :
    decode (b :: later ++ rest) = some (joinBytes b later) :: decode rest := by
  have hfirst : decodeFirst b (later ++ rest) = (some (joinBytes b later), later.length) := by
    simp only [decodeFirst, hranges, inRanges_append h, h.length_eq, if_true, List.take_left]
  rw [List.cons_append, decode, hfirst, List.drop_left]

/-- The ranges after a first byte, by its number. -/
theorem continuation?_ofNat : ∀ n < 256, continuation? (UInt8.ofNat n) =
    if n < 0x80 then some []
    else if n < 0xC2 then none
    else if n < 0xE0 then some [(0x80, 0xBF)]
    else if n = 0xE0 then some [(0xA0, 0xBF), (0x80, 0xBF)]
    else if n = 0xED then some [(0x80, 0x9F), (0x80, 0xBF)]
    else if n < 0xF0 then some [(0x80, 0xBF), (0x80, 0xBF)]
    else if n = 0xF0 then some [(0x90, 0xBF), (0x80, 0xBF), (0x80, 0xBF)]
    else if n < 0xF4 then some [(0x80, 0xBF), (0x80, 0xBF), (0x80, 0xBF)]
    else if n = 0xF4 then some [(0x80, 0x8F), (0x80, 0xBF), (0x80, 0xBF)]
    else none := by
  decide +kernel

theorem ofNat_between {n low high : Nat} (hn : low ≤ n ∧ n ≤ high) (hh : high < 256) :
    UInt8.ofNat low ≤ UInt8.ofNat n ∧ UInt8.ofNat n ≤ UInt8.ofNat high := by
  simp only [UInt8.le_iff_toNat_le, UInt8.toNat_ofNat']
  omega

/-- The bytes that may come second after the first byte of a character of three bytes. -/
theorem exists_second_of_three {n d : Nat} (hn : 0xE0 ≤ n ∧ n < 0xF0) (hd : 0x80 ≤ d ∧ d ≤ 0xBF)
    (hlow : n = 0xE0 → 0xA0 ≤ d) (hhigh : n = 0xED → d ≤ 0x9F) :
    ∃ r, continuation? (UInt8.ofNat n) = some [r, (0x80, 0xBF)] ∧
      r.1 ≤ UInt8.ofNat d ∧ UInt8.ofNat d ≤ r.2 := by
  rw [continuation?_ofNat n (by omega), if_neg (by omega), if_neg (by omega), if_neg (by omega)]
  by_cases h0 : n = 0xE0
  · exact ⟨_, by rw [if_pos h0], ofNat_between ⟨hlow h0, hd.2⟩ (by decide)⟩
  by_cases h1 : n = 0xED
  · exact ⟨_, by rw [if_neg h0, if_pos h1], ofNat_between ⟨hd.1, hhigh h1⟩ (by decide)⟩
  · exact ⟨_, by rw [if_neg h0, if_neg h1, if_pos hn.2], ofNat_between hd (by decide)⟩

/-- The bytes that may come second after the first byte of a character of four bytes. -/
theorem exists_second_of_four {n d : Nat} (hn : 0xF0 ≤ n ∧ n ≤ 0xF4) (hd : 0x80 ≤ d ∧ d ≤ 0xBF)
    (hlow : n = 0xF0 → 0x90 ≤ d) (hhigh : n = 0xF4 → d ≤ 0x8F) :
    ∃ r, continuation? (UInt8.ofNat n) = some [r, (0x80, 0xBF), (0x80, 0xBF)] ∧
      r.1 ≤ UInt8.ofNat d ∧ UInt8.ofNat d ≤ r.2 := by
  rw [continuation?_ofNat n (by omega), if_neg (by omega), if_neg (by omega), if_neg (by omega),
    if_neg (by omega), if_neg (by omega), if_neg (by omega)]
  by_cases h0 : n = 0xF0
  · exact ⟨_, by rw [if_pos h0], ofNat_between ⟨hlow h0, hd.2⟩ (by decide)⟩
  by_cases h4 : n < 0xF4
  · exact ⟨_, by rw [if_neg h0, if_pos h4], ofNat_between hd (by decide)⟩
  · have hlast : n = 0xF4 := by omega
    exact ⟨_, by rw [if_neg h0, if_neg h4, if_pos hlast], ofNat_between ⟨hd.1, hhigh hlast⟩ (by decide)⟩

/-- The bytes of a character are read as the character. -/
theorem decode_utf8EncodeChar (c : Char) (rest : List UInt8) :
    decode (String.utf8EncodeChar c ++ rest) = some c :: decode rest := by
  have hvalid : c.val.toNat < 0xD800 ∨ 0xDFFF < c.val.toNat ∧ c.val.toNat < 0x110000 := c.valid
  have value {b : UInt8} {later : List UInt8}
      (h : later.foldl (fun n d => 64 * n + d.toNat % 64) (leadBits b later.length) = c.val.toNat) :
      joinBytes b later = c := by
    rw [joinBytes, h]
    exact Char.ofNat_toNat c
  have tail (n : Nat) : 0x80 ≤ UInt8.ofNat (n % 64 + 128) ∧ UInt8.ofNat (n % 64 + 128) ≤ 0xBF :=
    @ofNat_between (n % 64 + 128) 0x80 0xBF (by omega) (by decide)
  unfold String.utf8EncodeChar
  generalize c.val.toNat = v at *
  simp only
  split
  · have hlead : continuation? (UInt8.ofNat v) = some [] := by
      rw [continuation?_ofNat _ (by omega), if_pos (by omega)]
    rw [decode_append hlead .nil, value]
    simp only [List.length_nil, leadBits, List.foldl_nil, UInt8.toNat_ofNat']
    omega
  split
  · have hlead : continuation? (UInt8.ofNat (v / 64 % 32 + 192)) = some [(0x80, 0xBF)] := by
      rw [continuation?_ofNat _ (by omega), if_neg (by omega), if_neg (by omega), if_pos (by omega)]
    rw [decode_append hlead (.cons (tail _) .nil), value]
    simp only [List.length_cons, List.length_nil, leadBits, List.foldl_cons, List.foldl_nil,
      UInt8.toNat_ofNat']
    omega
  split
  · obtain ⟨r, hlead, hsecond⟩ := exists_second_of_three (n := v / 4096 % 16 + 224)
      (d := v / 64 % 64 + 128) (by omega) (by omega) (by omega) (by omega)
    rw [decode_append hlead (.cons hsecond (.cons (tail _) .nil)), value]
    simp only [List.length_cons, List.length_nil, leadBits, List.foldl_cons, List.foldl_nil,
      UInt8.toNat_ofNat']
    omega
  · obtain ⟨r, hlead, hsecond⟩ := exists_second_of_four (n := v / 262144 % 8 + 240)
      (d := v / 4096 % 64 + 128) (by omega) (by omega) (by omega) (by omega)
    rw [decode_append hlead (.cons hsecond (.cons (tail _) (.cons (tail _) .nil))), value]
    simp only [List.length_cons, List.length_nil, leadBits, List.foldl_cons, List.foldl_nil,
      UInt8.toNat_ofNat']
    omega

/-- The bytes of a text are read as its characters. -/
theorem decode_utf8 (text : String) : decode (utf8 text) = text.toList.map some := by
  rw [utf8]
  induction text.toList with
  | nil => rw [List.flatMap_nil, decode]; rfl
  | cons c cs ih => rw [List.flatMap_cons, decode_utf8EncodeChar, ih, List.map_cons]

/-- The bytes of a text are read as the text. -/
theorem textOf?_utf8 (text : String) : textOf? (utf8 text) = some text := by
  have hmap (cs : List Char) : (cs.map some).mapM id = some cs := by
    induction cs with
    | nil => rfl
    | cons c cs ih => simp [ih]
  rw [textOf?, decode_utf8, hmap, Option.map_some, String.ofList_toList]

/-- The bytes of a text are shown as the text. -/
theorem lossyText_utf8 (text : String) : lossyText (utf8 text) = text := by
  rw [lossyText, decode_utf8, List.map_map]
  exact (congrArg String.ofList (List.map_id _)).trans String.ofList_toList

/-! ## Sizes -/

/-- A number that is no more than some bits has no more than some bytes as a character. -/
theorem utf8Size_ofNat_le (n : Nat) : (Char.ofNat n).utf8Size ≤
    if n < 0x80 then 1 else if n < 0x800 then 2 else if n < 0x10000 then 3 else 4 := by
  have hvalue : (Char.ofNat n).val.toNat ≤ n := by
    by_cases h : n.isValidChar
    · rw [Char.ofNat, dif_pos h]
      exact Nat.le_refl n
    · rw [Char.ofNat, dif_neg h]
      exact Nat.zero_le n
  unfold Char.utf8Size
  generalize (Char.ofNat n).val = value at *
  simp only [UInt32.le_iff_toNat_le, UInt32.toNat_ofNatLT]
  repeat' split
  all_goals omega

theorem toNat_lt_of_continuation? (h : continuation? b = some []) : b.toNat < 0x80 := by
  unfold continuation? at h
  split at h
  · exact UInt8.lt_iff_toNat_lt.1 ‹_›
  · repeat' split at h
    all_goals cases h

theorem utf8Size_joinBytes_le (h : continuation? b = some ranges) (hlength : later.length = ranges.length) :
    (joinBytes b later).utf8Size ≤ later.length + 1 := by
  have hsize := utf8Size_ofNat_le
    (later.foldl (fun n c => 64 * n + c.toNat % 64) (leadBits b later.length))
  refine Nat.le_trans hsize ?_
  rcases later with _ | ⟨c, _ | ⟨d, _ | ⟨e, later⟩⟩⟩
  · obtain rfl := List.length_eq_zero_iff.1 hlength.symm
    have hb : b.toNat < 0x80 := toNat_lt_of_continuation? h
    simp only [List.foldl_nil, List.length_nil, leadBits]
    exact Nat.le_of_eq (if_pos hb)
  · simp only [List.foldl_cons, List.foldl_nil, List.length_cons, List.length_nil, leadBits]
    repeat' split
    all_goals omega
  · simp only [List.foldl_cons, List.foldl_nil, List.length_cons, List.length_nil, leadBits]
    repeat' split
    all_goals omega
  · simp only [List.length_cons]
    repeat' split
    all_goals omega

theorem eq_map_some_of_mapM {α : Type} {l : List (Option α)} {as : List α} (h : l.mapM id = some as) :
    l = as.map some := by
  induction l generalizing as with
  | nil => cases h; rfl
  | cons a l ih =>
    simp only [List.mapM_cons, id_eq, Option.bind_eq_bind, Option.bind_eq_some_iff, Option.pure_def,
      Option.some.injEq] at h
    obtain ⟨a, rfl, as, has, rfl⟩ := h
    rw [ih has, List.map_cons]

theorem inRanges_le (ranges : List (UInt8 × UInt8)) (bytes : List UInt8) :
    inRanges ranges bytes ≤ bytes.length := by
  fun_induction inRanges ranges bytes with
  | case1 _ _ _ _ _ _ ih => exact Nat.succ_le_succ ih
  | case2 => exact Nat.zero_le _
  | case3 => exact Nat.zero_le _

/-- A character has no more bytes than it is read from. -/
theorem utf8Size_of_decodeFirst {bytes : List UInt8} {c : Char} (h : (decodeFirst b bytes).1 = some c) :
    c.utf8Size + (bytes.drop (decodeFirst b bytes).2).length ≤ bytes.length + 1 := by
  unfold decodeFirst at h ⊢
  split at h
  · cases h
  · rename_i ranges hranges
    have hle := inRanges_le ranges bytes
    have htake : (bytes.take (inRanges ranges bytes)).length = inRanges ranges bytes :=
      List.length_take_of_le hle
    simp only [Option.ite_none_right_eq_some, Option.some.injEq] at h
    obtain ⟨hall, rfl⟩ := h
    have hsize := utf8Size_joinBytes_le hranges (htake.trans hall)
    simp only [List.length_drop]
    omega

/-- A text that is read from bytes has no more bytes than these. -/
theorem byteLength_le_of_textOf? {bytes : List UInt8} {text : String} (h : textOf? bytes = some text) :
    byteLength text.toList ≤ bytes.length := by
  obtain ⟨cs, hcs, rfl⟩ := Option.map_eq_some_iff.1 h
  have hdecode := eq_map_some_of_mapM hcs
  clear h hcs
  rw [String.toList_ofList]
  induction bytes using decode.induct generalizing cs with
  | case1 =>
    rw [decode] at hdecode
    rw [List.map_eq_nil_iff.1 hdecode.symm]
    exact Nat.le_refl 0
  | case2 b bytes ih =>
    rw [decode] at hdecode
    obtain ⟨c, cs, rfl, hfirst, hrest⟩ := List.map_eq_cons_iff.1 hdecode.symm
    have hle := ih cs hrest.symm
    have hsize := utf8Size_of_decodeFirst hfirst.symm
    rw [byteLength_cons, List.length_cons]
    omega

end StackLang
