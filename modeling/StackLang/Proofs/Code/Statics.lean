import Mathlib.Data.List.Chain
import Mathlib.Data.List.TakeWhile
import StackLang.Proofs.Code.Listing

/-!
# Static data in rows

A listing shows static data by going through it: from an offset it shows the bytes up to the next NUL, and
goes on after the NUL while there is data. The data can be any bytes: with empty strings, with NULs next to
each other, without a NUL at the end, and not of any text.

Results:
* `nul_induction`: data is without a NUL, or it is a string, its NUL, and more data.
* `rowsByOffset?_eq`: going through the data takes one turn for each row.
* `rowsOf_iff`: which rows go through data once.
* `statics_listed_once`: the rows that a listing shows of static data.
-/
namespace StackLang

/-! ## Data up to a NUL -/

/-- Data is without a NUL, or it is a string, its NUL, and more data. -/
@[elab_as_elim]
theorem nul_induction {motive : List UInt8 → Prop} (plain : ∀ s, 0 ∉ s → motive s)
    (cut : ∀ s rest, 0 ∉ s → motive rest → motive (s ++ 0 :: rest)) (data : List UInt8) : motive data := by
  induction h : data.length using Nat.strongRecOn generalizing data with
  | ind n ih =>
    by_cases hmem : 0 ∈ data
    · obtain ⟨s, rest, rfl, hs⟩ := List.eq_append_cons_of_mem hmem
      refine cut s rest hs (ih rest.length ?_ rest rfl)
      rw [← h, List.length_append, List.length_cons]
      omega
    · exact plain data hmem

section

variable {s : List UInt8} (hs : 0 ∉ s)
include hs

/-- Data without a NUL is one row. -/
theorem staticRows_plain (hne : s ≠ []) (offset : Nat) : staticRows offset s = [(offset, s)] := by
  have hrow : s.takeWhile (· ≠ 0) = s := List.takeWhile_eq_self_iff.2 (all_ne_zero hs)
  rw [staticRows_of_ne_nil hne, hrow, List.drop_of_length_le (Nat.le_succ _), staticRows]

end

/-- There are no more rows than bytes. -/
theorem length_staticRows_le (offset : Nat) (data : List UInt8) :
    (staticRows offset data).length ≤ data.length := by
  induction data using nul_induction generalizing offset with
  | plain s hs =>
    by_cases hne : s = []
    · rw [hne, staticRows]
      exact Nat.le_refl 0
    · rw [staticRows_plain hs hne]
      exact List.length_pos_iff.2 hne
  | cut s rest hs ih =>
    have := ih (offset + s.length + 1)
    rw [staticRows_cut hs, List.length_cons, List.length_append, List.length_cons]
    omega

theorem staticRows_eq_nil_iff {offset : Nat} {data : List UInt8} :
    staticRows offset data = [] ↔ data = [] := by
  cases data with
  | nil => simp [staticRows]
  | cons b bytes => simp [staticRows]

/-! ## Going through data by offsets -/

/-- Goes through data: a turn shows the string at an offset, or no bytes if there is none, and the next one
is for the offset after its NUL, until there is no more data. Nothing comes out if the turns do not last. -/
def rowsByOffset? (data : List UInt8) (offset : Nat) : Nat → Option (List (Nat × List UInt8))
  | 0 => if offset < data.length then none else some []
  | turns + 1 =>
    if offset < data.length then
      let string := (stringAt? data offset).getD []
      (rowsByOffset? data (offset + string.length + 1) turns).map ((offset, string) :: ·)
    else some []

/-- Going through the data takes one turn for each row. -/
theorem rowsByOffset?_eq (data : List UInt8) (offset turns : Nat) : rowsByOffset? data offset turns =
    if (staticRows offset (data.drop offset)).length ≤ turns then some (staticRows offset (data.drop offset))
    else none := by
  have past (offset : Nat) (h : ¬ offset < data.length) : staticRows offset (data.drop offset) = [] :=
    staticRows_eq_nil_iff.2 (List.drop_eq_nil_of_le (Nat.not_lt.1 h))
  induction turns generalizing offset with
  | zero =>
    by_cases h : offset < data.length
    · have hne : staticRows offset (data.drop offset) ≠ [] := fun hnil =>
        absurd (List.drop_eq_nil_iff.1 (staticRows_eq_nil_iff.1 hnil)) (Nat.not_le.2 h)
      rw [rowsByOffset?, if_pos h, if_neg (by simpa using hne)]
    · rw [rowsByOffset?, if_neg h, past offset h]
      rfl
  | succ turns ih =>
    by_cases h : offset < data.length
    · have hne : data.drop offset ≠ [] := fun hnil => absurd (List.drop_eq_nil_iff.1 hnil) (Nat.not_le.2 h)
      have hstring : stringAt? data offset = some ((data.drop offset).takeWhile (· ≠ 0)) := if_pos h
      rw [rowsByOffset?, if_pos h, hstring, Option.getD_some, staticRows_of_ne_nil hne, List.drop_drop,
        ← Nat.add_assoc]
      simp only [ih, List.length_cons, Nat.add_le_add_iff_right]
      split <;> rfl
    · rw [rowsByOffset?, if_neg h, past offset h]
      rfl

/-! ## Rows that go through data once -/

/-- Data with a NUL put at its end, unless it ends in one, or is empty. -/
def nulClosed (data : List UInt8) : List UInt8 :=
  if data = [] ∨ data.getLast? = some 0 then data else data ++ [0]

/-- The rows go through data once from an offset on: the first starts there and each other one after the NUL
of the row before it. They are strings without a NUL, and with a NUL after each of them they are the data. -/
structure RowsOf (offset : Nat) (data : List UInt8) (rows : List (Nat × List UInt8)) : Prop where
  first : ∀ row ∈ rows.head?, row.1 = offset
  next : rows.IsChain fun row later => later.1 = row.1 + row.2.length + 1
  plain : ∀ row ∈ rows, 0 ∉ row.2
  joined : rows.flatMap (·.2 ++ [0]) = nulClosed data

theorem nulClosed_plain {s : List UInt8} (hs : 0 ∉ s) (hne : s ≠ []) : nulClosed s = s ++ [0] :=
  if_neg fun h => h.elim hne fun hlast => hs (List.mem_of_getLast? hlast)

theorem nulClosed_cut (s rest : List UInt8) : nulClosed (s ++ 0 :: rest) = s ++ 0 :: nulClosed rest := by
  cases rest with
  | nil => simp [nulClosed]
  | cons b rest =>
    have hlast : (s ++ 0 :: b :: rest).getLast? = (b :: rest).getLast? := by
      rw [List.getLast?_append, List.getLast?_cons_cons, List.getLast?_cons, Option.some_or]
    unfold nulClosed
    rw [hlast]
    by_cases h : (b :: rest).getLast? = some 0 <;> simp [h]

theorem rowsOf_staticRows (offset : Nat) (data : List UInt8) :
    RowsOf offset data (staticRows offset data) := by
  induction data using nul_induction generalizing offset with
  | plain s hs =>
    by_cases hne : s = []
    · rw [hne, staticRows]
      exact ⟨by simp, .nil, by simp, rfl⟩
    · rw [staticRows_plain hs hne]
      refine ⟨by simp, .singleton _, by simpa using hs, ?_⟩
      rw [nulClosed_plain hs hne]
      simp
  | cut s rest hs ih =>
    obtain ⟨hfirst, hnext, hplain, hjoined⟩ := ih (offset + s.length + 1)
    rw [staticRows_cut hs]
    refine ⟨by simp, ?_, List.forall_mem_cons.2 ⟨hs, hplain⟩, ?_⟩
    · rw [List.isChain_cons]
      exact ⟨hfirst, hnext⟩
    · rw [nulClosed_cut, ← hjoined, List.flatMap_cons, List.append_assoc]
      rfl

section

variable {offset : Nat} {data : List UInt8} {rows : List (Nat × List UInt8)}

/-- The first row is the string up to the first NUL. -/
theorem RowsOf.exists_eq_cons (h : RowsOf offset data rows) {s closed : List UInt8} (hs : 0 ∉ s)
    (heq : nulClosed data = s ++ 0 :: closed) :
    ∃ later, rows = (offset, s) :: later ∧ later.flatMap (·.2 ++ [0]) = closed := by
  have hjoined := h.joined.trans heq
  cases rows with
  | nil => simp at hjoined
  | cons row later =>
    rw [List.flatMap_cons, List.append_assoc] at hjoined
    obtain ⟨hrow, hclosed⟩ := cut_inj (h.plain row List.mem_cons_self) hs hjoined
    have hfirst : row.1 = offset := h.first row rfl
    exact ⟨later, by rw [← hrow, ← hfirst], hclosed⟩

/-- Only the rows of the data go through it once. -/
theorem rowsOf_iff : RowsOf offset data rows ↔ rows = staticRows offset data := by
  refine ⟨fun h => ?_, fun h => h ▸ rowsOf_staticRows offset data⟩
  induction data using nul_induction generalizing offset rows with
  | plain s hs =>
    by_cases hne : s = []
    · subst hne
      have hnone : rows.flatMap (·.2 ++ [0]) = [] := h.joined
      rw [staticRows]
      cases rows with
      | nil => rfl
      | cons row later => simp at hnone
    · obtain ⟨later, rfl, hnone⟩ := h.exists_eq_cons hs (nulClosed_plain hs hne)
      rw [staticRows_plain hs hne]
      cases later with
      | nil => rfl
      | cons row later => simp at hnone
  | cut s rest hs ih =>
    obtain ⟨later, rfl, hjoined⟩ := h.exists_eq_cons hs (nulClosed_cut s rest)
    obtain ⟨hfirst, hnext⟩ := List.isChain_cons.1 h.next
    rw [staticRows_cut hs, ← ih ⟨hfirst, hnext, (List.forall_mem_cons.1 h.plain).2, hjoined⟩]

end

/-! ## The rows of a listing -/

theorem join_lines_append (a b : List String) : String.join ((a ++ b).map (· ++ "\n")) =
    String.join (a.map (· ++ "\n")) ++ String.join (b.map (· ++ "\n")) := by
  rw [List.map_append, String.join_append]

/-- Of whatever bytes the static data is, its rows in a listing come out of going through it by offsets, one
row each turn and no more turns than there are bytes. The first row is at offset 0 and each other one after
the NUL of the row before it, no row has a NUL in it, and with a NUL after each of them they are the data,
with one more NUL if it does not end in one. No other rows are so. A row is one line of the listing, and
the rows stand at its end, under a line of their own if there are any. -/
theorem statics_listed_once (p : Program) : ∃ rows,
    (∀ turns, rowsByOffset? p.statics 0 turns = if rows.length ≤ turns then some rows else none) ∧
    rows.length ≤ p.statics.length ∧ (∀ others, RowsOf 0 p.statics others ↔ others = rows) ∧
    p.listing = String.join (("      ╭─[Bytecode]" :: p.codeLines).map (· ++ "\n")) ++
      (if rows = [] then "" else "      ├─[Statics]\n" ++
        String.join (rows.map fun row => Program.staticLine row.1 row.2 ++ "\n")) ++ "──────╯\n" ∧
    ∀ row ∈ rows, '\n' ∉ (Program.staticLine row.1 row.2).toList := by
  refine ⟨staticRows 0 p.statics, rowsByOffset?_eq p.statics 0, length_staticRows_le 0 p.statics,
    fun others => rowsOf_iff, ?_, ?_⟩
  · have hlines : String.join ((Program.staticLines p.statics).map (· ++ "\n")) =
        if staticRows 0 p.statics = [] then "" else "      ├─[Statics]\n" ++
          String.join ((staticRows 0 p.statics).map fun row => Program.staticLine row.1 row.2 ++ "\n") := by
      unfold Program.staticLines
      by_cases hnil : p.statics = []
      · rw [hnil, if_pos (staticRows_eq_nil_iff.2 rfl)]
        rfl
      · rw [if_neg (by simpa using hnil), if_neg (mt staticRows_eq_nil_iff.1 hnil), List.map_cons,
          String.join_cons, List.map_map]
        rfl
    rw [← hlines]
    unfold Program.listing
    rw [join_lines_append, join_lines_append]
    rfl
  · exact fun row _ => Program.newline_notMem_staticLine row.1 row.2

/-- Two strings with an empty one between them, the last without a NUL and not of any text. -/
example : staticRows 0 [104, 105, 0, 0, 255] = [(0, [104, 105]), (3, []), (4, [255])] := by decide +kernel

end StackLang
