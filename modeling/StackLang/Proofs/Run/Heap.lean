import StackLang.Proofs.Run.Defined

/-!
# The heap over its history

Whatever is done to a heap and in which order, each allocation takes the bytes right after those of the one
before, a byte is what was put there last, or zero, and a string can be read until a write covers a byte
of it.

Results:
* `Heap.writeRange?_eq`: a write with its end in 64 bits is checked as one with an end of any size.
* `Heap.contiguous_regions`: how the heap is made up of what has been allocated.
* `Heap.byteAt_afterAll`: the bytes of the heap, by what was put there.
* `Heap.string?_afterAll`: what of a string is read later.
* `Heap.contents_of_changes`: the heap after any changes.
-/
namespace StackLang.Heap

variable {h later : Heap} {offset a : Nat} {data : List UInt8}

/-! ## Writes -/

/-- Copies data to the range that starts at an offset, if the end of the range is a number of 64 bits and
the range is in the heap. -/
def writeRange? (h : Heap) (offset : Nat) (data : List UInt8) : Option Heap := do
  let stop ← if offset + data.length < 0x10000000000000000 then some (offset + data.length) else none
  let _ ← range? h.bytes offset stop
  return ⟨← Indexed.copy? h.bytes offset stop data⟩

theorem write?_isSome_iff : (h.write? offset data).isSome ↔ offset + data.length ≤ h.size := by
  unfold write?
  split <;> simp_all

/-- The end of a range that is in the heap fits in 64 bits if the size of the heap does, and the range is as
long as the data. -/
theorem writeRange?_eq (hsize : h.size < 0x10000000000000000) (offset : Nat) (data : List UInt8) :
    h.writeRange? offset data = h.write? offset data := by
  unfold size at hsize
  unfold writeRange? write? size
  by_cases hle : offset + data.length ≤ h.bytes.length
  · have hrange : range? h.bytes offset (offset + data.length) =
        some ((h.bytes.take (offset + data.length)).drop offset) := if_pos ⟨by omega, hle⟩
    have hcopy : Indexed.copy? h.bytes offset (offset + data.length) data =
        some (h.bytes.take offset ++ data ++ h.bytes.drop (offset + data.length)) := if_pos (by omega)
    simp [if_pos (show offset + data.length < 0x10000000000000000 by omega), hrange, hcopy, hle]
  · have hrange : range? h.bytes offset (offset + data.length) = none := if_neg (by omega)
    rw [if_neg hle]
    split <;> simp [hrange]

theorem size_of_write? (hw : h.write? offset data = some later) : later.size = h.size := by
  unfold write? at hw
  split at hw
  · cases hw
    simp only [size, List.length_append, List.length_take, List.length_drop] at *
    omega
  · cases hw

/-! ## Changes -/

/-- What can be done to a heap. -/
inductive Change where
  | allocate (count : Nat)
  | write (offset : Nat) (data : List UInt8)
  | allocateString (string : List UInt8)
  deriving DecidableEq, Repr

/-- The heap after a change. A write that does not fit leaves it as it is. -/
def after (h : Heap) : Change → Heap
  | .allocate count => (h.allocate count).2
  | .write offset data => (h.write? offset data).getD h
  | .allocateString string => (h.allocateString string).2

/-- The heap after changes, one after the other. -/
def afterAll (h : Heap) (changes : List Change) : Heap := changes.foldl after h

theorem after_write_of_none (hw : h.write? offset data = none) : h.after (.write offset data) = h := by
  rw [after, hw, Option.getD_none]

theorem after_write_of_some (hw : h.write? offset data = some later) :
    h.after (.write offset data) = later := by
  rw [after, hw, Option.getD_some]

theorem size_allocate (h : Heap) (count : Nat) : (h.allocate count).2.size = h.size + count := by
  simp [allocate, size]

theorem size_allocateString (h : Heap) (string : List UInt8) :
    (h.allocateString string).2.size = h.size + string.length + 1 := by
  simp [allocateString, size, Nat.add_assoc]

theorem size_after_write (h : Heap) (offset : Nat) (data : List UInt8) :
    (h.after (.write offset data)).size = h.size := by
  cases hw : h.write? offset data with
  | none => rw [after_write_of_none hw]
  | some later => rw [after_write_of_some hw, size_of_write? hw]

theorem size_le_after (h : Heap) (change : Change) : h.size ≤ (h.after change).size := by
  cases change with
  | allocate count =>
    rw [after, size_allocate]
    omega
  | write offset data => exact Nat.le_of_eq (h.size_after_write offset data).symm
  | allocateString string =>
    rw [after, size_allocateString]
    omega

theorem size_le_afterAll (h : Heap) (changes : List Change) : h.size ≤ (h.afterAll changes).size := by
  induction changes generalizing h with
  | nil => exact Nat.le_refl _
  | cons change changes ih => exact Nat.le_trans (h.size_le_after change) (ih _)

/-! ## Allocations -/

/-- Bytes that have been allocated together, up to but not including `stop`. -/
structure Region where
  start : Nat
  stop : Nat
  deriving DecidableEq, Repr

/-- The region that a change allocates, from where it says on. -/
def region? (h : Heap) : Change → Option Region
  | .allocate count => some ⟨(h.allocate count).1, (h.allocate count).1 + count⟩
  | .write .. => none
  | .allocateString string =>
    some ⟨(h.allocateString string).1, (h.allocateString string).1 + string.length + 1⟩

/-- The regions that changes allocate, in order. -/
def regions (h : Heap) : List Change → List Region
  | [] => []
  | change :: changes => (h.region? change).toList ++ (h.after change).regions changes

/-- Regions that follow one on the other, from `start` up to `stop`. -/
def Contiguous (start : Nat) : List Region → Nat → Prop
  | [], stop => start = stop
  | r :: rs, stop => r.start = start ∧ r.start ≤ r.stop ∧ Contiguous r.stop rs stop

/-- A change allocates what is between the old and the new end of the heap. -/
theorem contiguous_region? (h : Heap) (change : Change) :
    Contiguous h.size (h.region? change).toList (h.after change).size := by
  cases change with
  | allocate count => exact ⟨rfl, Nat.le_add_right _ _, (h.size_allocate count).symm⟩
  | write offset data => exact (h.size_after_write offset data).symm
  | allocateString string =>
    have hle : h.size ≤ h.size + string.length + 1 := by omega
    exact ⟨rfl, hle, (h.size_allocateString string).symm⟩

theorem Contiguous.append {start middle stop : Nat} {rs rs' : List Region}
    (h : Contiguous start rs middle) (h' : Contiguous middle rs' stop) :
    Contiguous start (rs ++ rs') stop := by
  induction rs generalizing start with
  | nil =>
    cases h
    exact h'
  | cons r rs ih => exact ⟨h.1, h.2.1, ih h.2.2⟩

/-- The regions that changes allocate follow one on the other, from the old end of the heap to the new. -/
theorem contiguous_regions (h : Heap) (changes : List Change) :
    Contiguous h.size (h.regions changes) (h.afterAll changes).size := by
  induction changes generalizing h with
  | nil => exact rfl
  | cons change changes ih => exact (h.contiguous_region? change).append (ih _)

theorem Contiguous.le_of_mem {start stop : Nat} {rs : List Region} (h : Contiguous start rs stop)
    {r : Region} (hr : r ∈ rs) : start ≤ r.start := by
  induction rs generalizing start with
  | nil => cases hr
  | cons s rs ih =>
    obtain ⟨rfl, hle, hrest⟩ := h
    rcases List.mem_cons.1 hr with rfl | hr
    · exact Nat.le_refl _
    · exact Nat.le_trans hle (ih hrest hr)

/-- Regions that follow one on the other do not overlap. -/
theorem Contiguous.pairwise {start stop : Nat} {rs : List Region} (h : Contiguous start rs stop) :
    rs.Pairwise fun r s => r.stop ≤ s.start := by
  induction rs generalizing start with
  | nil => exact .nil
  | cons r rs ih => exact List.pairwise_cons.2 ⟨fun s => h.2.2.le_of_mem, ih h.2.2⟩

/-! ## Bytes -/

/-- The byte at an address, zero beyond the end. -/
def byteAt (h : Heap) (a : Nat) : UInt8 := h.bytes[a]?.getD 0

theorem getElem?_eq_byteAt (hlt : a < h.size) : h.bytes[a]? = some (h.byteAt a) := by
  unfold size at hlt
  rw [byteAt, List.getElem?_eq_getElem hlt, Option.getD_some]

theorem bytes_eq_map_byteAt (h : Heap) : h.bytes = (List.range h.size).map h.byteAt := by
  refine List.ext_getElem? fun a => ?_
  rw [List.getElem?_map]
  rcases Nat.lt_or_ge a h.size with hlt | hge
  · rw [List.getElem?_range hlt, getElem?_eq_byteAt hlt, Option.map_some]
  · rw [List.getElem?_eq_none hge, List.getElem?_eq_none (by rw [List.length_range]; exact hge),
      Option.map_none]

/-- Data that is put into the heap, and where it starts. -/
structure Put where
  offset : Nat
  data : List UInt8
  deriving DecidableEq, Repr

/-- The data has a byte for the address. -/
def Put.Covers (x : Put) (a : Nat) : Prop := x.offset ≤ a ∧ a < x.offset + x.data.length

instance (x : Put) (a : Nat) : Decidable (x.Covers a) := inferInstanceAs (Decidable (_ ∧ _))

/-- The byte at an address once the data has been put there, if it was `byte` before. -/
def Put.over (x : Put) (a : Nat) (byte : UInt8) : UInt8 :=
  if x.Covers a then x.data[a - x.offset]?.getD byte else byte

/-- The byte at an address once all of this has been put into the heap, the later over the earlier. -/
def lastByte (puts : List Put) (a : Nat) (byte : UInt8) : UInt8 :=
  puts.foldl (fun byte x => x.over a byte) byte

theorem lastByte_of_not_covers {puts : List Put} (hputs : ∀ x ∈ puts, ¬ x.Covers a) (byte : UInt8) :
    lastByte puts a byte = byte := by
  induction puts with
  | nil => rfl
  | cons x puts ih =>
    obtain ⟨hx, hputs⟩ := List.forall_mem_cons.1 hputs
    exact (congrArg (lastByte puts a) (if_neg hx)).trans (ih hputs)

/-- What a change puts into the heap: the data of a write that fits, or a string. -/
def put? (h : Heap) : Change → Option Put
  | .allocate _ => none
  | .write offset data => if (h.write? offset data).isSome then some ⟨offset, data⟩ else none
  | .allocateString string => some ⟨h.size, string⟩

/-- What changes put into the heap, in order. -/
def puts (h : Heap) : List Change → List Put
  | [] => []
  | change :: changes => (h.put? change).toList ++ (h.after change).puts changes

/-- What is allocated is zero, as it was beyond the end. -/
theorem byteAt_allocate (h : Heap) (count a : Nat) : (h.allocate count).2.byteAt a = h.byteAt a := by
  unfold allocate byteAt
  rcases Nat.lt_or_ge a h.bytes.length with hlt | hge
  · rw [List.getElem?_append_left hlt]
  · rw [List.getElem?_append_right hge, List.getElem?_eq_none hge, Option.getD_none,
      List.getElem?_replicate]
    split <;> rfl

/-- A write that fits changes the bytes that the data covers to those of the data, and no others. -/
theorem getElem?_of_write? (hw : h.write? offset data = some later) (a : Nat) : later.bytes[a]? =
    if Put.Covers ⟨offset, data⟩ a then data[a - offset]? else h.bytes[a]? := by
  unfold write? size at hw
  split at hw
  · cases hw
    have hlength : (h.bytes.take offset).length = offset := by rw [List.length_take]; omega
    simp only [List.append_assoc, List.getElem?_append, hlength, List.getElem?_take, List.getElem?_drop]
    rcases Nat.lt_or_ge a offset with hlt | hge
    · have hnot : ¬ Put.Covers ⟨offset, data⟩ a := fun hcovers => Nat.not_le.2 hlt hcovers.1
      rw [if_pos hlt, if_pos hlt, if_neg hnot]
    · rw [if_neg (by omega)]
      rcases Nat.lt_or_ge a (offset + data.length) with hlt | hge'
      · rw [if_pos (by omega), if_pos (show Put.Covers _ a from ⟨hge, hlt⟩)]
      · have hnot : ¬ Put.Covers ⟨offset, data⟩ a := fun hcovers => Nat.not_lt.2 hge' hcovers.2
        rw [if_neg (by omega), if_neg hnot]
        congr 1
        omega
  · cases hw

theorem byteAt_of_write? (hw : h.write? offset data = some later) (a : Nat) :
    later.byteAt a = Put.over ⟨offset, data⟩ a (h.byteAt a) := by
  unfold byteAt Put.over
  rw [getElem?_of_write? hw]
  split
  · rename_i hcovers
    have hlt : a - offset < data.length := Nat.sub_lt_left_of_lt_add hcovers.1 hcovers.2
    rw [List.getElem?_eq_getElem hlt, Option.getD_some, Option.getD_some]
  · rfl

/-- A change changes what it puts something over, and no more. -/
theorem byteAt_after (h : Heap) (change : Change) (a : Nat) :
    (h.after change).byteAt a = lastByte (h.put? change).toList a (h.byteAt a) := by
  cases change with
  | allocate count => exact h.byteAt_allocate count a
  | write offset data =>
    cases hw : h.write? offset data with
    | none => simp [after_write_of_none, put?, hw, lastByte]
    | some later => simpa [after_write_of_some hw, put?, hw, lastByte] using byteAt_of_write? hw a
  | allocateString string =>
    -- A string is a write over new zeros, and beyond the end it was zero before.
    have hwrite := byteAt_of_write? (h.allocateString_eq string) a
    rwa [byteAt_allocate] at hwrite

/-- A byte of the heap is what was last put over what it was. -/
theorem byteAt_afterAll (h : Heap) (changes : List Change) (a : Nat) :
    (h.afterAll changes).byteAt a = lastByte (h.puts changes) a (h.byteAt a) := by
  induction changes generalizing h with
  | nil => rfl
  | cons change changes ih =>
    have hrest := ih (h.after change)
    rw [byteAt_after] at hrest
    rw [puts, lastByte, List.foldl_append]
    exact hrest

theorem exists_change_of_mem_puts {changes : List Change} {x : Put} (hx : x ∈ h.puts changes) :
    ∃ before change rest, changes = before ++ change :: rest ∧
      (h.afterAll before).put? change = some x := by
  induction changes generalizing h with
  | nil => cases hx
  | cons change changes ih =>
    rcases List.mem_append.1 hx with hx | hx
    · exact ⟨[], change, changes, rfl, Option.mem_toList.1 hx⟩
    · obtain ⟨before, change', rest, rfl, hput⟩ := ih hx
      exact ⟨change :: before, change', rest, rfl, hput⟩

/-! ## Strings -/

/-- No write among the changes that fits covers a byte of the region. -/
def Spares (h : Heap) (changes : List Change) (r : Region) : Prop :=
  ∀ before offset data rest, changes = before ++ .write offset data :: rest →
    ((h.afterAll before).write? offset data).isSome →
    ∀ a, r.start ≤ a → a < r.stop → ¬ Put.Covers ⟨offset, data⟩ a

/-- A byte that no later write covers stays: strings are copied to new bytes only. -/
theorem getElem?_of_spares {changes : List Change} {r : Region} (hr : h.Spares changes r)
    (hstart : r.start ≤ a) (hstop : a < r.stop) (hlt : a < h.size) :
    (h.afterAll changes).bytes[a]? = h.bytes[a]? := by
  have huncovered : ∀ x ∈ h.puts changes, ¬ x.Covers a := by
    intro x hx hcovers
    obtain ⟨before, change, rest, heq, hput⟩ := exists_change_of_mem_puts hx
    cases change with
    | allocate count => cases hput
    | write offset data =>
      simp only [put?] at hput
      split at hput
      · rename_i hfits
        cases hput
        exact hr before offset data rest heq hfits a hstart hstop hcovers
      · cases hput
    | allocateString string =>
      -- Its bytes are all beyond the end of `h`, where the heap has not become shorter.
      cases hput
      have hgrown := h.size_le_afterAll before
      exact absurd hcovers.1 (by simp only; omega)
  have hgrown := h.size_le_afterAll changes
  rw [getElem?_eq_byteAt (by omega), getElem?_eq_byteAt hlt, byteAt_afterAll,
    lastByte_of_not_covers huncovered]

/-- Bytes with a NUL after them are read as a string up to their first NUL. -/
theorem string?_of_nul {s : List UInt8} (hs : s ++ [0] <+: h.bytes.drop offset) :
    h.string? offset = some (s.takeWhile (· ≠ 0)) := by
  have hlt : offset < h.bytes.length := by
    have := hs.length_le
    simp only [List.length_append, List.length_singleton, List.length_drop] at this
    omega
  obtain ⟨rest, heq⟩ := hs
  rw [string?, stringAt?, if_pos hlt, ← heq, List.append_assoc, List.takeWhile_append]
  split
  · rename_i hall
    rw [(List.takeWhile_prefix _).eq_of_length hall]
    simp
  · rfl

/-- A string is read up to its first NUL as long as no write covers a byte of it or its NUL. -/
theorem string?_afterAll (h : Heap) (string : List UInt8) {changes : List Change}
    (hspares : (h.allocateString string).2.Spares changes ⟨h.size, h.size + string.length + 1⟩) :
    ((h.allocateString string).2.afterAll changes).string? h.size = some (string.takeWhile (· ≠ 0)) := by
  refine string?_of_nul (List.prefix_iff_getElem?.2 fun j hj => ?_)
  rw [List.length_append, List.length_singleton] at hj
  have hlt : h.size + j < (h.allocateString string).2.size := by
    rw [size_allocateString]
    omega
  rw [List.getElem?_drop, getElem?_of_spares hspares (by simp) (by simp only; omega) hlt]
  simp only [allocateString, size, List.append_assoc, List.getElem?_append_right (Nat.le_add_right _ _),
    Nat.add_sub_cancel_left]
  exact List.getElem?_eq_getElem _

/-! ## Histories -/

/-- The heap after changes, at first without bytes. -/
def ofChanges (changes : List Change) : Heap := empty.afterAll changes

/-- The heap after any changes. What is allocated starts where the heap ended before, and all that has been
allocated makes up the heap, in order and without overlap. A write succeeds just if its data ends in the
heap, which is the same in 64 bits; it then changes the bytes that the data covers to those of the data, and
no others, and else nothing. Each byte is what was last put there by a write that fitted or a string, and
zero if none covers it. A string is read up to its first NUL where it was allocated, as long as no write
covers a byte of it or of the NUL at its end. -/
theorem contents_of_changes (changes : List Change) :
    let h := ofChanges changes
    (∀ change r, h.region? change = some r → r.start = h.size ∧ r.stop = (h.after change).size) ∧
    Contiguous 0 (empty.regions changes) h.size ∧
    (empty.regions changes).Pairwise (fun r s => r.stop ≤ s.start) ∧
    (∀ offset data, ((h.write? offset data).isSome ↔ offset + data.length ≤ h.size) ∧
      (h.size < 0x10000000000000000 → h.writeRange? offset data = h.write? offset data) ∧
      (∀ later, h.write? offset data = some later → later.size = h.size ∧ ∀ a, later.bytes[a]? =
        if Put.Covers ⟨offset, data⟩ a then data[a - offset]? else h.bytes[a]?) ∧
      (h.write? offset data = none → h.after (.write offset data) = h)) ∧
    h.bytes = (List.range h.size).map (fun a => lastByte (empty.puts changes) a 0) ∧
    (∀ a < h.size, (∀ x ∈ empty.puts changes, ¬ x.Covers a) → h.bytes[a]? = some 0) ∧
    ∀ string rest,
      (h.allocateString string).2.Spares rest ⟨h.size, h.size + string.length + 1⟩ →
      ((h.allocateString string).2.afterAll rest).string? (h.allocateString string).1 =
        some (string.takeWhile (· ≠ 0)) := by
  intro h
  have hcontiguous : Contiguous 0 (empty.regions changes) h.size := empty.contiguous_regions changes
  have hbyte (a : Nat) : h.byteAt a = lastByte (empty.puts changes) a 0 := empty.byteAt_afterAll changes a
  refine ⟨fun change r hr => ?_, hcontiguous, hcontiguous.pairwise, fun offset data =>
    ⟨write?_isSome_iff, fun hsize => writeRange?_eq hsize offset data,
      fun later hw => ⟨size_of_write? hw, getElem?_of_write? hw⟩, after_write_of_none⟩, ?_,
    fun a ha huncovered => ?_, fun string rest => h.string?_afterAll string⟩
  · have hregion := h.contiguous_region? change
    rw [hr] at hregion
    exact ⟨hregion.1, hregion.2.2⟩
  · rw [← funext hbyte]
    exact h.bytes_eq_map_byteAt
  · rw [getElem?_eq_byteAt ha, hbyte, lastByte_of_not_covers huncovered]

/-- Writes overlap, and one reaches up to a string with a NUL in it. -/
theorem contents_of_overlapping :
    let changes : List Change := [.allocate 4, .write 1 [97, 98], .write 2 [99], .write 9 [1], .write 4 []]
    (ofChanges changes).bytes = [0, 97, 99, 0] ∧
    ((ofChanges changes).allocateString [104, 0, 105]).1 = 4 ∧
    (((ofChanges changes).allocateString [104, 0, 105]).2.afterAll [.write 3 [120]]).string? 4 =
      some [104] := by
  intro changes
  obtain ⟨-, -, -, -, hbytes, -, hstrings⟩ := contents_of_changes changes
  refine ⟨hbytes, rfl, hstrings [104, 0, 105] [.write 3 [120]] ?_⟩
  intro before offset data rest heq hfits a hstart hstop hcovers
  cases before with
  | nil =>
    cases heq
    have hlt : a < 4 := hcovers.2
    exact absurd hstart (Nat.not_le.2 hlt)
  | cons change before => simp at heq

end StackLang.Heap
