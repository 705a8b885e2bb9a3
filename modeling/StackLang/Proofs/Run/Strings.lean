import Mathlib.Data.List.TakeWhile
import StackLang.Proofs.Run.Heap
import StackLang.Proofs.Run.Limits
import StackLang.Proofs.Text.Fields

/-!
# Strings on the heap

The heap of a run is made of strings without a NUL, each with a NUL after it: there is nothing at first,
and only strings are added, at the end. So from any place in the heap on, also from within a string, the
bytes up to the next NUL are there as long as the run lasts, and the same bytes are printed whenever the
place is.

Results:
* `Heap.exists_upToNul`, `Heap.UpToNul.mono`: what is at a place of the heap, and that it stays.
* `Machine.heap_turn`: what a turn does to the heap.
* `Machine.strings_stay`: the heap along the runs of any program.
-/
namespace StackLang

/-- What a sink takes in full, it has written. -/
theorem Sink.written_of_write {s : Sink} {data : List UInt8} (h : (s.write data).1) :
    (s.write data).2.written = s.written ++ data := by
  have hlength : (s.fitting data).length = data.length := of_decide_eq_true h
  have hfitting : s.fitting data <+: data := by
    unfold fitting
    split
    · exact List.prefix_rfl
    · exact List.take_prefix _ _
  rw [written_write, hfitting.eq_of_length hlength]

namespace Heap

variable {h later : Heap} {offset : Nat} {s : List UInt8}

/-- The heap is made of strings without a NUL, each with a NUL after it. -/
def Terminated (h : Heap) : Prop :=
  ∃ strings : List (List UInt8), (∀ s ∈ strings, 0 ∉ s) ∧ h.bytes = strings.flatMap (· ++ [0])

/-- The bytes from a place of the heap up to the next NUL. -/
def UpToNul (h : Heap) (offset : Nat) (s : List UInt8) : Prop :=
  0 ∉ s ∧ s ++ [0] <+: h.bytes.drop offset

/-! ## Strings that are added -/

theorem terminated_empty : empty.Terminated := ⟨[], by simp, rfl⟩

theorem terminated_allocateString (hh : h.Terminated) (s : List UInt8) :
    (h.allocateString s).2.Terminated := by
  obtain ⟨strings, hnul, heq⟩ := hh
  obtain ⟨added, hadded, hs⟩ := exists_pieces 0 s
  refine ⟨strings ++ added, List.forall_mem_append.2 ⟨hnul, hadded⟩, ?_⟩
  rw [List.flatMap_append, ← heq, ← hs, ← List.append_assoc]
  rfl

/-! ## Places in the heap -/

/-- After each place of the heap there is a NUL. -/
theorem exists_upToNul (hh : h.Terminated) (hlt : offset < h.size) : ∃ s, h.UpToNul offset s := by
  obtain ⟨strings, hnul, heq⟩ := hh
  unfold UpToNul
  unfold size at hlt
  rw [heq] at hlt ⊢
  clear heq
  induction strings generalizing offset with
  | nil => simp at hlt
  | cons x strings ih =>
    obtain ⟨hx, hstrings⟩ := List.forall_mem_cons.1 hnul
    rw [List.flatMap_cons] at hlt ⊢
    by_cases hin : offset ≤ x.length
    · refine ⟨x.drop offset, fun hmem => hx (List.mem_of_mem_drop hmem), ?_⟩
      rw [List.append_assoc, List.drop_append_of_le_length hin, ← List.append_assoc]
      exact List.prefix_append _ _
    · obtain ⟨k, rfl⟩ : ∃ k, offset = (x ++ [0]).length + k :=
        ⟨offset - (x ++ [0]).length, by simp; omega⟩
      rw [List.drop_append, List.drop_of_length_le (by omega), List.nil_append,
        Nat.add_sub_cancel_left]
      refine ih ?_ hstrings
      simp only [List.length_append] at hlt ⊢
      omega

/-- The string at a place is what comes before the next NUL. -/
theorem UpToNul.string? (hs : h.UpToNul offset s) : h.string? offset = some s := by
  have hall : s.takeWhile (· ≠ 0) = s :=
    List.takeWhile_eq_self_iff.2 fun b hb => decide_eq_true fun h0 => hs.1 (h0 ▸ hb)
  rw [string?_of_nul hs.2, hall]

/-- What is at a place of the heap, is there in each heap that begins with it. -/
theorem UpToNul.mono (hs : h.UpToNul offset s) (hkept : h.bytes <+: later.bytes) :
    later.UpToNul offset s := by
  obtain ⟨hnul, hbytes⟩ := hs
  obtain ⟨more, hmore⟩ := hkept
  have hle : offset ≤ h.bytes.length := by
    have := hbytes.length_le
    simp only [List.length_append, List.length_singleton, List.length_drop] at this
    omega
  refine ⟨hnul, ?_⟩
  rw [← hmore, List.drop_append_of_le_length hle]
  exact hbytes.trans (List.prefix_append _ _)

/-! ## Pointers -/

theorem UpToNul.pointer {pointer : Int64} (hs : h.UpToNul pointer.toInt.toNat s)
    (hpos : 0 ≤ pointer.toInt) : (wordSize? pointer).bind h.string? = some s := by
  have hword : wordSize? pointer = some pointer.toInt.toNat :=
    Int.mem_toNat?.2 (Int.toNat_of_nonneg hpos).symm
  rw [hword, Option.bind_some, hs.string?]

/-- There is no string at a pointer that points beyond the heap. -/
theorem pointer_eq_none {pointer : Int64}
    (hout : ¬ (0 ≤ pointer.toInt ∧ pointer.toInt < h.size)) :
    (wordSize? pointer).bind h.string? = none := by
  rw [Option.bind_eq_none_iff]
  intro offset hword
  have heq : pointer.toInt = offset := Int.mem_toNat?.1 hword
  have hge : ¬ offset < h.bytes.length := fun hlt => hout ⟨by omega, by rw [heq]; exact_mod_cast hlt⟩
  rw [Heap.string?, stringAt?, if_neg hge]

end Heap

namespace Machine

variable {code : Array Instruction} {m a b : Machine} {pointer : Int64} {rest : List Int64}

/-! ## Turns -/

/-- To add a string to the heap is the only change to it. -/
theorem change_heap (op : Opcode) : Change op fun a b =>
    a.heap.bytes <+: b.heap.bytes ∧ (a.heap.Terminated → b.heap.Terminated) where
  refl _ := ⟨List.prefix_rfl, id⟩
  trans hab hbc := ⟨hab.1.trans hbc.1, hbc.2 ∘ hab.2⟩
  stack _ _ := ⟨List.prefix_rfl, id⟩
  registers _ _ := ⟨List.prefix_rfl, id⟩
  calls _ _ _ := ⟨List.prefix_rfl, id⟩
  unread _ _ _ := ⟨List.prefix_rfl, id⟩
  allocate _ m s := by
    refine ⟨?_, fun h => Heap.terminated_allocateString h s⟩
    show m.heap.bytes <+: m.heap.bytes ++ s ++ [0]
    rw [List.append_assoc]
    exact List.prefix_append _ _
  write _ _ _ := ⟨List.prefix_rfl, id⟩

/-- A turn keeps what is on the heap, and the heap is still made of strings. -/
theorem heap_turn (m : Machine) : m.heap.bytes <+: (m.turn code).machine.heap.bytes ∧
    (m.heap.Terminated → (m.turn code).machine.heap.Terminated) :=
  turn_of_change change_heap (fun _ _ => ⟨List.prefix_rfl, id⟩) (fun _ _ => ⟨List.prefix_rfl, id⟩) m

/-- Where a run gets to, the heap has been kept. -/
theorem heap_of_after? {n : Nat} (h : m.after? code n = some a) :
    m.heap.bytes <+: a.heap.bytes ∧ (m.heap.Terminated → a.heap.Terminated) := by
  refine after?_induction (P := fun a => m.heap.bytes <+: a.heap.bytes ∧
    (m.heap.Terminated → a.heap.Terminated)) ⟨List.prefix_rfl, id⟩ (fun b c hb ht => ?_) h
  have hturn := @heap_turn code b
  rw [ht] at hturn
  exact ⟨hb.1.trans hturn.1, hturn.2 ∘ hb.2⟩

/-- The machine is about to print the string at a pointer, which is on top of its stack. -/
structure Puts (code : Array Instruction) (m : Machine) (pointer : Int64) (rest : List Int64) :
    Prop where
  instruction : ∃ operand, code[m.pc]? = some ⟨.putString, operand⟩
  unspent : m.spentLimit? = none
  stack : m.stack = pointer :: rest

theorem Puts.turn_eq (h : m.Puts code pointer rest) : m.turn code =
    match (wordSize? pointer).bind m.heap.string? with
    | some string => m.writeThen .putString string rest
    | none => .stopped (m.advance m.pc rest) (some ⟨.heapOutOfBounds pointer, m.pc, .putString⟩) := by
  obtain ⟨operand, hi⟩ := h.instruction
  rw [turn_of_getElem? hi h.unspent]
  exact m.perform_putString h.stack

/-- The string at a place of the heap is printed, if the sink takes it. -/
theorem Puts.prints (h : m.Puts code pointer rest) (hpos : 0 ≤ pointer.toInt) {s : List UInt8}
    (hs : m.heap.UpToNul pointer.toInt.toNat s) (hwrite : (m.output.write s).1) :
    ∃ b, m.turn code = .running b ∧ b.output.written = m.output.written ++ s ∧ b.stack = rest := by
  rw [h.turn_eq, hs.pointer hpos]
  simp only [writeThen, if_pos hwrite]
  exact ⟨_, rfl, Sink.written_of_write hwrite, rfl⟩

/-- There is nothing to print at a pointer that points beyond the heap. -/
theorem Puts.fails (h : m.Puts code pointer rest)
    (hout : ¬ (0 ≤ pointer.toInt ∧ pointer.toInt < m.heap.size)) :
    ∃ b, m.turn code = .stopped b (some ⟨.heapOutOfBounds pointer, m.pc, .putString⟩) := by
  rw [h.turn_eq, Heap.pointer_eq_none hout]
  exact ⟨_, rfl⟩

theorem not_mem_of_static? {operand : Int64} {s : List UInt8} (h : m.static? operand = some s) :
    0 ∉ s := by
  obtain ⟨offset, -, hs⟩ := Option.bind_eq_some_iff.1 h
  rw [stringAt?] at hs
  split at hs
  · cases hs
    intro hmem
    have hb := List.all_eq_true.1 List.all_takeWhile _ hmem
    simp at hb
  · cases hs

/-- A new string is put at the end of the heap, and where the heap has ended is pushed. -/
theorem newString_of_turn {operand : Int64} (hi : code[m.pc]? = some ⟨.newString, operand⟩)
    (ht : m.turn code = .running b) : ∃ s, 0 ∉ s ∧ b.heap.bytes = m.heap.bytes ++ s ++ [0] ∧
      b.stack = sizeWord m.heap.size :: m.stack := by
  obtain ⟨i, hi', hl, hperform⟩ := perform_of_turn ht
  cases hi.symm.trans hi'
  cases hs : m.static? operand with
  | none =>
    have hnone : ({ m with steps := m.steps + 1 } : Machine).static? operand = none := hs
    simp [perform, Instruction.execute, Exec.require, hnone] at hperform
  | some s =>
    rw [m.perform_newString hs] at hperform
    cases hperform
    exact ⟨s, not_mem_of_static? hs, rfl, rfl⟩

/-! ## Runs -/

/-- The heap along the runs of a program, whatever its code and its static data. Wherever a run gets to,
the heap is made of strings without a NUL, each with a NUL after it, and later heaps of the run, that at
its end included, begin with it. A new string is put at the end of the heap, and what is pushed is where
the heap has ended. A pointer into the heap points at the bytes up to the next NUL: whenever the run
comes to print it, from here on, these are printed, if the sink takes them. A pointer that points beyond
the heap cannot be printed. -/
theorem strings_stay (p : Program) (vm : Machine) (output : Sink) {n : Nat}
    (ha : (vm.load p output).after? p.code n = some a) :
    a.heap.Terminated ∧
    (∀ k b, a.after? p.code k = some b → a.heap.bytes <+: b.heap.bytes) ∧
    (∀ turns o, vm.runWithin? turns p output = some o →
      o.machine.heap.Terminated ∧ a.heap.bytes <+: o.machine.heap.bytes) ∧
    (∀ operand b, p.code[a.pc]? = some ⟨.newString, operand⟩ → a.turn p.code = .running b →
      ∃ s word, 0 ∉ s ∧ b.heap.bytes = a.heap.bytes ++ s ++ [0] ∧ b.stack = word :: a.stack ∧
        (a.heap.size < 0x8000000000000000 → word.toInt = a.heap.size)) ∧
    (∀ pointer : Int64, 0 ≤ pointer.toInt ∧ pointer.toInt < a.heap.size →
      ∃ s, a.heap.UpToNul pointer.toInt.toNat s ∧ ∀ k b rest, a.after? p.code k = some b →
        b.Puts p.code pointer rest → (b.output.write s).1 →
          ∃ c, b.turn p.code = .running c ∧ c.output.written = b.output.written ++ s ∧
            c.stack = rest) ∧
    ∀ (pointer : Int64) (rest : List Int64), ¬ (0 ≤ pointer.toInt ∧ pointer.toInt < a.heap.size) →
      a.Puts p.code pointer rest →
        ∃ b, a.turn p.code = .stopped b (some ⟨.heapOutOfBounds pointer, a.pc, .putString⟩) := by
  have hterminated : a.heap.Terminated := (heap_of_after? ha).2 Heap.terminated_empty
  refine ⟨hterminated, fun k b hb => (heap_of_after? hb).1, ?_, ?_, ?_, ?_⟩
  · intro turns o ho
    obtain ⟨k, -, b, c, failure?, hb, hs, rfl⟩ := exists_after?_of_runWithin? ho
    obtain ⟨d, -, hd⟩ := exists_after?_of_stopped ha hb hs
    have hlater := heap_of_after? hd
    have hlast := @heap_turn p.code b
    rw [hs] at hlast
    exact ⟨hlast.2 (hlater.2 hterminated), hlater.1.trans hlast.1⟩
  · intro operand b hi ht
    obtain ⟨s, hnul, hbytes, hstack⟩ := newString_of_turn hi ht
    exact ⟨s, _, hnul, hbytes, hstack, toInt_sizeWord⟩
  · rintro pointer ⟨hpos, hlt⟩
    have hin : pointer.toInt.toNat < a.heap.size := by omega
    obtain ⟨s, hs⟩ := Heap.exists_upToNul hterminated hin
    refine ⟨s, hs, fun k b rest hb hputs hwrite => ?_⟩
    exact hputs.prints hpos (hs.mono (heap_of_after? hb).1) hwrite
  · exact fun pointer rest hout hputs => hputs.fails hout

/-- A program whose static data have an empty string and lack a NUL at their end. It puts two strings on the
heap, and prints what is at 1, within the first one, before and after the second one is there. -/
def tailProgram : Program := .ofCode [⟨.newString, 0⟩, ⟨.loadImmediate, 1⟩, .bare .putString,
  ⟨.newString, 4⟩, ⟨.loadImmediate, 1⟩, .bare .putString, .bare .putString] [104, 105, 0, 0, 111]

/-- Both times the same byte is printed. -/
theorem tailProgram_prints_same : ∃ a b s,
    ((new ⟨[], none⟩).load tailProgram .unlimited).after? tailProgram.code 1 = some a ∧
    a.heap.bytes = [104, 105, 0] ∧ a.heap.UpToNul 1 s ∧ s = [105] ∧
    a.after? tailProgram.code 4 = some b ∧ b.heap.bytes = [104, 105, 0, 111, 0] ∧
    b.output.written = s ∧ (∃ rest, b.Puts tailProgram.code 1 rest) ∧
    ∃ c, b.turn tailProgram.code = .running c ∧ c.output.written = s ++ s := by
  obtain ⟨a, b, rest, ha, hheap, hb, hlater, hwritten, hputs, hroom⟩ : ∃ a b rest,
      ((new ⟨[], none⟩).load tailProgram .unlimited).after? tailProgram.code 1 = some a ∧
      a.heap.bytes = [104, 105, 0] ∧ a.after? tailProgram.code 4 = some b ∧
      b.heap.bytes = [104, 105, 0, 111, 0] ∧ b.output.written = [105] ∧
      b.Puts tailProgram.code 1 rest ∧ b.output.room? = none :=
    ⟨_, _, _, rfl, rfl, rfl, rfl, rfl, ⟨⟨0, rfl⟩, rfl, rfl⟩, rfl⟩
  obtain ⟨-, -, -, -, hpointer, -⟩ := strings_stay tailProgram (.new ⟨[], none⟩) .unlimited ha
  obtain ⟨s, hs, hprints⟩ := hpointer 1 ⟨by decide, by rw [Heap.size, hheap]; decide⟩
  have hstring : a.heap.string? 1 = some s := hs.string?
  obtain rfl : s = [105] := by
    rw [Heap.string?, hheap] at hstring
    exact (Option.some.inj hstring).symm
  have htaken : (b.output.write [105]).1 := by simp [Sink.write, Sink.fitting, hroom]
  obtain ⟨c, hc, hboth, -⟩ := hprints 4 b rest hb hputs htaken
  rw [hwritten] at hboth
  exact ⟨a, b, [105], ha, hheap, hs, rfl, hb, hlater, hwritten, ⟨rest, hputs⟩, c, hc, hboth⟩

end Machine
end StackLang
