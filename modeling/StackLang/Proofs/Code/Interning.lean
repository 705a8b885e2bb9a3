import Mathlib.Data.List.Induction
import StackLang.Code.Draft
import StackLang.Proofs.Code.Pool

/-!
# Strings that are added while a program is made

A draft keeps its strings as a list in which none comes twice, and works out from the list where a string
starts. A `Segment` writes static data as it goes: bytes that only get longer, and a table of the places at
which strings were put. Both give the same answers and hold the same bytes, whatever else is done to the
draft in between. So what is known of the list holds of the bytes and the table.

Results:
* `StringPool.strings_ofList`: the strings of a list, in the order in which they come first.
* `Segment.Holds.add`, `Segment.Holds.addAll`: a segment and a pool, string by string.
* `Draft.mem_of_mem_offsets`: where a string was said to start, it starts for good.
* `Draft.strings_consistent`: all that a draft says of its strings.
-/
namespace StackLang

namespace StringPool

variable {pool : StringPool} {text text' : String}

theorem intern_of_mem (h : text ∈ pool.strings) : pool.intern text = pool := dif_pos h

theorem strings_intern_of_notMem (h : text ∉ pool.strings) :
    (pool.intern text).strings = pool.strings ++ [text] := by rw [intern, dif_neg h]

/-- A string that is new starts where the data ends. -/
theorem offset_of_notMem (h : text ∉ pool.strings) : pool.offset text = pool.bytes.length := by
  unfold offset bytes
  generalize pool.strings = strings at h
  induction strings with
  | nil => rfl
  | cons t ts ih =>
    obtain ⟨hne, hts⟩ := not_or.1 (mt List.mem_cons.2 h)
    rw [offsetIn, if_neg (Ne.symm hne), ih hts, List.flatMap_cons, List.length_append,
      List.length_append, List.length_singleton]

/-- Different strings start at different places. -/
theorem eq_of_offset_eq (h : text ∈ pool.strings) (h' : text' ∈ pool.strings)
    (heq : pool.offset text = pool.offset text') : text = text' := by
  unfold offset at heq
  generalize pool.strings = strings at h h' heq
  induction strings with
  | nil => cases h
  | cons t ts ih =>
    rw [offsetIn, offsetIn] at heq
    by_cases ht : t = text
    · by_cases ht' : t = text'
      · exact ht.symm.trans ht'
      · rw [if_pos ht, if_neg ht'] at heq
        omega
    · by_cases ht' : t = text'
      · rw [if_neg ht, if_pos ht'] at heq
        omega
      · rw [if_neg ht, if_neg ht'] at heq
        exact ih ((List.mem_cons.1 h).resolve_left (Ne.symm ht))
          ((List.mem_cons.1 h').resolve_left (Ne.symm ht')) (Nat.add_left_cancel heq)

/-- The strings of a list are in its pool in the order in which they come first. -/
theorem strings_ofList (texts : List String) : (ofList texts).strings = texts.eraseDups := by
  induction texts using List.reverseRecOn with
  | nil => rfl
  | append_singleton texts text ih =>
    have hmem : text ∈ (ofList texts).strings ↔ text ∈ texts := by rw [ih, List.mem_eraseDups]
    have hlast : ofList (texts ++ [text]) = (ofList texts).intern text := List.foldl_append
    rw [hlast, List.eraseDups_append, List.cons_removeAll]
    by_cases h : text ∈ texts
    · rw [intern_of_mem (hmem.2 h), ih, if_neg (by simpa using h)]
      exact (List.append_nil _).symm
    · rw [strings_intern_of_notMem (mt hmem.1 h), ih, if_pos (by simpa using h)]
      rfl

end StringPool

/-! ## Static data that is written as strings are added -/

/-- Static data, and where in it each string was put, the last one first. -/
structure Segment where
  bytes : List UInt8
  table : List (String × Nat)

namespace Segment

/-- The segment without strings. -/
def empty : Segment := ⟨[], []⟩

/-- Says where a string starts. One that is not in the table is put at the end, with a NUL after it. -/
def add (s : Segment) (text : String) : Nat × Segment :=
  match s.table.lookup text with
  | some offset => (offset, s)
  | none => (s.bytes.length, ⟨s.bytes ++ (utf8 text ++ [0]), (text, s.bytes.length) :: s.table⟩)

/-- Adds strings, one after the other. -/
def addAll (s : Segment) : List String → Segment
  | [] => s
  | text :: texts => addAll (s.add text).2 texts

/-- Where strings that are added one after the other are said to start, each with its string. -/
def offsets (s : Segment) : List String → List (String × Nat)
  | [] => []
  | text :: texts => (text, (s.add text).1) :: offsets (s.add text).2 texts

/-- The segment holds the strings of the pool, and says of each where it starts in the pool. -/
structure Holds (s : Segment) (pool : StringPool) : Prop where
  bytes : s.bytes = pool.bytes
  known {text : String} (h : text ∈ pool.strings) : s.table.lookup text = some (pool.offset text)
  unknown {text : String} (h : text ∉ pool.strings) : s.table.lookup text = none

theorem holds_empty : empty.Holds .empty := ⟨rfl, nofun, fun _ => rfl⟩

variable {s : Segment} {pool : StringPool}

/-- A string is added to both, and starts at the same place. -/
theorem Holds.add (h : s.Holds pool) (text : String) :
    (s.add text).1 = pool.offset text ∧ (s.add text).2.Holds (pool.intern text) := by
  unfold Segment.add
  by_cases hmem : text ∈ pool.strings
  · rw [h.known hmem, StringPool.intern_of_mem hmem]
    exact ⟨rfl, h⟩
  · have hstrings := StringPool.strings_intern_of_notMem hmem
    have hoffset := StringPool.offset_of_notMem hmem
    rw [h.unknown hmem, h.bytes]
    refine ⟨hoffset.symm, ?_, fun {t} ht => ?_, fun {t} ht => ?_⟩
    · rw [StringPool.bytes, StringPool.bytes, hstrings, List.flatMap_append, List.flatMap_singleton]
    · rw [List.lookup_cons]
      by_cases heq : t = text
      · rw [heq, beq_self_eq_true, StringPool.offset_intern_self, hoffset]
      · rw [hstrings, List.mem_append, List.mem_singleton, or_iff_left heq] at ht
        rw [beq_false_of_ne heq, StringPool.offset_intern pool ht]
        exact h.known ht
    · rw [hstrings, List.mem_append, List.mem_singleton, not_or] at ht
      rw [List.lookup_cons, beq_false_of_ne ht.2]
      exact h.unknown ht.1

theorem Holds.addAll (h : s.Holds pool) (texts : List String) :
    (s.addAll texts).Holds (texts.foldl StringPool.intern pool) := by
  induction texts generalizing s pool with
  | nil => exact h
  | cons text texts ih => exact ih (h.add text).2

end Segment

/-! ## Drafts -/

namespace Draft

/-- What is done to a draft before it is linked. -/
inductive Step where
  | newLabel
  | nameLabel (l : Label) (name : String)
  | add (i : Instruction)
  | mark (l : Label)
  | addString (text : String)

/-- The string that a step adds, if it adds one. -/
def Step.text? : Step → Option String
  | addString text => some text
  | _ => none

/-- The strings that steps add. -/
def texts (steps : List Step) : List String := steps.filterMap Step.text?

/-- The draft after a step. -/
def after (d : Draft) : Step → Draft
  | .newLabel => d.newLabel.2
  | .nameLabel l name => d.nameLabel l name
  | .add i => d.add i
  | .mark l => d.mark l
  | .addString text => (d.addString text).2

/-- The draft after some steps. -/
def afterAll (d : Draft) (steps : List Step) : Draft := steps.foldl after d

/-- Where the strings that steps add are said to start, each with its string. -/
def offsets (d : Draft) : List Step → List (String × Nat)
  | [] => []
  | .addString text :: steps =>
    (text, (d.addString text).1) :: offsets (d.after (.addString text)) steps
  | step :: steps => offsets (d.after step) steps

variable {d : Draft}

/-- Only a string that is added changes the strings of a draft. -/
theorem strings_afterAll (d : Draft) (steps : List Step) :
    (d.afterAll steps).strings = (texts steps).foldl StringPool.intern d.strings := by
  induction steps generalizing d with
  | nil => rfl
  | cons step steps ih => cases step <;> exact ih _

theorem map_fst_offsets (d : Draft) (steps : List Step) : (d.offsets steps).map (·.1) = texts steps := by
  induction steps generalizing d with
  | nil => rfl
  | cons step steps ih =>
    cases step with
    | addString text => exact congrArg (text :: ·) (ih _)
    | _ => exact ih _

/-- A segment that holds the strings of a draft gives the same answers. -/
theorem offsets_eq {s : Segment} (h : s.Holds d.strings) (steps : List Step) :
    d.offsets steps = s.offsets (texts steps) := by
  induction steps generalizing d s with
  | nil => rfl
  | cons step steps ih =>
    cases step with
    | addString text =>
      obtain ⟨hoffset, hholds⟩ := h.add text
      have hlater : (d.after (.addString text)).offsets steps = (s.add text).2.offsets (texts steps) :=
        ih hholds
      show (text, d.strings.offset text) :: (d.after (.addString text)).offsets steps =
        (text, (s.add text).1) :: (s.add text).2.offsets (texts steps)
      rw [hoffset, hlater]
    | _ => exact ih h

/-- A string of a draft stays where it is. -/
theorem kept_afterAll {text : String} (h : text ∈ d.strings.strings) (steps : List Step) :
    text ∈ (d.afterAll steps).strings.strings ∧
      (d.afterAll steps).strings.offset text = d.strings.offset text := by
  induction steps generalizing d with
  | nil => exact ⟨h, rfl⟩
  | cons step steps ih =>
    cases step with
    | addString other =>
      have hoffset : (d.after (.addString other)).strings.offset text = d.strings.offset text :=
        StringPool.offset_intern d.strings h other
      rw [← hoffset]
      exact ih (StringPool.mem_intern_of_mem d.strings h other)
    | _ => exact ih h

/-- Where a string was said to start, it starts for good. -/
theorem mem_of_mem_offsets {steps : List Step} {a : String × Nat} (h : a ∈ d.offsets steps) :
    a.1 ∈ (d.afterAll steps).strings.strings ∧ (d.afterAll steps).strings.offset a.1 = a.2 := by
  induction steps generalizing d with
  | nil => cases h
  | cons step steps ih =>
    cases step with
    | addString text =>
      rcases List.mem_cons.1 h with rfl | h
      · obtain ⟨hmem, hkept⟩ := kept_afterAll (d := d.after (.addString text))
          (StringPool.mem_intern d.strings text) steps
        exact ⟨hmem, hkept.trans (StringPool.offset_intern_self d.strings text)⟩
      · exact ih h
    | _ => exact ih h

/-- Whatever is done to a new draft, the strings that are added to it are said to start where static data
that is written as they come has them, and the draft holds this data: each string once, where it comes
first, with a NUL after it. Strings are said to start at one place just if they are the same. Whatever is
done later, a string starts there if it is added again, and there the data has it with its NUL, so that in
a program that is linked it is read at this place up to its first NUL. -/
theorem strings_consistent (steps : List Step) :
    empty.offsets steps = Segment.empty.offsets (texts steps) ∧
    (empty.offsets steps).map (·.1) = texts steps ∧
    (empty.afterAll steps).strings.bytes = (Segment.empty.addAll (texts steps)).bytes ∧
    (empty.afterAll steps).strings.bytes = (texts steps).eraseDups.flatMap (utf8 · ++ [0]) ∧
    (∀ a ∈ empty.offsets steps, ∀ b ∈ empty.offsets steps, a.1 = b.1 ↔ a.2 = b.2) ∧
    ∀ a ∈ empty.offsets steps, ∀ later,
      ((empty.afterAll (steps ++ later)).addString a.1).1 = a.2 ∧
      utf8 a.1 ++ [0] <+: (empty.afterAll (steps ++ later)).strings.bytes.drop a.2 ∧
      ∀ entry p, (empty.afterAll (steps ++ later)).link entry = .ok p →
        stringAt? p.statics a.2 = some ((utf8 a.1).takeWhile (· ≠ 0)) := by
  have hpool : (empty.afterAll steps).strings = .ofList (texts steps) := strings_afterAll empty steps
  refine ⟨offsets_eq Segment.holds_empty steps, map_fst_offsets empty steps, ?_, ?_,
    fun a ha b hb => ?_, fun a ha later => ?_⟩
  · rw [hpool]
    exact (Segment.holds_empty.addAll (texts steps)).bytes.symm
  · rw [hpool, StringPool.bytes, StringPool.strings_ofList]
  · obtain ⟨hmem, hoffset⟩ := mem_of_mem_offsets ha
    obtain ⟨hmem', hoffset'⟩ := mem_of_mem_offsets hb
    rw [← hoffset, ← hoffset']
    exact ⟨congrArg _, StringPool.eq_of_offset_eq hmem hmem'⟩
  · obtain ⟨hmem, hoffset⟩ := mem_of_mem_offsets ha
    obtain ⟨hmem, hkept⟩ := kept_afterAll hmem later
    have hlater : (empty.afterAll steps).afterAll later = empty.afterAll (steps ++ later) :=
      List.foldl_append.symm
    rw [hlater] at hmem hkept
    rw [← hoffset, ← hkept]
    refine ⟨rfl, ?_, fun entry p hlink => ?_⟩
    · obtain ⟨rest, hrest⟩ := StringPool.drop_offset hmem
      exact ⟨rest, by rw [hrest, List.append_assoc]; rfl⟩
    · obtain ⟨rfl, -⟩ := link_ok hlink
      exact StringPool.stringAt?_offset hmem

/-- The empty string, a string with a NUL in it, and one that it ends with. -/
theorem strings_consistent_nul :
    let steps := [.addString "a\x00b", .newLabel, .addString "", .mark ⟨0⟩, .addString "b",
      .addString "a\x00b"]
    empty.offsets steps = [("a\x00b", 0), ("", 4), ("b", 5), ("a\x00b", 0)] ∧
      ∃ p, (empty.afterAll steps).link ⟨0⟩ = .ok p ∧ stringAt? p.statics 0 = some [97] := by
  intro steps
  have hoffsets : empty.offsets steps = [("a\x00b", 0), ("", 4), ("b", 5), ("a\x00b", 0)] := by
    decide +kernel
  refine ⟨hoffsets, _, rfl, ?_⟩
  obtain ⟨-, -, -, -, -, hlater⟩ := strings_consistent steps
  obtain ⟨-, -, hread⟩ := hlater ("a\x00b", 0) (by rw [hoffsets]; exact List.mem_cons_self) []
  exact hread ⟨0⟩ _ rfl

end Draft
end StackLang
