import StackLang.CommandLine.Execute
import StackLang.Proofs.Text.Quoted

/-!
# Plain text

Numbers are digits and signs, and between quotes a control character is an escape. So a machine is shown in
plain text, whatever is on its heap and in its static data, and this is what comes out of a console that
lets plain text through.

Results:
* `isPlain_quoted`: a quoted text is plain.
* `Machine.isPlain_stateText`: a machine is shown in plain text.
* `Console.dumpText_eq`: the state of a machine comes out as it is.
-/
namespace StackLang

/-! ## Texts in parts -/

section

variable {a b : String} {parts : List String}

theorem isPlain_of_notMem (h : ∀ c, isPlainChar c = false → c ∉ a.toList) : IsPlain a := fun c hc => by
  cases hplain : isPlainChar c with
  | true => rfl
  | false => exact absurd hc (h c hplain)

@[simp] theorem isPlain_append : IsPlain (a ++ b) ↔ IsPlain a ∧ IsPlain b := by
  simp only [IsPlain, String.toList_append, List.forall_mem_append]

theorem isPlain_join (h : ∀ part ∈ parts, IsPlain part) : IsPlain (String.join parts) := fun c hc => by
  rw [String.toList_join, List.mem_flatMap] at hc
  obtain ⟨part, hpart, hc⟩ := hc
  exact h part hpart c hc

theorem isPlain_intercalate (ha : IsPlain a) (h : ∀ part ∈ parts, IsPlain part) :
    IsPlain (a.intercalate parts) := by
  refine isPlain_of_notMem fun c hplain => ?_
  have hc {text : String} (h : IsPlain text) : c ∉ text.toList := fun hmem => by
    rw [h c hmem] at hplain
    cases hplain
  rw [String.toList_intercalate]
  refine notMem_intercalate (hc ha) fun part hpart => ?_
  obtain ⟨text, htext, rfl⟩ := List.mem_map.1 hpart
  exact hc (h text htext)

theorem isPlain_listText (h : ∀ part ∈ parts, IsPlain part) : IsPlain (listText parts) := by
  simp only [listText, isPlain_append]
  exact ⟨⟨by decide, isPlain_intercalate (by decide) h⟩, by decide⟩

end

/-! ## Numbers -/

theorem isPlainChar_of_toNat {c : Char} (hlow : 0x20 ≤ c.toNat) (h : c.toNat < 0x7F ∨ 0x9F < c.toNat) :
    isPlainChar c := by
  simp only [isPlainChar, Bool.or_eq_true, Bool.and_eq_true, Bool.not_eq_true', Bool.and_eq_false_iff,
    decide_eq_true_eq, decide_eq_false_iff_not]
  exact .inr ⟨hlow, h.imp Nat.not_le_of_lt Nat.not_le_of_lt⟩

theorem isPlainChar_of_isDigit {c : Char} (h : c.isDigit) : isPlainChar c := by
  obtain ⟨hlow, hhigh⟩ := Char.isDigit_iff_toNat.1 h
  exact isPlainChar_of_toNat (Nat.le_trans (by decide) hlow) (.inl (Nat.lt_of_le_of_lt hhigh (by decide)))

theorem not_isDigit {c : Char} (h : isPlainChar c = false) : c.isDigit = false := by
  cases hdigit : c.isDigit with
  | false => rfl
  | true =>
    rw [isPlainChar_of_isDigit hdigit] at h
    cases h

theorem isPlain_repr (n : Nat) : IsPlain n.repr :=
  isPlain_of_notMem fun _ hc => notMem_repr (not_isDigit hc) n

theorem isPlain_addressText (address : Nat) : IsPlain (addressText address) :=
  isPlain_of_notMem fun _ hc => notMem_addressText (not_isDigit hc) address

theorem isPlain_toString_int64 (x : Int64) : IsPlain (toString x) :=
  isPlain_of_notMem fun c hc => notMem_toString_int64 (not_isDigit hc) (by rintro rfl; cases hc) x

/-! ## Quotes -/

/-- A character that shows is no control character: these are the first in the table, or come before it. -/
theorem isPlainChar_of_isPrintable {c : Char} (h : isPrintable c) : isPlainChar c := by
  unfold isPrintable at h
  split at h
  · exact isPlainChar_of_toNat (of_decide_eq_true h) (.inl ‹_›)
  · rw [inRisingRanges_eq_any hiddenRanges_rising, Bool.not_eq_true', List.any_eq_false] at h
    have hfirst := h (0x7F, 0xA0) (by decide)
    simp only [Bool.and_eq_true, decide_eq_true_eq, not_and] at hfirst
    exact isPlainChar_of_toNat (by omega) (.inr (by omega))

theorem isPlainChar_digitChar : ∀ d < 16, isPlainChar (Nat.digitChar d) := by decide

theorem isPlainChar_of_mem_quotedChar {c d : Char} (h : d ∈ quotedChar c) : isPlainChar d := by
  unfold quotedChar at h
  -- the six characters with a short escape
  iterate 6
    split at h
    · exact List.all_eq_true.1 (by decide) d h
  split at h
  · rw [List.mem_singleton.1 h]
    exact isPlainChar_of_isPrintable ‹_›
  · simp only [List.cons_append, List.nil_append, List.mem_cons, List.mem_append, List.not_mem_nil,
      or_false] at h
    obtain rfl | rfl | rfl | h | rfl := h
    · decide
    · decide
    · decide
    · obtain ⟨d, hd, rfl⟩ := exists_digitChar_of_mem h
      exact isPlainChar_digitChar d hd
    · decide

/-- A quoted text is plain. -/
theorem isPlain_quoted (text : String) : IsPlain (quoted text) := by
  intro d hd
  simp only [quoted, String.toList_ofList, List.cons_append, List.mem_cons, List.mem_append,
    List.mem_flatMap, List.not_mem_nil, or_false] at hd
  obtain rfl | ⟨c, -, hc⟩ | rfl := hd
  · decide
  · exact isPlainChar_of_mem_quotedChar hc
  · decide

/-! ## Machines -/

theorem isPlain_bytesText {name : String} (hname : IsPlain name) (bytes : List UInt8) :
    IsPlain (bytesText name bytes) := by
  simp only [bytesText, isPlain_append]
  exact ⟨⟨⟨⟨hname, by decide⟩, isPlain_repr _⟩, by decide⟩, isPlain_quoted _⟩

/-- A machine is shown in plain text. -/
theorem Machine.isPlain_stateText (m : Machine) : IsPlain m.stateText := by
  have hregisters : IsPlain (String.join (Register.all.map fun r =>
      " " ++ r.name ++ "=" ++ toString (m.registers.get r))) := by
    refine isPlain_join (List.forall_mem_map.2 fun r _ => ?_)
    simp only [isPlain_append]
    exact ⟨⟨⟨by decide, by cases r <;> decide⟩, by decide⟩, isPlain_toString_int64 _⟩
  have hlabels : IsPlain (String.join (m.labels.entries.map fun e =>
      " " ++ Label.text ⟨e.1⟩ ++ "=" ++ addressText e.2)) := by
    refine isPlain_join (List.forall_mem_map.2 fun e _ => ?_)
    simp only [isPlain_append, Label.text]
    exact ⟨⟨⟨by decide, by decide, isPlain_repr e.1⟩, by decide⟩, isPlain_addressText e.2⟩
  have hstack : IsPlain (stackText m.stack) :=
    isPlain_listText (List.forall_mem_map.2 fun x _ => isPlain_toString_int64 x)
  have hcalls : IsPlain (stackText m.calls) :=
    isPlain_listText (List.forall_mem_map.2 fun address _ => isPlain_repr address)
  have hstatus : IsPlain m.status.name := by cases m.status <;> decide
  refine isPlain_join (List.forall_mem_map.2 fun line hline => isPlain_append.2 ⟨?_, by decide⟩)
  simp only [stateLines, List.mem_cons, List.not_mem_nil, or_false] at hline
  obtain rfl | rfl | rfl | rfl | rfl | rfl | rfl := hline
  · exact isPlain_append.2 ⟨by decide, hregisters⟩
  · exact isPlain_append.2 ⟨by decide, hstack⟩
  · exact isPlain_append.2 ⟨by decide, hcalls⟩
  · exact isPlain_append.2 ⟨by decide, hlabels⟩
  · exact isPlain_bytesText (by decide) _
  · exact isPlain_bytesText (by decide) _
  · simp only [isPlain_append]
    exact ⟨⟨⟨⟨by decide, hstatus⟩, by decide⟩, isPlain_repr _⟩, by decide⟩

/-- The state of a machine comes out as it is. -/
theorem Console.dumpText_eq {console : Console} (h : console.KeepsPlain) (m : Machine) :
    console.dumpText m = "╭─[Machine State]\n" ++ m.stateText ++ "╯\n" := by
  have hkeeps {text : String} (htext : IsPlain text) : console.write [text] = text := by
    rw [h [text] (List.forall_mem_singleton.2 htext), String.join_cons, String.join_nil, String.append_empty]
  rw [dumpText, hkeeps (by decide), hkeeps m.isPlain_stateText, hkeeps (by decide)]

end StackLang
