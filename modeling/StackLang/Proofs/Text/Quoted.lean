import StackLang.Proofs.Text.Fields
import StackLang.Text.Quoted

/-!
# Quoted texts tell apart what they quote

A character that shows stands for itself. An escape starts with a backslash, and what follows says
where it ends: one character, or `u` and a number in braces. So no form of a character is the start of
another's, and a quoted text is the form of one text only. None of the forms holds a line feed.

Results:
* `quotedChar_inj`: the character at the head of a quoted text.
* `quoted_inj`: different texts are quoted differently.
* `newline_notMem_quoted`: a quoted text is on one line.
-/
namespace StackLang

/-! ## Hexadecimal numbers -/

theorem exists_digitChar_of_mem {n : Nat} {c : Char} (h : c ∈ hexadecimal n) :
    ∃ d < 16, c = Nat.digitChar d := by
  unfold hexadecimal at h
  induction n using Nat.strongRecOn with
  | ind n ih =>
    rw [Nat.toDigits_eq_if (by decide)] at h
    split at h
    · exact ⟨n, ‹_›, List.mem_singleton.1 h⟩
    · rcases List.mem_append.1 h with h | h
      · exact ih (n / 16) (by omega) h
      · exact ⟨n % 16, Nat.mod_lt n (by decide), List.mem_singleton.1 h⟩

theorem brace_notMem_hexadecimal (n : Nat) : '}' ∉ hexadecimal n := fun h => by
  obtain ⟨d, -, hd⟩ := exists_digitChar_of_mem h
  exact Nat.digitChar_ne '}' rfl hd.symm

theorem newline_notMem_hexadecimal (n : Nat) : '\n' ∉ hexadecimal n := fun h => by
  obtain ⟨d, -, hd⟩ := exists_digitChar_of_mem h
  exact Nat.digitChar_ne '\n' rfl hd.symm

theorem digitChar_inj : ∀ m < 16, ∀ n < 16, Nat.digitChar m = Nat.digitChar n → m = n := by decide

/-- Numbers have different digits. -/
theorem hexadecimal_inj {m n : Nat} (h : hexadecimal m = hexadecimal n) : m = n := by
  have longer (n : Nat) (c d : Char) : Nat.toDigits 16 n ++ [c] ≠ [d] := fun h => by
    have := congrArg List.length h
    have : 0 < (Nat.toDigits 16 n).length := Nat.length_toDigits_pos
    simp only [List.length_append, List.length_singleton] at *
    omega
  unfold hexadecimal at h
  induction m using Nat.strongRecOn generalizing n with
  | ind m ih =>
    rw [Nat.toDigits_eq_if (n := m) (by decide), Nat.toDigits_eq_if (n := n) (by decide)] at h
    split at h <;> split at h
    · exact digitChar_inj m ‹_› n ‹_› (List.singleton_inj.1 h)
    · exact absurd h.symm (longer _ _ _)
    · exact absurd h (longer _ _ _)
    · obtain ⟨hdigits, hlast⟩ := List.append_inj' h rfl
      have := ih (m / 16) (by omega) hdigits
      have := digitChar_inj (m % 16) (by omega) (n % 16) (by omega) (List.singleton_inj.1 hlast)
      omega

/-! ## Characters -/

/-- The character that a short escape stands for. -/
def unescaped (c : Char) : Char :=
  if c = '0' then '\x00' else if c = 't' then '\t' else if c = 'n' then '\n'
  else if c = 'r' then '\r' else c

/-- A character shows as itself, has a short escape or is given by its number. -/
inductive QuotedAs (c : Char) : List Char → Prop where
  | plain (backslash : c ≠ '\\') (newline : c ≠ '\n') : QuotedAs c [c]
  | short {e : Char} (stands : unescaped e = c) (u : e ≠ 'u') (newline : e ≠ '\n') :
    QuotedAs c ['\\', e]
  | long : QuotedAs c ('\\' :: 'u' :: '{' :: hexadecimal c.toNat ++ ['}'])

theorem quotedAs_quotedChar (c : Char) : QuotedAs c (quotedChar c) := by
  unfold quotedChar
  -- the six characters with a short escape
  iterate 6
    split
    · rename_i h
      subst h
      exact .short (by decide) (by decide) (by decide)
  split
  · exact .plain ‹_› ‹_›
  · exact .long

theorem QuotedAs.ne_nil {c : Char} {cs : List Char} (h : QuotedAs c cs) : cs ≠ [] := by
  cases h <;> simp

/-- No form of a character is the start of another's. -/
theorem QuotedAs.inj {c d : Char} {cs ds x y : List Char} (hc : QuotedAs c cs) (hd : QuotedAs d ds)
    (h : cs ++ x = ds ++ y) : c = d := by
  cases hc with
  | plain hback _ =>
    cases hd with
    | plain => exact (List.cons.inj h).1
    | short | long => exact absurd (List.cons.inj h).1 hback
  | short hstands hu _ =>
    cases hd with
    | plain hback _ => exact absurd (List.cons.inj h).1.symm hback
    | short hstands' _ _ =>
      have he := (List.cons.inj (List.cons.inj h).2).1
      rw [← hstands, ← hstands', he]
    | long => exact absurd (List.cons.inj (List.cons.inj h).2).1 hu
  | long =>
    cases hd with
    | plain hback _ => exact absurd (List.cons.inj h).1.symm hback
    | short _ hu _ => exact absurd (List.cons.inj (List.cons.inj h).2).1.symm hu
    | long =>
      simp only [List.cons_append, List.append_assoc, List.cons.injEq, true_and, List.nil_append] at h
      have hdigits := (cut_inj (brace_notMem_hexadecimal _) (brace_notMem_hexadecimal _) h).1
      exact Char.toNat_inj.1 (hexadecimal_inj hdigits)

theorem QuotedAs.newline_notMem {c : Char} {cs : List Char} (h : QuotedAs c cs) : '\n' ∉ cs := by
  cases h with
  | plain _ hnewline => simpa using hnewline.symm
  | short _ _ hnewline => simpa using hnewline.symm
  | long => simp [newline_notMem_hexadecimal]

/-- The character at the head of a quoted text. -/
theorem quotedChar_inj {c d : Char} {x y : List Char} (h : quotedChar c ++ x = quotedChar d ++ y) :
    c = d ∧ x = y := by
  obtain rfl := (quotedAs_quotedChar c).inj (quotedAs_quotedChar d) h
  exact ⟨rfl, List.append_cancel_left h⟩

/-! ## Texts -/

/-- Different texts are quoted differently. -/
theorem quoted_inj {a b : String} (h : quoted a = quoted b) : a = b := by
  have hchars : a.toList.flatMap quotedChar = b.toList.flatMap quotedChar := by
    have := String.ofList_injective h
    simp only [List.cons_append, List.cons.injEq, true_and] at this
    exact List.append_cancel_right this
  have inj : ∀ x y : List Char, x.flatMap quotedChar = y.flatMap quotedChar → x = y := by
    intro x
    induction x with
    | nil =>
      intro y hy
      cases y with
      | nil => rfl
      | cons d y =>
        exact absurd (List.append_eq_nil_iff.1 hy.symm).1 (quotedAs_quotedChar d).ne_nil
    | cons c x ih =>
      intro y hy
      cases y with
      | nil => exact absurd (List.append_eq_nil_iff.1 hy).1 (quotedAs_quotedChar c).ne_nil
      | cons d y =>
        obtain ⟨rfl, hrest⟩ := quotedChar_inj hy
        rw [ih y hrest]
  exact String.toList_inj.1 (inj a.toList b.toList hchars)

/-- A quoted text is on one line. -/
theorem newline_notMem_quoted (text : String) : '\n' ∉ (quoted text).toList := by
  simp only [quoted, String.toList_ofList, List.cons_append, List.mem_cons, List.mem_append,
    List.mem_flatMap, List.not_mem_nil, or_false, not_or]
  refine ⟨by decide, ?_, by decide⟩
  rintro ⟨c, -, hc⟩
  exact (quotedAs_quotedChar c).newline_notMem hc

end StackLang
