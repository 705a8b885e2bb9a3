import StackLang.Proofs.Effect
import StackLang.Tree.Literal

/-!
# Which literals have a value

Results:
* `integer?_eq_some_iff`, `negatedInteger?_eq_some_iff`: a number has a value if it fits in 64 bits,
  with the minus sign before it if there is one.
* `unescape_eq_ok_iff`: a string has one if each backslash stands before a character that it escapes.
* `Token.span_of_unescaped`: an escape that is wrong stands between the quotes.
-/
namespace StackLang

/-- An integer that 64 bits can hold. -/
def Fits (n : Int) : Prop := -0x8000000000000000 ≤ n ∧ n < 0x8000000000000000

theorem word?_eq_some_iff {n : Int} {w : Int64} : word? n = some w ↔ Fits n ∧ Int64.ofInt n = w := by
  rw [word?, Fits, Option.ite_none_right_eq_some, Option.some.injEq]

theorem integer?_eq_some_iff {t : Token} {w : Int64} : t.integer? = some w ↔
    Fits (decimalValue t.text.toList) ∧ Int64.ofInt (decimalValue t.text.toList) = w :=
  word?_eq_some_iff

theorem negatedInteger?_eq_some_iff {t : Token} {w : Int64} : t.negatedInteger? = some w ↔
    Fits (-decimalValue t.text.toList) ∧ Int64.ofInt (-decimalValue t.text.toList) = w :=
  word?_eq_some_iff

/-- Each backslash stands before an `n`, a `t`, a quote or another backslash. -/
def EscapesKnown : List Char → Prop
  | [] => True
  | ['\\'] => False
  | '\\' :: c :: cs => c ∈ ['n', 't', '"', '\\'] ∧ EscapesKnown cs
  | _ :: cs => EscapesKnown cs

/-- The characters that the contents of a string literal stand for. -/
def literalText : List Char → List Char
  | [] => []
  | '\\' :: c :: cs => (if c = 'n' then '\n' else if c = 't' then '\t' else c) :: literalText cs
  | c :: cs => c :: literalText cs

theorem escaped?_eq_some_iff {c d : Char} : escaped? c = some d ↔
    c ∈ ['n', 't', '"', '\\'] ∧ (if c = 'n' then '\n' else if c = 't' then '\t' else c) = d := by
  unfold escaped?
  split <;> simp_all

theorem unescape_eq_ok_iff (position : Nat) (cs : List Char) {text : List Char} :
    unescape position cs = .ok text ↔ EscapesKnown cs ∧ literalText cs = text := by
  have later {position : Nat} {cs : List Char} {c : Char} {text : List Char}
      (ih : ∀ {text}, unescape position cs = .ok text ↔ EscapesKnown cs ∧ literalText cs = text) :
      (unescape position cs).map (c :: ·) = .ok text ↔
        EscapesKnown cs ∧ c :: literalText cs = text := by
    rw [Effect.except_map_eq_ok]
    constructor
    · rintro ⟨rest, h, rfl⟩
      obtain ⟨hknown, rfl⟩ := ih.1 h
      exact ⟨hknown, rfl⟩
    · rintro ⟨hknown, rfl⟩
      exact ⟨_, ih.2 ⟨hknown, rfl⟩, rfl⟩
  fun_induction unescape position cs generalizing text with
  | case1 => simp [EscapesKnown, literalText]
  | case2 => simp [EscapesKnown]
  | case3 position c cs d h ih =>
    obtain ⟨hc, rfl⟩ := escaped?_eq_some_iff.1 h
    rw [later ih, EscapesKnown, literalText, and_iff_right hc]
  | case4 position c cs h =>
    have hc : c ∉ ['n', 't', '"', '\\'] := fun hc => by
      rw [(escaped?_eq_some_iff.2 ⟨hc, rfl⟩)] at h; cases h
    simp [EscapesKnown, hc]
  | case5 position c cs h h' ih =>
    rw [later ih, EscapesKnown, literalText]
    · exact fun _ _ hc => h' _ _ hc
    · exact h
    · exact h'

/-! ## Wrong escapes -/

theorem span_of_unescape {position : Nat} {cs : List Char} {e : EscapeError}
    (h : unescape position cs = .error e) : position ≤ e.span.start ∧ e.span.start < e.span.stop ∧
      e.span.stop ≤ position + byteLength cs := by
  fun_induction unescape position cs with
  | case1 => cases h
  | case2 =>
    cases h
    exact ⟨Nat.le_refl _, Nat.lt_succ_self _, Nat.le_refl _⟩
  | case3 position c cs d _ ih =>
    obtain ⟨hstart, hlt, hstop⟩ := ih (Effect.except_map_eq_error.1 h)
    have hslash : Char.utf8Size '\\' = 1 := rfl
    rw [byteLength_cons, byteLength_cons, hslash]
    exact ⟨by omega, hlt, by omega⟩
  | case4 position c cs _ =>
    cases h
    have hslash : Char.utf8Size '\\' = 1 := rfl
    rw [byteLength_cons, byteLength_cons, hslash]
    exact ⟨Nat.le_refl _, by dsimp only; omega, by dsimp only; omega⟩
  | case5 position c cs _ _ ih =>
    obtain ⟨hstart, hlt, hstop⟩ := ih (Effect.except_map_eq_error.1 h)
    rw [byteLength_cons]
    exact ⟨by omega, hlt, by omega⟩

/-- An escape that is wrong has characters of the token on both sides. -/
theorem Token.span_of_unescaped {t : Token} {e : EscapeError} (h : t.unescaped = .error e) :
    t.span.start < e.span.start ∧ e.span.start < e.span.stop ∧ e.span.stop < t.span.stop := by
  have hwrong := Effect.except_map_eq_error.1 h
  obtain ⟨hstart, hlt, hstop⟩ := span_of_unescape hwrong
  have hlength : byteLength t.contents + 2 ≤ t.length := by
    unfold contents at hwrong ⊢
    rw [length]
    cases htext : t.text.toList with
    | nil =>
      rw [htext] at hwrong
      cases hwrong
    | cons c cs =>
      rw [htext, List.tail_cons] at hwrong
      rcases List.eq_nil_or_concat cs with rfl | ⟨cs, d, rfl⟩
      · cases hwrong
      · have hc := c.utf8Size_pos
        have hd := d.utf8Size_pos
        simp only [List.concat_eq_append, List.tail_cons, List.dropLast_concat, byteLength_cons,
          byteLength_append, byteLength_nil]
        omega
  exact ⟨by simp only [span]; omega, hlt, by simp only [span]; omega⟩

end StackLang
