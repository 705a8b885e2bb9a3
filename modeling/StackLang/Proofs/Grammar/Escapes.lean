import StackLang.Proofs.Cursor.Follows
import StackLang.Proofs.Grammar.Reasons

/-!
# Wrong escapes

The contents of a literal are read in pieces: a character, or a backslash together with the character
after it. There is one way to do so for each literal, since the cut into tokens has passed over the same
pairs when it looked for the closing quote. So no backslash is left alone at the end, and the first pair
that is not in the language is what the error names.

Results:
* `Piece.unescape_assemble`: what comes before a pair is read whatever the pair is.
* `Piece.exists_first_unknown`: the first pair that is not in the language.
* `Tree.wrong_escape_located`: wrong escapes in the literals of a source.
-/
namespace StackLang

/-- What the contents of a literal are read as, from left to right. -/
inductive Piece where
  | plain (c : Char) (h : c ≠ '\\')
  /-- A backslash and the character after it. -/
  | pair (c : Char)

namespace Piece

/-- The characters of a piece. -/
def chars : Piece → List Char
  | plain c _ => [c]
  | pair c => ['\\', c]

/-- The characters of pieces, one after the other. -/
def assemble (ps : List Piece) : List Char := ps.flatMap chars

/-- A backslash stands before an `n`, a `t`, a quote or another backslash only. -/
def IsKnown : Piece → Prop
  | plain _ _ => True
  | pair c => c ∈ ['n', 't', '"', '\\']

instance : DecidablePred IsKnown
  | plain _ _ => inferInstanceAs (Decidable True)
  | pair c => inferInstanceAs (Decidable (c ∈ ['n', 't', '"', '\\']))

@[simp] theorem assemble_nil : assemble [] = [] := rfl

@[simp] theorem assemble_cons (p : Piece) (ps : List Piece) :
    assemble (p :: ps) = p.chars ++ assemble ps := rfl

@[simp] theorem assemble_append (ps qs : List Piece) :
    assemble (ps ++ qs) = assemble ps ++ assemble qs := List.flatMap_append

/-! ## Contents in pieces -/

/-- What stands between the quotes of a literal is made of pieces. -/
theorem exists_assemble {body : List Char} (h : Token.Quotable body) : ∃ ps, assemble ps = body := by
  induction h with
  | nil => exact ⟨[], rfl⟩
  | @plain c _ _ hb _ ih =>
    obtain ⟨ps, rfl⟩ := ih
    exact ⟨.plain c hb :: ps, rfl⟩
  | escape c _ ih =>
    obtain ⟨ps, rfl⟩ := ih
    exact ⟨.pair c :: ps, rfl⟩

/-- The same characters are the same pieces. -/
theorem assemble_injective {ps qs : List Piece} (h : assemble ps = assemble qs) : ps = qs := by
  induction ps generalizing qs with
  | nil =>
    cases qs with
    | nil => rfl
    | cons q qs => cases q <;> cases h
  | cons p ps ih =>
    cases qs with
    | nil => cases p <;> cases h
    | cons q qs =>
      cases p with
      | plain c hc =>
        cases q with
        | plain d hd =>
          obtain ⟨rfl, hrest⟩ := List.cons.inj h
          rw [ih hrest]
        | pair d => exact absurd (List.cons.inj h).1 hc
      | pair c =>
        cases q with
        | plain d hd => exact absurd (List.cons.inj h).1.symm hd
        | pair d =>
          obtain ⟨rfl, hrest⟩ := List.cons.inj (List.cons.inj h).2
          rw [ih hrest]

theorem exists_first_unknown (ps : List Piece) : (∀ p ∈ ps, p.IsKnown) ∨
    ∃ before c after, ps = before ++ .pair c :: after ∧ (∀ p ∈ before, p.IsKnown) ∧
      ¬ (pair c).IsKnown := by
  induction ps with
  | nil => exact .inl (List.forall_mem_nil _)
  | cons p ps ih =>
    by_cases hp : p.IsKnown
    · obtain hknown | ⟨before, c, after, rfl, hbefore, hc⟩ := ih
      · exact .inl (List.forall_mem_cons.2 ⟨hp, hknown⟩)
      · exact .inr ⟨p :: before, c, after, rfl, List.forall_mem_cons.2 ⟨hp, hbefore⟩, hc⟩
    · cases p with
      | plain => exact absurd trivial hp
      | pair c => exact .inr ⟨[], c, ps, rfl, List.forall_mem_nil _, hp⟩

/-! ## Reading -/

/-- A piece that is in the language stands for one character. -/
theorem exists_unescape_chars {p : Piece} (hp : p.IsKnown) (position : Nat) (cs : List Char) :
    ∃ d, unescape position (p.chars ++ cs) =
      (unescape (position + byteLength p.chars) cs).map (d :: ·) := by
  cases p with
  | plain c hc =>
    refine ⟨c, ?_⟩
    rw [chars, List.singleton_append, unescape, byteLength_cons, byteLength_nil, Nat.add_zero]
    · exact fun h => absurd h hc
    · exact fun _ _ h => absurd h hc
  | pair c =>
    obtain ⟨d, hescaped⟩ : ∃ d, escaped? c = some d := ⟨_, escaped?_eq_some_iff.2 ⟨hp, rfl⟩⟩
    have hslash : Char.utf8Size '\\' = 1 := rfl
    refine ⟨d, ?_⟩
    simp only [chars, List.cons_append, List.nil_append, unescape, hescaped, byteLength_cons,
      byteLength_nil, hslash, Nat.add_zero, Nat.add_assoc]

/-- Pieces that are in the language are read, and then what comes after them. -/
theorem exists_unescape_assemble {ps : List Piece} (hps : ∀ p ∈ ps, p.IsKnown) (position : Nat)
    (cs : List Char) : ∃ text, unescape position (assemble ps ++ cs) =
      (unescape (position + byteLength (assemble ps)) cs).map (text ++ ·) := by
  induction ps generalizing position with
  | nil =>
    refine ⟨[], ?_⟩
    rw [assemble_nil, List.nil_append, byteLength_nil, Nat.add_zero]
    cases unescape position cs <;> rfl
  | cons p ps ih =>
    obtain ⟨hp, hps⟩ := List.forall_mem_cons.1 hps
    obtain ⟨d, hd⟩ := exists_unescape_chars hp position (assemble ps ++ cs)
    obtain ⟨text, htext⟩ := ih hps (position + byteLength p.chars)
    refine ⟨d :: text, ?_⟩
    rw [assemble_cons, List.append_assoc, hd, htext, byteLength_append, ← Nat.add_assoc]
    cases unescape (position + byteLength p.chars + byteLength (assemble ps)) cs <;> rfl

theorem unescape_pair {c : Char} (hc : ¬ (pair c).IsKnown) (position : Nat) (cs : List Char) :
    unescape position ('\\' :: c :: cs) =
      .error ⟨some c, ⟨position, position + 1 + c.utf8Size⟩⟩ := by
  cases hescaped : escaped? c with
  | some d => exact absurd (escaped?_eq_some_iff.1 hescaped).1 hc
  | none => rw [unescape, hescaped]

end Piece

/-! ## The literals of a source -/

/-- The error is about the first of the pieces that is not in the language, a pair, and its span is where
the pair stands in the source. -/
inductive EscapeError.Locates (source : String) (start : Nat) : List Piece → EscapeError → Prop
  | intro {before after : List Piece} {c : Char} {s : Span} (known : ∀ p ∈ before, p.IsKnown)
    (unknown : ¬ (Piece.pair c).IsKnown)
    (start_eq : s.start = start + byteLength (Piece.assemble before))
    (text_eq : s.text? source = some (String.ofList ['\\', c])) :
    Locates source start (before ++ .pair c :: after) ⟨some c, s⟩

namespace Token

open Piece

variable {source : String} {t : Token}

/-- A literal in a source is made of pieces in one way. -/
theorem exists_pieces (ht : t ∈ scan source) (hkind : t.kind = .string) :
    ∃ ps, t.text = String.ofList ('"' :: (assemble ps ++ ['"'])) ∧ t.contents = assemble ps ∧
      ∀ qs, t.text = String.ofList ('"' :: (assemble qs ++ ['"'])) → qs = ps := by
  have hspells := (tiles_scanFrom 0 source.toList).spells ht
  rw [hkind] at hspells
  obtain ⟨body, hbody, htext⟩ | ⟨h, -⟩ := hspells
  · obtain ⟨ps, rfl⟩ := exists_assemble hbody
    refine ⟨ps, by rw [← htext, String.ofList_toList], ?_, fun qs hqs => ?_⟩
    · rw [contents, htext, List.tail_cons, List.dropLast_concat]
    · rw [hqs, String.toList_ofList] at htext
      exact assemble_injective (List.append_cancel_right (List.cons.inj htext).2)
  · cases h

/-- Pieces that are all in the language have a value. -/
theorem unescaped_of_known {ps : List Piece} (hps : ∀ p ∈ ps, p.IsKnown)
    (hcontents : t.contents = assemble ps) : ∃ text, t.unescaped = .ok text := by
  obtain ⟨text, htext⟩ := exists_unescape_assemble hps (t.start + 1) []
  rw [List.append_nil, ← hcontents] at htext
  exact ⟨_, congrArg (Except.map String.ofList) htext⟩

/-- The first pair that is not in the language is the one that the error is about. -/
theorem unescaped_of_unknown {before after : List Piece} {c : Char} (hbefore : ∀ p ∈ before, p.IsKnown)
    (hc : ¬ (Piece.pair c).IsKnown) (hcontents : t.contents = assemble (before ++ .pair c :: after)) :
    t.unescaped = .error ⟨some c, ⟨t.start + 1 + byteLength (assemble before),
      t.start + 1 + byteLength (assemble before) + byteLength ['\\', c]⟩⟩ := by
  obtain ⟨text, htext⟩ :=
    exists_unescape_assemble hbefore (t.start + 1) (assemble (.pair c :: after))
  rw [unescaped, hcontents, assemble_append, htext]
  have hslash : Char.utf8Size '\\' = 1 := rfl
  rw [assemble_cons, chars, List.cons_append, List.singleton_append, unescape_pair hc, byteLength_cons,
    byteLength_cons, byteLength_nil, hslash, Nat.add_zero, ← Nat.add_assoc]
  rfl

/-- A literal has a value, or there is a first pair in it that is not in the language. -/
theorem unescaped_cases (ht : t ∈ scan source) (hkind : t.kind = .string) {ps : List Piece}
    (hcontents : t.contents = assemble ps) :
    ((∀ p ∈ ps, p.IsKnown) ∧ ∃ text, t.unescaped = .ok text) ∨
      (¬ ∀ p ∈ ps, p.IsKnown) ∧
        ∃ e, t.unescaped = .error e ∧ e.Locates source (t.start + 1) ps := by
  obtain hknown | ⟨before, c, after, rfl, hbefore, hc⟩ := exists_first_unknown ps
  · exact .inl ⟨hknown, unescaped_of_known hknown hcontents⟩
  · have hsplit : t.contents = assemble before ++ ['\\', c] ++ assemble after := by
      rw [hcontents, assemble_append, assemble_cons, List.append_assoc, chars]
    refine .inr ⟨fun hps => hc (hps _ (by simp)), _, unescaped_of_unknown hbefore hc hcontents, ?_⟩
    exact .intro hbefore hc rfl (text?_of_contents ht hkind hsplit)

end Token

/-- Wrong escapes are found where they stand. Each literal of a source is made of pieces in one way, and
has a value just if all of them are in the language. Else the error is about the first one that is not. An
error of the parser is the error of a literal, so it always has a character. -/
theorem Tree.wrong_escape_located (source : String) :
    (∀ t ∈ Token.scan source, t.kind = .string → ∃ ps : List Piece,
      t.text = String.ofList ('"' :: (Piece.assemble ps ++ ['"'])) ∧
      (∀ qs, t.text = String.ofList ('"' :: (Piece.assemble qs ++ ['"'])) → qs = ps) ∧
      ((∃ text, t.unescaped = .ok text) ↔ ∀ p ∈ ps, p.IsKnown) ∧
      ((¬ ∀ p ∈ ps, p.IsKnown) →
        ∃ e, t.unescaped = .error e ∧ e.Locates source (t.start + 1) ps)) ∧
    ∀ e, ofSource source = .error (.invalidEscape e) → e.character ≠ none ∧
      ∃ t ∈ Token.scan source, t.kind = .string ∧ t.unescaped = .error e := by
  constructor
  · intro t ht hkind
    obtain ⟨ps, htext, hcontents, hunique⟩ := Token.exists_pieces ht hkind
    refine ⟨ps, htext, hunique, ?_⟩
    obtain ⟨hps, hvalue⟩ | ⟨hps, e, he, hlocates⟩ := Token.unescaped_cases ht hkind hcontents
    · exact ⟨iff_of_true hvalue hps, fun h => absurd hps h⟩
    · have hvalue : ¬ ∃ text, t.unescaped = .ok text := by
        rintro ⟨text, hok⟩
        cases hok.symm.trans he
      exact ⟨iff_of_false hvalue hps, fun _ => ⟨e, he, hlocates⟩⟩
  · intro e h
    obtain ⟨before, rest, hscan, hkind, he⟩ := explained_of_ofTokens h
    cases rest with
    | nil => cases hkind
    | cons t rest =>
      have ht : t ∈ Token.scan source := by simp [← hscan]
      refine ⟨?_, t, ht, hkind, he⟩
      obtain ⟨ps, -, hcontents, -⟩ := Token.exists_pieces ht hkind
      obtain ⟨-, text, hok⟩ | ⟨-, e', he', hlocates⟩ := Token.unescaped_cases ht hkind hcontents
      · cases hok.symm.trans he
      · obtain rfl := Except.error.inj (he.symm.trans he')
        cases hlocates
        exact Option.some_ne_none _

/-- A wrong escape after a character of two bytes. -/
theorem Tree.wrong_escape_after_accent :
    ofSource "let x = \"é\\q\";" = .error (.invalidEscape ⟨some 'q', ⟨11, 13⟩⟩) ∧
      (some 'q' ≠ none ∧ ∃ t ∈ Token.scan "let x = \"é\\q\";", t.kind = .string ∧
        t.unescaped = .error ⟨some 'q', ⟨11, 13⟩⟩) := by
  have hscan : Token.scan "let x = \"é\\q\";" = [⟨.letWord, 0, "let"⟩, ⟨.identifier, 4, "x"⟩,
      ⟨.equal, 6, "="⟩, ⟨.string, 8, "\"é\\q\""⟩, ⟨.semicolon, 14, ";"⟩] := by decide +kernel
  have h : ofSource "let x = \"é\\q\";" = .error (.invalidEscape ⟨some 'q', ⟨11, 13⟩⟩) := by
    rw [ofSource, hscan]
    rfl
  exact ⟨h, (wrong_escape_located _).2 _ h⟩

end StackLang
