import StackLang.Proofs.Grammar.Complete
import StackLang.Proofs.Grammar.Sound
import StackLang.Proofs.Grammar.Unambiguous
import StackLang.Proofs.Token.Tiling

/-!
# Source texts and the grammar

A source text is read just if its tokens are derived from the grammar and its literals have values.
What is read is then the tree of the only derivation there is.

Results:
* `kind_ne_endOfFile`: the end of a source is no token of it.
* `Tree.form_of_ofSource`: what the functions of a source text may be called.
* `ofSource_eq_ok_iff`: which source texts are read, and what they are read as.
-/
namespace StackLang

open Grammar

/-! ## Tokens of a text -/

/-- The end of a source is no token of it. -/
theorem kind_ne_endOfFile (start : Nat) (cs : List Char) :
    ∀ t ∈ scanFrom start cs, t.kind ≠ .endOfFile := by
  intro t ht heq
  have hspells := (Token.tiles_scanFrom start cs).spells ht
  rw [heq] at hspells
  obtain h | ⟨h, -⟩ := hspells
  · exact h
  · cases h

/-! ## Whole programs -/

namespace Parser

variable {size n : Nat} {ts rest : List Token}

/-- Declarations are read until none is left, if there are no more tokens than the bound. -/
theorem firstKind_of_many {ds : List Declaration} (hn : ts.length ≤ n)
    (h : many (· ≠ .endOfFile) (declaration n) n (.endOfFile size) ts = .ok (ds, rest)) :
    firstKind rest = .endOfFile := by
  have go {k : Nat} {ts : List Token} {ds : List Declaration} (hk : ts.length ≤ k)
      (h : many (· ≠ .endOfFile) (declaration n) k (.endOfFile size) ts = .ok (ds, rest)) :
      firstKind rest = .endOfFile := by
    induction k generalizing ts ds with
    | zero =>
      obtain rfl := List.length_eq_zero_iff.1 (Nat.le_zero.1 hk)
      cases h
      rfl
    | succ k ih =>
      rw [many, peek_bind, kind_headD] at h
      by_cases hkind : firstKind ts = .endOfFile
      · rw [if_neg (by rw [hkind]; decide)] at h
        cases h
        exact hkind
      · rw [if_pos (decide_eq_true hkind)] at h
        obtain ⟨d, ts₁, rfl, -, h₁⟩ := sound_declaration.bind_eq_ok h
        obtain ⟨others, ts₂, hothers, h₂⟩ := bind_eq_ok_iff.1 h₁
        cases h₂
        have hpos := d.length_pos trivial
        rw [List.length_append] at hk
        exact ih (by omega) hothers
  exact go hn h

/-- A list of tokens is read just if it is derived and its literals have values. -/
theorem ofTokens_eq_ok_iff (hts : ∀ t ∈ ts, t.kind ≠ .endOfFile) {t : Tree} :
    Tree.ofTokens size ts = .ok t ↔
      ∃ d : Phrase (.many .declaration), d.tokens = ts ∧ d.Valid ∧ ⟨d.tree⟩ = t := by
  constructor
  · intro h
    obtain ⟨⟨t, rest⟩, hread, rfl⟩ := Effect.except_map_eq_ok.1 h
    obtain ⟨ds, rest', hds, h₁⟩ := bind_eq_ok_iff.1 hread
    cases h₁
    have hend := firstKind_of_many (Nat.le_refl _) hds
    obtain ⟨d, rfl, hv, rfl⟩ := spells_many (i := .declaration) (fun _ h => sound_declaration h) hds
    cases rest with
    | nil => exact ⟨d, (List.append_nil _).symm, hv, rfl⟩
    | cons t rest => exact absurd hend (hts t (List.mem_append_right _ List.mem_cons_self))
  · rintro ⟨d, rfl, hv, rfl⟩
    exact ofTokens_tokens d hv

end Parser

/-- A derivation of a whole program. -/
abbrev Grammar.Program : Type := Phrase (.many .declaration)

/-- The names of the functions of a program are among its tokens. -/
theorem Grammar.Phrase.exists_name_token : ∀ (d : Grammar.Program), ∀ f ∈ Tree.functions ⟨d.tree⟩,
    ∃ token ∈ d.tokens, token.kind = .identifier ∧ f.name.text = token.text
  | .nil, _, hf => by cases hf
  | .cons (.function keyword callee opening closing body) others, f, hf => by
    rcases List.mem_cons.1 hf with rfl | hf
    · exact ⟨callee.1, by simp, callee.2, rfl⟩
    · obtain ⟨token, hmem, h⟩ := exists_name_token others f hf
      exact ⟨token, List.mem_append_right _ hmem, h⟩
  | .cons (.global inner) others, f, hf => by
    obtain ⟨token, hmem, h⟩ := exists_name_token others f hf
    exact ⟨token, List.mem_append_right _ hmem, h⟩

/-- The functions of a source text have names of the form of a name. -/
theorem Tree.form_of_ofSource {source : String} {t : Tree} (h : ofSource source = .ok t) :
    ∀ f ∈ t.functions, Token.Kind.identifier.Form f.name.text.toList := by
  intro f hf
  have hend : ∀ token ∈ Token.scan source, token.kind ≠ .endOfFile :=
    kind_ne_endOfFile 0 source.toList
  rw [ofSource, Parser.ofTokens_eq_ok_iff hend] at h
  obtain ⟨d, htokens, -, rfl⟩ := h
  obtain ⟨token, hmem, hkind, hname⟩ := d.exists_name_token f hf
  rw [htokens] at hmem
  have hspells := (Token.tiles_scanFrom 0 source.toList).spells hmem
  rw [hkind, ← hname] at hspells
  obtain hform | ⟨hunknown, -⟩ := hspells
  · exact hform
  · cases hunknown

/-- A source text is read as a tree just if its tokens, which are all of the language, are derived by
a derivation whose literals have values and that stands for the tree. There is no other derivation. -/
theorem Tree.ofSource_eq_ok_iff (source : String) (t : Tree) :
    Tree.ofSource source = .ok t ↔ ∃ d : Grammar.Program, d.tokens = Token.scan source ∧
      (∀ d' : Grammar.Program, d'.tokens = Token.scan source → d' = d) ∧
      (∀ token ∈ Token.scan source, token.kind ≠ .unknown ∧ token.kind ≠ .unterminatedString) ∧
      d.Valid ∧ ⟨d.tree⟩ = t := by
  have hend : ∀ token ∈ Token.scan source, token.kind ≠ .endOfFile :=
    kind_ne_endOfFile 0 source.toList
  rw [Tree.ofSource, Parser.ofTokens_eq_ok_iff hend]
  refine exists_congr fun d => and_congr_right fun htokens => ?_
  rw [← htokens]
  exact ⟨fun h => ⟨fun d' => Phrase.eq_of_tokens_eq, d.known, h⟩, fun h => h.2.2⟩

end StackLang
