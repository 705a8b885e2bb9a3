import StackLang.Proofs.Grammar.Earliest
import StackLang.Proofs.Grammar.Reasons
import StackLang.Proofs.Grammar.Standalone

/-!
# Tokens that are no lexeme of the language

The parser stops at the first token that no program has there, and says what is wrong with it. A
character that starts no lexeme, or a string without an end, is what the error names wherever it stands,
unless it is the first thing in the parentheses after a function's name. There it passes for a parameter.

Results:
* `Tree.exists_explained_refused`: where the parser stops, and what it says there.
* `Phrase.exists_split`: a program up to a function of it is a program.
* `Tree.error_at_problem`: which error comes of a token that is no lexeme.
-/
namespace StackLang

open Grammar

/-! ## The place of an error -/

namespace SyntaxError

variable {e : SyntaxError} {before : List Token} {t : Token}

theorem Explains.concerns (h : e.Explains before t) : e.Concerns t := by
  cases e with
  | invalidEscape escape => exact ⟨h.1, Token.span_of_unescaped h.2⟩
  | _ => exact h.1

theorem Concerns.start_le (h : e.Concerns t) : t.span.start ≤ e.span.start := by
  cases e with
  | invalidEscape escape => exact Nat.le_of_lt h.2.1
  | _ =>
    cases h
    exact Nat.le_refl _

theorem Concerns.lt_stop (h : e.Concerns t) (ht : t.span.start < t.span.stop) :
    e.span.start < t.span.stop := by
  cases e with
  | invalidEscape escape => exact Nat.lt_trans h.2.2.1 h.2.2.2
  | _ =>
    cases h
    exact ht

/-- An error is about one place of a source only. -/
theorem Concerns.eq_nil {source : String} {mid rest : List Token}
    (hscan : before ++ (mid ++ rest) = Token.scan source)
    (h : e.Concerns ((mid ++ rest).headD (.endOfFile (byteLength source.toList))))
    (h' : e.Concerns (rest.headD (.endOfFile (byteLength source.toList)))) : mid = [] := by
  cases mid with
  | nil => rfl
  | cons t mid =>
    have hordered := (Token.tiles_scanFrom 0 source.toList).ordered
    rw [← Token.scan, ← hscan, ← List.append_assoc, List.map_append, Nat.zero_add] at hordered
    obtain ⟨middle, hbefore, hrest⟩ := Span.ordered_append.1 hordered
    obtain ⟨-, hlt, hstop⟩ := hbefore.mem (List.mem_map_of_mem (by simp : t ∈ before ++ t :: mid))
    have hstart : middle ≤ (rest.headD (.endOfFile (byteLength source.toList))).span.start := by
      cases rest with
      | nil => exact hrest
      | cons => exact hrest.1
    have := h.lt_stop hlt
    have := h'.start_le
    rw [List.cons_append, List.headD_cons] at *
    omega

end SyntaxError

/-- What is wrong with a source that is no program is wrong with its first token that no program has
there, or with its end. -/
theorem Tree.exists_explained_refused {source : String} {e : SyntaxError}
    (h : ofSource source = .error e) : ∃ before rest, before ++ rest = Token.scan source ∧
      Viable (.many .declaration) before ∧
      e.Explains before (rest.headD (.endOfFile (byteLength source.toList))) ∧
      ∀ size rest', rest'.head? = rest.head? → ∃ e', ofTokens size (before ++ rest') = .error e' := by
  obtain ⟨before, rest, hscan, hconcerns, hviable, hagain⟩ := Parser.exists_refused h
  obtain ⟨before', rest', hscan', hexplains⟩ := explained_of_ofTokens h
  -- both places are that of the error, and there is only one such place
  have hsame : before' = before ∧ rest' = rest := by
    rw [hscan] at hscan'
    obtain ⟨mid, rfl, rfl⟩ | ⟨mid, rfl, rfl⟩ := List.append_eq_append_iff.1 hscan'
    · obtain rfl := hexplains.concerns.eq_nil (hscan'.trans hscan.symm) hconcerns
      exact ⟨(List.append_nil _).symm, rfl⟩
    · obtain rfl := hconcerns.eq_nil hscan.symm hexplains.concerns
      exact ⟨List.append_nil _, rfl⟩
  obtain ⟨rfl, rfl⟩ := hsame
  exact ⟨before', rest', hscan.symm, hviable, hexplains, hagain⟩

/-- A token that no phrase has is where the parser stops, if it gets there. -/
theorem Tree.explained_of_not_known {source : String} {e : SyntaxError} {before rest : List Token}
    {t : Token} (h : ofSource source = .error e) (hscan : Token.scan source = before ++ t :: rest)
    (hbefore : Viable (.many .declaration) before) (ht : ¬ Known t.kind) : e.Explains before t := by
  obtain ⟨before', rest', hscan', hbefore', hexplains, hagain⟩ := exists_explained_refused h
  rw [hscan] at hscan'
  obtain ⟨mid, rfl, rfl⟩ | ⟨mid, rfl, hrest⟩ := List.append_eq_append_iff.1 hscan'
  · cases mid with
    | nil => rwa [List.append_nil]
    | cons t' mid =>
      -- the parser stops at `t'` whatever follows, but a program goes on with it
      obtain ⟨more, -, d, hd, hv⟩ := hbefore
      obtain ⟨e', he'⟩ := hagain 0 (t' :: (mid ++ more)) rfl
      rw [← List.cons_append, ← List.append_assoc, ← hd, Parser.ofTokens_tokens d hv] at he'
      cases he'
  · cases mid with
    | nil =>
      subst hrest
      rwa [List.append_nil] at hexplains
    | cons t' mid =>
      -- the parser has passed `t`, which no program has
      obtain ⟨rfl, -⟩ := List.cons.inj hrest
      obtain ⟨more, -, d, hd, -⟩ := hbefore'
      exact absurd (d.known t (by simp [hd])) ht

theorem SyntaxError.Explains.eq_of_not_known {e : SyntaxError} {before : List Token} {t : Token}
    (h : e.Explains before t) (hopens : ¬ OpensFunction before) (ht : ¬ Known t.kind) :
    e = if t.kind = .unknown then .unknownCharacter t else .unterminatedString t := by
  cases e with
  | expected => exact absurd h.2.1 ht
  | expectedExpression | expectedDeclaration => exact absurd h.2 ht
  | functionParameters => exact absurd h.2.2 hopens
  | unknownCharacter token =>
    obtain ⟨rfl, hkind⟩ := h
    rw [if_pos hkind]
  | unterminatedString token =>
    obtain ⟨rfl, hkind⟩ := h
    exact (if_neg fun hunknown => absurd (hkind.symm.trans hunknown) (by decide)).symm
  | invalidEscape => exact absurd (h.1 ▸ by decide) ht
  | integerTooLarge => exact absurd (h.2 ▸ by decide) ht

/-! ## Programs up to a function -/

namespace Grammar

/-- What stands inside declarations. -/
def Category.IsInner : Category → Prop
  | item .declaration | many .declaration => False
  | _ => True

/-- No function stands inside a declaration. -/
theorem Phrase.ne_funWord {c : Category} (d : Phrase c) (hc : c.IsInner) :
    ∀ t ∈ d.tokens, t.kind ≠ .funWord := by
  induction d with
  | nil | absent => exact List.forall_mem_nil _
  | @cons i first others ih ihs =>
    have hinner : (Category.item i).IsInner := by
      cases i with
      | declaration => exact hc
      | _ => trivial
    exact List.forall_mem_append.2 ⟨ih hinner, ihs hc⟩
  | link operator known right ih =>
    exact List.forall_mem_cons.2 ⟨Level.ne_of_mem known (by decide), ih trivial⟩
  | compared left operator known right ihl ihr =>
    have hoperator : operator.kind ≠ .funWord := fun h => absurd (h ▸ known) (by decide)
    exact List.forall_mem_append.2 ⟨ihl trivial, List.forall_mem_cons.2 ⟨hoperator, ihr trivial⟩⟩
  | function | global => exact hc.elim
  | _ =>
    simp only [tokens, List.forall_mem_append, List.forall_mem_cons, Terminal.kind_eq]
    simp only [Category.IsInner, true_imp_iff] at *
    and_intros <;> first | assumption | decide

theorem Phrase.ne_funWord_of_mem_tail (d : Phrase (.item .declaration)) :
    ∀ t ∈ d.tokens.tail, t.kind ≠ .funWord := by
  cases d with
  | function keyword callee opening closing body =>
    simp only [tokens, List.tail_cons, List.forall_mem_cons, Terminal.kind_eq]
    exact ⟨by decide, by decide, by decide, body.ne_funWord trivial⟩
  | global inner => exact fun t ht => inner.ne_funWord trivial t (List.mem_of_mem_tail ht)

/-- A program up to a function of it is a program. -/
theorem Phrase.exists_split {before later : List Token} {t : Token} (ht : t.kind = .funWord) :
    ∀ d : Grammar.Program, d.Valid → d.tokens = before ++ t :: later →
      ∃ d' : Grammar.Program, d'.tokens = before ∧ d'.Valid
  | .nil, _, h => by
    rw [tokens] at h
    exact absurd h.symm (List.append_ne_nil_of_right_ne_nil _ (List.cons_ne_nil _ _))
  | .cons first others, hv, h => by
    rw [tokens] at h
    obtain ⟨middle, rfl, hothers⟩ | ⟨middle, hfirst, hlater⟩ := List.append_eq_append_iff.1 h
    · obtain ⟨d, rfl, hd⟩ := exists_split ht others hv.2 hothers
      exact ⟨.cons first d, rfl, hv.1, hd⟩
    · cases before with
      | nil => exact ⟨.nil, rfl, trivial⟩
      | cons t' before =>
        cases middle with
        | nil => exact ⟨.cons first .nil, by simpa using hfirst, hv.1, trivial⟩
        | cons t'' middle =>
          -- a function does not start in the middle of a declaration
          obtain ⟨rfl, -⟩ := List.cons.inj hlater
          exact absurd ht (first.ne_funWord_of_mem_tail t (by simp [hfirst]))

end Grammar

/-! ## Parameters -/

namespace Parser

variable {size n k : Nat} {rest : List Token} {e : SyntaxError}

/-- Declarations are read up to one that is wrong. -/
theorem many_declaration_error (hstart : firstKind rest = .funWord)
    (he : declaration n (.endOfFile size) rest = .error e) (d : Grammar.Program) (hv : d.Valid)
    (hn : d.tokens.length + rest.length ≤ n) (hk : d.tokens.length + rest.length ≤ k) :
    many (· ≠ .endOfFile) (declaration n) k (.endOfFile size) (d.tokens ++ rest) = .error e := by
  induction k generalizing d with
  | zero =>
    rw [List.length_eq_zero_iff.1 (Nat.le_zero.1 (Nat.le_trans (Nat.le_add_left ..) hk))] at hstart
    cases hstart
  | succ k ih =>
    rw [many, peek_bind, kind_headD]
    cases d with
    | nil =>
      rw [Phrase.tokens, List.nil_append, hstart, if_pos (decide_eq_true (by decide)),
        bind_apply, he]
    | cons first others =>
      have hpos := first.length_pos trivial
      simp only [Phrase.tokens, List.append_assoc, List.length_append] at hn hk ⊢
      have hfirst : firstKind (first.tokens ++ (others.tokens ++ rest)) ≠ .endOfFile := by
        have hmem := first.firstKind_mem trivial (others.tokens ++ rest)
        exact fun h => absurd (h ▸ hmem) (by decide)
      rw [if_pos (decide_eq_true hfirst), complete_declaration.bind _ hv.1
        (by rw [List.length_append]; omega) List.not_mem_nil, bind_apply,
        ih others hv.2 (by omega) (by omega)]

theorem declaration_parameters (keyword : Terminal .funWord) (callee : Terminal .identifier)
    (opening : Terminal .leftParen) {t : Token} (ht : t.kind ≠ .rightParen) :
    declaration n (.endOfFile size) (keyword.1 :: callee.1 :: opening.1 :: t :: rest) =
      .error (.functionParameters t) := by
  have hfunction : function n (.endOfFile size) (keyword.1 :: callee.1 :: opening.1 :: t :: rest) =
      .error (.functionParameters t) := by
    rw [function, expect_bind, expect_bind, expect_bind, peek_bind, List.headD_cons, if_pos ht]
    rfl
  rw [declaration, peek_bind, List.headD_cons, keyword.2]
  change (function n >>= fun f => pure (Declaration.function f)) _ _ = _
  rw [bind_apply, hfunction]

/-- What is not the closing parenthesis after the opening one of a function is refused as a parameter. -/
theorem ofTokens_parameters {before : List Token} {t : Token} (hbefore : Viable (.many .declaration) before)
    (hopens : OpensFunction before) (ht : t.kind ≠ .rightParen) :
    Tree.ofTokens size (before ++ t :: rest) = .error (.functionParameters t) := by
  obtain ⟨init, hinit⟩ := hopens
  obtain ⟨init, later, rfl, hinit, hlater⟩ := List.map_eq_append_iff.1 hinit.symm
  obtain ⟨keyword, later, rfl, hkeyword, hlater⟩ := List.map_eq_cons_iff.1 hlater
  obtain ⟨callee, later, rfl, hcallee, hlater⟩ := List.map_eq_cons_iff.1 hlater
  obtain ⟨opening, later, rfl, hopening, hlater⟩ := List.map_eq_cons_iff.1 hlater
  obtain rfl := List.map_eq_nil_iff.1 hlater
  obtain ⟨more, -, d, hd, hv⟩ := hbefore
  rw [List.append_assoc, List.cons_append] at hd
  obtain ⟨d', rfl, hv'⟩ := d.exists_split hkeyword hv hd
  have hdeclaration (n : Nat) : declaration n (.endOfFile size)
      (keyword :: callee :: opening :: t :: rest) = .error (.functionParameters t) :=
    declaration_parameters ⟨keyword, hkeyword⟩ ⟨callee, hcallee⟩ ⟨opening, hopening⟩ ht
  have hstart : firstKind (keyword :: callee :: opening :: t :: rest) = .funWord := hkeyword
  refine Effect.except_map_eq_error.2 ?_
  rw [program, bind_apply, List.append_assoc]
  have hread := many_declaration_error hstart (hdeclaration _) d' hv'
    (Nat.le_of_eq List.length_append.symm) (Nat.le_of_eq List.length_append.symm)
  simp only [List.cons_append, List.nil_append, hread]

end Parser

/-! ## Problem tokens -/

/-- A program can be cut off anywhere and completed again. -/
theorem Grammar.viable_of_ofSource {source : String} {t : Tree} {before more : List Token}
    (h : Tree.ofSource source = .ok t) (hscan : Token.scan source = before ++ more) :
    Viable (.many .declaration) before := by
  obtain ⟨d, hd, -, hknown, hv, -⟩ := (Tree.ofSource_eq_ok_iff source t).1 h
  refine ⟨more, fun token htoken => ?_, d, hd.trans hscan, hv⟩
  have hmem : token ∈ Token.scan source := by simp [hscan, htoken]
  obtain hform | ⟨hunknown, -⟩ := (Token.tiles_scanFrom 0 source.toList).spells hmem
  · exact hform
  · exact absurd hunknown (hknown token hmem).1

/-- A token that is no lexeme of the language, at the first place where the parser can stop, is what the
error is about and what it names, but for one place: directly after the opening parenthesis of a function
it is refused as a parameter. Other errors are about other tokens, and say what is wrong with them. -/
theorem Tree.error_at_problem (source : String) :
    (∀ e, ofSource source = .error e → ∃ before rest, before ++ rest = Token.scan source ∧
      Viable (.many .declaration) before ∧
      e.Explains before (rest.headD (.endOfFile (byteLength source.toList)))) ∧
    ∀ before t rest, Token.scan source = before ++ t :: rest → Viable (.many .declaration) before →
      ¬ Known t.kind → ofSource source = .error
        (if OpensFunction before then .functionParameters t
          else if t.kind = .unknown then .unknownCharacter t else .unterminatedString t) := by
  constructor
  · intro e h
    obtain ⟨before, rest, hscan, hviable, hexplains, -⟩ := exists_explained_refused h
    exact ⟨before, rest, hscan, hviable, hexplains⟩
  · intro before t rest hscan hbefore ht
    split
    · rename_i hopens
      rw [ofSource, hscan]
      exact Parser.ofTokens_parameters hbefore hopens fun hkind => ht (by rw [hkind]; decide)
    · rename_i hopens
      cases hread : ofSource source with
      | ok tree =>
        obtain ⟨-, -, -, hknown, -, -⟩ := (ofSource_eq_ok_iff source tree).1 hread
        exact absurd (hknown t (by simp [hscan])) ht
      | error e =>
        have hexplains := explained_of_not_known hread hscan hbefore ht
        exact congrArg Except.error (hexplains.eq_of_not_known hopens ht)

/-- A stray character where a value should be. -/
theorem Tree.stray_character_named :
    ofSource "let x = @;" = .error (.unknownCharacter ⟨.unknown, 8, "@"⟩) := by
  have hscan : Token.scan "let x = @;" = [⟨.letWord, 0, "let"⟩, ⟨.identifier, 4, "x"⟩,
      ⟨.equal, 6, "="⟩] ++ ⟨.unknown, 8, "@"⟩ :: [⟨.semicolon, 9, ";"⟩] := by decide +kernel
  have hwhole : Token.scan "let x = 3;" = [⟨.letWord, 0, "let"⟩, ⟨.identifier, 4, "x"⟩,
      ⟨.equal, 6, "="⟩] ++ [⟨.number, 8, "3"⟩, ⟨.semicolon, 9, ";"⟩] := by decide +kernel
  obtain ⟨t, hread⟩ : ∃ t, ofSource "let x = 3;" = .ok t := ⟨_, by rw [ofSource, hwhole]; rfl⟩
  exact (error_at_problem _).2 _ _ _ hscan (viable_of_ofSource hread hwhole) (by decide)

/-- A stray character where the parentheses of a function should close is not named as one. -/
theorem Tree.stray_parameter_not_named :
    ofSource "fun f(@" = .error (.functionParameters ⟨.unknown, 6, "@"⟩) ∧
      ¬ ∀ source before t rest, Token.scan source = before ++ t :: rest →
        Viable (.many .declaration) before →
        (t.kind = .unknown → ofSource source = .error (.unknownCharacter t)) ∧
        (t.kind = .unterminatedString → ofSource source = .error (.unterminatedString t)) := by
  have hscan : Token.scan "fun f(@" = [⟨.funWord, 0, "fun"⟩, ⟨.identifier, 4, "f"⟩,
      ⟨.leftParen, 5, "("⟩] ++ ⟨.unknown, 6, "@"⟩ :: [] := by decide +kernel
  have hwhole : Token.scan "fun f() \x7b \x7d" = [⟨.funWord, 0, "fun"⟩, ⟨.identifier, 4, "f"⟩,
      ⟨.leftParen, 5, "("⟩] ++ [⟨.rightParen, 6, ")"⟩, ⟨.leftCurly, 8, "\x7b"⟩,
      ⟨.rightCurly, 10, "\x7d"⟩] := by decide +kernel
  have hstray : ofSource "fun f(@" = .error (.functionParameters ⟨.unknown, 6, "@"⟩) := by
    rw [ofSource, hscan]
    rfl
  obtain ⟨t, hread⟩ : ∃ t, ofSource "fun f() \x7b \x7d" = .ok t :=
    ⟨_, by rw [ofSource, hwhole]; rfl⟩
  refine ⟨hstray, fun h => ?_⟩
  have hnamed := (h _ _ _ _ hscan (viable_of_ofSource hread hwhole)).1 rfl
  rw [hstray] at hnamed
  cases hnamed

end StackLang
