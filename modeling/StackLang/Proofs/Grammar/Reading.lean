import StackLang.Proofs.Grammar.Follow

/-!
# What readers do at a token

Readers that look at a token, or take one, are run here on lists of tokens that end where a source
does. Whatever they are followed by is read from the tokens that they leave.

Results:
* `expect_bind`, `expect_bind_eq_ok`: what follows a token of a given kind.
* `accept_bind`, `accept_bind_eq_ok`: what follows a token that may be missing.
-/
namespace StackLang.Parser

open Grammar

variable {α β : Type} {size : Nat} {ts rest : List Token} {kind : Token.Kind} {b : β}

theorem kind_headD (size : Nat) (ts : List Token) :
    (ts.headD (.endOfFile size)).kind = firstKind ts := by
  cases ts <;> rfl

/-- A token of a kind, where there is one. -/
theorem exists_terminal (h : firstKind ts = kind) (hk : kind ≠ .endOfFile) :
    ∃ (t : Terminal kind) (ts' : List Token), ts = t.1 :: ts' := by
  cases ts with
  | nil => exact absurd h.symm hk
  | cons t ts => exact ⟨⟨t, h⟩, ts, rfl⟩

theorem peek_bind (f : Token → Parser β) (eof : Token) (ts : List Token) :
    (peek >>= f) eof ts = f (ts.headD eof) eof ts := rfl

theorem next_bind (f : Token → Parser β) (eof t : Token) (ts : List Token) :
    (next >>= f) eof (t :: ts) = f t eof ts := rfl

theorem peekSecond_bind (f : Token.Kind → Parser β) (size : Nat) (ts : List Token) :
    (peekSecond >>= f) (.endOfFile size) ts = f (firstKind ts.tail) (.endOfFile size) ts := by
  rw [← kind_headD size]; rfl

theorem map_eq_ok_iff {g : α → β} {p : Parser α} {eof : Token} :
    (g <$> p) eof ts = .ok (b, rest) ↔ ∃ a, p eof ts = .ok (a, rest) ∧ g a = b := by
  rw [show g <$> p = p >>= fun a => pure (g a) from rfl, bind_eq_ok_iff]
  constructor
  · rintro ⟨a, between, ha, h⟩
    cases h
    exact ⟨a, ha, rfl⟩
  · rintro ⟨a, ha, rfl⟩
    exact ⟨a, rest, ha, rfl⟩

theorem map_bind {γ : Type} (g : α → β) (p : Parser α) (f : β → Parser γ) (eof : Token) :
    (g <$> p >>= f) eof ts = (p >>= fun a => f (g a)) eof ts := by
  rw [show g <$> p = p >>= fun a => pure (g a) from rfl, bind_apply, bind_apply, bind_apply]
  cases p eof ts <;> rfl

/-- A token that is refused gives no value. -/
theorem refuse_ne_ok {error : Token → SyntaxError} {t eof : Token} {a : α} :
    (refuse error t : Parser α) eof ts ≠ .ok (a, rest) := by
  have hfail : ∃ e, (refuse error t : Parser α) = fail e := by
    unfold refuse
    split <;> exact ⟨_, rfl⟩
  obtain ⟨e, he⟩ := hfail
  rw [he]
  nofun

/-! ## Tokens that have to be there -/

theorem expect_bind (t : Terminal kind) (f : Token → Parser β) (eof : Token) (ts : List Token) :
    (expect kind >>= f) eof (t.1 :: ts) = f t.1 eof ts := by
  have h : expect kind eof (t.1 :: ts) = .ok (t.1, ts) := by
    rw [expect, peek_bind, List.headD_cons, if_pos t.2]; rfl
  rw [bind_apply, h]

theorem expect_bind_eq_ok {f : Token → Parser β}
    (h : (expect kind >>= f) (.endOfFile size) ts = .ok (b, rest)) (hk : kind ≠ .endOfFile) :
    ∃ (t : Terminal kind) (ts' : List Token), ts = t.1 :: ts' ∧
      f t.1 (.endOfFile size) ts' = .ok (b, rest) := by
  by_cases hkind : firstKind ts = kind
  · obtain ⟨t, ts', rfl⟩ := exists_terminal hkind hk
    rw [expect_bind] at h
    exact ⟨t, ts', rfl, h⟩
  · obtain ⟨a, between, ha, -⟩ := bind_eq_ok_iff.1 h
    rw [expect, peek_bind, kind_headD, if_neg hkind] at ha
    exact absurd ha refuse_ne_ok

/-! ## Tokens that may be missing -/

theorem accept_bind (t : Terminal kind) (f : Bool → Parser β) (eof : Token) (ts : List Token) :
    (accept kind >>= f) eof (t.1 :: ts) = f true eof ts := by
  have h : accept kind eof (t.1 :: ts) = .ok (true, ts) := by
    rw [accept, peek_bind, List.headD_cons, if_pos t.2]; rfl
  rw [bind_apply, h]

theorem accept_bind_of_ne (h : firstKind ts ≠ kind) (f : Bool → Parser β) :
    (accept kind >>= f) (.endOfFile size) ts = f false (.endOfFile size) ts := by
  have h : accept kind (.endOfFile size) ts = .ok (false, ts) := by
    rw [accept, peek_bind, kind_headD, if_neg h]; rfl
  rw [bind_apply, h]

theorem accept_bind_eq_ok {f : Bool → Parser β}
    (h : (accept kind >>= f) (.endOfFile size) ts = .ok (b, rest)) (hk : kind ≠ .endOfFile) :
    (∃ (t : Terminal kind) (ts' : List Token), ts = t.1 :: ts' ∧
      f true (.endOfFile size) ts' = .ok (b, rest)) ∨
      f false (.endOfFile size) ts = .ok (b, rest) := by
  by_cases hkind : firstKind ts = kind
  · obtain ⟨t, ts', rfl⟩ := exists_terminal hkind hk
    rw [accept_bind] at h
    exact .inl ⟨t, ts', rfl, h⟩
  · rw [accept_bind_of_ne hkind] at h
    exact .inr h

/-! ## Operators -/

theorem isComparison_iff : kind.isComparison ↔ kind ∈ comparisons := by
  cases kind <;> decide

/-- The test for the operators of a level. -/
def isOperator : Level → Token.Kind → Bool
  | .sum => Token.Kind.isAdditive
  | .product => Token.Kind.isMultiplicative

theorem isOperator_iff {level : Level} : isOperator level kind ↔ kind ∈ level.operators := by
  cases level <;> cases kind <;> decide

end StackLang.Parser
