import StackLang.Proofs.Grammar.Reading
import StackLang.Proofs.Token.Tiling

/-!
# Readers that stop at the first token that fits nothing

A reader is prompt if it never takes a token in vain: what it has taken can be completed to a
phrase, and whether it goes on depends on the next token only. Where it stops with an error, it does
so whatever follows that token.

Most readers are told a number that the tokens left do not exceed. What follows may be longer, so
that a family of readers, one for each bound, is prompt as a whole.

Results:
* `PromptAt.bind`, `Prompt.bind`: prompt readers one after the other.
* `Prompt.expect`, `Prompt.accept`: tokens that have to be there, and tokens that may be missing.
* `prompt_many`: prompt readers repeated.
-/
namespace StackLang

/-- The error is about the token. A wrong escape is a part of a string between its quotes. -/
def SyntaxError.Concerns (e : SyntaxError) (t : Token) : Prop :=
  match e with
  | .expected _ received | .expectedExpression received | .expectedDeclaration received
  | .functionParameters received | .unknownCharacter received | .unterminatedString received
  | .integerTooLarge received => received = t
  | .invalidEscape escape => t.kind = .string ∧ t.span.start < escape.span.start ∧
    escape.span.start < escape.span.stop ∧ escape.span.stop < t.span.stop

namespace Grammar

/-! ## Beginnings of phrases -/

/-- Each token has a text of the form of its kind. -/
def Written (ts : List Token) : Prop := ∀ t ∈ ts, t.kind.Form t.text.toList

/-- The tokens are those of a phrase whose literals have values. -/
def Spelled (c : Category) (ts : List Token) : Prop := ∃ d : Phrase c, d.tokens = ts ∧ d.Valid

/-- There is a way to go on from the tokens to a phrase. -/
def Viable (c : Category) (ts : List Token) : Prop := ∃ more, Written more ∧ Spelled c (ts ++ more)

variable {c : Category} {kind : Token.Kind} {ts more : List Token}

theorem Spelled.viable (h : Spelled c ts) : Viable c ts :=
  ⟨[], List.forall_mem_nil _, by rwa [List.append_nil]⟩

theorem Viable.of_append (h : Viable c (ts ++ more)) (hmore : Written more) : Viable c ts := by
  obtain ⟨later, hlater, hspelled⟩ := h
  exact ⟨more ++ later, List.forall_mem_append.2 ⟨hmore, hlater⟩, by rwa [← List.append_assoc]⟩

/-- A phrase that could be part of another one, as far as it goes. -/
theorem Viable.inside {c₁ : Category} {before : List Token} (h : Viable c₁ ts)
    (hpart : ∀ d : Phrase c₁, d.Valid → Viable c (before ++ d.tokens)) : Viable c (before ++ ts) := by
  obtain ⟨more, hmore, d, hd, hv⟩ := h
  have hviable := hpart d hv
  rw [hd, ← List.append_assoc] at hviable
  exact hviable.of_append hmore

/-- A text of the form of a kind, if it is one that a phrase can have. -/
def sampleText : Token.Kind → String
  | .identifier => "x"
  | .number => "0"
  | .string => "\"\""
  | kind => kind.name

/-- A token of a kind. -/
def Terminal.sample (kind : Token.Kind) : Terminal kind := ⟨⟨kind, 0, sampleText kind⟩, rfl⟩

/-- The kinds of which no phrase has a token. -/
def outside : List Token.Kind := [.comment, .unterminatedString, .unknown, .endOfFile]

theorem form_sampleText (h : kind ∉ outside) : kind.Form (sampleText kind).toList := by
  cases kind with
  | identifier => exact ⟨⟨rfl, List.forall_mem_nil _⟩, by decide⟩
  | number => exact ⟨by decide, List.all_eq_true.1 rfl⟩
  | string => exact ⟨[], .nil, rfl⟩
  | comment | unterminatedString | unknown | endOfFile => exact absurd h (by decide)
  | _ => rfl

theorem written_sample (h : kind ∉ outside) : Written [(Terminal.sample kind).1] :=
  List.forall_mem_singleton.2 (form_sampleText h)

end Grammar

namespace Parser

open Grammar

variable {α β : Type} {c c₁ : Category} {before : List Token} {first? : Option Token} {t : Token}
  {m m' k k' : Nat} {p q : Nat → Parser α}

/-! ## Prompt readers -/

/-- What comes of reading tokens after the tokens `before`, which are of the same phrase: the phrase
is complete, or it can still be. Each reader of the family takes the same tokens as long as the next
one stays, if its bound is larger by `k` than the number of tokens. -/
inductive Ends (k : Nat) (c : Category) (before : List Token) (p : Nat → Parser α) (size : Nat)
    (ts : List Token) : Except SyntaxError (α × List Token) → Prop
  | ok {a : α} {pre rest : List Token} (split : pre ++ rest = ts)
    (spelled : Spelled c (before ++ pre))
    (again : ∀ {n size' rest'}, rest'.head? = rest.head? → (pre ++ rest').length + k ≤ n →
      p n (.endOfFile size') (pre ++ rest') = .ok (a, rest')) :
    Ends k c before p size ts (.ok (a, rest))
  | error {e : SyntaxError} {pre rest : List Token} (split : pre ++ rest = ts)
    (concerns : e.Concerns (rest.headD (.endOfFile size))) (viable : Viable c (before ++ pre))
    (again : ∀ {n size' rest'}, rest'.head? = rest.head? → (pre ++ rest').length + k ≤ n →
      ∃ e', p n (.endOfFile size') (pre ++ rest') = .error e') :
    Ends k c before p size ts (.error e)

/-- The readers are prompt on at most `m` tokens, of which this one is the first. -/
def PromptAt (first? : Option Token) (m k : Nat) (c : Category) (before : List Token)
    (p : Nat → Parser α) : Prop :=
  ∀ (n size : Nat) (ts : List Token), ts.head? = first? → ts.length ≤ m → ts.length + k ≤ n →
    Ends k c before p size ts (p n (.endOfFile size) ts)

/-- The readers are prompt on at most `m` tokens. -/
structure Prompt (m k : Nat) (c : Category) (before : List Token) (p : Nat → Parser α) : Prop where
  viable : Viable c before
  ends (first? : Option Token) : PromptAt first? m k c before p

/-- What comes of some tokens after others that are taken first. -/
theorem Ends.after (taken : List Token) (bound : Nat → Nat) {size : Nat} {ts : List Token}
    {r : Except SyntaxError (α × List Token)} (h : Ends k c (before ++ taken) q size ts r)
    (heq : ∀ {n size' ts'}, ts'.head? = ts.head? → (taken ++ ts').length + k' ≤ n →
      ts'.length + k ≤ bound n ∧
      p n (.endOfFile size') (taken ++ ts') = q (bound n) (.endOfFile size') ts') :
    Ends k' c before p size (taken ++ ts) r := by
  have hagain {n size' pre rest rest'} (split : pre ++ rest = ts) (hrest : rest'.head? = rest.head?)
      (hn : (taken ++ pre ++ rest').length + k' ≤ n) :
      (pre ++ rest').length + k ≤ bound n ∧ p n (.endOfFile size') (taken ++ pre ++ rest') =
        q (bound n) (.endOfFile size') (pre ++ rest') := by
    rw [List.append_assoc] at hn ⊢
    exact heq (by rw [← split, List.head?_append, List.head?_append, hrest]) hn
  cases h with
  | @ok a pre rest split spelled again =>
    refine .ok (by rw [List.append_assoc, split]) (by rwa [← List.append_assoc]) fun hrest hn => ?_
    obtain ⟨hbound, hp⟩ := hagain split hrest hn
    rw [hp, again hrest hbound]
  | @error e pre rest split concerns viable again =>
    refine .error (by rw [List.append_assoc, split]) concerns (by rwa [← List.append_assoc])
      fun hrest hn => ?_
    obtain ⟨hbound, hp⟩ := hagain split hrest hn
    rw [hp]
    exact again hrest hbound

/-! ## Bounds -/

theorem PromptAt.mono (h : PromptAt first? m k c before p) (hm : m' ≤ m) (hk : k ≤ k') :
    PromptAt first? m' k' c before p := by
  intro n size ts hfirst hlength hn
  have hends := h n size ts hfirst (Nat.le_trans hlength hm)
    (Nat.le_trans (Nat.add_le_add_left hk _) hn)
  rw [← List.append_nil before] at hends
  exact hends.after [] id fun _ hn => ⟨Nat.le_trans (Nat.add_le_add_left hk _) hn, rfl⟩

theorem Prompt.mono (h : Prompt m k c before p) (hm : m' ≤ m) (hk : k ≤ k') :
    Prompt m' k' c before p := ⟨h.viable, fun first? => (h.ends first?).mono hm hk⟩

/-- Larger bounds, told as smaller ones. -/
theorem PromptAt.shift (h : PromptAt first? m 0 c before p) (k : Nat) :
    PromptAt first? m k c before fun n => p (n - k) := by
  intro n size ts hfirst hlength hn
  have hends := h (n - k) size ts hfirst hlength (Nat.le_sub_of_add_le hn)
  rw [← List.append_nil before] at hends
  exact hends.after [] (· - k) fun _ hn => ⟨Nat.le_sub_of_add_le hn, rfl⟩

theorem Prompt.shift (h : Prompt m 0 c before p) (k : Nat) :
    Prompt m k c before fun n => p (n - k) :=
  ⟨h.viable, fun first? => (h.ends first?).shift k⟩

theorem PromptAt.zero : PromptAt (some t) 0 k c before p := by
  intro n size ts hfirst hlength
  rw [List.length_eq_zero_iff.1 (Nat.le_zero.1 hlength)] at hfirst
  cases hfirst

/-! ## One token -/

theorem Prompt.of_head (hviable : Viable c before) (hnil : PromptAt none m k c before p)
    (hcons : ∀ t, PromptAt (some t) m k c before p) : Prompt m k c before p := by
  refine ⟨hviable, fun first? => ?_⟩
  cases first? with
  | none => exact hnil
  | some t => exact hcons t

theorem Prompt.pure {a : α} (h : Spelled c before) :
    Prompt m k c before fun _ => Pure.pure a :=
  ⟨h.viable, fun _ _ _ _ _ _ _ => .ok (List.nil_append _) (by rwa [List.append_nil]) fun _ _ => rfl⟩

/-- Readers that do the same. -/
theorem PromptAt.congr (h : PromptAt first? m k c before q)
    (heq : ∀ {n size ts}, ts.head? = first? → ts.length + k ≤ n →
      p n (.endOfFile size) ts = q n (.endOfFile size) ts) : PromptAt first? m k c before p := by
  intro n size ts hfirst hlength hn
  have hends := h n size ts hfirst hlength hn
  rw [← heq hfirst hn, ← List.append_nil before] at hends
  exact hends.after [] id fun hhead hn => ⟨hn, heq (hhead.trans hfirst) hn⟩

/-- Nothing is taken where the next token is refused. -/
theorem PromptAt.stop (hviable : Viable c before)
    (h : ∀ {n size ts}, ts.head? = first? →
      ∃ e, p n (.endOfFile size) ts = .error e ∧ e.Concerns (first?.getD (.endOfFile size))) :
    PromptAt first? m k c before p := by
  intro n size ts hfirst hlength hn
  obtain ⟨e, he, hconcerns⟩ : ∃ e, p n (.endOfFile size) ts = .error e ∧
    e.Concerns (first?.getD (.endOfFile size)) := h hfirst
  rw [← hfirst, ← List.headD_eq_head?_getD] at hconcerns
  rw [he]
  refine .error (List.nil_append _) hconcerns (by rwa [List.append_nil]) fun hhead _ => ?_
  obtain ⟨e', he', -⟩ := h (hhead.trans hfirst)
  exact ⟨e', he'⟩

/-- The next token is taken. -/
theorem PromptAt.take (h : Prompt m (k + 1) c (before ++ [t]) q)
    (heq : ∀ {n size ts}, k < n → p n (.endOfFile size) (t :: ts) = q n (.endOfFile size) ts) :
    PromptAt (some t) (m + 1) k c before p := by
  intro n size ts hfirst hlength hn
  obtain ⟨ts, rfl⟩ := List.head?_eq_some_iff.1 hfirst
  rw [List.length_cons] at hlength hn
  have hends := h.ends _ n size ts rfl (by omega) (by omega)
  rw [heq (by omega)]
  refine hends.after [t] id fun _ hn => ?_
  rw [List.singleton_append, List.length_cons] at hn
  exact ⟨by simp only [id]; omega, heq (by omega)⟩

/-- Where a phrase can start with the token, the readers do not stop before they have taken it. -/
theorem PromptAt.drop {n : Nat} {size : Nat} {ts : List Token} {a : α}
    (h : PromptAt (some t) (m + 1) k c before p) (hn : (t :: ts).length + k ≤ n)
    (hread : p n (.endOfFile size) (t :: ts) = .ok (a, [])) :
    PromptAt first? m (k + 1) c (before ++ [t]) fun n eof ts => p n eof (t :: ts) := by
  intro n' size' ts' _ hlength hn'
  have hends := h n' size' (t :: ts') rfl (Nat.succ_le_succ hlength)
    (by rw [List.length_cons]; omega)
  change Ends (k + 1) c (before ++ [t]) _ size' ts' (p n' (.endOfFile size') (t :: ts'))
  generalize p n' (.endOfFile size') (t :: ts') = r at hends ⊢
  cases hends with
  | @ok a pre rest split spelled again =>
    cases pre with
    | nil =>
      subst split
      cases hread.symm.trans (again rfl hn)
    | cons t' pre =>
      rw [List.cons_append] at split
      obtain ⟨rfl, hsplit⟩ := List.cons.inj split
      exact .ok hsplit (by simpa using spelled) fun hhead hn =>
        again hhead (by rw [List.cons_append, List.length_cons]; omega)
  | @error e pre rest split concerns viable again =>
    cases pre with
    | nil =>
      subst split
      obtain ⟨e', he'⟩ : ∃ e', p n (.endOfFile size) (t :: ts) = .error e' := again rfl hn
      cases hread.symm.trans he'
    | cons t' pre =>
      rw [List.cons_append] at split
      obtain ⟨rfl, hsplit⟩ := List.cons.inj split
      exact .error hsplit concerns (by simpa using viable) fun hhead hn =>
        again hhead (by rw [List.cons_append, List.length_cons]; omega)

theorem PromptAt.next_first {f : Nat → Token → Parser β}
    (h : Prompt m (k + 1) c (before ++ [t]) fun n => f n t) :
    PromptAt (some t) (m + 1) k c before fun n => Parser.next >>= f n :=
  .take h fun _ => rfl

theorem PromptAt.next {f : Nat → Token → Parser β}
    (h : Prompt m k c (before ++ [t]) fun n => f n t) :
    PromptAt (some t) m k c before fun n => Parser.next >>= f n :=
  (next_first (h.mono (Nat.le_refl m) (Nat.le_succ k))).mono (Nat.le_succ m) (Nat.le_refl k)

/-- An error about the token that has just been taken. -/
theorem PromptAt.next_fail {e : SyntaxError} (hviable : Viable c before) (h : e.Concerns t) :
    PromptAt (some t) m k c before fun _ => Parser.next >>= fun _ => (fail e : Parser α) :=
  .stop hviable fun _ => ⟨e, rfl, h⟩

theorem PromptAt.peek {f : Nat → Token → Parser β}
    (h : PromptAt (some t) m k c before fun n => f n t) :
    PromptAt (some t) m k c before fun n => Parser.peek >>= f n := by
  refine h.congr fun {n size ts} hfirst _ => ?_
  obtain ⟨ts, rfl⟩ := List.head?_eq_some_iff.1 hfirst
  rfl

/-- The next token is looked at, or that which is shown at the end. -/
theorem Prompt.peek {f : Nat → Token → Parser β} (hviable : Viable c before)
    (hnil : PromptAt none m k c before fun n eof => f n eof eof)
    (hcons : ∀ t, PromptAt (some t) m k c before fun n => f n t) :
    Prompt m k c before fun n => Parser.peek >>= f n := by
  refine .of_head hviable (hnil.congr fun hfirst _ => ?_) fun t => (hcons t).peek
  rw [List.head?_eq_none_iff.1 hfirst]
  rfl

/-! ## One reader after the other -/

theorem PromptAt.bind [Inhabited α] {f : Nat → α → Parser β} (hp : PromptAt first? m k c₁ [] p)
    (hf : ∀ (a : α) (d : Phrase c₁), d.Valid →
      Prompt (m - d.tokens.length) (k + d.tokens.length) c (before ++ d.tokens) fun n => f n a) :
    PromptAt first? m k c before fun n => p n >>= f n := by
  intro n size ts hfirst hlength hn
  have hends := hp n size ts hfirst hlength hn
  change Ends k c before _ size ts ((p n >>= f n) (.endOfFile size) ts)
  rw [bind_apply]
  generalize p n (.endOfFile size) ts = r at hends ⊢
  cases hends with
  | @error e pre rest split concerns viable again =>
    refine .error split concerns (viable.inside fun d hv => (hf default d hv).viable)
      fun hhead hn => ?_
    obtain ⟨e', he'⟩ := again hhead hn
    exact ⟨e', by rw [bind_apply, he']⟩
  | @ok a pre rest split spelled again =>
    obtain ⟨d, rfl, hv⟩ := spelled
    subst split
    simp only [List.length_append] at hlength hn ⊢
    have hends := (hf a d hv).ends _ n size rest rfl (by omega) (by omega)
    refine hends.after d.tokens id fun {n size' ts'} hhead hn => ⟨?_, ?_⟩
    · rw [List.length_append] at hn
      simp only [id]
      omega
    · rw [bind_apply, again hhead hn]
      rfl

theorem Prompt.bind [Inhabited α] {f : Nat → α → Parser β} (hp : Prompt m k c₁ [] p)
    (hf : ∀ (a : α) (d : Phrase c₁), d.Valid → Prompt m k c (before ++ d.tokens) fun n => f n a) :
    Prompt m k c before fun n => p n >>= f n := by
  refine ⟨?_, fun first? => (hp.ends first?).bind fun a d hv =>
    (hf a d hv).mono (Nat.sub_le _ _) (Nat.le_add_right _ _)⟩
  have hviable := hp.viable.inside fun d hv => (hf default d hv).viable
  rwa [List.append_nil] at hviable

/-- A value that is turned into another one. -/
theorem PromptAt.map (g : α → β) (hp : PromptAt first? m k c before p) :
    PromptAt first? m k c before fun n => g <$> p n := by
  intro n size ts hfirst hlength hn
  have hends := hp n size ts hfirst hlength hn
  change Ends k c before _ size ts ((p n >>= fun a => Pure.pure (g a)) (.endOfFile size) ts)
  rw [bind_apply]
  generalize p n (.endOfFile size) ts = r at hends ⊢
  cases hends with
  | ok split spelled again =>
    exact .ok split spelled fun hhead hn => map_eq_ok_iff.2 ⟨_, again hhead hn, rfl⟩
  | error split concerns viable again =>
    refine .error split concerns viable fun {n size' rest'} hhead hn => ?_
    obtain ⟨e', he'⟩ := again hhead hn
    refine ⟨e', ?_⟩
    change (p n >>= fun a => Pure.pure (g a)) _ _ = _
    rw [bind_apply, he']

theorem Prompt.map (g : α → β) (hp : Prompt m k c before p) :
    Prompt m k c before fun n => g <$> p n :=
  ⟨hp.viable, fun first? => (hp.ends first?).map g⟩

/-- Phrases that are, with what stands before them, phrases of another category. -/
theorem PromptAt.wrap [Inhabited α] (hp : PromptAt first? m k c₁ [] p)
    (hd : ∀ d : Phrase c₁, d.Valid → Spelled c (before ++ d.tokens)) :
    PromptAt first? m k c before p := by
  refine (hp.bind fun a d hv => Prompt.pure (a := a) (hd d hv)).congr fun {n size ts} _ _ => ?_
  rw [bind_apply]
  cases p n (.endOfFile size) ts <;> rfl

theorem Prompt.wrap [Inhabited α] (hp : Prompt m k c₁ [] p)
    (hd : ∀ d : Phrase c₁, d.Valid → Spelled c (before ++ d.tokens)) : Prompt m k c before p := by
  refine ⟨?_, fun first? => (hp.ends first?).wrap hd⟩
  have hviable := hp.viable.inside fun d hv => (hd d hv).viable
  rwa [List.append_nil] at hviable

/-! ## Tokens that are looked for -/

theorem firstKind_of_head? {ts : List Token} (h : ts.head? = first?) :
    firstKind ts = firstKind first?.toList := by
  subst h
  cases ts <;> rfl

/-- A token that is refused is the one that the error is about. -/
theorem exists_refuse (error : Token → SyntaxError) (herror : ∀ t, (error t).Concerns t)
    (t : Token) : ∃ e, (refuse error t : Parser α) = fail e ∧ e.Concerns t := by
  unfold refuse
  split
  · exact ⟨_, rfl, rfl⟩
  · exact ⟨_, rfl, rfl⟩
  · exact ⟨_, rfl, herror t⟩

theorem PromptAt.refuse (error : Token → SyntaxError) (herror : ∀ t, (error t).Concerns t)
    (hviable : Viable c before) (h : ∀ {n size ts}, ts.head? = first? → p n (.endOfFile size) ts =
      Parser.refuse error (first?.getD (.endOfFile size)) (.endOfFile size) ts) :
    PromptAt first? m k c before p := by
  refine .stop hviable fun {n size ts} hhead => ?_
  obtain ⟨e, he, hconcerns⟩ := exists_refuse (α := α) error herror (first?.getD (.endOfFile size))
  exact ⟨e, by rw [h hhead, he]; rfl, hconcerns⟩

variable {kind : Token.Kind}

/-- A token of a kind has to be there, and then there are fewer left. -/
theorem Prompt.expect_first {f : Nat → Token → Parser β} (hkind : kind ∉ outside)
    (h : ∀ t : Terminal kind, Prompt m (k + 1) c (before ++ [t.1]) fun n => f n t.1) :
    Prompt (m + 1) k c before fun n => Parser.expect kind >>= f n := by
  have hviable : Viable c before := (h (.sample kind)).viable.of_append (written_sample hkind)
  refine ⟨hviable, fun first? => ?_⟩
  by_cases hfirst : firstKind first?.toList = kind
  · cases first? with
    | none => exact absurd (hfirst ▸ by decide) hkind
    | some t => exact .take (h ⟨t, hfirst⟩) fun _ => expect_bind ⟨t, hfirst⟩ _ _ _
  · refine .stop hviable fun {n size ts} hhead => ?_
    have hne : (ts.headD (.endOfFile size)).kind ≠ kind := by
      rwa [kind_headD, firstKind_of_head? hhead]
    obtain ⟨e, he, hconcerns⟩ :=
      exists_refuse (α := Token) (.expected kind) (fun _ => rfl) (ts.headD (.endOfFile size))
    rw [← hhead, ← List.headD_eq_head?_getD]
    refine ⟨e, ?_, hconcerns⟩
    rw [bind_apply, Parser.expect, peek_bind, if_neg hne, he]
    rfl

theorem Prompt.expect {f : Nat → Token → Parser β} (hkind : kind ∉ outside)
    (h : ∀ t : Terminal kind, Prompt m k c (before ++ [t.1]) fun n => f n t.1) :
    Prompt m k c before fun n => Parser.expect kind >>= f n :=
  (expect_first hkind fun t => (h t).mono (Nat.le_refl m) (Nat.le_succ k)).mono (Nat.le_succ m)
    (Nat.le_refl k)

/-- A token of a kind may be there. -/
theorem Prompt.accept {f : Nat → Bool → Parser β} (hkind : kind ∉ outside)
    (hyes : ∀ t : Terminal kind, Prompt m k c (before ++ [t.1]) fun n => f n true)
    (hno : Prompt m k c before fun n => f n false) :
    Prompt m k c before fun n => Parser.accept kind >>= f n := by
  refine ⟨hno.viable, fun first? => ?_⟩
  by_cases hfirst : firstKind first?.toList = kind
  · cases first? with
    | none => exact absurd (hfirst ▸ by decide) hkind
    | some t =>
      have hnext : PromptAt (some t) m k c before fun n => Parser.next >>= fun _ => f n true :=
        .next (hyes ⟨t, hfirst⟩)
      refine hnext.congr fun {n size ts} hhead _ => ?_
      obtain ⟨ts, rfl⟩ := List.head?_eq_some_iff.1 hhead
      exact accept_bind ⟨t, hfirst⟩ (f n) (.endOfFile size) ts
  · refine (hno.ends first?).congr fun {n size ts} hhead _ => accept_bind_of_ne ?_ (f n)
    rwa [firstKind_of_head? hhead]

/-! ## Repetition -/

theorem many_of_not_starts {starts : Token.Kind → Bool} {p : Parser α} {n size : Nat}
    {ts : List Token} (h : starts (firstKind ts) = false) :
    many starts p n (.endOfFile size) ts = .ok ([], ts) := by
  cases n with
  | zero => rfl
  | succ n =>
    rw [many, peek_bind, kind_headD, h]
    rfl

theorem prompt_many [Inhabited α] {i : Item} {starts : Token.Kind → Bool} {j : Nat} (hj : j ≤ k)
    (hend : starts .endOfFile = false)
    (hp : ∀ t, starts t.kind → PromptAt (some t) m k (.item i) [] p) :
    Prompt m k (.many i) [] fun n => many starts (p n) (n - j) := by
  have hnil : Spelled (.many i) [] := ⟨.nil, rfl, trivial⟩
  have hstop {m k j first?} (h : starts (firstKind first?.toList) = false) :
      PromptAt first? m k (.many i) [] fun n => many starts (p n) (n - j) := by
    refine ((Prompt.pure (a := []) hnil).ends first?).congr fun hhead _ => many_of_not_starts ?_
    rwa [firstKind_of_head? hhead]
  -- the number of turns left goes down no faster than that of tokens
  induction m generalizing j k with
  | zero => exact .of_head hnil.viable (hstop hend) fun _ => .zero
  | succ m ih =>
    refine .of_head hnil.viable (hstop hend) fun t => ?_
    cases hstarts : starts t.kind with
    | false => exact hstop hstarts
    | true =>
      have hmore : Prompt m (k + 1) (.many i) [] fun n => many starts (p n) (n - (j + 1)) :=
        ih (Nat.succ_le_succ hj) fun t ht => (hp t ht).mono (Nat.le_succ m) (Nat.le_succ k)
      have hboth : PromptAt (some t) (m + 1) k (.many i) [] fun n =>
          p n >>= fun a => many starts (p n) (n - (j + 1)) >>= fun others => pure (a :: others) := by
        refine (hp t hstarts).bind fun a d hv => ?_
        have hpos := d.length_pos trivial
        have hothers : Prompt m (k + 1) (.many i) ([] ++ d.tokens) fun n =>
            many starts (p n) (n - (j + 1)) >>= fun others => pure (a :: others) :=
          hmore.bind fun _ ds hvs => .pure ⟨.cons d ds, rfl, hv, hvs⟩
        exact hothers.mono (by omega) (by omega)
      refine hboth.congr fun {n size ts} hhead hn => ?_
      obtain ⟨ts, rfl⟩ := List.head?_eq_some_iff.1 hhead
      rw [List.length_cons] at hn
      rw [show n - j = n - (j + 1) + 1 by omega, many, peek_bind, List.headD_cons, if_pos hstarts]

end Parser
end StackLang
