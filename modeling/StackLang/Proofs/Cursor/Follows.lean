import StackLang.Proofs.Cursor.Reader
import StackLang.Proofs.Grammar.Standalone

/-!
# The position of a parser

A reader with a position follows the reader of the language that it is like: it gives the same value and
leaves the same tokens, or it stops with the same error. It does not end in any other way as long as it
has more turns than there are tokens left. Meanwhile its position goes on, but not past the last token, and
an error stands in the source.

Results:
* `followsAt_peek_bind`, `followsAt_next_bind`: looking at tokens and taking them.
* `followsAt_stringLiteral`: what stands between quotes.
-/
namespace StackLang

open Grammar

/-- The span is in the source, and stands between characters. -/
structure Span.Within (source : String) (s : Span) : Prop where
  le : s.start ≤ s.stop
  stop_le : s.stop ≤ byteLength source.toList
  text : (s.text? source).isSome

variable {source : String} {i : Nat}

/-! ## Tokens by their positions -/

/-- The token at a position, behind the last of which stands the end of the source. -/
def tokenAt (source : String) (i : Nat) : Token :=
  ((Token.scan source).drop i).headD (.endOfFile (byteLength source.toList))

theorem Token.within {t : Token} (ht : t ∈ Token.scan source) : t.span.Within source := by
  refine ⟨Nat.le_add_right _ _, (tiles_scanFrom 0 source.toList).stop_le ht, ?_⟩
  rw [(tiles_scanFrom 0 source.toList).text? ht]
  rfl

theorem tokenAt_of_lt (hi : i < (Token.scan source).length) :
    tokenAt source i ∈ Token.scan source ∧ (Token.scan source)[i]? = some (tokenAt source i) := by
  have hat : tokenAt source i = (Token.scan source)[i] := by
    rw [tokenAt, List.drop_eq_getElem_cons hi, List.headD_cons]
  rw [hat]
  exact ⟨List.getElem_mem hi, List.getElem?_eq_getElem hi⟩

theorem tokenAt_of_le (hi : (Token.scan source).length ≤ i) :
    tokenAt source i = .endOfFile (byteLength source.toList) := by
  rw [tokenAt, List.drop_eq_nil_of_le hi, List.headD_nil]

theorem drop_eq_cons (hi : i < (Token.scan source).length) :
    (Token.scan source).drop i = tokenAt source i :: (Token.scan source).drop (i + 1) := by
  rw [tokenAt, List.drop_eq_getElem_cons hi, List.headD_cons]

/-- Only the end of the source stands behind the last token. -/
theorem lt_of_kind_tokenAt (h : (tokenAt source i).kind ≠ .endOfFile) :
    i < (Token.scan source).length :=
  Nat.lt_of_not_le fun hi => h (congrArg Token.kind (tokenAt_of_le hi))

/-- The end of the source starts nothing. -/
theorem ne_endOfFile_of_starts {starts : Token.Kind → Bool} (hend : starts .endOfFile = false)
    {kind : Token.Kind} (h : starts kind) : kind ≠ .endOfFile := by
  intro heq
  rw [heq, hend] at h
  cases h

theorem tokenAt_within (source : String) (i : Nat) : (tokenAt source i).span.Within source := by
  by_cases hi : i < (Token.scan source).length
  · exact Token.within (tokenAt_of_lt hi).1
  · rw [tokenAt_of_le (Nat.le_of_not_lt hi)]
    exact ⟨Nat.le_refl _, Nat.le_refl _,
      Span.text?_of_prefix List.prefix_rfl List.prefix_rfl (Nat.le_refl _)⟩

namespace Cursor

variable {α β : Type} {m k : Nat} {x : Cursor α} {p : Parser α}

/-- From a position the reader does as the other one does from the tokens left there. It goes on by at
least so many tokens, if it does not stop with an error. -/
inductive FollowsAt (source : String) (m i : Nat) (x : Cursor α) (p : Parser α) : Prop where
  | ok {a : α} {j : Nat} (hx : x (.of source) i = .ok (a, j)) (hlo : i + m ≤ j)
    (hhi : j ≤ (Token.scan source).length)
    (hp : p (.endOfFile (byteLength source.toList)) ((Token.scan source).drop i) =
      .ok (a, (Token.scan source).drop j))
  | error {e : SyntaxError} (hx : x (.of source) i = .error (.refused e)) (he : e.span.Within source)
    (hp : p (.endOfFile (byteLength source.toList)) ((Token.scan source).drop i) = .error e)

theorem FollowsAt.mono (h : FollowsAt source m i x p) (hk : k ≤ m) : FollowsAt source k i x p := by
  cases h with
  | ok hx hlo hhi hp => exact .ok hx (Nat.le_trans (Nat.add_le_add_left hk i) hlo) hhi hp
  | error hx he hp => exact .error hx he hp

/-- Readers that do the same first, for which the position goes on. -/
theorem FollowsAt.advance {j : Nat} {x' : Cursor α} {p' : Parser α} (h : FollowsAt source m j x' p')
    (hx : x (.of source) i = x' (.of source) j)
    (hp : p (.endOfFile (byteLength source.toList)) ((Token.scan source).drop i) =
      p' (.endOfFile (byteLength source.toList)) ((Token.scan source).drop j))
    (hij : i + k ≤ j + m) : FollowsAt source k i x p := by
  cases h with
  | ok hx' hlo hhi hp' => exact .ok (hx.trans hx') (Nat.le_trans hij hlo) hhi (hp.trans hp')
  | error hx' he hp' => exact .error (hx.trans hx') he (hp.trans hp')

theorem FollowsAt.congr {x' : Cursor α} {p' : Parser α} (h : FollowsAt source m i x' p')
    (hx : x (.of source) i = x' (.of source) i)
    (hp : p (.endOfFile (byteLength source.toList)) ((Token.scan source).drop i) =
      p' (.endOfFile (byteLength source.toList)) ((Token.scan source).drop i)) :
    FollowsAt source m i x p := h.advance hx hp (Nat.le_refl _)

theorem FollowsAt.bind {f : α → Cursor β} {g : α → Parser β} (h : FollowsAt source m i x p)
    (hf : ∀ a j, i + m ≤ j → j ≤ (Token.scan source).length → FollowsAt source 0 j (f a) (g a)) :
    FollowsAt source m i (x >>= f) (p >>= g) := by
  cases h with
  | @ok a j hx hlo hhi hp =>
    exact (hf a j hlo hhi).advance (by rw [bind_apply, hx]) (by rw [Parser.bind_apply, hp]) hlo
  | error hx he hp =>
    exact .error (by rw [bind_apply, hx]) he (by rw [Parser.bind_apply, hp])

/-- As in `bind`, where it does not matter how far the position goes on. -/
theorem FollowsAt.andThen {f : α → Cursor β} {g : α → Parser β} (h : FollowsAt source m i x p)
    (hf : ∀ a j, i + m ≤ j → j ≤ (Token.scan source).length → FollowsAt source 0 j (f a) (g a)) :
    FollowsAt source 0 i (x >>= f) (p >>= g) := (h.bind hf).mono (Nat.zero_le m)

theorem followsAt_pure (hi : i ≤ (Token.scan source).length) (a : α) :
    FollowsAt source 0 i (pure a) (pure a) := .ok rfl (Nat.le_refl i) hi rfl

theorem FollowsAt.map (h : FollowsAt source m i x p) (f : α → β) :
    FollowsAt source m i (f <$> x) (f <$> p) := h.bind fun a _ _ hj => followsAt_pure hj (f a)

theorem followsAt_fail {e : SyntaxError} (he : e.span.Within source) :
    FollowsAt source m i (fail e : Cursor α) (Parser.fail e) := .error rfl he rfl

theorem followsAt_refuse {error : Token → SyntaxError} (herror : ∀ t, (error t).span = t.span)
    {t : Token} (ht : t.span.Within source) :
    FollowsAt source m i (refuse error t : Cursor α) (Parser.refuse error t) := by
  have herror' : (error t).span.Within source := herror t ▸ ht
  obtain ⟨kind, start, text⟩ := t
  cases kind with
  | unterminatedString | unknown => exact followsAt_fail ht
  | _ => exact followsAt_fail herror'

/-! ## Looking at tokens and taking them -/

theorem places_eq (source : String) :
    (Sheet.of source).places = (Token.scan source).map fun t => (t.kind, t.span) :=
  (Token.scan_covers source).2.1

theorem length_places (source : String) :
    (Sheet.of source).places.length = (Token.scan source).length := by
  rw [places_eq, List.length_map]

theorem getElem?_places (source : String) (i : Nat) : (Sheet.of source).places[i]? =
    (Token.scan source)[i]?.map fun t => (t.kind, t.span) := by
  rw [places_eq, List.getElem?_map]

section

variable (hsize : IsShort source)
include hsize

theorem fits_of_within {s : Span} (h : s.Within source) : fits s = true := by
  have hstop := h.stop_le
  have hbytes : byteLength source.toList < 0xFFFFFFFF := hsize
  exact decide_eq_true (by omega)

/-- The text of a token can be cut out of the source. -/
theorem cut_token {t : Token} (ht : t ∈ Token.scan source) : cut source t.kind t.span = .ok t := by
  simp only [cut, (Token.tiles_scanFrom 0 source.toList).text? ht,
    fits_of_within hsize (Token.within ht), if_true]
  rfl

theorem peek_eq (i : Nat) : peek (.of source) i = .ok (tokenAt source i, i) := by
  rw [peek, getElem?_places]
  by_cases hi : i < (Token.scan source).length
  · obtain ⟨hmem, hget⟩ := tokenAt_of_lt hi
    simp only [hget, Option.map_some]
    exact congrArg (Except.map _) (cut_token hsize hmem)
  · have hle := Nat.le_of_not_lt hi
    rw [List.getElem?_eq_none hle, tokenAt_of_le hle]
    rfl

theorem followsAt_peek_bind {f : Token → Cursor β} {g : Token → Parser β}
    (h : FollowsAt source m i (f (tokenAt source i)) (g (tokenAt source i))) :
    FollowsAt source m i (peek >>= f) (Parser.peek >>= g) :=
  h.congr (by rw [bind_apply, peek_eq hsize]) rfl

theorem next_eq (i : Nat) : next (.of source) i = .ok (tokenAt source i, i + 1) := by
  rw [next, bind_apply, peek_eq hsize]
  rfl

theorem followsAt_next (hkind : (tokenAt source i).kind ≠ .endOfFile) :
    FollowsAt source 1 i next Parser.next := by
  have hi := lt_of_kind_tokenAt hkind
  refine .ok (next_eq hsize i) (Nat.le_refl _) hi ?_
  rw [drop_eq_cons hi]
  rfl

theorem followsAt_next_bind {f : Token → Cursor β} {g : Token → Parser β}
    (hkind : (tokenAt source i).kind ≠ .endOfFile)
    (h : i + 1 ≤ (Token.scan source).length →
      FollowsAt source 0 (i + 1) (f (tokenAt source i)) (g (tokenAt source i))) :
    FollowsAt source 1 i (next >>= f) (Parser.next >>= g) := by
  have hi := lt_of_kind_tokenAt hkind
  refine (h hi).advance (by rw [bind_apply, next_eq hsize]) ?_ (Nat.le_refl _)
  rw [drop_eq_cons hi, Parser.next_bind]

theorem followsAt_expect {kind : Token.Kind} (hkind : kind ≠ .endOfFile) :
    FollowsAt source 1 i (expect kind) (Parser.expect kind) := by
  refine followsAt_peek_bind hsize ?_
  split
  next h => exact followsAt_next hsize (h.symm ▸ hkind)
  next => exact followsAt_refuse (fun _ => rfl) (tokenAt_within source i)

/-- The last token of something, and the value that is given back then. -/
theorem followsAt_closing (kind : Token.Kind) (hkind : kind ≠ .endOfFile) (f : Token → α) :
    FollowsAt source 0 i (do let t ← expect kind; return f t)
      (do let t ← Parser.expect kind; return f t) :=
  (followsAt_expect hsize hkind).andThen fun t _ _ hhi => followsAt_pure hhi (f t)

theorem followsAt_accept {kind : Token.Kind} (hkind : kind ≠ .endOfFile)
    (hi : i ≤ (Token.scan source).length) :
    FollowsAt source 0 i (accept kind) (Parser.accept kind) := by
  refine followsAt_peek_bind hsize ?_
  split
  next h =>
    refine (followsAt_next_bind hsize (h.symm ▸ hkind) fun hi => ?_).mono (Nat.zero_le 1)
    exact followsAt_pure hi true
  next => exact followsAt_pure hi false

end

theorem peekSecond_eq (source : String) (i : Nat) :
    peekSecond (.of source) i = .ok ((tokenAt source (i + 1)).kind, i) := by
  rw [peekSecond, getElem?_places, tokenAt, List.headD_eq_head?_getD, List.head?_drop]
  cases (Token.scan source)[i + 1]? <;> rfl

/-- The other reader looks at a token that this one knows. -/
theorem followsAt_looked {g : Token → Parser α} (h : FollowsAt source m i x (g (tokenAt source i))) :
    FollowsAt source m i x (Parser.peek >>= g) := h.congr rfl rfl

/-- The kind of a token that the other reader looks at later on. -/
theorem followsAt_ahead {f : Token.Kind → Cursor α}
    (h : FollowsAt source m i (f (tokenAt source (i + 1)).kind) p) :
    FollowsAt source m i (peekSecond >>= f) p := h.congr (by rw [bind_apply, peekSecond_eq]) rfl

theorem followsAt_peekSecond_bind {f : Token.Kind → Cursor β} {g : Token.Kind → Parser β}
    (h : FollowsAt source m i (f (tokenAt source (i + 1)).kind) (g (tokenAt source (i + 1)).kind)) :
    FollowsAt source m i (peekSecond >>= f) (Parser.peekSecond >>= g) := by
  refine followsAt_ahead (h.congr rfl ?_)
  rw [Parser.bind_apply, Parser.peekSecond, List.tail_drop]
  rfl

end Cursor

/-! ## String literals -/

/-- The contents of a string token stand between its first byte and its last. -/
theorem Token.text?_contents {t : Token} (ht : t ∈ scan source) (hkind : t.kind = .string) :
    ∃ body, t.text = String.ofList ('"' :: (body ++ ['"'])) ∧ t.contents = body ∧
      Span.text? t.text ⟨1, t.length - 1⟩ = some (String.ofList body) := by
  have hspells := (tiles_scanFrom 0 source.toList).spells ht
  rw [hkind] at hspells
  obtain ⟨body, -, htext⟩ | ⟨h, -⟩ := hspells
  · have htext' : t.text = String.ofList ('"' :: (body ++ ['"'])) := by
      rw [← htext, String.ofList_toList]
    refine ⟨body, htext', ?_, ?_⟩
    · rw [contents, htext, List.tail_cons, List.dropLast_concat]
    · have hquote : Char.utf8Size '"' = 1 := rfl
      have hcut := Span.text?_append ['"'] body ['"']
      rw [List.cons_append, List.cons_append, List.nil_append, ← htext'] at hcut
      rw [← hcut, length, htext]
      simp only [byteLength_cons, byteLength_append, byteLength_nil, hquote]
      congr 2
  · cases h

/-- Some of the characters between the quotes, as they stand in the source. -/
theorem Token.text?_of_contents {t : Token} (ht : t ∈ scan source) (hkind : t.kind = .string)
    {before part after : List Char} (h : t.contents = before ++ part ++ after) :
    Span.text? source ⟨t.start + 1 + byteLength before,
      t.start + 1 + byteLength before + byteLength part⟩ = some (String.ofList part) := by
  obtain ⟨body, htext, hbody, -⟩ := text?_contents ht hkind
  obtain ⟨ahead, later, hsource, hstart, -⟩ := (tiles_scanFrom 0 source.toList).mem ht
  have hsplit : source.toList = (ahead ++ '"' :: before) ++ part ++ (after ++ '"' :: later) := by
    rw [hsource, htext, String.toList_ofList, ← hbody, h]
    simp
  have hahead : byteLength (ahead ++ '"' :: before) = t.start + 1 + byteLength before := by
    have hquote : Char.utf8Size '"' = 1 := rfl
    rw [byteLength_append, byteLength_cons, hquote, hstart, Nat.zero_add, Nat.add_assoc]
  have hcut := Span.text?_append (ahead ++ '"' :: before) part (after ++ '"' :: later)
  rwa [← hsplit, String.ofList_toList, hahead] at hcut

/-- A wrong escape is some of the characters. -/
theorem exists_of_unescape {position : Nat} {cs : List Char} {e : EscapeError}
    (h : unescape position cs = .error e) : ∃ before wrong after, cs = before ++ wrong ++ after ∧
      e.span = ⟨position + byteLength before, position + byteLength before + byteLength wrong⟩ := by
  fun_induction unescape position cs with
  | case1 => cases h
  | case2 =>
    cases h
    exact ⟨[], ['\\'], [], rfl, rfl⟩
  | case3 position c cs d _ ih =>
    obtain ⟨before, wrong, after, rfl, hspan⟩ := ih (Effect.except_map_eq_error.1 h)
    refine ⟨'\\' :: c :: before, wrong, after, rfl, ?_⟩
    have hslash : Char.utf8Size '\\' = 1 := rfl
    rw [hspan, byteLength_cons, byteLength_cons, hslash]
    simp only [Nat.add_assoc]
  | case4 position c cs _ =>
    cases h
    refine ⟨[], ['\\', c], cs, rfl, ?_⟩
    have hslash : Char.utf8Size '\\' = 1 := rfl
    rw [byteLength_cons, byteLength_cons, hslash]
    simp only [byteLength_nil, Nat.add_zero, Nat.add_assoc]
  | case5 position c cs _ _ ih =>
    obtain ⟨before, wrong, after, rfl, hspan⟩ := ih (Effect.except_map_eq_error.1 h)
    refine ⟨c :: before, wrong, after, rfl, ?_⟩
    rw [hspan, byteLength_cons]
    simp only [Nat.add_assoc]

/-- A wrong escape in a token stands in the source, between characters. -/
theorem Token.within_of_unescape {t : Token} (ht : t ∈ scan source) (hkind : t.kind = .string)
    {e : EscapeError} (h : unescape (t.start + 1) t.contents = .error e) : e.span.Within source := by
  obtain ⟨before, wrong, after, hcs, hspan⟩ := exists_of_unescape h
  obtain ⟨-, -, hstop⟩ := span_of_unescaped (Effect.except_map_eq_error.2 h)
  have hcut := text?_of_contents ht hkind hcs
  rw [← hspan] at hcut
  refine ⟨hspan ▸ Nat.le_add_right _ _, ?_, hcut ▸ rfl⟩
  exact Nat.le_trans (Nat.le_of_lt hstop) ((tiles_scanFrom 0 source.toList).stop_le ht)

namespace Cursor

variable {α β : Type} {m k : Nat} {x : Cursor α} {p : Parser α}

theorem followsAt_integer {number : Token} (hnumber : number.span.Within source) (value : Option Int64)
    (span : Span) (hi : i ≤ (Token.scan source).length) :
    FollowsAt source 0 i (integer number value span) (Parser.integer number value span) := by
  cases value with
  | some value => exact followsAt_pure hi _
  | none => exact followsAt_fail hnumber

theorem followsAt_stringLiteral (hsize : IsShort source) {t : Token}
    (ht : t ∈ Token.scan source) (hkind : t.kind = .string) (hi : i ≤ (Token.scan source).length) :
    FollowsAt source 0 i (stringLiteral t) (Parser.stringLiteral t) := by
  obtain ⟨body, -, hbody, htext⟩ := Token.text?_contents ht hkind
  have hcontents : contents t (.of source) i = .ok (t.contents, i) := by
    rw [contents, htext, hbody]
    exact congrArg (fun cs => Except.ok (cs, i)) String.toList_ofList
  cases hvalue : unescape (t.start + 1) t.contents with
  | ok text =>
    refine (followsAt_pure hi (Expr.string (String.ofList text) t.span)).congr ?_ ?_
    · rw [stringLiteral, bind_apply, hcontents]
      simp only [hvalue]
    · rw [Parser.stringLiteral, Token.unescaped, hvalue]
      rfl
  | error e =>
    have hwithin := Token.within_of_unescape ht hkind hvalue
    refine (followsAt_fail (e := .invalidEscape e) hwithin).congr ?_ ?_
    · rw [stringLiteral, bind_apply, hcontents]
      simp only [hvalue, fits_of_within hsize hwithin, if_true]
    · rw [Parser.stringLiteral, Token.unescaped, hvalue]
      rfl

end Cursor
end StackLang
