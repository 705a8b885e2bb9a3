import StackLang.Proofs.Token.Spacing

/-!
# The tokens of a part of a text

A part of a text that starts where one of its tokens does and stops where one does has the tokens of the
text that stand in it, also when it is put somewhere else, if nothing or a blank comes after it.

Results:
* `scanFrom_raise`: a text that starts further on.
* `exists_scanFrom_token`: a text from the start of a token on.
* `scanFrom_cut`: a text up to the end of a token, with something else after it.
* `exists_scanFrom_slice`: some tokens that follow each other, and the part of the text that they take up.
-/
namespace StackLang
namespace Token

/-- A token that stands so many bytes further on. -/
def raise (k : Nat) (t : Token) : Token := ⟨t.kind, t.start + k, t.text⟩

theorem eq_of_raise_eq {k : Nat} (t u : Token) (h : t.raise k = u.raise k) : t = u := by
  obtain ⟨kind, start, text⟩ := t
  obtain ⟨kind', start', text'⟩ := u
  simp only [raise, Token.mk.injEq, Nat.add_right_cancel_iff] at h ⊢
  exact h

variable {start : Nat} {t : Token} {pre post : List Token}

/-- A text that starts further on has its tokens further on. -/
theorem scanFrom_raise (start k : Nat) (cs : List Char) :
    scanFrom (start + k) cs = (scanFrom start cs).map (raise k) := by
  fun_induction scanFrom start cs with
  | case1 => rw [scanFrom_nil, List.map_nil]
  | case2 start c cs hb ih =>
    rw [scanFrom_blank hb, Nat.add_right_comm]
    exact ih
  | case3 start c cs hb n text later hlex ih =>
    rw [scanFrom_comment (Bool.eq_false_iff.2 hb) hlex, Nat.add_right_comm]
    exact ih
  | case4 start c cs hb kind n hlex text later hk ih =>
    rw [scanFrom_lexeme (Bool.eq_false_iff.2 hb) hlex hk, Nat.add_right_comm, ih, List.map_cons]
    rfl

/-- The tokens from one of them on are those of the text from there on. -/
theorem exists_scanFrom_token {cs : List Char} (h : scanFrom start cs = pre ++ t :: post) :
    ∃ before rest, cs = before ++ rest ∧ t.start = start + byteLength before ∧
      scanFrom t.start rest = t :: post := by
  induction start, cs using scanFrom.induct generalizing pre
  case case1 =>
    rw [scanFrom_nil] at h
    exact absurd h.symm (List.append_ne_nil_of_right_ne_nil _ (List.cons_ne_nil _ _))
  case case2 start c cs hb ih =>
    rw [scanFrom_blank hb] at h
    obtain ⟨before, rest, rfl, hstart, hrest⟩ := ih h
    exact ⟨c :: before, rest, rfl, by rw [hstart, byteLength_cons, Nat.add_assoc], hrest⟩
  case case3 start c cs hb n text hlex ih =>
    rw [scanFrom_comment (Bool.eq_false_iff.2 hb) hlex] at h
    obtain ⟨before, rest, hcs, hstart, hrest⟩ := ih h
    refine ⟨text ++ before, rest, ?_, by rw [hstart, byteLength_append, Nat.add_assoc], hrest⟩
    rw [List.append_assoc, ← hcs, List.cons_append, List.take_append_drop]
  case case4 start c cs hb kind n hlex text hk ih =>
    have hcons := scanFrom_lexeme (Bool.eq_false_iff.2 hb) hlex hk start
    rw [hcons] at h
    cases pre with
    | nil =>
      obtain ⟨rfl, rfl⟩ := List.cons.inj h
      exact ⟨[], c :: cs, rfl, rfl, hcons⟩
    | cons p pre =>
      obtain ⟨before, rest, hcs, hstart, hrest⟩ := ih (List.cons.inj h).2
      refine ⟨text ++ before, rest, ?_, by rw [hstart, byteLength_append, Nat.add_assoc], hrest⟩
      rw [List.append_assoc, ← hcs, List.cons_append, List.take_append_drop]

/-- The tokens up to one that is no open string are those of the text up to there, whatever comes after
a blank. -/
theorem scanFrom_cut {before after after' : List Char}
    (h : scanFrom start (before ++ after) = pre ++ t :: post) (hk : t.kind ≠ .unterminatedString)
    (hstop : t.span.stop = start + byteLength before) (hblank : ∀ c ∈ after'.head?, isBlank c) :
    scanFrom start (before ++ after') = pre ++ t :: scanFrom t.span.stop after' := by
  have ht : t ∈ scanFrom start (before ++ after) := by
    rw [h]
    exact List.mem_append_right _ List.mem_cons_self
  generalize hcs : before ++ after = cs at h ht
  induction start, cs using scanFrom.induct generalizing before pre
  case case1 =>
    rw [scanFrom_nil] at ht
    cases ht
  case case2 start c cs hb ih =>
    rw [scanFrom_blank hb] at h ht
    have hlt := lt_stop_of_mem_scanFrom ht
    obtain ⟨x, rfl, rfl⟩ := exists_cons_of_append_eq hcs (by omega)
    rw [List.cons_append, scanFrom_blank hb]
    exact ih (hstop.trans (Nat.add_assoc ..).symm) rfl h ht
  case case3 start c cs hb n text hlex ih =>
    -- a comment, and the token past it
    rw [scanFrom_comment (Bool.eq_false_iff.2 hb) hlex] at h ht
    have hlt := lt_stop_of_mem_scanFrom ht
    obtain ⟨x, rfl, rfl⟩ := exists_cons_of_append_eq hcs (by omega)
    obtain ⟨hn, hrest⟩ := lt_length_of_lt_stop hlt hstop
    have hlex' : lexeme c (x ++ after') = (.comment, n) :=
      lexeme_append hlex (Nat.le_of_lt hn) fun heq => absurd heq (Nat.ne_of_lt hn)
    have htake : (x ++ after).take n = x.take n := List.take_append_of_le_length (Nat.le_of_lt hn)
    rw [List.cons_append, scanFrom_comment (Bool.eq_false_iff.2 hb) hlex',
      List.take_append_of_le_length (Nat.le_of_lt hn), List.drop_append_of_le_length (Nat.le_of_lt hn),
      ← htake]
    exact ih hrest (List.drop_append_of_le_length (Nat.le_of_lt hn)).symm h ht
  case case4 start c cs hb kind n hlex text hk' ih =>
    have hlt := lt_stop_of_mem_scanFrom ht
    obtain ⟨x, rfl, rfl⟩ := exists_cons_of_append_eq hcs (by omega)
    rw [scanFrom_lexeme (Bool.eq_false_iff.2 hb) hlex hk'] at h
    cases pre with
    | nil =>
      obtain ⟨rfl, rfl⟩ := List.cons.inj h
      -- the text is cut right after this token
      obtain rfl : n = x.length := by
        refine eq_length_of_byteLength_eq (y := after) ?_ ?_
        · have hle := lexeme_le c (x ++ after)
          rwa [hlex] at hle
        · rw [span, length, String.toList_ofList, byteLength_cons, byteLength_cons] at hstop
          exact Nat.add_left_cancel (Nat.add_left_cancel hstop)
      have hlex' : lexeme c (x ++ after') = (kind, x.length) :=
        lexeme_append hlex (Nat.le_refl _) fun _ => ⟨hk', hk, hblank⟩
      rw [List.cons_append, scanFrom_lexeme (Bool.eq_false_iff.2 hb) hlex' hk', List.take_left,
        List.take_left, List.drop_left, List.nil_append, span, length, String.toList_ofList]
    | cons p pre =>
      obtain ⟨rfl, hlater⟩ := List.cons.inj h
      have ht : t ∈ scanFrom (start + byteLength (c :: (x ++ after).take n)) ((x ++ after).drop n) := by
        rw [hlater]
        exact List.mem_append_right _ List.mem_cons_self
      obtain ⟨hn, hrest⟩ := lt_length_of_lt_stop (lt_stop_of_mem_scanFrom ht) hstop
      have hlex' : lexeme c (x ++ after') = (kind, n) :=
        lexeme_append hlex (Nat.le_of_lt hn) fun heq => absurd heq (Nat.ne_of_lt hn)
      have htake : (x ++ after).take n = x.take n := List.take_append_of_le_length (Nat.le_of_lt hn)
      rw [List.cons_append, scanFrom_lexeme (Bool.eq_false_iff.2 hb) hlex' hk',
        List.take_append_of_le_length (Nat.le_of_lt hn), List.drop_append_of_le_length (Nat.le_of_lt hn),
        ← htake,
        ih hrest (List.drop_append_of_le_length (Nat.le_of_lt hn)).symm hlater ht, List.cons_append]

/-- Tokens that follow each other take up a part of the text, which has just these tokens also where
something else comes after it, if that starts with a blank. -/
theorem exists_scanFrom_slice {cs : List Char} {mid : List Token} {u : Token}
    (h : scanFrom start cs = pre ++ mid ++ post) (hfirst : mid.head? = some t)
    (hlast : mid.getLast? = some u) (hk : u.kind ≠ .unterminatedString) :
    ∃ before text rest, cs = before ++ text ++ rest ∧ t.start = start + byteLength before ∧
      u.span.stop = t.start + byteLength text ∧
      ∀ after, (∀ c ∈ after.head?, isBlank c) →
        scanFrom t.start (text ++ after) = mid ++ scanFrom u.span.stop after := by
  obtain ⟨mid', rfl⟩ := List.head?_eq_some_iff.1 hfirst
  obtain ⟨init, hinit⟩ := List.getLast?_eq_some_iff.1 hlast
  rw [List.append_assoc] at h
  obtain ⟨before, rest, rfl, hstart, hrest⟩ := exists_scanFrom_token h
  have hmid : scanFrom t.start rest = init ++ u :: post := by
    rw [hrest, List.append_eq, ← List.cons_append, hinit, List.append_assoc]
    rfl
  have hu : u ∈ scanFrom t.start rest := by
    rw [hmid]
    exact List.mem_append_right _ List.mem_cons_self
  obtain ⟨ahead, later, rfl, hstop, -⟩ := (tiles_scanFrom t.start rest).mem hu
  have hlength : u.span.stop = t.start + byteLength (ahead ++ u.text.toList) := by
    rw [byteLength_append, ← Nat.add_assoc, ← hstop]
    rfl
  refine ⟨before, ahead ++ u.text.toList, later, (List.append_assoc ..).symm, hstart, hlength,
    fun after hblank => ?_⟩
  rw [scanFrom_cut hmid hk hlength hblank, hinit, List.append_assoc]
  rfl

end Token
end StackLang
