import StackLang.Proofs.Token.Tiling

/-!
# Space between tokens

Tokens are cut from a text by what they spell and not by where they stand, and the cut of a token looks
no further than one character past its end. So blanks, or a blank and a comment, can be put in at the
start of a text or right after a token, and the tokens stay the same but for their places. Only a string
that is not closed would take up what is put after it.

Results:
* `lexeme_append`: the lexeme at the head of a text does not depend on what comes well after it.
* `scanFrom_placeless`: tokens do not depend on where a text starts.
* `scanFrom_insert`: space after a token makes no difference to the tokens.
-/
namespace StackLang
namespace Token

/-! ## Tokens without places -/

/-- A token, wherever it stands. -/
def placeless (t : Token) : Token := ⟨t.kind, 0, t.text⟩

variable {t t' : Token}

theorem kind_eq_of_placeless (h : t.placeless = t'.placeless) : t.kind = t'.kind := by
  have := congrArg kind h
  exact this

theorem text_eq_of_placeless (h : t.placeless = t'.placeless) : t.text = t'.text := by
  have := congrArg text h
  exact this

/-- Tokens that are the same without their places have one kind and one text. -/
theorem exists_starts (h : t.placeless = t'.placeless) :
    ∃ kind start start' text, t = ⟨kind, start, text⟩ ∧ t' = ⟨kind, start', text⟩ := by
  obtain ⟨kind, start, text⟩ := t
  obtain ⟨kind', start', text'⟩ := t'
  cases h
  exact ⟨kind, start, start', text, rfl, rfl⟩

theorem headD_placeless {eof eof' : Token} {ts ts' : List Token}
    (heof : eof.placeless = eof'.placeless) (hts : ts.map placeless = ts'.map placeless) :
    (ts.headD eof).placeless = (ts'.headD eof').placeless := by
  rw [← List.headD_map (f := placeless), ← List.headD_map (f := placeless), heof, hts]

theorem tail_placeless {ts ts' : List Token} (hts : ts.map placeless = ts'.map placeless) :
    ts.tail.map placeless = ts'.tail.map placeless := by
  rw [List.map_tail, List.map_tail, hts]

/-- The tokens of a text do not depend on where it starts. -/
theorem scanFrom_placeless (start start' : Nat) (cs : List Char) :
    (scanFrom start cs).map placeless = (scanFrom start' cs).map placeless := by
  fun_induction scanFrom start cs generalizing start' with
  | case1 => rw [scanFrom_nil]
  | case2 start c cs hb ih =>
    rw [scanFrom_blank hb]
    exact ih _
  | case3 start c cs hb n text later hlex ih =>
    rw [scanFrom_comment (Bool.eq_false_iff.2 hb) hlex]
    exact ih _
  | case4 start c cs hb kind n hlex text later hk ih =>
    rw [scanFrom_lexeme (Bool.eq_false_iff.2 hb) hlex hk]
    exact congrArg (List.cons (placeless ⟨kind, start, String.ofList text⟩)) (ih _)

/-! ## How far a lexeme looks -/

section

variable {x y y' : List Char} {n : Nat} {kind : Kind}

/-- What is taken from the front of a text is taken again if what follows it changes, unless the
change makes more to take. -/
theorem takeWhile_append_congr {p : Char → Bool} (h : ((x ++ y).takeWhile p).length ≤ x.length)
    (hend : ((x ++ y).takeWhile p).length = x.length → ∀ d ∈ y'.head?, p d = false) :
    (x ++ y').takeWhile p = (x ++ y).takeWhile p := by
  induction x with
  | nil =>
    have hnil : y.takeWhile p = [] := List.length_eq_zero_iff.1 (Nat.le_zero.1 h)
    rw [List.nil_append, List.nil_append, hnil]
    cases y' with
    | nil => rfl
    | cons d y' =>
      have hd : p d = false := hend (Nat.le_zero.1 h) d rfl
      rw [List.takeWhile_cons_of_neg (Bool.eq_false_iff.1 hd)]
  | cons c x ih =>
    rw [List.cons_append] at h hend ⊢
    by_cases hc : p c
    · rw [List.takeWhile_cons_of_pos hc] at h hend ⊢
      rw [List.cons_append, List.takeWhile_cons_of_pos hc,
        ih (Nat.le_of_succ_le_succ h) fun hlen => hend (congrArg Nat.succ hlen)]
    · rw [List.cons_append, List.takeWhile_cons_of_neg hc, List.takeWhile_cons_of_neg hc]

/-- A string that is closed stays so, whatever comes after it. -/
theorem quotedRest_append_congr (h : quotedRest (x ++ y) = (kind, n)) (hn : n ≤ x.length)
    (hend : n = x.length → kind ≠ .unterminatedString) : quotedRest (x ++ y') = (kind, n) := by
  obtain ⟨body, rest, hbody, heq, hrest⟩ := exists_quotable (x ++ y)
  have hlength : x.length + y.length = body.length + rest.length := by
    rw [← List.length_append, heq, List.length_append]
  rw [heq, quotedRest_append hbody] at h
  obtain ⟨rfl, rfl⟩ := Prod.mk.inj h
  -- an open string takes up the whole text
  have hopen (hlen : (quotedRest rest).2 = rest.length)
      (hkind : (quotedRest rest).1 = .unterminatedString) : False :=
    hend (by omega) hkind
  obtain rfl | rfl | ⟨later, rfl⟩ := hrest
  · exact (hopen rfl rfl).elim
  · exact (hopen rfl rfl).elim
  · rw [← List.singleton_append, ← List.append_assoc] at heq
    obtain ⟨x', rfl⟩ : body ++ ['"'] <+: x := by
      refine List.prefix_of_prefix_length_le ⟨later, heq.symm⟩ (List.prefix_append x y) ?_
      rw [List.length_append, List.length_singleton, Nat.add_comm]
      exact hn
    rw [List.append_assoc, List.append_assoc, quotedRest_append hbody]
    rfl

theorem operator_append_congr {c : Char} (h : operator c (x ++ y) = (kind, n)) (hn : n ≤ x.length)
    (hend : n = x.length → ∀ d ∈ y'.head?, isBlank d) : operator c (x ++ y') = (kind, n) := by
  cases x with
  | cons d x => exact h
  | nil =>
    obtain rfl := Nat.le_zero.1 hn
    rw [List.nil_append, operator] at h ⊢
    have hsign : y'.head? ≠ some '=' := fun h' => absurd (hend rfl _ h') (by decide)
    rw [if_neg hsign]
    split at h
    · cases h
    · exact h

theorem cases_of_isBlank {d : Char} (h : isBlank d) : d = ' ' ∨ d = '\t' ∨ d = '\r' ∨ d = '\n' := by
  simpa [isBlank, or_assoc] using h

theorem digit_of_isBlank {d : Char} (h : isBlank d) : d.isDigit = false := by
  rcases cases_of_isBlank h with rfl | rfl | rfl | rfl <;> rfl

theorem word_of_isBlank {d : Char} (h : isBlank d) : isWordRest d = false := by
  rcases cases_of_isBlank h with rfl | rfl | rfl | rfl <;> rfl

/-- The lexeme at the head of a text stays if the text changes past the lexeme and the character after
it, or if it now ends at a blank. -/
theorem lexeme_append {c : Char} (h : lexeme c (x ++ y) = (kind, n)) (hn : n ≤ x.length)
    (hend : n = x.length →
      kind ≠ .comment ∧ kind ≠ .unterminatedString ∧ ∀ d ∈ y'.head?, isBlank d) :
    lexeme c (x ++ y') = (kind, n) := by
  have hblank {p : Char → Bool} (hp : ∀ d, isBlank d → p d = false) (hlen : n = x.length) :
      ∀ d ∈ y'.head?, p d = false := fun d hd => hp d ((hend hlen).2.2 d hd)
  have hslash : (c = '/' ∧ (x ++ y').head? = some '/') ↔ c = '/' ∧ (x ++ y).head? = some '/' := by
    cases x with
    | cons d x => exact Iff.rfl
    | nil =>
      obtain rfl := Nat.le_zero.1 hn
      obtain ⟨hcomment, -, hy⟩ := hend rfl
      refine ⟨fun h' => absurd (hy _ h'.2) (by decide), fun h' => ?_⟩
      rw [lexeme, if_pos h'] at h
      exact absurd (Prod.mk.inj h).1.symm hcomment
  have htake (p : Char → Bool) (hp : n = x.length → ∀ d ∈ y'.head?, p d = false)
      (hlen : ((x ++ y).takeWhile p).length = n) : (x ++ y').takeWhile p = (x ++ y).takeWhile p :=
    takeWhile_append_congr (hlen ▸ hn) fun heq => hp (hlen.symm.trans heq)
  unfold lexeme at h ⊢
  simp only [hslash]
  split at h
  next hcomment =>
    obtain ⟨rfl, hlen⟩ := Prod.mk.inj h
    rw [if_pos hcomment, htake _ (fun heq => absurd rfl (hend heq).1) hlen, hlen]
  next hcomment =>
  rw [if_neg hcomment]
  split at h
  next hquote =>
    rw [if_pos hquote]
    exact quotedRest_append_congr h hn fun heq => (hend heq).2.1
  next hquote =>
  rw [if_neg hquote]
  split at h
  next hdigit =>
    obtain ⟨rfl, hlen⟩ := Prod.mk.inj h
    rw [if_pos hdigit, htake _ (hblank fun d => digit_of_isBlank) hlen, hlen]
  next hdigit =>
  rw [if_neg hdigit]
  split at h
  next hword =>
    obtain ⟨rfl, hlen⟩ := Prod.mk.inj h
    rw [if_pos hword]
    simp only [htake _ (hblank fun d => word_of_isBlank) hlen, hlen]
  next hword =>
    rw [if_neg hword]
    exact operator_append_congr h hn fun heq => (hend heq).2.2

end

/-! ## Lengths -/

theorem quotedRest_le (cs : List Char) : (quotedRest cs).2 ≤ cs.length := by
  fun_induction quotedRest cs with
  | case1 => exact Nat.le_refl 0
  | case2 cs => exact Nat.succ_le_succ (Nat.zero_le _)
  | case3 c cs ih => exact Nat.add_le_add_right ih 2
  | case4 c cs _ _ ih => exact Nat.add_le_add_right ih 1

theorem lexeme_le (c : Char) (cs : List Char) : (lexeme c cs).2 ≤ cs.length := by
  unfold lexeme
  iterate 4
    split
    · first | exact (List.takeWhile_prefix _).length_le | exact quotedRest_le cs
  unfold operator
  split
  next h =>
    obtain ⟨later, rfl⟩ := List.head?_eq_some_iff.1 (Option.ite_none_right_eq_some.1 h).1
    exact Nat.succ_le_succ (Nat.zero_le _)
  next => exact Nat.zero_le _

theorem eq_of_byteLength_eq {a b cs : List Char} (ha : a <+: cs) (hb : b <+: cs)
    (h : byteLength a = byteLength b) : a = b := by
  induction a generalizing b cs with
  | nil =>
    cases b with
    | nil => rfl
    | cons d b =>
      have := d.utf8Size_pos
      simp only [byteLength_nil, byteLength_cons] at h
      omega
  | cons c a ih =>
    cases b with
    | nil =>
      have := c.utf8Size_pos
      simp only [byteLength_nil, byteLength_cons] at h
      omega
    | cons d b =>
      obtain ⟨cs, rfl⟩ := ha
      rw [List.cons_append] at hb
      obtain ⟨rfl, hrest⟩ := List.cons_prefix_cons.1 hb
      rw [ih (List.prefix_append a cs) hrest (Nat.add_left_cancel h)]

theorem byteLength_mono {a b : List Char} (h : a <+: b) : byteLength a ≤ byteLength b := by
  obtain ⟨rest, rfl⟩ := h
  rw [byteLength_append]
  exact Nat.le_add_right _ _

/-- The longer of two texts with a common end in bytes is the longer in characters. -/
theorem lt_length_of_byteLength_lt {x y : List Char} {n : Nat}
    (h : byteLength ((x ++ y).take n) < byteLength x) : n < x.length := by
  refine Nat.lt_of_not_le fun hle => Nat.not_le_of_lt h (byteLength_mono ?_)
  refine List.prefix_of_prefix_length_le (List.prefix_append x y) (List.take_prefix n _) ?_
  rw [List.length_take, List.length_append]
  omega

theorem eq_length_of_byteLength_eq {x y : List Char} {n : Nat} (hn : n ≤ (x ++ y).length)
    (h : byteLength ((x ++ y).take n) = byteLength x) : n = x.length := by
  rw [← eq_of_byteLength_eq (List.take_prefix n _) (List.prefix_append x y) h, List.length_take,
    Nat.min_eq_left hn]

/-! ## Space -/

/-- What makes no difference between two tokens: blanks, or a blank and a comment with the end of its
line. -/
inductive Spacing : List Char → Prop
  | blanks {cs : List Char} (hne : cs ≠ []) (h : ∀ c ∈ cs, isBlank c) : Spacing cs
  | comment {c : Char} {text : List Char} (hc : isBlank c) (ht : '\n' ∉ text) :
    Spacing (c :: '/' :: '/' :: (text ++ ['\n']))

variable {gap : List Char}

theorem Spacing.head?_append (h : Spacing gap) (after : List Char) :
    ∀ d ∈ (gap ++ after).head?, isBlank d := by
  cases h with
  | blanks hne h =>
    cases gap with
    | nil => exact absurd rfl hne
    | cons c gap =>
      rintro d ⟨⟩
      exact h c List.mem_cons_self
  | comment hc _ =>
    rintro d ⟨⟩
    exact hc

theorem lexeme_slashes {text : List Char} (ht : '\n' ∉ text) (after : List Char) :
    lexeme '/' ('/' :: (text ++ '\n' :: after)) = (.comment, text.length + 1) := by
  have hall : ∀ d ∈ text, decide (d ≠ '\n') := fun d hd =>
    decide_eq_true fun heq => ht (heq ▸ hd)
  rw [lexeme, if_pos ⟨rfl, rfl⟩, List.takeWhile_cons_of_pos rfl, List.takeWhile_append_of_pos hall,
    List.takeWhile_cons_of_neg (by decide), List.append_nil, List.length_cons]

/-- Space before the first token of a text. -/
theorem scanFrom_spacing (h : Spacing gap) (start : Nat) (after : List Char) :
    (scanFrom start (gap ++ after)).map placeless = (scanFrom start after).map placeless := by
  cases h with
  | blanks hne h =>
    clear hne
    induction gap generalizing start with
    | nil => rfl
    | cons c gap ih =>
      rw [List.cons_append, scanFrom_blank (h c List.mem_cons_self),
        ih _ fun d hd => h d (List.mem_cons_of_mem c hd)]
      exact scanFrom_placeless _ _ _
  | @comment c text hc ht =>
    have hdrop : ('/' :: (text ++ '\n' :: after)).drop (text.length + 1) = '\n' :: after := by
      rw [List.drop_succ_cons, List.drop_left]
    rw [List.cons_append, List.cons_append, List.cons_append, List.append_assoc,
      List.singleton_append, scanFrom_blank hc, scanFrom_comment rfl (lexeme_slashes ht after), hdrop,
      scanFrom_blank rfl]
    exact scanFrom_placeless _ _ _

theorem lt_stop_of_mem_scanFrom {start : Nat} {cs : List Char} {t : Token}
    (ht : t ∈ scanFrom start cs) : start < t.span.stop := by
  have htiles := tiles_scanFrom start cs
  have hstart := htiles.start_le ht
  have hne := (htiles.spells ht).ne_nil
  obtain ⟨c, cs, heq⟩ := List.exists_cons_of_ne_nil hne
  have := c.utf8Size_pos
  have hstop : t.span.stop = t.start + byteLength t.text.toList := rfl
  rw [hstop, heq, byteLength_cons]
  omega

theorem exists_cons_of_append_eq {before after cs : List Char} {c : Char}
    (h : before ++ after = c :: cs) (hpos : 0 < byteLength before) :
    ∃ x, before = c :: x ∧ cs = x ++ after := by
  cases before with
  | nil => exact absurd hpos (Nat.lt_irrefl 0)
  | cons d x =>
    obtain ⟨rfl, rfl⟩ := List.cons.inj h
    exact ⟨x, rfl, rfl⟩

/-- A lexeme at the head of a text is the same with space put in at or past its end. -/
theorem lexeme_insert (hg : Spacing gap) {c : Char} {x after : List Char} {kind : Kind} {n : Nat}
    (h : lexeme c (x ++ after) = (kind, n)) (hn : n ≤ x.length)
    (hend : n = x.length → kind ≠ .comment ∧ kind ≠ .unterminatedString) :
    lexeme c (x ++ (gap ++ after)) = (kind, n) ∧
      (x ++ (gap ++ after)).take n = (x ++ after).take n ∧
      (x ++ (gap ++ after)).drop n = x.drop n ++ (gap ++ after) := by
  refine ⟨lexeme_append h hn fun heq => ?_, ?_, List.drop_append_of_le_length hn⟩
  · exact ⟨(hend heq).1, (hend heq).2, hg.head?_append after⟩
  · rw [List.take_append_of_le_length hn, List.take_append_of_le_length hn]

/-- What stops past a lexeme and at the end of a part of the text stops in the rest of that part. -/
theorem lt_length_of_lt_stop {c : Char} {x after : List Char} {n start stop : Nat}
    (hlt : start + byteLength (c :: (x ++ after).take n) < stop)
    (hstop : stop = start + byteLength (c :: x)) :
    n < x.length ∧
      stop = start + byteLength (c :: (x ++ after).take n) + byteLength (x.drop n) := by
  have hn : n < x.length := by
    refine lt_length_of_byteLength_lt (y := after) ?_
    rw [hstop, byteLength_cons, byteLength_cons] at hlt
    omega
  refine ⟨hn, ?_⟩
  rw [hstop, List.take_append_of_le_length (Nat.le_of_lt hn), Nat.add_assoc, ← byteLength_append,
    List.cons_append, List.take_append_drop]

/-- Space right after a token that is no open string. -/
theorem scanFrom_insert (hg : Spacing gap) {start : Nat} {before after : List Char} {t : Token}
    (ht : t ∈ scanFrom start (before ++ after)) (hk : t.kind ≠ .unterminatedString)
    (hstop : t.span.stop = start + byteLength before) :
    (scanFrom start (before ++ (gap ++ after))).map placeless =
      (scanFrom start (before ++ after)).map placeless := by
  generalize hcs : before ++ after = cs at ht ⊢
  induction start, cs using scanFrom.induct generalizing before
  case case1 =>
    rw [scanFrom_nil] at ht
    cases ht
  case case2 start c cs hb ih =>
    rw [scanFrom_blank hb] at ht ⊢
    have hlt := lt_stop_of_mem_scanFrom ht
    obtain ⟨x, rfl, rfl⟩ := exists_cons_of_append_eq hcs (by omega)
    rw [List.cons_append, scanFrom_blank hb]
    exact ih (hstop.trans (Nat.add_assoc ..).symm) rfl ht
  case case3 start c cs hb n text hlex ih =>
    -- a comment, and the token past it
    rw [scanFrom_comment (Bool.eq_false_iff.2 hb) hlex] at ht ⊢
    have hlt := lt_stop_of_mem_scanFrom ht
    obtain ⟨x, rfl, rfl⟩ := exists_cons_of_append_eq hcs (by omega)
    obtain ⟨hn, hrest⟩ := lt_length_of_lt_stop hlt hstop
    obtain ⟨hlex', htake, hdrop⟩ := lexeme_insert hg hlex (Nat.le_of_lt hn) fun heq =>
      absurd heq (Nat.ne_of_lt hn)
    rw [List.cons_append, scanFrom_comment (Bool.eq_false_iff.2 hb) hlex', htake, hdrop]
    exact ih hrest (List.drop_append_of_le_length (Nat.le_of_lt hn)).symm ht
  case case4 start c cs hb kind n hlex text hk' ih =>
    have hlt := lt_stop_of_mem_scanFrom ht
    obtain ⟨x, rfl, rfl⟩ := exists_cons_of_append_eq hcs (by omega)
    rw [scanFrom_lexeme (Bool.eq_false_iff.2 hb) hlex hk'] at ht ⊢
    rcases List.mem_cons.1 ht with rfl | ht
    · -- the space goes right after this token
      obtain rfl : n = x.length := by
        refine eq_length_of_byteLength_eq (y := after) ?_ ?_
        · have hle := lexeme_le c (x ++ after)
          rwa [hlex] at hle
        · rw [span, length, String.toList_ofList, byteLength_cons, byteLength_cons] at hstop
          exact Nat.add_left_cancel (Nat.add_left_cancel hstop)
      obtain ⟨hlex', htake, hdrop⟩ := lexeme_insert hg hlex (Nat.le_refl _) fun _ => ⟨hk', hk⟩
      rw [List.cons_append, scanFrom_lexeme (Bool.eq_false_iff.2 hb) hlex' hk', htake, hdrop,
        List.drop_length, List.drop_left, List.map_cons, List.map_cons, List.nil_append,
        scanFrom_spacing hg]
    · have hlt := lt_stop_of_mem_scanFrom ht
      obtain ⟨hn, hrest⟩ := lt_length_of_lt_stop hlt hstop
      obtain ⟨hlex', htake, hdrop⟩ := lexeme_insert hg hlex (Nat.le_of_lt hn) fun heq =>
        absurd heq (Nat.ne_of_lt hn)
      rw [List.cons_append, scanFrom_lexeme (Bool.eq_false_iff.2 hb) hlex' hk', htake, hdrop,
        List.map_cons, List.map_cons,
        ih hrest (List.drop_append_of_le_length (Nat.le_of_lt hn)).symm ht]

end Token
end StackLang
