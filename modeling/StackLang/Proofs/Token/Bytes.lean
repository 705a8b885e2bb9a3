import StackLang.Proofs.Token.Tiling
import StackLang.Text.Utf8

/-!
# Tokens found on bytes

Positions count bytes, and the tokens of a source can be found on its bytes without decoding them: a
byte is taken for the character with its number, a backslash in a string skips the byte after it,
and an unknown character is as long as its first byte says. What would go past the end stops there.
On well-formed bytes this cuts no character in two and finds the tokens of the text.

Results:
* `takeWhile_encode`, `quotedBytes_encode`, `byteLexeme_encode`: a lexeme is as many bytes long as
  its characters are.
* `scanBytes_encode`: the same kinds at the same places.
* `scan_covers`: how the tokens of a source cover it.
-/
namespace StackLang
namespace Token

/-! ## Cutting bytes -/

/-- The character with the number of a byte. -/
def byteChar (b : UInt8) : Char := Char.ofNat b.toNat

/-- The rest of a string after its opening quote. The byte after a backslash is skipped, also where
there is none. -/
def quotedBytes : List UInt8 → Kind × Nat
  | [] => (.unterminatedString, 0)
  | b :: bytes =>
    if b = 0x22 then (.string, 1)
    else if b = 0x5C then
      match bytes with
      | [] => (.unterminatedString, 2)
      | _ :: bytes => ((quotedBytes bytes).1, (quotedBytes bytes).2 + 2)
    else ((quotedBytes bytes).1, (quotedBytes bytes).2 + 1)

theorem quotedBytes_plain {b : UInt8} (hq : b ≠ 0x22) (he : b ≠ 0x5C) (bytes : List UInt8) :
    quotedBytes (b :: bytes) = ((quotedBytes bytes).1, (quotedBytes bytes).2 + 1) := by
  rw [quotedBytes.eq_def]
  simp only [if_neg hq, if_neg he]

theorem quotedBytes_quote (bytes : List UInt8) : quotedBytes (0x22 :: bytes) = (.string, 1) := by
  rw [quotedBytes.eq_def]
  rfl

theorem quotedBytes_escape (b : UInt8) (bytes : List UInt8) : quotedBytes (0x5C :: b :: bytes) =
    ((quotedBytes bytes).1, (quotedBytes bytes).2 + 2) := by
  rw [quotedBytes.eq_def]
  rfl

/-- How many bytes there are after the first one of a character. -/
def laterBytes (b : UInt8) : Nat :=
  if b &&& 0xF0 = 0xF0 then 3
  else if b &&& 0xE0 = 0xE0 then 2
  else if b &&& 0xC0 = 0xC0 then 1
  else 0

/-- One or two bytes of punctuation; else the bytes of one unknown character. -/
def byteOperator (b : UInt8) (bytes : List UInt8) : Kind × Nat :=
  match if bytes.head? = some 0x3D then withEqualSign? (byteChar b) else none with
  | some kind => (kind, 1)
  | none =>
    match punctuation? (byteChar b) with
    | some kind => (kind, 0)
    | none => (.unknown, laterBytes b)

/-- The lexeme at the head of bytes that start with `b`: its kind, and how many of the bytes that
follow belong to it, some of which may be missing. -/
def byteLexeme (b : UInt8) (bytes : List UInt8) : Kind × Nat :=
  if b = 0x2F ∧ bytes.head? = some 0x2F then (.comment, (bytes.takeWhile (· ≠ 0x0A)).length)
  else if b = 0x22 then quotedBytes bytes
  else if (byteChar b).isDigit then
    (.number, (bytes.takeWhile fun d => (byteChar d).isDigit).length)
  else if isWordStart (byteChar b) then
    let rest := bytes.takeWhile fun d => isWordRest (byteChar d)
    (wordKind ((b :: rest).map byteChar), rest.length)
  else byteOperator b bytes

/-- The kinds and places of the tokens of bytes, the first of which is at the position `start`. -/
def scanBytes (start : Nat) : List UInt8 → List (Kind × Span)
  | [] => []
  | b :: bytes =>
    if isBlank (byteChar b) then scanBytes (start + 1) bytes
    else
      let (kind, n) := byteLexeme b bytes
      let stop := start + (min n bytes.length + 1)
      let later := scanBytes stop (bytes.drop n)
      if kind = .comment then later else (kind, ⟨start, stop⟩) :: later
termination_by bytes => bytes.length
decreasing_by all_goals simp only [List.length_drop, List.length_cons]; omega

/-! ## The bytes of a character -/

/-- The bytes of some characters. -/
def encode (cs : List Char) : List UInt8 := cs.flatMap String.utf8EncodeChar

@[simp] theorem encode_nil : encode [] = [] := rfl

@[simp] theorem encode_cons (c : Char) (cs : List Char) :
    encode (c :: cs) = String.utf8EncodeChar c ++ encode cs := rfl

@[simp] theorem encode_append (a b : List Char) : encode (a ++ b) = encode a ++ encode b := by
  simp [encode]

@[simp] theorem length_encode (cs : List Char) : (encode cs).length = byteLength cs := by
  induction cs with
  | nil => rfl
  | cons c cs ih => simp [ih]

theorem laterBytes_of_lt : ∀ n < 256, laterBytes (UInt8.ofNat n) =
    if n < 192 then 0 else if n < 224 then 1 else if n < 240 then 2 else 3 := by
  decide +kernel

theorem toNat_ofNat_of_lt {n : Nat} (h : n < 256) : (UInt8.ofNat n).toNat = n := by
  rw [UInt8.toNat_ofNat', Nat.mod_eq_of_lt h]

/-- An ASCII character is one byte. Any other has bytes that are not ASCII, the first of which says
how many follow. -/
theorem utf8EncodeChar_cases (c : Char) :
    (∃ b, String.utf8EncodeChar c = [b] ∧ byteChar b = c ∧ c.toNat < 128) ∨
      ∃ b later, String.utf8EncodeChar c = b :: later ∧ laterBytes b = later.length ∧
        128 ≤ c.toNat ∧ ∀ d ∈ b :: later, 128 ≤ d.toNat := by
  have hmax : c.val.toNat < 0x110000 := by rcases c.valid with h | h <;> omega
  have lead {n : Nat} (h : 128 ≤ n) (h' : n < 256) : 128 ≤ (UInt8.ofNat n).toNat := by
    rwa [toNat_ofNat_of_lt h']
  unfold String.utf8EncodeChar
  simp only
  split
  · next h =>
    refine .inl ⟨_, rfl, ?_, Nat.lt_succ_of_le h⟩
    rw [byteChar, toNat_ofNat_of_lt (by omega)]
    exact Char.ofNat_toNat c
  · next h =>
    have hc : 128 ≤ c.toNat := Nat.lt_of_not_le h
    refine .inr ?_
    split
    · refine ⟨_, _, rfl, ?_, hc, List.forall_mem_cons.2 ⟨lead (by omega) (by omega), by simp; omega⟩⟩
      rw [laterBytes_of_lt _ (by omega), if_neg (by omega), if_pos (by omega)]
      rfl
    split
    · refine ⟨_, _, rfl, ?_, hc, List.forall_mem_cons.2 ⟨lead (by omega) (by omega), by simp; omega⟩⟩
      rw [laterBytes_of_lt _ (by omega), if_neg (by omega), if_neg (by omega), if_pos (by omega)]
      rfl
    · refine ⟨_, _, rfl, ?_, hc, List.forall_mem_cons.2 ⟨lead (by omega) (by omega), by simp; omega⟩⟩
      rw [laterBytes_of_lt _ (by omega), if_neg (by omega), if_neg (by omega), if_neg (by omega)]
      rfl

theorem toNat_byteChar (b : UInt8) : (byteChar b).toNat = b.toNat := by
  have hvalid : b.toNat.isValidChar := .inl (by have := b.toNat_lt; omega)
  rw [byteChar, Char.ofNat, dif_pos hvalid]
  rfl

theorem byteChar_inj {b d : UInt8} (h : byteChar b = byteChar d) : b = d := by
  have := congrArg Char.toNat h
  rw [toNat_byteChar, toNat_byteChar] at this
  exact UInt8.toNat_inj.1 this

theorem encode_ne_nil (c : Char) : ∃ b later, String.utf8EncodeChar c = b :: later := by
  obtain ⟨b, h, -⟩ | ⟨b, later, h, -⟩ := utf8EncodeChar_cases c
  · exact ⟨b, [], h⟩
  · exact ⟨b, later, h⟩

/-! ## Classes of characters and bytes -/

/-- A class that takes all characters that are not ASCII, or none. -/
def AsciiClass (p : Char → Bool) : Prop := ∀ c d : Char, 128 ≤ c.toNat → 128 ≤ d.toNat → p c = p d

theorem AsciiClass.byte {p : Char → Bool} (hp : AsciiClass p) {c : Char} {b : UInt8}
    (hb : b ∈ String.utf8EncodeChar c) : p (byteChar b) = p c := by
  obtain ⟨b', h, rfl, -⟩ | ⟨b', later, h, -, hc, hall⟩ := utf8EncodeChar_cases c
  · rw [h, List.mem_singleton] at hb
    rw [hb]
  · rw [h] at hb
    exact hp _ _ (by rw [toNat_byteChar]; exact hall b hb) hc

/-- The characters of a class at the head of a text are those whose bytes are in it. -/
theorem takeWhile_encode {p : Char → Bool} (hp : AsciiClass p) (cs : List Char) :
    (encode cs).takeWhile (fun b => p (byteChar b)) = encode (cs.takeWhile p) := by
  induction cs with
  | nil => rfl
  | cons c cs ih =>
    have hbytes : ∀ b ∈ String.utf8EncodeChar c, p (byteChar b) = p c := fun b => hp.byte
    rw [encode_cons, List.takeWhile_cons]
    cases hc : p c with
    | true =>
      rw [hc] at hbytes
      rw [List.takeWhile_append_of_pos hbytes, ih]
      rfl
    | false =>
      obtain ⟨b, later, h⟩ := encode_ne_nil c
      rw [h, List.cons_append, List.takeWhile_cons, hbytes b (by simp [h]), hc]
      rfl

theorem asciiClass_of_lt {p : Char → Bool} (h : ∀ c, p c → c.toNat < 128) : AsciiClass p := by
  intro c d hc hd
  rw [Bool.eq_false_iff.2 fun hp => absurd (h c hp) (by omega),
    Bool.eq_false_iff.2 fun hp => absurd (h d hp) (by omega)]

theorem lt_of_isDigit {c : Char} (h : c.isDigit) : c.toNat < 128 := by
  simp only [Char.isDigit, Bool.and_eq_true, decide_eq_true_eq] at h
  exact Nat.lt_of_le_of_lt h.2 (by decide)

theorem lt_of_isAlpha {c : Char} (h : c.isAlpha) : c.toNat < 128 := by
  obtain h | h := letter_of_isAlpha h <;> exact Nat.lt_of_le_of_lt h.2 (by decide)

theorem lt_of_isWordStart {c : Char} (h : isWordStart c) : c.toNat < 128 := by
  simp only [isWordStart, Bool.or_eq_true, decide_eq_true_eq] at h
  obtain h | rfl := h
  · exact lt_of_isAlpha h
  · decide

theorem lt_of_isWordRest {c : Char} (h : isWordRest c) : c.toNat < 128 := by
  simp only [isWordRest, Char.isAlphanum, Bool.or_eq_true, decide_eq_true_eq] at h
  obtain (h | h) | rfl := h
  · exact lt_of_isAlpha h
  · exact lt_of_isDigit h
  · decide

theorem lt_of_isBlank {c : Char} (h : isBlank c) : c.toNat < 128 := by
  simp only [isBlank, Bool.or_eq_true, decide_eq_true_eq] at h
  obtain ((rfl | rfl) | rfl) | rfl := h <;> decide

/-- A character that is not ASCII is no punctuation. -/
theorem punctuation?_eq_none {c : Char} (h : 128 ≤ c.toNat) :
    punctuation? c = none ∧ withEqualSign? c = none := by
  constructor
  · unfold punctuation?
    split <;> first | rfl | exact absurd h (by decide)
  · unfold withEqualSign?
    split <;> first | rfl | exact absurd h (by decide)

/-- Where an ASCII character stands, there stands its byte, and no other character has it. -/
theorem head?_encode {a : Char} {b : UInt8} (hb : byteChar b = a) (ha : a.toNat < 128)
    (cs : List Char) : (encode cs).head? = some b ↔ cs.head? = some a := by
  cases cs with
  | nil => simp
  | cons c cs =>
    rw [encode_cons, List.head?_cons]
    obtain ⟨d, h, rfl, -⟩ | ⟨d, later, h, -, hc, hall⟩ := utf8EncodeChar_cases c
    · rw [h, List.singleton_append, List.head?_cons, Option.some_inj, Option.some_inj, ← hb]
      exact ⟨congrArg byteChar, fun h => byteChar_inj h⟩
    · rw [h, List.cons_append, List.head?_cons, Option.some_inj, Option.some_inj]
      have hd := hall d List.mem_cons_self
      constructor
      · rintro rfl
        rw [← hb, toNat_byteChar] at ha
        omega
      · rintro rfl
        omega

/-! ## Lexemes on bytes -/

/-- Bytes that neither close a string nor escape are passed over. -/
theorem quotedBytes_append {pre : List UInt8} (h : ∀ b ∈ pre, b ≠ 0x22 ∧ b ≠ 0x5C)
    (bytes : List UInt8) :
    quotedBytes (pre ++ bytes) = ((quotedBytes bytes).1, (quotedBytes bytes).2 + pre.length) := by
  induction pre with
  | nil => rfl
  | cons b pre ih =>
    obtain ⟨⟨hq, he⟩, hpre⟩ := List.forall_mem_cons.1 h
    rw [List.cons_append, quotedBytes_plain hq he, ih hpre]
    rfl

theorem plain_of_le {b : UInt8} (h : 128 ≤ b.toNat) : b ≠ 0x22 ∧ b ≠ 0x5C :=
  ⟨fun hb => absurd h (by rw [hb]; decide), fun hb => absurd h (by rw [hb]; decide)⟩

/-- The bytes of a character that is neither a quote nor a backslash, and those of any character
after its first, are none of these. -/
theorem plain_utf8EncodeChar (c : Char) : ∃ b later, String.utf8EncodeChar c = b :: later ∧
    (∀ d ∈ later, d ≠ 0x22 ∧ d ≠ 0x5C) ∧ (c ≠ '"' → c ≠ '\\' → b ≠ 0x22 ∧ b ≠ 0x5C) := by
  obtain ⟨b, h, rfl, -⟩ | ⟨b, later, h, -, -, hall⟩ := utf8EncodeChar_cases c
  · refine ⟨b, [], h, nofun, fun hq he => ⟨?_, ?_⟩⟩
    · rintro rfl; exact hq rfl
    · rintro rfl; exact he rfl
  · exact ⟨b, later, h, fun d hd => plain_of_le (hall d (List.mem_cons_of_mem _ hd)),
      fun _ _ => plain_of_le (hall b List.mem_cons_self)⟩

theorem quotedBytes_encode (cs : List Char) :
    (quotedBytes (encode cs)).1 = (quotedRest cs).1 ∧
      min (quotedBytes (encode cs)).2 (encode cs).length = byteLength (cs.take (quotedRest cs).2) := by
  simp only [length_encode]
  fun_induction quotedRest cs with
  | case1 => exact ⟨rfl, rfl⟩
  | case2 cs =>
    have hread : quotedBytes (encode ('"' :: cs)) = (.string, 1) := quotedBytes_quote _
    have hsize : ('"' : Char).utf8Size = 1 := rfl
    rw [hread]
    refine ⟨rfl, ?_⟩
    simp only [List.take_succ_cons, List.take_zero, byteLength_cons, byteLength_nil, hsize]
    omega
  | case3 c cs ih =>
    obtain ⟨b, later, hc, hlater, -⟩ := plain_utf8EncodeChar c
    have hbytes : encode ('\\' :: c :: cs) = 0x5C :: b :: (later ++ encode cs) := by
      rw [encode_cons, encode_cons, hc]
      rfl
    have hread : quotedBytes (encode ('\\' :: c :: cs)) = ((quotedBytes (encode cs)).1,
        (quotedBytes (encode cs)).2 + later.length + 2) := by
      rw [hbytes, quotedBytes_escape, quotedBytes_append hlater]
    have hsize : c.utf8Size = later.length + 1 := by
      rw [← String.length_utf8EncodeChar, hc]; rfl
    have hback : ('\\' : Char).utf8Size = 1 := rfl
    rw [hread]
    refine ⟨ih.1, ?_⟩
    simp only [List.take_succ_cons, byteLength_cons, hsize, hback, ← ih.2]
    omega
  | case4 c cs hq hb ih =>
    by_cases he : c = '\\'
    · -- a backslash at the end
      subst he
      cases cs with
      | nil => exact ⟨rfl, rfl⟩
      | cons d cs => exact absurd rfl (hb d cs rfl)
    · obtain ⟨b, later, hc, hlater, hplain⟩ := plain_utf8EncodeChar c
      have hread : quotedBytes (encode (c :: cs)) = ((quotedBytes (encode cs)).1,
          (quotedBytes (encode cs)).2 + c.utf8Size) := by
        rw [encode_cons, ← String.length_utf8EncodeChar]
        refine quotedBytes_append ?_ _
        rw [hc]
        exact List.forall_mem_cons.2 ⟨hplain (fun h => hq h) he, hlater⟩
      rw [hread]
      refine ⟨ih.1, ?_⟩
      simp only [List.take_succ_cons, byteLength_cons, ← ih.2]
      omega

theorem min_takeWhile_encode {p : Char → Bool} (hp : AsciiClass p) (cs : List Char) :
    min ((encode cs).takeWhile fun b => p (byteChar b)).length (encode cs).length =
      byteLength (cs.take (cs.takeWhile p).length) := by
  rw [Nat.min_eq_left (List.takeWhile_prefix _).length_le, takeWhile_encode hp, length_encode,
    take_takeWhile]

theorem map_byteChar_encode {cs : List Char} (h : ∀ c ∈ cs, c.toNat < 128) :
    (encode cs).map byteChar = cs := by
  induction cs with
  | nil => rfl
  | cons c cs ih =>
    obtain ⟨hc, hcs⟩ := List.forall_mem_cons.1 h
    obtain ⟨b, hb, rfl, -⟩ | ⟨b, later, -, -, hge, -⟩ := utf8EncodeChar_cases c
    · rw [encode_cons, hb, List.map_append, ih hcs]
      rfl
    · omega

theorem laterBytes_of_ascii {b : UInt8} (hb : (byteChar b).toNat < 128) : laterBytes b = 0 := by
  rw [toNat_byteChar] at hb
  rw [← UInt8.ofNat_toNat (x := b), laterBytes_of_lt _ (by omega), if_pos (by omega)]

/-- An ASCII character starts the same lexeme as its byte. -/
theorem byteLexeme_ascii {b : UInt8} (hb : (byteChar b).toNat < 128) (cs : List Char) :
    (byteLexeme b (encode cs)).1 = (lexeme (byteChar b) cs).1 ∧
      min (byteLexeme b (encode cs)).2 (encode cs).length =
        byteLength (cs.take (lexeme (byteChar b) cs).2) := by
  have hbyte (d : UInt8) {a : Char} (hd : byteChar d = a) (e : UInt8) : e = d ↔ byteChar e = a :=
    hd ▸ ⟨congrArg byteChar, byteChar_inj⟩
  have hslash : byteChar 0x2F = '/' := rfl
  unfold byteLexeme lexeme
  simp only [hbyte 0x2F hslash, hbyte 0x22 (a := '"') rfl, hbyte 0x0A (a := '\n') rfl,
    head?_encode hslash (by decide), ne_eq]
  split
  · refine ⟨rfl, min_takeWhile_encode (p := fun c => decide (¬ c = '\n')) ?_ cs⟩
    intro c d hc hd
    have hne {a : Char} (ha : 128 ≤ a.toNat) : a ≠ '\n' := by rintro rfl; exact absurd ha (by decide)
    exact (decide_eq_true (hne hc)).trans (decide_eq_true (hne hd)).symm
  split
  · exact quotedBytes_encode cs
  split
  · exact ⟨rfl, min_takeWhile_encode (asciiClass_of_lt fun _ => lt_of_isDigit) cs⟩
  split
  · refine ⟨?_, min_takeWhile_encode (asciiClass_of_lt fun _ => lt_of_isWordRest) cs⟩
    rw [List.map_cons, takeWhile_encode (asciiClass_of_lt fun _ => lt_of_isWordRest),
      map_byteChar_encode]
    exact fun c hc => lt_of_isWordRest (of_mem_takeWhile hc)
  · unfold byteOperator operator
    simp only [head?_encode (show byteChar 0x3D = '=' from rfl) (by decide)]
    cases h : if cs.head? = some '=' then withEqualSign? (byteChar b) else none with
    | some kind =>
      obtain ⟨heq, -⟩ := Option.ite_none_right_eq_some.1 h
      obtain ⟨later, rfl⟩ := List.head?_eq_some_iff.1 heq
      have hsize : ('=' : Char).utf8Size = 1 := rfl
      refine ⟨rfl, ?_⟩
      simp only [length_encode, List.take_succ_cons, List.take_zero, byteLength_cons,
        byteLength_nil, hsize]
      omega
    | none =>
      cases hp : punctuation? (byteChar b) with
      | some kind => exact ⟨rfl, Nat.zero_min _⟩
      | none => exact ⟨rfl, by simp only [laterBytes_of_ascii hb]; exact Nat.zero_min _⟩

/-- A character that is not ASCII is unknown. -/
theorem lexeme_of_le {c : Char} (hc : 128 ≤ c.toNat) (cs : List Char) :
    lexeme c cs = (.unknown, 0) := by
  have hne {a : Char} (ha : a.toNat < 128) : c ≠ a := by rintro rfl; omega
  have hclass {p : Char → Bool} (hp : p c → c.toNat < 128) : ¬ p c := fun h => by
    have := hp h; omega
  rw [lexeme, if_neg fun h => hne (by decide) h.1, if_neg (hne (by decide)),
    if_neg (hclass lt_of_isDigit), if_neg (hclass lt_of_isWordStart), operator,
    (punctuation?_eq_none hc).1, (punctuation?_eq_none hc).2, ite_self]
  rfl

/-- So are bytes that are not ASCII, and the first of them says how many more there are. -/
theorem byteLexeme_of_le {b : UInt8} (hb : 128 ≤ b.toNat) (bytes : List UInt8) :
    byteLexeme b bytes = (.unknown, laterBytes b) := by
  have hge : 128 ≤ (byteChar b).toNat := by rwa [toNat_byteChar]
  have hne {d : UInt8} (hd : d.toNat < 128) : b ≠ d := by rintro rfl; omega
  have hclass {p : Char → Bool} (hp : p (byteChar b) → (byteChar b).toNat < 128) :
      ¬ p (byteChar b) := fun h => by
    have := hp h; omega
  rw [byteLexeme, if_neg fun h => hne (by decide) h.1, if_neg (hne (by decide)),
    if_neg (hclass lt_of_isDigit), if_neg (hclass lt_of_isWordStart), byteOperator,
    (punctuation?_eq_none hge).1, (punctuation?_eq_none hge).2, ite_self]

/-- A lexeme has the same kind on the bytes of a text, and as many bytes as its characters have. -/
theorem byteLexeme_encode {c : Char} {b : UInt8} {later : List UInt8}
    (h : String.utf8EncodeChar c = b :: later) (cs : List Char) :
    (byteLexeme b (later ++ encode cs)).1 = (lexeme c cs).1 ∧
      min (byteLexeme b (later ++ encode cs)).2 (later ++ encode cs).length + 1 =
        byteLength (c :: cs.take (lexeme c cs).2) := by
  have hsize : c.utf8Size = later.length + 1 := by
    rw [← String.length_utf8EncodeChar, h]; rfl
  rw [byteLength_cons, hsize]
  obtain ⟨d, hd, rfl, hb⟩ | ⟨d, l, hd, hlater, hc, hall⟩ := utf8EncodeChar_cases c
  · obtain ⟨rfl, rfl⟩ := List.cons.inj (h.symm.trans hd)
    obtain ⟨hkind, hlen⟩ := byteLexeme_ascii hb cs
    refine ⟨hkind, ?_⟩
    rw [List.nil_append, hlen]
    exact Nat.add_comm _ _
  · obtain ⟨rfl, rfl⟩ := List.cons.inj (h.symm.trans hd)
    rw [lexeme_of_le hc, byteLexeme_of_le (hall b List.mem_cons_self), hlater]
    refine ⟨rfl, ?_⟩
    simp only [List.length_append, List.take_zero, byteLength_nil]
    omega

/-! ## Tokens on bytes -/

theorem isBlank_byteChar {c : Char} {b : UInt8} {later : List UInt8}
    (h : String.utf8EncodeChar c = b :: later) : isBlank (byteChar b) = isBlank c :=
  (asciiClass_of_lt fun _ => lt_of_isBlank).byte (by rw [h]; exact List.mem_cons_self)

theorem scanBytes_blank {c : Char} (hb : isBlank c) (start : Nat) (cs : List Char) :
    scanBytes start (encode (c :: cs)) = scanBytes (start + c.utf8Size) (encode cs) := by
  obtain ⟨b, h, rfl, -⟩ | ⟨b, later, -, -, hc, -⟩ := utf8EncodeChar_cases c
  · have hsize : (byteChar b).utf8Size = 1 := by rw [← String.length_utf8EncodeChar, h]; rfl
    rw [encode_cons, h, List.singleton_append, scanBytes, if_pos hb, hsize]
  · exact absurd (lt_of_isBlank hb) (Nat.not_lt_of_le hc)

theorem scanBytes_lexeme {c : Char} (hb : ¬ isBlank c) {kind : Kind} {n : Nat} (start : Nat)
    {cs : List Char} (hlex : lexeme c cs = (kind, n)) :
    scanBytes start (encode (c :: cs)) =
      let stop := start + byteLength (c :: cs.take n)
      let later := scanBytes stop (encode (cs.drop n))
      if kind = .comment then later else (kind, ⟨start, stop⟩) :: later := by
  obtain ⟨b, later, h⟩ := encode_ne_nil c
  obtain ⟨hkind, hlen⟩ := byteLexeme_encode h cs
  have hdrop : (later ++ encode cs).drop (byteLexeme b (later ++ encode cs)).2 =
      encode (cs.drop n) := by
    have hsplit : later ++ encode cs = (later ++ encode (cs.take n)) ++ encode (cs.drop n) := by
      rw [List.append_assoc, ← encode_append, List.take_append_drop]
    have hsize : byteLength (c :: cs.take n) = (later ++ encode (cs.take n)).length + 1 := by
      rw [← length_encode, encode_cons, h]
      rfl
    rw [hlex, hsize] at hlen
    have hleft : (later ++ encode cs).drop (later ++ encode (cs.take n)).length =
        encode (cs.drop n) := by rw [hsplit, List.drop_left]
    rw [← hleft, List.drop_eq_drop_iff, Nat.succ.inj hlen, hsplit]
    simp
  rw [encode_cons, h, List.cons_append, scanBytes, if_neg (by rwa [isBlank_byteChar h])]
  simp only [hdrop, hkind, hlen, hlex]

/-- The same kinds are found at the same places. -/
theorem scanBytes_encode (start : Nat) (cs : List Char) :
    scanBytes start (encode cs) = (scanFrom start cs).map fun t => (t.kind, t.span) := by
  fun_induction scanFrom start cs with
  | case1 start => rw [encode_nil, scanBytes]; rfl
  | case2 start c cs hb ih => rw [scanBytes_blank hb, ih]
  | case3 start c cs hb n text later hlex ih =>
    rw [scanBytes_lexeme hb start hlex]
    exact ih
  | case4 start c cs hb kind n hlex text later hk ih =>
    rw [scanBytes_lexeme hb start hlex]
    simp only [if_neg hk]
    rw [ih, List.map_cons, span, length, String.toList_ofList]

/-- The tokens of a source are its longest lexemes, in order and apart, and all else is blanks and
comments. They are found on the bytes of the source, and each begins and ends between characters. -/
theorem scan_covers (source : String) :
    Tiles 0 source.toList (scan source) ∧
      scanBytes 0 (utf8 source) = (scan source).map (fun t => (t.kind, t.span)) ∧
      (∀ t ∈ scan source, t.text ≠ "" ∧ t.span.stop ≤ (utf8 source).length ∧
        t.span.text? source = some t.text) ∧
      (scan source).Pairwise fun a b => a.span.stop ≤ b.span.start := by
  have htiles := tiles_scanFrom 0 source.toList
  refine ⟨htiles, scanBytes_encode 0 source.toList, fun t ht => ⟨?_, ?_, htiles.text? ht⟩,
    htiles.pairwise⟩
  · exact fun h => (htiles.spells ht).ne_nil (by rw [h]; rfl)
  · exact (length_encode source.toList).symm ▸ htiles.stop_le ht

end Token
end StackLang
