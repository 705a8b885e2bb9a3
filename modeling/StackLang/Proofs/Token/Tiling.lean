import StackLang.Token.Lexer

/-!
# How tokens cover a source

The lexical form of each kind of token is described by the texts that have it, without saying how
they are found. The tokens of a source are cut from it in order: before each of them, and after the
last, there is nothing but blanks and comments, and each is the longest text there that has the form
of a token or comment.

Results:
* `spells_lexeme`, `longest_lexeme`: the lexeme at the head of a text has its form, and no longer
  one has any.
* `tiles_scanFrom`: tokens and gaps cover a text.
* `Tiles.pairwise`, `Tiles.text?`: tokens do not overlap, and their spans read their texts.
-/
namespace StackLang
namespace Token

/-! ## Lexical forms -/

/-- What a string holds between its quotes: characters other than quotes and backslashes, and
backslashes with the characters that they escape. -/
inductive Quotable : List Char → Prop
  | nil : Quotable []
  | plain {c : Char} {cs : List Char} (hq : c ≠ '"') (hb : c ≠ '\\') (h : Quotable cs) :
    Quotable (c :: cs)
  | escape (c : Char) {cs : List Char} (h : Quotable cs) : Quotable ('\\' :: c :: cs)

/-- An ASCII letter or underscore, and then letters, digits and underscores. -/
def IsWord : List Char → Prop
  | [] => False
  | c :: cs => isWordStart c ∧ ∀ d ∈ cs, isWordRest d

/-- The words that are no names. -/
def keywords : List Kind := [.elseWord, .funWord, .ifWord, .letWord, .returnWord, .whileWord]

/-- The texts that have the form of a kind. A character that no form starts with is unknown. -/
def Kind.Form (kind : Kind) (text : List Char) : Prop :=
  match kind with
  | identifier => IsWord text ∧ ∀ word ∈ keywords, text ≠ word.name.toList
  | number => text ≠ [] ∧ ∀ c ∈ text, c.isDigit
  | string => ∃ body, Quotable body ∧ text = '"' :: (body ++ ['"'])
  | unterminatedString =>
    ∃ body, Quotable body ∧ (text = '"' :: body ∨ text = '"' :: (body ++ ['\\']))
  | comment => ∃ body, '\n' ∉ body ∧ text = '/' :: '/' :: body
  | unknown | endOfFile => False
  | kind => text = kind.name.toList

/-- The texts that a token of the kind can have. -/
def Kind.Spells (kind : Kind) (text : List Char) : Prop :=
  kind.Form text ∨
    kind = unknown ∧ ∃ c, text = [c] ∧ ∀ (other : Kind) (later : List Char), ¬ other.Form (c :: later)

/-- No longer text from the same place has the form of a token or comment. -/
def Longest (text rest : List Char) : Prop :=
  ∀ (kind : Kind) (longer : List Char), longer <+: text ++ rest → kind.Form longer →
    longer.length ≤ text.length

/-- A token of the kind has this text, with the text `rest` after it. Only at the end can it be a
string that is not closed. -/
structure IsLexeme (kind : Kind) (text rest : List Char) : Prop where
  token : kind ≠ .comment
  spells : kind.Spells text
  longest : Longest text rest
  last : kind = .unterminatedString → rest = []

/-- Blanks and comments, each comment up to the end of its line, before the text `rest`. -/
inductive Gap (rest : List Char) : List Char → Prop
  | nil : Gap rest []
  | blank {c : Char} {gap : List Char} (hc : c ∈ [' ', '\t', '\r', '\n']) (h : Gap rest gap) :
    Gap rest (c :: gap)
  | comment {text gap : List Char} (ht : Kind.comment.Form text)
    (hend : ∀ c ∈ (gap ++ rest).head?, c = '\n') (h : Gap rest gap) : Gap rest (text ++ gap)

/-- The tokens of a text whose first character is at the byte position `start`. -/
inductive Tiles : Nat → List Char → List Token → Prop
  | nil {start : Nat} {gap : List Char} (hg : Gap [] gap) : Tiles start gap []
  | cons {start : Nat} {gap text rest : List Char} {kind : Kind} {tokens : List Token}
    (hg : Gap (text ++ rest) gap) (hl : IsLexeme kind text rest)
    (h : Tiles (start + byteLength gap + byteLength text) rest tokens) :
    Tiles start (gap ++ text ++ rest)
      (⟨kind, start + byteLength gap, String.ofList text⟩ :: tokens)

/-! ## Forms and their first characters -/

/-- The forms of more than a text or two, by their first characters. -/
theorem Kind.Form.cases {kind : Kind} {c : Char} {cs : List Char} (h : kind.Form (c :: cs)) :
    (isWordStart c ∧ ∀ d ∈ cs, isWordRest d) ∨ (c.isDigit ∧ ∀ d ∈ cs, d.isDigit) ∨
      (c = '"' ∧ ∃ body last, Quotable body ∧ cs = body ++ last ∧ last ∈ [[], ['"'], ['\\']]) ∨
      (c = '/' ∧ ∃ body, cs = '/' :: body ∧ '\n' ∉ body) ∨
      (punctuation? c = some kind ∧ cs = []) ∨ (withEqualSign? c = some kind ∧ cs = ['=']) := by
  cases kind with
  | identifier => exact .inl h.1
  | number => exact .inr (.inl ⟨h.2 _ List.mem_cons_self, fun d hd => h.2 d (List.mem_cons_of_mem _ hd)⟩)
  | string =>
    obtain ⟨body, hb, heq⟩ := h
    cases heq
    exact .inr (.inr (.inl ⟨rfl, body, _, hb, rfl, by simp⟩))
  | unterminatedString =>
    obtain ⟨body, hb, heq | heq⟩ := h <;> cases heq
    · exact .inr (.inr (.inl ⟨rfl, _, [], hb, by simp, by simp⟩))
    · exact .inr (.inr (.inl ⟨rfl, body, _, hb, rfl, by simp⟩))
  | comment =>
    obtain ⟨body, hb, heq⟩ := h
    cases heq
    exact .inr (.inr (.inr (.inl ⟨rfl, body, rfl, hb⟩)))
  | unknown | endOfFile => exact h.elim
  | elseWord | funWord | ifWord | letWord | returnWord | whileWord =>
    cases h
    exact .inl ⟨rfl, List.all_eq_true.1 rfl⟩
  | _ =>
    cases h
    first
    | exact .inr (.inr (.inr (.inr (.inl ⟨rfl, rfl⟩))))
    | exact .inr (.inr (.inr (.inr (.inr ⟨rfl, rfl⟩))))

/-! ## Strings -/

theorem quotedRest_append {body : List Char} (hb : Quotable body) (rest : List Char) :
    quotedRest (body ++ rest) = ((quotedRest rest).1, (quotedRest rest).2 + body.length) := by
  induction hb with
  | nil => rfl
  | plain hq hb _ ih =>
    rw [List.cons_append, quotedRest, ih, List.length_cons, Nat.add_assoc]
    · exact hq
    · exact fun _ _ h => absurd h hb
  | escape c _ ih =>
    rw [List.cons_append, List.cons_append, quotedRest, ih]
    rfl

/-- Any text starts with what a string can hold, up to a quote, or up to the end. -/
theorem exists_quotable (cs : List Char) : ∃ body rest, Quotable body ∧ cs = body ++ rest ∧
    (rest = [] ∨ rest = ['\\'] ∨ ∃ later, rest = '"' :: later) := by
  fun_induction quotedRest cs with
  | case1 => exact ⟨[], [], .nil, rfl, .inl rfl⟩
  | case2 later => exact ⟨[], _, .nil, rfl, .inr (.inr ⟨later, rfl⟩)⟩
  | case3 c cs ih =>
    obtain ⟨body, rest, hb, rfl, hrest⟩ := ih
    exact ⟨_, rest, .escape c hb, rfl, hrest⟩
  | case4 c cs hq hb ih =>
    obtain ⟨body, rest, hbody, rfl, hrest⟩ := ih
    by_cases h : c = '\\'
    · obtain rfl := h
      cases body with
      | nil =>
        cases rest with
        | nil => exact ⟨[], _, .nil, rfl, .inr (.inl rfl)⟩
        | cons d rest => exact absurd rfl (hb d rest rfl)
      | cons d body => exact absurd rfl (hb d (body ++ rest) rfl)
    · exact ⟨_, rest, .plain (fun h => hq h) h hbody, rfl, hrest⟩

/-! ## Lexemes -/

theorem longest_take {c : Char} {cs : List Char} {n : Nat}
    (h : ∀ (kind : Kind) (l : List Char), l <+: cs → kind.Form (c :: l) → l.length ≤ n) :
    Longest (c :: cs.take n) (cs.drop n) := by
  intro kind longer hprefix hform
  rw [List.cons_append, List.take_append_drop] at hprefix
  cases longer with
  | nil => exact Nat.zero_le _
  | cons d l =>
    obtain ⟨rfl, hl⟩ := List.cons_prefix_cons.1 hprefix
    have hlen := hl.length_le
    have hn := h kind l hl hform
    simp only [List.length_cons, List.length_take]
    omega

theorem take_takeWhile (p : Char → Bool) (cs : List Char) :
    cs.take (cs.takeWhile p).length = cs.takeWhile p :=
  (List.prefix_iff_eq_take.1 (List.takeWhile_prefix p)).symm

theorem length_le_takeWhile {p : Char → Bool} {l cs : List Char} (hl : l <+: cs)
    (h : ∀ d ∈ l, p d) : l.length ≤ (cs.takeWhile p).length := by
  obtain ⟨rest, rfl⟩ := hl
  rw [List.takeWhile_append_of_pos h, List.length_append]
  exact Nat.le_add_right _ _

theorem of_mem_takeWhile {p : Char → Bool} {d : Char} {cs : List Char} (h : d ∈ cs.takeWhile p) :
    p d :=
  List.all_eq_true.1 List.all_takeWhile d h

/-- What follows the characters that are taken is not taken. -/
theorem not_of_mem_head?_drop {p : Char → Bool} {d : Char} {cs : List Char}
    (h : d ∈ (cs.drop (cs.takeWhile p).length).head?) : p d = false := by
  induction cs with
  | nil => cases h
  | cons c cs ih =>
    rw [List.takeWhile_cons] at h
    split at h
    · exact ih h
    · next hc =>
      cases h
      exact Bool.eq_false_iff.2 hc

theorem form_wordKind {word : List Char} (h : IsWord word) : (wordKind word).Form word := by
  unfold wordKind
  iterate 6
    split
    · assumption
  refine ⟨h, fun k hk => ?_⟩
  simp only [keywords, List.mem_cons, List.not_mem_nil, or_false] at hk
  rcases hk with rfl | rfl | rfl | rfl | rfl | rfl <;> assumption

/-- A character of punctuation is of no other class. -/
theorem class_of_punctuation? {c : Char} {kind : Kind} (h : punctuation? c = some kind) :
    c.isDigit = false ∧ isWordStart c = false ∧ c ≠ '"' := by
  unfold punctuation? at h
  split at h <;> first | decide | cases h

theorem class_of_withEqualSign? {c : Char} {kind : Kind} (h : withEqualSign? c = some kind) :
    ∃ kind', punctuation? c = some kind' ∧ c ≠ '/' := by
  unfold withEqualSign? at h
  split at h <;> first | exact ⟨_, rfl, by decide⟩ | cases h

theorem form_of_punctuation? {c : Char} {kind : Kind} (h : punctuation? c = some kind) :
    kind.Form [c] ∧ kind ≠ .unterminatedString ∧ kind ≠ .comment := by
  unfold punctuation? at h
  split at h <;> cases h <;> exact ⟨rfl, by decide⟩

theorem form_of_withEqualSign? {c : Char} {kind : Kind} (h : withEqualSign? c = some kind) :
    kind.Form [c, '='] ∧ kind ≠ .unterminatedString ∧ kind ≠ .comment := by
  unfold withEqualSign? at h
  split at h <;> cases h <;> exact ⟨rfl, by decide⟩

/-- The letters are those of ASCII. -/
theorem letter_of_isAlpha {c : Char} (h : c.isAlpha) :
    (65 ≤ c.val ∧ c.val ≤ 90) ∨ (97 ≤ c.val ∧ c.val ≤ 122) :=
  (Bool.or_eq_true_iff.1 h).imp of_decide_eq_true fun h =>
    (Bool.and_eq_true_iff.1 h).imp of_decide_eq_true of_decide_eq_true

theorem isWordStart_of_isDigit {c : Char} (h : c.isDigit) : isWordStart c = false := by
  rw [Bool.eq_false_iff]
  intro hstart
  rcases Bool.or_eq_true_iff.1 hstart with hletter | hunderscore
  · have := letter_of_isAlpha hletter
    simp only [Char.isDigit] at h
    grind
  · rw [of_decide_eq_true hunderscore] at h
    cases h

/-- A digit starts a number only. -/
theorem isLexeme_number {c : Char} (hc : c.isDigit) (cs : List Char) :
    IsLexeme .number (c :: cs.take (cs.takeWhile Char.isDigit).length)
      (cs.drop (cs.takeWhile Char.isDigit).length) := by
  refine ⟨nofun, .inl ⟨List.cons_ne_nil _ _, ?_⟩, longest_take fun kind l hl hform => ?_, nofun⟩
  · rw [take_takeWhile]
    exact List.forall_mem_cons.2 ⟨hc, fun d hd => of_mem_takeWhile hd⟩
  · rcases hform.cases with ⟨h, -⟩ | ⟨-, h⟩ | ⟨rfl, -⟩ | ⟨rfl, -⟩ | ⟨h, -⟩ | ⟨h, -⟩
    · rw [isWordStart_of_isDigit hc] at h; cases h
    · exact length_le_takeWhile hl h
    · cases hc
    · cases hc
    · rw [(class_of_punctuation? h).1] at hc; cases hc
    · obtain ⟨_, h, -⟩ := class_of_withEqualSign? h
      rw [(class_of_punctuation? h).1] at hc; cases hc

/-- A letter starts a word only. -/
theorem isLexeme_word {c : Char} (hc : isWordStart c) (cs : List Char) :
    IsLexeme (wordKind (c :: cs.takeWhile isWordRest))
      (c :: cs.take (cs.takeWhile isWordRest).length)
      (cs.drop (cs.takeWhile isWordRest).length) := by
  have hword : IsWord (c :: cs.takeWhile isWordRest) := ⟨hc, fun d hd => of_mem_takeWhile hd⟩
  have hform := form_wordKind hword
  refine ⟨fun h => ?_, .inl ?_, longest_take fun kind l hl hform => ?_, fun h => ?_⟩
  · rw [h] at hform
    obtain ⟨body, -, heq⟩ := hform
    obtain ⟨rfl, -⟩ := List.cons.inj heq
    cases hc
  · rwa [take_takeWhile]
  · rcases hform.cases with ⟨-, h⟩ | ⟨h, -⟩ | ⟨rfl, -⟩ | ⟨rfl, -⟩ | ⟨h, -⟩ | ⟨h, -⟩
    · exact length_le_takeWhile hl h
    · rw [isWordStart_of_isDigit h] at hc; cases hc
    · cases hc
    · cases hc
    · rw [(class_of_punctuation? h).2.1] at hc; cases hc
    · obtain ⟨_, h, -⟩ := class_of_withEqualSign? h
      rw [(class_of_punctuation? h).2.1] at hc; cases hc
  · rw [h] at hform
    obtain ⟨body, -, heq | heq⟩ := hform <;> obtain ⟨rfl, -⟩ := List.cons.inj heq <;> cases hc

/-- A quote starts a string only. -/
theorem isLexeme_string (cs : List Char) :
    IsLexeme (quotedRest cs).1 ('"' :: cs.take (quotedRest cs).2) (cs.drop (quotedRest cs).2) := by
  obtain ⟨body, rest, hbody, rfl, hrest⟩ := exists_quotable cs
  refine ⟨?_, .inl ?_, longest_take fun kind l hl hform => ?_, ?_⟩
  · rw [quotedRest_append hbody]
    obtain rfl | rfl | ⟨later, rfl⟩ := hrest <;> exact nofun
  · rw [quotedRest_append hbody, Nat.add_comm, List.take_length_add_append]
    obtain rfl | rfl | ⟨later, rfl⟩ := hrest
    · exact ⟨body, hbody, .inl (congrArg _ (List.append_nil body))⟩
    · exact ⟨body, hbody, .inr rfl⟩
    · exact ⟨body, hbody, rfl⟩
  · rcases hform.cases with ⟨h, -⟩ | ⟨h, -⟩ | ⟨-, body', last, hbody', rfl, hlast⟩ | ⟨h, -⟩ | ⟨h, -⟩ |
      ⟨h, -⟩
    · cases h
    · cases h
    · obtain ⟨after, hafter⟩ := hl
      rw [← hafter, List.append_assoc, quotedRest_append hbody', List.length_append, Nat.add_comm]
      refine Nat.add_le_add_right ?_ _
      simp only [List.mem_cons, List.not_mem_nil, or_false] at hlast
      obtain rfl | rfl | rfl := hlast
      · exact Nat.zero_le _
      · exact Nat.le_refl 1
      · cases after <;> simp [quotedRest]
    · exact absurd h (by decide)
    · cases h
    · cases h
  · rw [quotedRest_append hbody, Nat.add_comm, List.drop_length_add_append]
    obtain rfl | rfl | ⟨later, rfl⟩ := hrest
    · exact fun _ => rfl
    · exact fun _ => rfl
    · exact nofun

theorem head?_mono {l cs : List Char} (hl : l <+: cs) {d : Char} (h : l.head? = some d) :
    cs.head? = some d := by
  obtain ⟨later, rfl⟩ := hl
  rw [List.head?_append, h]
  rfl

section

variable {c : Char} (hq : c ≠ '"') (hd : c.isDigit = false) (hw : isWordStart c = false)

include hq hd hw

/-- A character that starts no string, number or word starts an operator only, if no comment. -/
theorem Kind.Form.operator {kind : Kind} {l : List Char} (hform : kind.Form (c :: l))
    (hl : ¬ (c = '/' ∧ l.head? = some '/')) :
    (punctuation? c = some kind ∧ l = []) ∨ (withEqualSign? c = some kind ∧ l = ['=']) := by
  rcases hform.cases with ⟨h, -⟩ | ⟨h, -⟩ | ⟨h, -⟩ | ⟨h, body, rfl, -⟩ | h | h
  · rw [hw] at h; cases h
  · rw [hd] at h; cases h
  · exact absurd h hq
  · exact absurd ⟨h, rfl⟩ hl
  · exact .inl h
  · exact .inr h

/-- An operator of two characters. -/
theorem isLexeme_pair {kind : Kind} (h : withEqualSign? c = some kind) (cs : List Char) :
    IsLexeme kind [c, '='] cs := by
  obtain ⟨hform, hlast, htoken⟩ := form_of_withEqualSign? h
  have hlongest : Longest (c :: ('=' :: cs).take 1) (('=' :: cs).drop 1) := by
    refine longest_take fun other l hl hother => ?_
    rcases hother.operator hq hd hw fun h => nomatch head?_mono hl h.2 with ⟨-, rfl⟩ | ⟨-, rfl⟩
    · exact Nat.zero_le _
    · exact Nat.le_refl 1
  exact ⟨htoken, .inl hform, hlongest, fun h => absurd h hlast⟩

/-- A character that starts nothing else is of no form. -/
theorem spells_unknown (h : punctuation? c = none) : Kind.unknown.Spells [c] := by
  refine .inr ⟨rfl, c, rfl, fun other later hform => ?_⟩
  have hslash : c ≠ '/' := fun hc => by rw [hc] at h; cases h
  rcases hform.operator hq hd hw fun h => hslash h.1 with ⟨hp, -⟩ | ⟨he, -⟩
  · rw [h] at hp; cases hp
  · obtain ⟨_, hp, -⟩ := class_of_withEqualSign? he
    rw [h] at hp; cases hp

/-- An operator of one character, or a character that nothing starts with. -/
theorem isLexeme_single {cs : List Char} (hc : ¬ (c = '/' ∧ cs.head? = some '/'))
    (hnone : (if cs.head? = some '=' then withEqualSign? c else none) = none) :
    IsLexeme ((punctuation? c).getD .unknown) [c] cs := by
  have hlongest : Longest (c :: cs.take 0) (cs.drop 0) := by
    refine longest_take fun other l hl hform => ?_
    rcases hform.operator hq hd hw fun h => hc ⟨h.1, head?_mono hl h.2⟩ with ⟨-, rfl⟩ | ⟨h, rfl⟩
    · exact Nat.le_refl 0
    · rw [if_pos (head?_mono hl rfl), h] at hnone
      cases hnone
  cases hp : punctuation? c with
  | some kind =>
    obtain ⟨hform, hlast, htoken⟩ := form_of_punctuation? hp
    exact ⟨htoken, .inl hform, hlongest, fun h => absurd h hlast⟩
  | none => exact ⟨nofun, spells_unknown hq hd hw hp, hlongest, nofun⟩

/-- The one or two characters of an operator, or one that nothing starts with. -/
theorem isLexeme_operator {cs : List Char} (hc : ¬ (c = '/' ∧ cs.head? = some '/')) :
    IsLexeme (operator c cs).1 (c :: cs.take (operator c cs).2) (cs.drop (operator c cs).2) := by
  unfold operator
  split
  next kind hkind =>
    obtain ⟨heq, hkind⟩ := Option.ite_none_right_eq_some.1 hkind
    obtain ⟨later, rfl⟩ := List.head?_eq_some_iff.1 heq
    exact isLexeme_pair hq hd hw hkind later
  next hnone => exact isLexeme_single hq hd hw hc hnone

end

/-- A comment goes to the end of its line. -/
theorem isComment_take {cs : List Char} (h : cs.head? = some '/') :
    Kind.comment.Form ('/' :: cs.take (cs.takeWhile (· ≠ '\n')).length) ∧
      ∀ d ∈ (cs.drop (cs.takeWhile (· ≠ '\n')).length).head?, d = '\n' := by
  constructor
  · obtain ⟨later, rfl⟩ := List.head?_eq_some_iff.1 h
    rw [take_takeWhile]
    exact ⟨later.takeWhile (· ≠ '\n'), fun hmem => by simpa using of_mem_takeWhile hmem, rfl⟩
  · exact fun d hd => by simpa using not_of_mem_head?_drop hd

/-- The lexeme at the head of a text is a longest one, or a comment. -/
theorem isLexeme_lexeme (c : Char) (cs : List Char) :
    IsLexeme (lexeme c cs).1 (c :: cs.take (lexeme c cs).2) (cs.drop (lexeme c cs).2) ∨
    ((lexeme c cs).1 = .comment ∧ Kind.comment.Form (c :: cs.take (lexeme c cs).2) ∧
      ∀ d ∈ (cs.drop (lexeme c cs).2).head?, d = '\n') := by
  unfold lexeme
  split
  next h =>
    obtain ⟨rfl, h⟩ := h
    exact .inr ⟨rfl, isComment_take h⟩
  next hcomment =>
  split
  next hq =>
    subst hq
    exact .inl (isLexeme_string cs)
  next hq =>
  split
  next hd => exact .inl (isLexeme_number hd cs)
  next hd =>
  split
  next hw => exact .inl (isLexeme_word hw cs)
  next hw =>
    exact .inl (isLexeme_operator hq (Bool.eq_false_iff.2 hd) (Bool.eq_false_iff.2 hw) hcomment)

/-! ## Tokens -/

theorem Gap.blank_of_isBlank {rest gap : List Char} {c : Char} (hc : isBlank c) (h : Gap rest gap) :
    Gap rest (c :: gap) :=
  .blank (by simpa [isBlank, or_assoc] using hc) h

/-- More characters between the start and the first token. -/
theorem Tiles.prepend {start : Nat} {pre cs : List Char} {tokens : List Token}
    (h : Tiles (start + byteLength pre) cs tokens)
    (hgap : ∀ {gap rest : List Char}, gap ++ rest = cs → Gap rest gap → Gap rest (pre ++ gap)) :
    Tiles start (pre ++ cs) tokens := by
  cases h with
  | nil hg => exact .nil (hgap (List.append_nil cs) hg)
  | @cons _ gap text rest kind tokens hg hl h =>
    have hstart : start + byteLength pre + byteLength gap = start + byteLength (pre ++ gap) := by
      rw [byteLength_append, Nat.add_assoc]
    rw [← List.append_assoc, ← List.append_assoc, hstart]
    rw [hstart] at h
    exact .cons (hgap (List.append_assoc ..).symm hg) hl h

/-- Tokens and gaps cover a text. -/
theorem tiles_scanFrom (start : Nat) (cs : List Char) : Tiles start cs (scanFrom start cs) := by
  fun_induction scanFrom start cs with
  | case1 start => exact .nil .nil
  | case2 start c cs hb ih =>
    rw [← List.singleton_append]
    exact ih.prepend fun _ hg => hg.blank_of_isBlank hb
  | case3 start c cs hb n text later hlex ih =>
    -- a comment
    rcases isLexeme_lexeme c cs with h | ⟨-, hform, hend⟩
    · exact absurd (congrArg (·.1) hlex) h.token
    · rw [hlex] at hform hend
      rw [← List.take_append_drop n cs]
      refine ih.prepend fun heq hg => .comment hform ?_ hg
      rwa [heq]
  | case4 start c cs hb kind n hlex text later hk ih =>
    rcases isLexeme_lexeme c cs with h | ⟨hc, -⟩
    · rw [hlex] at h
      have htiles := Tiles.cons (@Gap.nil _) h ih
      rwa [List.nil_append, List.cons_append, List.take_append_drop] at htiles
    · rw [hlex] at hc
      exact absurd hc hk

/-! ## What a cover says of its tokens -/

theorem Kind.Spells.ne_nil {kind : Kind} {text : List Char} (h : kind.Spells text) : text ≠ [] := by
  rintro rfl
  obtain h | ⟨-, c, h, -⟩ := h
  · cases kind with
    | identifier => exact h.1
    | number => exact h.1 rfl
    | string | comment => obtain ⟨body, -, h⟩ := h; cases h
    | unterminatedString => obtain ⟨body, -, h | h⟩ := h <;> cases h
    | unknown | endOfFile => exact h
    | _ => cases h
  · cases h

/-- A text of several lines has only the form of a string. -/
theorem Kind.Form.newline_notMem {kind : Kind} {text : List Char} (h : kind.Form text)
    (hs : kind ≠ .string) (hu : kind ≠ .unterminatedString) : '\n' ∉ text := by
  cases kind with
  | identifier =>
    cases text with
    | nil => exact h.1.elim
    | cons c cs =>
      intro hmem
      rcases List.mem_cons.1 hmem with rfl | hmem
      · exact absurd h.1.1 (by decide)
      · exact absurd (h.1.2 _ hmem) (by decide)
  | number => exact fun hmem => absurd (h.2 _ hmem) (by decide)
  | comment =>
    obtain ⟨body, hbody, rfl⟩ := h
    simpa using hbody
  | string => exact absurd rfl hs
  | unterminatedString => exact absurd rfl hu
  | unknown | endOfFile => exact h.elim
  | _ => cases h; decide

/-- A token is a part of the text, and its position says where the part starts. -/
theorem Tiles.mem {start : Nat} {cs : List Char} {tokens : List Token} (h : Tiles start cs tokens)
    {t : Token} (ht : t ∈ tokens) : ∃ before later, cs = before ++ t.text.toList ++ later ∧
      t.start = start + byteLength before ∧ IsLexeme t.kind t.text.toList later := by
  induction h with
  | nil => cases ht
  | @cons start gap text rest kind tokens _ hl _ ih =>
    rcases List.mem_cons.1 ht with rfl | ht
    · exact ⟨gap, rest, by rw [String.toList_ofList], rfl, by rwa [String.toList_ofList]⟩
    · obtain ⟨before, later, rfl, hstart, hform⟩ := ih ht
      refine ⟨gap ++ text ++ before, later, by simp only [List.append_assoc], ?_, hform⟩
      rw [hstart]
      simp only [byteLength_append, Nat.add_assoc]

theorem Tiles.spells {start : Nat} {cs : List Char} {tokens : List Token}
    (h : Tiles start cs tokens) {t : Token} (ht : t ∈ tokens) : t.kind.Spells t.text.toList := by
  obtain ⟨_, _, -, -, hl⟩ := h.mem ht
  exact hl.spells

theorem Tiles.start_le {start : Nat} {cs : List Char} {tokens : List Token}
    (h : Tiles start cs tokens) {t : Token} (ht : t ∈ tokens) : start ≤ t.start := by
  obtain ⟨before, later, -, hstart, -⟩ := h.mem ht
  rw [hstart]
  exact Nat.le_add_right _ _

/-- Tokens stand one after the other. -/
theorem Tiles.pairwise {start : Nat} {cs : List Char} {tokens : List Token}
    (h : Tiles start cs tokens) : tokens.Pairwise fun a b => a.span.stop ≤ b.span.start := by
  induction h with
  | nil => exact .nil
  | cons _ _ h ih =>
    refine List.pairwise_cons.2 ⟨fun t ht => ?_, ih⟩
    have := h.start_le ht
    rwa [span, length, String.toList_ofList]

/-- The span of a token reads its text. -/
theorem Tiles.text? {source : String} {tokens : List Token} (h : Tiles 0 source.toList tokens)
    {t : Token} (ht : t ∈ tokens) : t.span.text? source = some t.text := by
  obtain ⟨before, later, hcs, hstart, -⟩ := h.mem ht
  have := Span.text?_append before t.text.toList later
  rw [← hcs, String.ofList_toList, String.ofList_toList] at this
  rwa [span, length, hstart, Nat.zero_add]

theorem Tiles.stop_le {cs : List Char} {tokens : List Token} (h : Tiles 0 cs tokens)
    {t : Token} (ht : t ∈ tokens) : t.span.stop ≤ byteLength cs := by
  obtain ⟨before, later, rfl, hstart, -⟩ := h.mem ht
  simp only [span, length, hstart, byteLength_append]
  omega

end Token
end StackLang
