import StackLang.Proofs.Grammar.Standalone
import StackLang.Proofs.Token.Bytes

/-!
# Texts written as literals

Any text can be written between quotes: with a backslash before each quote and each backslash, and with
line feeds and tabs as they are or as a backslash and a letter. Two readers have to agree on that. The
cut into tokens looks for the closing quote, and passes over what follows a backslash without a look at
it; what the literal stands for is found later, with a look at each escape.

Results:
* `Escaped.quotable`: the closing quote is the first one that the cut into tokens finds.
* `Escaped.escapesKnown`, `Escaped.literalText_eq`: what the contents stand for.
* `Escaped.read`: a literal is one token, and is read as the text.
-/
namespace StackLang

open Grammar

/-- The contents of a literal for a text. Each line feed and each tab can be written in two ways. -/
inductive Escaped : List Char → List Char → Prop
  | nil : Escaped [] []
  | mark {c : Char} {cs es : List Char} (hc : c = '"' ∨ c = '\\') (h : Escaped cs es) :
    Escaped (c :: cs) ('\\' :: c :: es)
  | lineFeed {cs es : List Char} (h : Escaped cs es) : Escaped ('\n' :: cs) ('\\' :: 'n' :: es)
  | tab {cs es : List Char} (h : Escaped cs es) : Escaped ('\t' :: cs) ('\\' :: 't' :: es)
  | plain {c : Char} {cs es : List Char} (hq : c ≠ '"') (hb : c ≠ '\\') (h : Escaped cs es) :
    Escaped (c :: cs) (c :: es)

/-- A text as the contents of a literal: quotes and backslashes get a backslash before them. -/
def escape : List Char → List Char
  | [] => []
  | c :: cs => if c = '"' ∨ c = '\\' then '\\' :: c :: escape cs else c :: escape cs

/-- Each text can be written: this is the least that has to be escaped. -/
theorem escaped_escape (cs : List Char) : Escaped cs (escape cs) := by
  induction cs with
  | nil => exact .nil
  | cons c cs ih =>
    rw [escape]
    split
    next hc => exact .mark hc ih
    next hc => exact .plain (fun h => hc (.inl h)) (fun h => hc (.inr h)) ih

namespace Escaped

variable {cs es : List Char}

/-- No quote in the contents closes the literal, and no backslash escapes the quote that does. -/
theorem quotable (h : Escaped cs es) : Token.Quotable es := by
  induction h with
  | nil => exact .nil
  | mark _ _ ih | lineFeed _ ih | tab _ ih => exact .escape _ ih
  | plain hq hb _ ih => exact .plain hq hb ih

theorem escapesKnown (h : Escaped cs es) : EscapesKnown es := by
  induction h with
  | nil => trivial
  | mark hc _ ih =>
    rcases hc with rfl | rfl <;> exact ⟨by decide, ih⟩
  | lineFeed _ ih | tab _ ih => exact ⟨by decide, ih⟩
  | plain hq hb _ ih =>
    rw [EscapesKnown]
    · exact ih
    · exact fun h => absurd h hb
    · exact fun _ _ h => absurd h hb

/-- The contents stand for the text. -/
theorem literalText_eq (h : Escaped cs es) : literalText es = cs := by
  induction h with
  | nil => rfl
  | mark hc _ ih =>
    rcases hc with rfl | rfl <;> exact congrArg (List.cons _) ih
  | lineFeed _ ih | tab _ ih => exact congrArg (List.cons _) ih
  | plain hq hb _ ih =>
    rw [literalText, ih]
    exact fun _ _ h => absurd h hb

/-- A literal is cut as one token that has all of it. -/
theorem scan (h : Escaped cs es) : Token.scan (String.ofList ('"' :: (es ++ ['"']))) =
    [⟨.string, 0, String.ofList ('"' :: (es ++ ['"']))⟩] := by
  have hquoted : quotedRest (es ++ ['"']) = (.string, (es ++ ['"']).length) := by
    rw [Token.quotedRest_append h.quotable, List.length_append, Nat.add_comm]
    rfl
  have hlexeme : lexeme '"' (es ++ ['"']) = (.string, (es ++ ['"']).length) := by
    rw [lexeme, if_neg (by simp), if_pos rfl, hquoted]
  rw [Token.scan, String.toList_ofList, scanFrom_lexeme (by decide) hlexeme (by decide), List.take_length,
    List.drop_length, scanFrom_nil]

/-- A text, however it is escaped, comes back. Between quotes it is cut as one string token, on the bytes
too, that has all of the literal; as an expression that token is read as a literal whose value is the
text; and so is the literal where an expression stands in a program. -/
theorem read {s : String} {es : List Char} (h : Escaped s.toList es) :
    let literal := String.ofList ('"' :: (es ++ ['"']))
    let span : Span := ⟨0, (utf8 literal).length⟩
    Token.scanBytes 0 (utf8 literal) = [(.string, span)] ∧
      Token.scan literal = [⟨.string, 0, literal⟩] ∧
      (∀ n, Parser.expression (n + 1) (.endOfFile span.stop) (Token.scan literal) =
        .ok (.string s span, [])) ∧
      ∃ t, Tree.ofSource ("fun f() \x7b " ++ literal ++ " ; \x7d") = .ok t ∧
        (Node.expression (.string s (span.raise 10))).IsAllOf t := by
  intro literal span
  have hscan : Token.scan literal = [⟨.string, 0, literal⟩] := h.scan
  let t : Terminal .string := ⟨⟨.string, 0, literal⟩, rfl⟩
  have hspan : t.1.span = span := by
    have hlength : byteLength literal.toList = (utf8 literal).length := (Token.length_encode _).symm
    rw [Token.span, Token.length, hlength]
    exact congrArg (Span.mk 0) (Nat.zero_add _)
  have hcontents : t.1.contents = es := by
    rw [Token.contents, String.toList_ofList, List.tail_cons, List.dropLast_concat]
  -- the literal as a phrase
  have hv : (Phrase.string t).Valid := by
    show EscapesKnown t.1.contents
    rw [hcontents]
    exact h.escapesKnown
  have htree : (Phrase.string t).tree = .string s span := by
    show Expr.string (String.ofList (literalText t.1.contents)) t.1.span = _
    rw [hcontents, h.literalText_eq, String.ofList_toList, hspan]
  have hstands : (Phrase.plain (.string t)).ofUnary.StandsAt (Token.scan literal) span :=
    ⟨⟨⟨hv, trivial⟩, trivial⟩, by rw [hscan]; exact List.infix_rfl, hspan ▸ Span.covers_singleton _⟩
  refine ⟨?_, hscan, fun n => ?_, ?_⟩
  · rw [(Token.scan_covers literal).2.1, hscan, ← hspan]
    rfl
  · rw [hscan, ← htree]
    exact Parser.complete_expression (Phrase.plain (.string t)).ofUnary hstands.valid
      (Nat.le_add_left 1 n) (Category.endOfFile_not_mem_continues _)
  · have htree' : (Phrase.plain (.string t)).ofUnary.tree = .string s span := htree
    have hstands' : (Phrase.plain (.string t)).ofUnary.StandsAt (Token.scan literal)
        (Phrase.plain (.string t)).ofUnary.tree.span := by rwa [htree']
    obtain ⟨text, p, e, htext, hsource, hall, hraise⟩ := Phrase.exists_ofSource_expression hstands'
    rw [htree'] at htext hraise
    have hliteral : span.text? literal = some literal := by
      rw [← hspan]
      exact ((Token.scan_covers literal).2.2.1 t.1 (by rw [hscan]; exact List.mem_cons_self)).2.2
    obtain rfl : literal = text := Option.some.inj (hliteral.symm.trans htext)
    have he : e = .string s (span.raise 10) := by
      cases e with
      | string value place =>
        obtain ⟨rfl, hplace⟩ := Expr.string.inj hraise
        exact congrArg (Expr.string _) hplace
      | _ => cases hraise
    exact ⟨p, hsource, he ▸ hall⟩

/-- A text with a quote, a backslash, a character of two bytes, and one of two line feeds escaped. -/
theorem read_mixed :
    let literal := "\"\\\"\\\\é\\n\n\""
    Token.scan literal = [⟨.string, 0, literal⟩] ∧
      Parser.expression 1 (.endOfFile 11) (Token.scan literal) =
        .ok (.string "\"\\é\n\n" ⟨0, 11⟩, []) := by
  have h : Escaped "\"\\é\n\n".toList ['\\', '"', '\\', '\\', 'é', '\\', 'n', '\n'] :=
    .mark (.inl rfl) (.mark (.inr rfl) (.plain (by decide) (by decide) (.lineFeed
      (.plain (by decide) (by decide) .nil))))
  exact ⟨(read h).2.1, (read h).2.2.1 0⟩

end Escaped
end StackLang
