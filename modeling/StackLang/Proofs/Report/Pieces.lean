import StackLang.Proofs.Report.Highlight
import StackLang.Proofs.Token.Bytes

/-!
# What is in the pieces of coloured source

A source in colours is gaps and tokens by turns. The pieces can be cut out of the source by positions that
are found on its bytes, whatever the source is: with strings that are not closed, a backslash at the end, or
characters that no token starts with. They say all of the source, each token in the style of its kind and
nothing but blanks and comments between the tokens.

Results:
* `alternates_highlightFrom`: tokens that cover a text are its pieces, with the gaps between them.
* `highlight_exact`: the pieces of a source.
-/
namespace StackLang

/-- Pieces of a text and the tokens in them. Before each token and at the end there is a dimmed gap of blanks
and comments, which may be empty; a token is in the style of its kind. -/
inductive Alternates : List Styled → List Token → Prop
  | last {gap : List Char} (hg : Token.Gap [] gap) : Alternates [⟨.dimmed, String.ofList gap⟩] []
  | token {gap : List Char} {t : Token} {pieces : List Styled} {tokens : List Token}
    (hg : Token.Gap (t.text.toList ++ (unstyled pieces).toList) gap)
    (hl : Token.IsLexeme t.kind t.text.toList (unstyled pieces).toList) (h : Alternates pieces tokens) :
    Alternates (⟨.dimmed, String.ofList gap⟩ :: ⟨t.kind.style, t.text⟩ :: pieces) (t :: tokens)

/-- Tokens that cover a text are its pieces, with the gaps between them. -/
theorem alternates_highlightFrom {position : Nat} {cs : List Char} {tokens : List Token}
    (h : Token.Tiles position cs tokens) : Alternates (highlightFrom position cs tokens) tokens := by
  induction h with
  | nil hg => exact .last hg
  | @cons start gap text rest kind tokens hg hl _ ih =>
    let t : Token := ⟨kind, start + byteLength gap, String.ofList text⟩
    have htext : t.text.toList = text := String.toList_ofList
    have hrest : (unstyled (highlightFrom (start + byteLength gap + byteLength text) rest tokens)).toList =
        rest := by
      rw [highlightFrom_unstyled, String.toList_ofList]
    rw [highlightFrom_cons]
    refine .token (t := t) ?_ ?_ ih
    · rwa [htext, hrest]
    · rwa [htext, hrest]

/-- The tokens of a source are found on its bytes, and if it is short enough, no reading of it by their
positions fails. What is read are pieces that say the source, no more and no less:
each token in the style of its kind, with a gap of blanks and comments before it, and a last gap. -/
theorem highlight_exact (source : String) :
    Token.scanBytes 0 (utf8 source) = (Token.scan source).map (fun t => (t.kind, t.span)) ∧
    (IsShort source → highlight? source = some (highlight source)) ∧
    unstyled (highlight source) = source ∧ Alternates (highlight source) (Token.scan source) := by
  refine ⟨Token.scanBytes_encode 0 source.toList, highlight?_eq, highlight_unstyled source, ?_⟩
  exact alternates_highlightFrom (Token.tiles_scanFrom 0 source.toList)

/-- A character of two bytes that starts no token, a comment, and a string that ends in a backslash. -/
theorem highlight_exact_backslash :
    IsShort "let é // é\n\"a\\" ∧
    highlight? "let é // é\n\"a\\" = some [⟨.dimmed, ""⟩, ⟨.magenta, "let"⟩, ⟨.dimmed, " "⟩, ⟨.plain, "é"⟩,
      ⟨.dimmed, " // é\n"⟩, ⟨.green, "\"a\\"⟩, ⟨.dimmed, ""⟩] := by
  have hsize : IsShort "let é // é\n\"a\\" := by decide
  have hpieces : highlight "let é // é\n\"a\\" = [⟨.dimmed, ""⟩, ⟨.magenta, "let"⟩, ⟨.dimmed, " "⟩,
      ⟨.plain, "é"⟩, ⟨.dimmed, " // é\n"⟩, ⟨.green, "\"a\\"⟩, ⟨.dimmed, ""⟩] := by
    decide +kernel
  obtain ⟨-, hread, -, -⟩ := highlight_exact "let é // é\n\"a\\"
  exact ⟨hsize, hpieces ▸ hread hsize⟩

end StackLang
