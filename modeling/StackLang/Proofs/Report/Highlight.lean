import StackLang.Proofs.Token.Tiling
import StackLang.Report.Highlight

/-!
# Source text cut out by positions

The pieces of a source text in colours go from the end of one token to the start of the next one and to
its end. They can be read from the source by these positions alone. A reading fails where a range is
reversed, where it cuts a character in two, and where a position is no word of 32 bits, and there are no
tokens to begin with if the source is too long.

Results:
* `highlightFrom_cons`: the pieces of a gap and a token, and then those of what follows.
* `piecesFrom?_of_tiles`: tokens that cover a text cut it where characters start.
* `highlight?_eq`: no reading fails, and what is read are the pieces of the source.
-/
namespace StackLang

/-- The pieces of a source from a byte position on, read by the positions of the tokens. -/
def piecesFrom? (source : String) (position : Nat) : List Token → Option (List Styled)
  | [] => do
    let gap ← Span.text? source ⟨position, byteLength source.toList⟩
    return [⟨.dimmed, gap⟩]
  | t :: ts => do
    let gap ← Span.text? source ⟨position, t.span.start⟩
    let text ← t.span.text? source
    if t.span.stop < 0x100000000 then
      let later ← piecesFrom? source t.span.stop ts
      return ⟨.dimmed, gap⟩ :: ⟨t.kind.style, text⟩ :: later
    else none

/-- The pieces of a source text, read by the positions of its tokens. -/
def highlight? (source : String) : Option (List Styled) := do
  piecesFrom? source 0 (← Token.scan? source)

/-- A text is cut in two after the bytes of its first part. -/
theorem cutBytes_byteLength (a b : List Char) : cutBytes (byteLength a) (a ++ b) = (a, b) := by
  induction a with
  | nil =>
    cases b with
    | nil => rfl
    | cons c b => exact if_neg (Nat.not_le_of_lt c.utf8Size_pos)
  | cons c a ih =>
    rw [byteLength_cons, List.cons_append, cutBytes, if_pos (Nat.le_add_right ..),
      Nat.add_sub_cancel_left, ih]

/-- The pieces of a text that starts with a gap and a token. -/
theorem highlightFrom_cons (position : Nat) (gap text rest : List Char) (kind : Token.Kind)
    (tokens : List Token) :
    highlightFrom position (gap ++ text ++ rest)
      (⟨kind, position + byteLength gap, String.ofList text⟩ :: tokens) =
    ⟨.dimmed, String.ofList gap⟩ :: ⟨kind.style, String.ofList text⟩ ::
      highlightFrom (position + byteLength gap + byteLength text) rest tokens := by
  have hcut : cutBytes (byteLength gap) (gap ++ text ++ rest) = (gap, text ++ rest) := by
    rw [List.append_assoc, cutBytes_byteLength]
  simp only [highlightFrom, Token.length, String.toList_ofList, Nat.add_sub_cancel_left, hcut,
    cutBytes_byteLength]

/-- Tokens that cover the rest of a source cut it where characters start. -/
theorem piecesFrom?_of_tiles {source : String} {before cs : List Char} {position : Nat}
    {tokens : List Token} (htiles : Token.Tiles position cs tokens)
    (hsource : source.toList = before ++ cs) (hposition : position = byteLength before)
    (hsize : IsShort source) :
    piecesFrom? source position tokens = some (highlightFrom position cs tokens) := by
  have hslice {a b c : List Char} (h : source.toList = a ++ b ++ c) :
      Span.text? source ⟨byteLength a, byteLength a + byteLength b⟩ = some (String.ofList b) := by
    rw [← Span.text?_append a b c, ← h, String.ofList_toList]
  induction htiles generalizing before with
  | @nil position gap hg =>
    have hgap := hslice (c := []) (hsource.trans (List.append_nil _).symm)
    rw [← byteLength_append, ← hsource, ← hposition] at hgap
    rw [piecesFrom?, hgap]
    rfl
  | @cons position gap text rest kind tokens hg hl h ih =>
    subst hposition
    have hgap := hslice (a := before) (b := gap) (c := text ++ rest) (by
      rw [hsource, List.append_assoc, List.append_assoc])
    have hrest : source.toList = before ++ gap ++ text ++ rest := by
      rw [hsource, ← List.append_assoc, ← List.append_assoc]
    have htext := hslice hrest
    rw [byteLength_append] at htext
    have hlater := ih hrest (by rw [byteLength_append, byteLength_append])
    have hstop : byteLength before + byteLength gap + byteLength text < 0x100000000 := by
      rw [IsShort, positionLimit, hrest, byteLength_append, byteLength_append, byteLength_append] at hsize
      omega
    rw [highlightFrom_cons]
    simp only [piecesFrom?, Token.span, Token.length, String.toList_ofList, hgap, htext, hlater,
      if_pos hstop]
    rfl

/-- Text that is put in colours is cut where characters start, and nothing else is in the way. -/
theorem highlight?_eq {source : String} (h : IsShort source) :
    highlight? source = some (highlight source) := by
  rw [highlight?, Token.scan?, if_pos h]
  exact piecesFrom?_of_tiles (Token.tiles_scanFrom 0 source.toList) (List.nil_append _).symm rfl h

end StackLang
