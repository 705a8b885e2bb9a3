import StackLang.Report.Styled

/-!
# What comes out of styled text

What is said to the user is text in parts, some of them codes of styles. A terminal makes colours of
these, and what goes elsewhere is rid of them. Which codes there are, and what else is left out with
them, is up to the console; it is relied on to let plain text through (`Console.KeepsPlain`).
-/
namespace StackLang

/-- How text is written to the user. -/
structure Console where
  /-- The codes of styles. -/
  codes : StyleCodes
  /-- What comes out of a text in parts. -/
  write : List String → String

/-- The character is no control character, or it is the line feed. -/
def isPlainChar (c : Char) : Bool :=
  c = '\n' || 0x20 ≤ c.toNat && !(0x7F ≤ c.toNat && c.toNat ≤ 0x9F)

/-- A text of one line or more, without any other control character. -/
def IsPlain (text : String) : Prop := ∀ c ∈ text.toList, isPlainChar c

instance (text : String) : Decidable (IsPlain text) :=
  decidable_of_iff (text.toList.all isPlainChar) List.all_eq_true

namespace Console

/-- Plain text comes out as it is. -/
def KeepsPlain (console : Console) : Prop :=
  ∀ parts, (∀ part ∈ parts, IsPlain part) → console.write parts = String.join parts

/-- The console that has no codes and writes all text as it is. -/
def bare : Console := ⟨fun _ => ("", ""), String.join⟩

end Console
end StackLang
