import StackLang.Proofs.Assembled.Sizes
import StackLang.Proofs.Grammar.Spellings

/-!
# Where the errors of assembly stand

An error of assembly is found in the tree, and names and spans in the tree were put there by the parser. So
the place of the error is a place in the source: that of a name, which is the text there; of a call, which
is read as that call again from its text; or of a variable that is declared outside all functions. Only a
missing start has no place.

Results:
* `Node.ReadsAlone.call`, `Node.ReadsAlone.global`: calls and variables at the top level from their texts.
* `located_of_assemble`: where a source text that is read but not assembled is at fault.
-/
namespace StackLang

/-! ## Texts of errors -/

/-- The text is a call of the name with so many arguments. With a semicolon after it, in a function, all of
it is read as that. -/
def IsCall (text callee : String) (count : Nat) : Prop :=
  ∃ t name args, Tree.ofSource ("fun f() \x7b " ++ text ++ " ; \x7d") = .ok t ∧
    (Node.expression (.call name args ⟨10, 10 + byteLength text.toList⟩)).IsAllOf t ∧
    name.text = callee ∧ args.length = count

/-- The text is the declaration of a variable, and all of it is read as that. -/
def IsBinding (text : String) : Prop :=
  ∃ b : Binding, Tree.ofSource text = .ok ⟨[.global b]⟩ ∧ b.span = ⟨0, byteLength text.toList⟩

/-- The text is what the error is about. -/
def AssemblyError.Marks (text : String) : AssemblyError → Prop
  | undefinedVariable name | functionNotFound name | duplicateFunction name => text = name.text
  | argumentCount callee _ received _ => IsCall text callee received
  | noValue callee _ => ∃ count, IsCall text callee count
  | unsupportedDeclaration _ => IsBinding text
  | missingMain | unresolvedLabel _ => False

/-- The span is a part of the source that is not empty, and the text there is what the error is about. -/
def Span.Locates (source : String) (e : AssemblyError) (s : Span) : Prop :=
  s.start < s.stop ∧ s.stop ≤ byteLength source.toList ∧
    ∃ text, s.text? source = some text ∧ e.Marks text

theorem byteLength_of_takeBytes? {n : Nat} {cs taken : List Char} (h : takeBytes? n cs = some taken) :
    byteLength taken = n := by
  fun_induction takeBytes? n cs generalizing taken with
  | case1 => cases h; rfl
  | case2 => cases h
  | case3 n c cs hle ih =>
    obtain ⟨rest, hrest, rfl⟩ := Option.map_eq_some_iff.1 h
    rw [byteLength_cons, ih hrest]
    omega
  | case4 => cases h

theorem Span.byteLength_of_text? {source text : String} {s : Span} (h : s.text? source = some text)
    (hle : s.stop ≤ byteLength source.toList) : s.start + byteLength text.toList = s.stop := by
  rw [Span.text?, Nat.min_eq_left hle] at h
  split at h
  · obtain ⟨rest, -, h⟩ := Option.bind_eq_some_iff.1 h
    obtain ⟨taken, htaken, rfl⟩ := Option.map_eq_some_iff.1 h
    rw [String.toList_ofList, byteLength_of_takeBytes? htaken]
    omega
  · cases h

variable {source : String} {t : Tree}

/-! ## Names -/

/-- A name that is a token of the source is its own text there. -/
theorem Lexeme.text?_of_token {name : Lexeme} (h : ∃ token ∈ Token.scan source, token.lexeme = name) :
    name.span.start < name.span.stop ∧ name.span.stop ≤ byteLength source.toList ∧
      name.span.text? source = some name.text := by
  obtain ⟨token, htoken, rfl⟩ := h
  have htiles := Token.tiles_scanFrom 0 source.toList
  obtain ⟨-, hlt, -⟩ := htiles.ordered.mem (List.mem_map_of_mem htoken)
  exact ⟨hlt, htiles.stop_le htoken, htiles.text? htoken⟩

/-! ## Calls and variables -/

theorem Span.eq_of_raise {a b : Span} {text : String} {k : Nat}
    (hraise : a.raise b.start = b.raise k) (hlength : b.start + byteLength text.toList = b.stop) :
    a = ⟨k, k + byteLength text.toList⟩ := by
  obtain ⟨hstart, hstop⟩ := Span.mk.inj hraise
  have hsame : a.start = k ∧ a.stop = k + byteLength text.toList := by omega
  exact congrArg₂ Span.mk hsame.1 hsame.2

/-- The text of a call is the call. -/
theorem Node.ReadsAlone.call {callee : Lexeme} {args : List Expr} {s : Span}
    (h : (Node.expression (.call callee args s)).ReadsAlone source)
    (hle : s.stop ≤ byteLength source.toList) :
    ∃ text, s.text? source = some text ∧ IsCall text callee.text args.length := by
  obtain ⟨text, t, n, htext, hread, hall, hraise⟩ := h _ _ rfl
  have hlength := Span.byteLength_of_text? htext hle
  cases n with
  | expression e =>
    cases e with
    | call name args' place =>
      obtain ⟨hname, hargs, hplace⟩ := Expr.call.inj (Node.expression.inj hraise)
      obtain rfl := Span.eq_of_raise hplace hlength
      rw [Expr.raiseEach_eq_map, Expr.raiseEach_eq_map] at hargs
      refine ⟨text, htext, t, name, args', hread, hall, (Lexeme.mk.inj hname).1, ?_⟩
      simpa using congrArg List.length hargs
    | _ => cases hraise
  | _ => cases hraise

/-- The text of a variable at the top level is its declaration. -/
theorem Node.ReadsAlone.global {b : Binding} (h : (Node.global b).ReadsAlone source)
    (hle : b.span.stop ≤ byteLength source.toList) :
    ∃ text, b.span.text? source = some text ∧ IsBinding text := by
  obtain ⟨text, t, n, htext, hread, hall, hraise⟩ := h _ _ rfl
  have hlength := Span.byteLength_of_text? htext hle
  cases n with
  | global b' =>
    have hspan : b'.span = ⟨0, 0 + byteLength text.toList⟩ :=
      Span.eq_of_raise (congrArg Node.span hraise) hlength
    rw [Nat.zero_add] at hspan
    obtain ⟨declarations⟩ := t
    cases hall
    rw [String.empty_append, String.append_empty] at hread
    exact ⟨text, htext, b', hread, hspan⟩
  | _ => cases hraise

/-- The nodes of a source text that can be read by themselves are. -/
theorem Tree.Has.readsAlone (hparse : Tree.ofSource source = .ok t) {n : Node} (hn : t.Has n)
    (himplied : ∀ parent : Node, ¬ parent.Implies n) :
    n.span.start < n.span.stop ∧ n.span.stop ≤ byteLength source.toList ∧ n.ReadsAlone source := by
  obtain ⟨hlt, hle, -, -, -, -, halone | ⟨parent, -, -, h⟩⟩ :=
    (Tree.nodes_of_ofSource hparse).2 n hn
  · exact ⟨hlt, hle, halone⟩
  · exact absurd h (himplied parent)

/-! ## Errors of assembly -/

theorem Span.locates_of_name {e : AssemblyError} {name : Lexeme}
    (hname : ∃ token ∈ Token.scan source, token.lexeme = name) (he : e.Marks name.text) :
    name.span.Locates source e := by
  obtain ⟨hlt, hle, htext⟩ := Lexeme.text?_of_token hname
  exact ⟨hlt, hle, name.text, htext, he⟩

theorem Span.locates_of_call (hparse : Tree.ofSource source = .ok t) {callee : Lexeme}
    {args : List Expr} {s : Span} (has : t.Has (.expression (.call callee args s))) {e : AssemblyError}
    (he : ∀ text, IsCall text callee.text args.length → e.Marks text) : s.Locates source e := by
  obtain ⟨hlt, hle, halone⟩ := has.readsAlone hparse fun _ h => by cases h
  obtain ⟨text, htext, hcall⟩ := halone.call hle
  exact ⟨hlt, hle, text, htext, he text hcall⟩

/-- What a tree that was read is to blame for stands where the error says. -/
theorem Tree.Blames.locates (hparse : Tree.ofSource source = .ok t) {e : AssemblyError}
    (h : t.Blames e) {s : Span} (hs : e.span? = some s) : s.Locates source e := by
  have hspelled {n : Node} (hn : t.Has n) := (Tree.spelled_of_ofSource hparse hn).name
  cases h with
  | undefinedVariable has =>
    cases hs
    exact Span.locates_of_name (hspelled has) rfl
  | functionNotFound has =>
    cases hs
    exact Span.locates_of_name (hspelled has) rfl
  | missingMain => cases hs
  | @duplicateFunction before after f g split =>
    cases hs
    have hmem : Declaration.function f ∈ t.declarations := by simp [split]
    exact Span.locates_of_name (hspelled (.declaration hmem)) rfl
  | argumentCount has =>
    cases hs
    exact Span.locates_of_call hparse has fun _ => id
  | noValue has =>
    cases hs
    exact Span.locates_of_call hparse has fun _ h => ⟨_, h⟩
  | unsupportedDeclaration mem =>
    cases hs
    obtain ⟨hlt, hle, halone⟩ := (Tree.Has.declaration mem).readsAlone hparse fun _ h => by cases h
    obtain ⟨text, htext, hbinding⟩ := halone.global hle
    exact ⟨hlt, hle, text, htext, hbinding⟩

theorem Tree.Blames.span?_eq_none_iff {e : AssemblyError} (h : t.Blames e) :
    e.span? = none ↔ e = .missingMain := by
  cases h with
  | missingMain => exact ⟨fun _ => rfl, fun _ => rfl⟩
  | _ => exact ⟨nofun, nofun⟩

/-- Where a source text, shorter than the places in it can be, is read but not assembled, the error is about
a part of the tree, and its span is where that part stands: it is not empty, it lies in the source between
characters, and the text there is the name, the call or the declaration that the error is about. Only a
missing start has no span. -/
theorem located_of_assemble {e : AssemblyError} (hsize : IsShort source)
    (hparse : Tree.ofSource source = .ok t) (hassemble : t.assemble = .error e) :
    t.Blames e ∧ (e.span? = none ↔ e = .missingMain) ∧
      ∀ s, e.span? = some s → s.Locates source e := by
  have hhead := Tree.head?_violations_of_assemble hsize hparse hassemble
  have hblames := Tree.blames_of_mem_violations (Tree.operatorsApplied_of_ofSource hparse)
    (List.mem_of_head? hhead)
  exact ⟨hblames, hblames.span?_eq_none_iff, fun _ => hblames.locates hparse⟩

/-- A call with arguments of a function that takes none, which is itself an operand. -/
theorem call_with_arguments_located : ∃ t,
    Tree.ofSource "fun f() \x7b \x7d fun main() \x7b let x = 2 * f(1, \"é\"); \x7d" = .ok t ∧
    t.assemble = .error (.argumentCount "f" 0 2 ⟨37, 47⟩) ∧
    t.Blames (.argumentCount "f" 0 2 ⟨37, 47⟩) ∧
    Span.Locates "fun f() \x7b \x7d fun main() \x7b let x = 2 * f(1, \"é\"); \x7d"
      (.argumentCount "f" 0 2 ⟨37, 47⟩) ⟨37, 47⟩ := by
  have hscan : Token.scan "fun f() \x7b \x7d fun main() \x7b let x = 2 * f(1, \"é\"); \x7d" =
      [⟨.funWord, 0, "fun"⟩, ⟨.identifier, 4, "f"⟩, ⟨.leftParen, 5, "("⟩, ⟨.rightParen, 6, ")"⟩,
        ⟨.leftCurly, 8, "\x7b"⟩, ⟨.rightCurly, 10, "\x7d"⟩, ⟨.funWord, 12, "fun"⟩,
        ⟨.identifier, 16, "main"⟩, ⟨.leftParen, 20, "("⟩, ⟨.rightParen, 21, ")"⟩,
        ⟨.leftCurly, 23, "\x7b"⟩, ⟨.letWord, 25, "let"⟩, ⟨.identifier, 29, "x"⟩, ⟨.equal, 31, "="⟩,
        ⟨.number, 33, "2"⟩, ⟨.star, 35, "*"⟩, ⟨.identifier, 37, "f"⟩, ⟨.leftParen, 38, "("⟩,
        ⟨.number, 39, "1"⟩, ⟨.comma, 40, ","⟩, ⟨.string, 42, "\"é\""⟩, ⟨.rightParen, 46, ")"⟩,
        ⟨.semicolon, 47, ";"⟩, ⟨.rightCurly, 49, "\x7d"⟩] := by decide +kernel
  have hsize : IsShort "fun f() \x7b \x7d fun main() \x7b let x = 2 * f(1, \"é\"); \x7d" := by decide
  obtain ⟨t, hparse, hassemble⟩ : ∃ t,
      Tree.ofSource "fun f() \x7b \x7d fun main() \x7b let x = 2 * f(1, \"é\"); \x7d" = .ok t ∧
        t.assemble = .error (.argumentCount "f" 0 2 ⟨37, 47⟩) := by
    rw [Tree.ofSource, hscan]
    exact ⟨_, rfl, rfl⟩
  obtain ⟨hblames, -, hlocates⟩ := located_of_assemble hsize hparse hassemble
  exact ⟨t, hparse, hassemble, hblames, hlocates _ rfl⟩

end StackLang
