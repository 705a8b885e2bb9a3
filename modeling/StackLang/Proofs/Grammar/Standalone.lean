import StackLang.Proofs.Grammar.Raised
import StackLang.Proofs.Grammar.Source
import StackLang.Proofs.Grammar.Spans

/-!
# Nodes that are read on their own

The text at the span of a node is cut into the tokens of the node, wherever the text stands. So it is
read as that node again where a function is put around it, or as it is if it is a declaration.

Results:
* `Phrase.StandsAt.exists_scanFrom`: the tokens of a phrase, from the text at its span alone.
* `Node.Stands.readsAlone`: a node that is read again from its text.
* `Tree.nodes_of_ofSource`: where the nodes of a source text stand, and what their texts are read as.
-/
namespace StackLang

open Grammar

/-! ## Text at a span -/

/-- Two places between characters are the ends of a text. -/
theorem Span.text?_of_prefix {source : String} {a b : List Char} (ha : a <+: source.toList)
    (hb : b <+: source.toList) (hle : byteLength a ≤ byteLength b) :
    (Span.text? source ⟨byteLength a, byteLength b⟩).isSome := by
  have hab : a <+: b := by
    rcases List.prefix_or_prefix_of_prefix ha hb with h | h
    · exact h
    · have heq := Token.eq_of_byteLength_eq ha hb (Nat.le_antisymm hle (Token.byteLength_mono h))
      exact heq ▸ List.prefix_rfl
  obtain ⟨c, rfl⟩ := hab
  obtain ⟨rest, hrest⟩ := hb
  have htext := Span.text?_append a c rest
  rw [hrest, String.ofList_toList] at htext
  rw [byteLength_append, htext]
  rfl

namespace Token

variable {source : String} {t : Token}

/-- A token starts and stops between characters. -/
theorem exists_prefixes (ht : t ∈ scan source) : ∃ a b, a <+: source.toList ∧ b <+: source.toList ∧
    byteLength a = t.span.start ∧ byteLength b = t.span.stop := by
  obtain ⟨before, later, hcs, hstart, -⟩ := (tiles_scanFrom 0 source.toList).mem ht
  rw [Nat.zero_add] at hstart
  refine ⟨before, before ++ t.text.toList, ?_, ⟨later, hcs.symm⟩, hstart.symm, ?_⟩
  · rw [hcs, List.append_assoc]
    exact List.prefix_append _ _
  · rw [byteLength_append, ← hstart]
    rfl

/-- The tokens of a text stand in order. -/
theorem Tiles.ordered {start : Nat} {cs : List Char} {tokens : List Token} (h : Tiles start cs tokens) :
    Span.Ordered start (start + byteLength cs) (tokens.map span) := by
  induction h with
  | nil => exact Nat.le_add_right _ _
  | @cons start gap text rest kind tokens _ hl _ ih =>
    have hpos : 0 < byteLength text := by
      obtain ⟨c, cs, rfl⟩ := List.exists_cons_of_ne_nil hl.spells.ne_nil
      have := c.utf8Size_pos
      rw [byteLength_cons]
      omega
    have hstop : (⟨kind, start + byteLength gap, String.ofList text⟩ : Token).span.stop =
        start + byteLength gap + byteLength text := by
      simp only [span, length, String.toList_ofList]
    refine ⟨Nat.le_add_right _ _, ?_, ?_⟩
    · rw [hstop]
      exact Nat.lt_add_of_pos_right hpos
    · rw [hstop]
      refine ih.mono (Nat.le_refl _) ?_
      simp only [byteLength_append]
      omega

end Token

theorem Span.Anchored.text? {source : String} {s : Span} (h : s.Anchored (Token.scan source))
    (hle : s.start ≤ s.stop) : (s.text? source).isSome := by
  obtain ⟨⟨t, ht, hstart⟩, u, hu, hstop⟩ := h
  obtain ⟨a, -, ha, -, hastart, -⟩ := Token.exists_prefixes ht
  obtain ⟨-, b, -, hb, -, hbstop⟩ := Token.exists_prefixes hu
  have hs : s = ⟨byteLength a, byteLength b⟩ := by rw [hastart, hbstop, hstart, hstop]
  rw [hs] at hle ⊢
  exact text?_of_prefix ha hb hle

/-! ## A phrase by itself -/

/-- The text that a phrase takes up, wherever it is put, has the tokens of a phrase, which is the same
but for where it stands. -/
theorem Grammar.Phrase.StandsAt.exists_scanFrom {source : String} {c : Category} {d : Phrase c}
    {s : Span} (h : d.StandsAt (Token.scan source) s) :
    ∃ text, s.text? source = some (String.ofList text) ∧
      ∀ k after, (∀ a ∈ after.head?, isBlank a) → ∃ d' : Phrase c, d'.Valid ∧
        c.raise s.start d'.tree = c.raise k d.tree ∧
        scanFrom k (text ++ after) = d'.tokens ++ scanFrom (k + byteLength text) after := by
  obtain ⟨pre, post, hscan⟩ := h.tokens
  obtain ⟨hfirst, hlast⟩ := h.span
  simp only [List.head?_map, List.getLast?_map, Option.map_map, Option.map_eq_some_iff,
    Function.comp_apply] at hfirst hlast
  obtain ⟨t, ht, hstart⟩ := hfirst
  obtain ⟨u, hu, hstop⟩ := hlast
  obtain ⟨before, text, rest, hcs, htstart, hustop, hslice⟩ := Token.exists_scanFrom_slice hscan.symm ht
    hu (d.known u (List.mem_of_getLast? hu)).2
  have hbefore : s.start = byteLength before := by
    rw [← hstart, ← Nat.zero_add (byteLength before), ← htstart]
    rfl
  have hs : s.stop = s.start + byteLength text := by
    rw [← hstop, hustop, ← hstart]
    rfl
  refine ⟨text, ?_, fun k after hblank => ?_⟩
  · have htext := Span.text?_append before text rest
    rw [← hcs, String.ofList_toList, ← hbefore, ← hs] at htext
    exact htext
  · have hraise : (scanFrom k (text ++ after)).map (Token.raise s.start) =
        d.tokens.map (Token.raise k) ++
          (scanFrom (k + byteLength text) after).map (Token.raise s.start) := by
      have htstart' : t.start = s.start := hstart
      rw [← Token.scanFrom_raise, Nat.add_comm, Token.scanFrom_raise, ← htstart', hslice after hblank,
        List.map_append, ← Token.scanFrom_raise, ← Token.scanFrom_raise, hustop, htstart']
      congr 2
      omega
    obtain ⟨ts, later, hts, hmap, hlater⟩ := List.map_eq_append_iff.1 hraise
    obtain rfl := (List.map_inj_right Token.eq_of_raise_eq).1 hlater
    obtain ⟨d', rfl, hv, htree⟩ := d.exists_of_map_raise h.valid hmap
    exact ⟨d', hv, htree, hts⟩

/-! ## A function around a text -/

namespace Token

/-- A text after a blank, and the tokens of what stands before it. -/
theorem scanFrom_after {before cs : List Char} {pre : List Token} {t : Token} {b : Char} {n : Nat}
    (h : scanFrom 0 before = pre ++ [t]) (hk : t.kind ≠ .unterminatedString)
    (hstop : t.span.stop = byteLength before) (hb : isBlank b) (hn : byteLength before + b.utf8Size = n) :
    scanFrom 0 (before ++ b :: cs) = pre ++ t :: scanFrom n cs := by
  have hscan : scanFrom 0 (before ++ []) = pre ++ t :: [] := by rwa [List.append_nil]
  rw [scanFrom_cut hscan hk (hstop.trans (Nat.zero_add _).symm) fun a ha => ?_, scanFrom_blank hb, hstop,
    hn]
  obtain rfl := Option.some.inj ha
  exact hb

theorem scanFrom_header (cs : List Char) : scanFrom 0 ("fun f() ".toList ++ cs) =
    ⟨.funWord, 0, "fun"⟩ :: ⟨.identifier, 4, "f"⟩ :: ⟨.leftParen, 5, "("⟩ :: ⟨.rightParen, 6, ")"⟩ ::
      scanFrom 8 cs := by
  have hscan : scanFrom 0 "fun f()".toList = [⟨.funWord, 0, "fun"⟩, ⟨.identifier, 4, "f"⟩,
      ⟨.leftParen, 5, "("⟩] ++ [⟨.rightParen, 6, ")"⟩] := by decide +kernel
  exact scanFrom_after hscan (by decide) (by decide) (by decide) (by decide)

theorem scanFrom_opening (cs : List Char) : scanFrom 0 ("fun f() \x7b ".toList ++ cs) =
    ⟨.funWord, 0, "fun"⟩ :: ⟨.identifier, 4, "f"⟩ :: ⟨.leftParen, 5, "("⟩ :: ⟨.rightParen, 6, ")"⟩ ::
      ⟨.leftCurly, 8, "\x7b"⟩ :: scanFrom 10 cs := by
  have hscan : scanFrom 0 "fun f() \x7b".toList = [⟨.funWord, 0, "fun"⟩, ⟨.identifier, 4, "f"⟩,
      ⟨.leftParen, 5, "("⟩, ⟨.rightParen, 6, ")"⟩] ++ [⟨.leftCurly, 8, "\x7b"⟩] := by decide +kernel
  exact scanFrom_after hscan (by decide) (by decide) (by decide) (by decide)

theorem scanFrom_closing (k : Nat) : scanFrom k " \x7d".toList = [⟨.rightCurly, 1 + k, "\x7d"⟩] := by
  have hscan : scanFrom 0 " \x7d".toList = [⟨.rightCurly, 1, "\x7d"⟩] := by decide +kernel
  rw [← Nat.zero_add k, scanFrom_raise, hscan, Nat.zero_add]
  rfl

theorem scanFrom_ending (k : Nat) : scanFrom k " ; \x7d".toList =
    [⟨.semicolon, 1 + k, ";"⟩, ⟨.rightCurly, 3 + k, "\x7d"⟩] := by
  have hscan : scanFrom 0 " ; \x7d".toList = [⟨.semicolon, 1, ";"⟩, ⟨.rightCurly, 3, "\x7d"⟩] := by
    decide +kernel
  rw [← Nat.zero_add k, scanFrom_raise, hscan, Nat.zero_add]
  rfl

end Token

namespace Node

/-- What is put before and after the text of a node for the node to be read again: nothing for a
declaration, and otherwise a function, in which an expression also has a semicolon after it. A node that
can start inside of parentheses is not read again. -/
def frame? : Node → Option (String × String)
  | function _ | global _ => some ("", "")
  | block _ => some ("fun f() ", "")
  | statement (.evaluate ..) | expression (.operator ..) => none
  | statement _ => some ("fun f() \x7b ", " \x7d")
  | expression _ => some ("fun f() \x7b ", " ; \x7d")

theorem IsOpen.frame?_eq_none {n : Node} (h : n.IsOpen) : n.frame? = none := by
  cases n with
  | expression e =>
    cases e with
    | operator => rfl
    | _ => cases h
  | statement s =>
    cases s with
    | evaluate => rfl
    | _ => cases h
  | _ => cases h

theorem frame?_statement {s : Stmt} {before after : String}
    (h : (statement s).frame? = some (before, after)) :
    before = "fun f() \x7b " ∧ after = " \x7d" := by
  cases s <;> cases h <;> exact ⟨rfl, rfl⟩

theorem frame?_expression {e : Expr} {before after : String}
    (h : (expression e).frame? = some (before, after)) :
    before = "fun f() \x7b " ∧ after = " ; \x7d" := by
  cases e <;> cases h <;> exact ⟨rfl, rfl⟩

/-- The node is all there is in a tree, but for the function around it. -/
def IsAllOf (t : Tree) : Node → Prop
  | function f => t.declarations = [.function f]
  | global b => t.declarations = [.global b]
  | block b => ∃ f, t.declarations = [.function f] ∧ f.body = b
  | statement s => ∃ f, t.declarations = [.function f] ∧ f.body.statements = [s]
  | expression e => ∃ f s, t.declarations = [.function f] ∧ f.body.statements = [.evaluate e s]

/-- The text at the span of the node is read as the same node, but for where it stands, with what is put
around it. -/
def ReadsAlone (source : String) (n : Node) : Prop :=
  ∀ before after, n.frame? = some (before, after) →
    ∃ (text : String) (t : Tree) (n' : Node), n.span.text? source = some text ∧
      Tree.ofSource (before ++ text ++ after) = .ok t ∧ n'.IsAllOf t ∧
      n'.raise n.span.start = n.raise (byteLength before.toList)

end Node

namespace Grammar.Phrase

variable {source : String}

/-- A text that has the tokens of a whole program, with what is put around it, is read. -/
theorem ofSource_of_tokens {d : Program} {before after : String} {text : List Char}
    (h : scanFrom 0 (before.toList ++ (text ++ after.toList)) = d.tokens) (hv : d.Valid) :
    Tree.ofSource (before ++ String.ofList text ++ after) = .ok ⟨d.tree⟩ := by
  rw [Tree.ofSource, Token.scan, String.toList_append, String.toList_append, String.toList_ofList,
    List.append_assoc, h]
  exact Parser.ofTokens_tokens d hv

/-- A function with nothing but a body. -/
def enclosing (body : Phrase .block) : Program :=
  .cons (.function ⟨⟨.funWord, 0, "fun"⟩, rfl⟩ ⟨⟨.identifier, 4, "f"⟩, rfl⟩ ⟨⟨.leftParen, 5, "("⟩, rfl⟩
    ⟨⟨.rightParen, 6, ")"⟩, rfl⟩ body) .nil

/-- A body with nothing but a statement, up to a position. -/
def enclosed (d : Phrase (.item .statement)) (stop : Nat) : Phrase .block :=
  .block ⟨⟨.leftCurly, 8, "\x7b"⟩, rfl⟩ (.cons d .nil) ⟨⟨.rightCurly, stop, "\x7d"⟩, rfl⟩

theorem isAllOf_block (body : Phrase .block) : (Node.block body.tree).IsAllOf ⟨body.enclosing.tree⟩ :=
  ⟨⟨_, body.tree, _⟩, rfl, rfl⟩

theorem isAllOf_statement (d : Phrase (.item .statement)) (stop : Nat) :
    (Node.statement d.tree).IsAllOf ⟨(d.enclosed stop).enclosing.tree⟩ :=
  ⟨⟨_, ⟨[d.tree], _⟩, _⟩, rfl, rfl⟩

theorem isAllOf_expression (d : Phrase .expression) (semicolon : Terminal .semicolon) (stop : Nat) :
    (Node.expression d.tree).IsAllOf ⟨((evaluate d semicolon).enclosed stop).enclosing.tree⟩ :=
  ⟨⟨_, ⟨[.evaluate d.tree _], _⟩, _⟩, _, rfl, rfl⟩

theorem readsAlone_declaration {d : Phrase (.item .declaration)}
    (h : d.StandsAt (Token.scan source) d.tree.span) : d.tree.node.ReadsAlone source := by
  obtain ⟨text, htext, hread⟩ := h.exists_scanFrom
  obtain ⟨d', hv, htree, hscan⟩ := hread 0 [] (by simp)
  have hprogram : scanFrom 0 ("".toList ++ (text ++ "".toList)) = (cons d' nil).tokens := by
    rw [String.toList_empty, List.nil_append, hscan, scanFrom_nil]
    rfl
  have hsource := ofSource_of_tokens hprogram ⟨hv, trivial⟩
  have hall : d'.tree.node.IsAllOf ⟨(cons d' nil).tree⟩ := by
    show d'.tree.node.IsAllOf ⟨[d'.tree]⟩
    cases d'.tree <;> rfl
  have hraise : d'.tree.node.raise d.tree.span.start = d.tree.node.raise 0 := by
    rw [← Declaration.node_raise, ← Declaration.node_raise]
    exact congrArg Declaration.node htree
  intro before after hframe
  have hframe' : d.tree.node.frame? = some ("", "") := by
    cases d.tree <;> rfl
  cases hframe'.symm.trans hframe
  rw [Declaration.span_node]
  exact ⟨_, _, _, htext, hsource, hall, hraise⟩

theorem readsAlone_block {d : Phrase .block} (h : d.StandsAt (Token.scan source) d.tree.span) :
    (Node.block d.tree).ReadsAlone source := by
  obtain ⟨text, htext, hread⟩ := h.exists_scanFrom
  obtain ⟨d', hv, htree, hscan⟩ := hread 8 [] (by simp)
  have hprogram : scanFrom 0 ("fun f() ".toList ++ (text ++ "".toList)) = d'.enclosing.tokens := by
    rw [Token.scanFrom_header, String.toList_empty, hscan, scanFrom_nil]
    simp [enclosing]
  have hsource := ofSource_of_tokens hprogram ⟨hv, trivial⟩
  rintro before after ⟨⟩
  exact ⟨_, _, .block d'.tree, htext, hsource, d'.isAllOf_block, congrArg Node.block htree⟩

theorem readsAlone_statement {d : Phrase (.item .statement)}
    (h : d.StandsAt (Token.scan source) d.tree.span) : (Node.statement d.tree).ReadsAlone source := by
  obtain ⟨text, htext, hread⟩ := h.exists_scanFrom
  obtain ⟨d', hv, htree, hscan⟩ := hread 10 " \x7d".toList (by simp [isBlank])
  have hprogram : scanFrom 0 ("fun f() \x7b ".toList ++ (text ++ " \x7d".toList)) =
      (d'.enclosed (1 + (10 + byteLength text))).enclosing.tokens := by
    rw [Token.scanFrom_opening, hscan, Token.scanFrom_closing]
    simp [enclosing, enclosed]
  have hsource := ofSource_of_tokens hprogram ⟨⟨hv, trivial⟩, trivial⟩
  intro before after hframe
  obtain ⟨rfl, rfl⟩ := Node.frame?_statement hframe
  exact ⟨_, _, .statement d'.tree, htext, hsource, d'.isAllOf_statement _, congrArg Node.statement htree⟩

/-- An expression is read in a function if a semicolon is put after it. -/
theorem exists_ofSource_expression {d : Phrase .expression}
    (h : d.StandsAt (Token.scan source) d.tree.span) :
    ∃ text t e, d.tree.span.text? source = some text ∧
      Tree.ofSource ("fun f() \x7b " ++ text ++ " ; \x7d") = .ok t ∧ (Node.expression e).IsAllOf t ∧
      e.raise d.tree.span.start = d.tree.raise 10 := by
  obtain ⟨text, htext, hread⟩ := h.exists_scanFrom
  obtain ⟨d', hv, htree, hscan⟩ := hread 10 " ; \x7d".toList (by simp [isBlank])
  let semicolon : Terminal .semicolon := ⟨⟨.semicolon, 1 + (10 + byteLength text), ";"⟩, rfl⟩
  have hprogram : scanFrom 0 ("fun f() \x7b ".toList ++ (text ++ " ; \x7d".toList)) =
      ((evaluate d' semicolon).enclosed (3 + (10 + byteLength text))).enclosing.tokens := by
    rw [Token.scanFrom_opening, hscan, Token.scanFrom_ending]
    simp [enclosing, enclosed, semicolon]
  have hsource := ofSource_of_tokens hprogram ⟨⟨hv, trivial⟩, trivial⟩
  exact ⟨_, _, d'.tree, htext, hsource, d'.isAllOf_expression semicolon _, htree⟩

theorem readsAlone_expression {d : Phrase .expression}
    (h : d.StandsAt (Token.scan source) d.tree.span) : (Node.expression d.tree).ReadsAlone source := by
  obtain ⟨text, t, e, htext, hsource, hall, hraise⟩ := exists_ofSource_expression h
  intro before after hframe
  obtain ⟨rfl, rfl⟩ := Node.frame?_expression hframe
  exact ⟨text, t, .expression e, htext, hsource, hall, congrArg Node.expression hraise⟩

end Grammar.Phrase

/-- A node that is written is read again from its text. -/
theorem Node.Stands.readsAlone {source : String} {n : Node} (h : n.Stands (Token.scan source)) :
    n.ReadsAlone source := by
  rcases h with hopen | hwritten
  · intro before after hframe
    rw [hopen.frame?_eq_none] at hframe
    cases hframe
  · cases hwritten with
    | declaration d h => exact Phrase.readsAlone_declaration h
    | block d h => exact Phrase.readsAlone_block h
    | statement d h => exact Phrase.readsAlone_statement h
    | expression d h => exact Phrase.readsAlone_expression h

/-! ## The nodes of a source text -/

/-- What the declarations of a tree have as nodes in a row, all nodes of the tree have. -/
theorem Tree.Has.stands {ts : List Token} {lo hi : Nat} {t : Tree}
    (h : Row ts (Node.Stands ts) lo hi (t.declarations.map Declaration.node)) {n : Node} (hn : t.Has n) :
    n.Faithful ts ∧ n.span.start < n.span.stop ∧
      (n.Stands ts ∨ ∃ parent, t.Has parent ∧ n ∈ parent.children ∧ parent.Implies n) := by
  induction hn with
  | @declaration d hd =>
    have hmem : d.node ∈ t.declarations.map Declaration.node := List.mem_map_of_mem hd
    obtain ⟨hfaithful, hstands⟩ := h.each _ hmem
    exact ⟨hfaithful, (h.ordered.mem (List.mem_map_of_mem hmem)).2.1, .inl hstands⟩
  | @child n c hn hc ih =>
    obtain ⟨-, hordered, -, hallowed, hbelow⟩ := ih.1
    refine ⟨hbelow c hc, (hordered.mem (List.mem_map_of_mem hc)).2.1, ?_⟩
    rcases hallowed c hc with himplied | hstands
    · exact .inr ⟨n, hn, hc, himplied⟩
    · exact .inl hstands

/-- The declarations of a source text that is read stand in order. Each node of its tree has a span that
is not empty and has a text in the source; the nodes directly below stand in there, one after the other;
and the span of an operator goes from its first operand, or from the operator itself if that comes first,
to its last. The text at the span of a node is read as the node again, but for those that are implied. -/
theorem Tree.nodes_of_ofSource {source : String} {t : Tree} (h : Tree.ofSource source = .ok t) :
    t.declarations.Pairwise (fun a b => a.span.stop ≤ b.span.start) ∧
    ∀ n, t.Has n →
      n.span.start < n.span.stop ∧ n.span.stop ≤ byteLength source.toList ∧
      (n.span.text? source).isSome ∧
      (∀ c ∈ n.children, n.span.start ≤ c.span.start ∧ c.span.stop ≤ n.span.stop) ∧
      n.children.Pairwise (fun a b => a.span.stop ≤ b.span.start) ∧
      n.OperatorSpan (Token.scan source) ∧
      (n.ReadsAlone source ∨ ∃ parent, t.Has parent ∧ n ∈ parent.children ∧ parent.Implies n) := by
  have htiles := Token.tiles_scanFrom 0 source.toList
  obtain ⟨d, htokens, -, -, hv, rfl⟩ := (Tree.ofSource_eq_ok_iff source t).1 h
  have hordered := htiles.ordered
  have hrow : Row (Token.scan source) (Node.Stands (Token.scan source)) 0
      (0 + byteLength source.toList) (d.tree.map Declaration.node) := by
    have hnodes : d.tree.map Declaration.node = d.tree.flatMap (Item.nodes .declaration) :=
      List.map_eq_flatMap
    rw [hnodes]
    refine d.faithful (fun t ht => htiles.spells ht) hv (htokens ▸ List.infix_rfl) ?_
    rw [htokens]
    exact hordered
  refine ⟨?_, fun n hn => ?_⟩
  · have hpairwise := hrow.ordered.pairwise
    rw [List.map_map, List.pairwise_map] at hpairwise
    simpa only [Function.comp_apply, Declaration.span_node] using hpairwise
  · obtain ⟨hfaithful, hlt, hstands⟩ := hn.stands hrow
    obtain ⟨hanchored, hbelow, hoperator, -, -⟩ := hfaithful
    have htext := hanchored.text? (Nat.le_of_lt hlt)
    obtain ⟨-, u, hu, hstop⟩ := hanchored
    refine ⟨hlt, hstop ▸ htiles.stop_le hu, htext, fun c hc => ?_, List.pairwise_map.1 hbelow.pairwise,
      hoperator, hstands.imp_left Node.Stands.readsAlone⟩
    obtain ⟨hstart, -, hend⟩ := hbelow.mem (List.mem_map_of_mem hc)
    exact ⟨hstart, hend⟩

/-- The span of a negated number in parentheses takes in only one of them. -/
theorem Tree.nodes_of_ofSource_negation : ∃ t e, Tree.ofSource "let x = -(1);" = .ok t ∧
    t.Has (.expression e) ∧ e.span.text? "let x = -(1);" = some "-(1" ∧
    (Node.expression e).OperatorSpan (Token.scan "let x = -(1);") := by
  have hscan : Token.scan "let x = -(1);" = [⟨.letWord, 0, "let"⟩, ⟨.identifier, 4, "x"⟩,
      ⟨.equal, 6, "="⟩, ⟨.minus, 8, "-"⟩, ⟨.leftParen, 9, "("⟩, ⟨.number, 10, "1"⟩,
      ⟨.rightParen, 11, ")"⟩, ⟨.semicolon, 12, ";"⟩] := by decide +kernel
  obtain ⟨t, e, ht, hn, htext⟩ : ∃ t e, Tree.ofSource "let x = -(1);" = .ok t ∧
      t.Has (.expression e) ∧ e.span.text? "let x = -(1);" = some "-(1" := by
    rw [Tree.ofSource, hscan]
    exact ⟨_, _, rfl, .child (.declaration List.mem_cons_self) List.mem_cons_self, by decide⟩
  obtain ⟨-, -, -, -, -, hoperator, -⟩ := (nodes_of_ofSource ht).2 _ hn
  exact ⟨t, e, ht, hn, htext, hoperator⟩

end StackLang
