import StackLang.Tree.Basic

/-!
# The nodes of a tree

The nodes of a tree are its functions, its variables at the top level, and their blocks, statements and
expressions. Each has a span and the nodes directly below it, in the order in which they are written. A
node can be raised: put so many bytes further on.

Results:
* `Span.ordered_append`: spans in order, and more of them after those.
* `Span.Ordered.cover`: spans in order take up the span from the first to the last.
* `Span.raise_merge`: spans are raised together.
-/
namespace StackLang

/-! ## Nodes -/

/-- A node of a tree. The target of an assignment is an expression, as any variable. -/
inductive Node where
  | function (f : Function)
  | global (b : Binding)
  | block (b : Block Stmt)
  | statement (s : Stmt)
  | expression (e : Expr)

namespace Node

/-- Where the node stands. -/
def span : Node → Span
  | function f => f.span
  | global b => b.span
  | block b => b.span
  | statement s => s.span
  | expression e => e.span

/-- The expression of a node that may have none. -/
def ofOption (value : Option Expr) : List Node := value.toList.map expression

/-- The nodes directly below a node, in the order in which they are written. -/
def children : Node → List Node
  | function f => [block f.body]
  | global b => ofOption b.value
  | block b => b.statements.map statement
  | statement (.declare b) => ofOption b.value
  | statement (.evaluate e _) => [expression e]
  | statement (.loop c body _) => [expression c, block body]
  | statement (.ifThen c body _) => [expression c, block body]
  | statement (.ifElse c body other _) => [expression c, block body, block other]
  | statement (.assign target value _) => [expression (.reference target), expression value]
  | statement (.giveBack value _) => ofOption value
  | expression (.operator _ operands _) => operands.map expression
  | expression (.call _ args _) => args.map expression
  | expression _ => []

end Node

/-- A declaration as a node. -/
def Declaration.node : Declaration → Node
  | function f => .function f
  | global b => .global b

@[simp] theorem Declaration.span_node (d : Declaration) : d.node.span = d.span := by
  cases d <;> rfl

/-- The node is a node of the tree. -/
inductive Tree.Has (t : Tree) : Node → Prop
  | declaration {d : Declaration} (hd : d ∈ t.declarations) : t.Has d.node
  | child {n c : Node} (hn : t.Has n) (hc : c ∈ n.children) : t.Has c

/-! ## Spans in order -/

namespace Span

/-- The spans stand one after the other between two positions, and none is empty. -/
def Ordered (lo hi : Nat) : List Span → Prop
  | [] => lo ≤ hi
  | s :: ss => lo ≤ s.start ∧ s.start < s.stop ∧ Ordered s.stop hi ss

/-- The span goes from the first of the spans to the last. -/
def Covers (s : Span) (ss : List Span) : Prop :=
  ss.head?.map start = some s.start ∧ ss.getLast?.map stop = some s.stop

variable {lo hi : Nat} {s : Span} {ss ss' : List Span}

theorem Ordered.le (h : Ordered lo hi ss) : lo ≤ hi := by
  induction ss generalizing lo with
  | nil => exact h
  | cons s ss ih =>
    have := ih h.2.2
    have := h.1
    have := h.2.1
    omega

theorem Ordered.mono {lo' hi' : Nat} (h : Ordered lo hi ss) (hlo : lo' ≤ lo) (hhi : hi ≤ hi') :
    Ordered lo' hi' ss := by
  induction ss generalizing lo lo' with
  | nil => exact Nat.le_trans hlo (Nat.le_trans h hhi)
  | cons s ss ih => exact ⟨Nat.le_trans hlo h.1, h.2.1, ih h.2.2 (Nat.le_refl _)⟩

/-- Spans in order, and then others. -/
theorem ordered_append : Ordered lo hi (ss ++ ss') ↔ ∃ mid, Ordered lo mid ss ∧ Ordered mid hi ss' := by
  induction ss generalizing lo with
  | nil =>
    constructor
    · exact fun h => ⟨lo, Nat.le_refl lo, h⟩
    · rintro ⟨mid, hle, h⟩
      exact h.mono hle (Nat.le_refl hi)
  | cons s ss ih =>
    simp only [List.cons_append, Ordered, ih]
    constructor
    · rintro ⟨hlo, hlt, mid, h, h'⟩
      exact ⟨mid, ⟨hlo, hlt, h⟩, h'⟩
    · rintro ⟨mid, ⟨hlo, hlt, h⟩, h'⟩
      exact ⟨hlo, hlt, mid, h, h'⟩

theorem Ordered.sublist (h : Ordered lo hi ss) (hsub : ss'.Sublist ss) : Ordered lo hi ss' := by
  induction hsub generalizing lo with
  | slnil => exact h
  | cons s _ ih => exact ih (h.2.2.mono (by have := h.1; have := h.2.1; omega) (Nat.le_refl hi))
  | cons_cons s _ ih => exact ⟨h.1, h.2.1, ih h.2.2⟩

theorem Ordered.mem (h : Ordered lo hi ss) (hs : s ∈ ss) :
    lo ≤ s.start ∧ s.start < s.stop ∧ s.stop ≤ hi := h.sublist (List.singleton_sublist.2 hs)

theorem Ordered.pairwise (h : Ordered lo hi ss) : ss.Pairwise fun a b => a.stop ≤ b.start := by
  induction ss generalizing lo with
  | nil => exact .nil
  | cons s ss ih => exact List.pairwise_cons.2 ⟨fun b hb => (h.2.2.mem hb).1, ih h.2.2⟩

/-- Spans in order are in order from the start of the first to the end of the last. -/
theorem Ordered.cover (h : Ordered lo hi ss) (hs : s.Covers ss) :
    Ordered lo hi [s] ∧ Ordered s.start s.stop ss := by
  obtain ⟨a, hfirst, ha⟩ := Option.map_eq_some_iff.1 hs.1
  obtain ⟨b, hlast, hb⟩ := Option.map_eq_some_iff.1 hs.2
  obtain ⟨later, rfl⟩ := List.head?_eq_some_iff.1 hfirst
  obtain ⟨init, hinit⟩ := List.getLast?_eq_some_iff.1 hlast
  have hcut : Ordered s.start hi (init ++ [b]) := by
    rw [← hinit, ← ha]
    exact ⟨Nat.le_refl _, h.2⟩
  obtain ⟨mid, hl, hle, hlt, hhi⟩ := ordered_append.1 hcut
  have hmid := hl.le
  rw [hinit]
  refine ⟨⟨ha ▸ h.1, ?_, hb ▸ hhi⟩, ordered_append.2 ⟨mid, hl, hle, hlt, hb ▸ Nat.le_refl _⟩⟩
  omega

theorem merge_of_le {a b : Span} (hstart : a.start ≤ b.start) (hstop : a.stop ≤ b.stop) :
    a.merge b = ⟨a.start, b.stop⟩ := by
  rw [merge, Nat.min_eq_left hstart, Nat.max_eq_right hstop]

end Span

/-! ## Nodes further on -/

/-- A span so many bytes further on. -/
def Span.raise (k : Nat) (s : Span) : Span := ⟨s.start + k, s.stop + k⟩

theorem Span.raise_merge (k : Nat) (a b : Span) :
    (a.merge b).raise k = (a.raise k).merge (b.raise k) := by
  simp only [merge, raise, Nat.add_min_add_right, Nat.add_max_add_right]

/-- A text that is spelled so many bytes further on. -/
def Lexeme.raise (k : Nat) (l : Lexeme) : Lexeme := ⟨l.text, l.span.raise k⟩

namespace Expr

mutual

/-- An expression so many bytes further on. -/
def raise (k : Nat) : Expr → Expr
  | .integer value s => .integer value (s.raise k)
  | .string value s => .string value (s.raise k)
  | .reference name => .reference (name.raise k)
  | .operator symbol operands s => .operator (symbol.raise k) (raiseEach k operands) (s.raise k)
  | .call callee args s => .call (callee.raise k) (raiseEach k args) (s.raise k)

/-- Expressions so many bytes further on. -/
def raiseEach (k : Nat) : List Expr → List Expr
  | [] => []
  | e :: es => raise k e :: raiseEach k es

end

theorem raiseEach_eq_map (k : Nat) (es : List Expr) : raiseEach k es = es.map (raise k) := by
  induction es with
  | nil => rfl
  | cons e es ih => rw [raiseEach, ih, List.map_cons]

@[simp] theorem span_raise (k : Nat) (e : Expr) : (e.raise k).span = e.span.raise k := by
  cases e <;> rfl

end Expr

namespace Stmt

/-- The declaration of a variable so many bytes further on. -/
def raiseBinding (k : Nat) (b : Binding) : Binding :=
  ⟨b.name, b.value.map (Expr.raise k), b.span.raise k⟩

mutual

/-- A statement so many bytes further on. -/
def raise (k : Nat) : Stmt → Stmt
  | .declare binding => .declare (raiseBinding k binding)
  | .evaluate e s => .evaluate (e.raise k) (s.raise k)
  | .loop condition body s => .loop (condition.raise k) (raiseBlock k body) (s.raise k)
  | .ifThen condition body s => .ifThen (condition.raise k) (raiseBlock k body) (s.raise k)
  | .ifElse condition body other s =>
    .ifElse (condition.raise k) (raiseBlock k body) (raiseBlock k other) (s.raise k)
  | .assign target value s => .assign (target.raise k) (value.raise k) (s.raise k)
  | .giveBack value s => .giveBack (value.map (Expr.raise k)) (s.raise k)

/-- A block so many bytes further on. -/
def raiseBlock (k : Nat) : Block Stmt → Block Stmt
  | ⟨statements, s⟩ => ⟨raiseAll k statements, s.raise k⟩

/-- Statements so many bytes further on. -/
def raiseAll (k : Nat) : List Stmt → List Stmt
  | [] => []
  | s :: ss => raise k s :: raiseAll k ss

end

theorem raiseAll_eq_map (k : Nat) (ss : List Stmt) : raiseAll k ss = ss.map (raise k) := by
  induction ss with
  | nil => rfl
  | cons s ss ih => rw [raiseAll, ih, List.map_cons]

@[simp] theorem span_raise (k : Nat) (s : Stmt) : (s.raise k).span = s.span.raise k := by
  cases s <;> rfl

@[simp] theorem span_raiseBlock (k : Nat) (b : Block Stmt) : (raiseBlock k b).span = b.span.raise k := by
  cases b
  rfl

end Stmt

/-- A declaration so many bytes further on. -/
def Declaration.raise (k : Nat) : Declaration → Declaration
  | function f => .function ⟨f.name.raise k, Stmt.raiseBlock k f.body, f.span.raise k⟩
  | global b => .global (Stmt.raiseBinding k b)

/-- A node so many bytes further on. -/
def Node.raise (k : Nat) : Node → Node
  | function f => ((Declaration.function f).raise k).node
  | global b => ((Declaration.global b).raise k).node
  | block b => block (Stmt.raiseBlock k b)
  | statement s => statement (s.raise k)
  | expression e => expression (e.raise k)

theorem Declaration.node_raise (k : Nat) (d : Declaration) : (d.raise k).node = d.node.raise k := by
  cases d <;> rfl

end StackLang
