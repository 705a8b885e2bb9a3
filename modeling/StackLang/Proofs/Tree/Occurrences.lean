import StackLang.Core.Resolve
import StackLang.Proofs.Tree.WellFormed

/-!
# Occurrences of variables

Where a function mentions its variables, in the order of evaluation, and which `let` each mention is of.
The `let`s of a function are numbered as they are written. A name means the latest `let` of it that comes
before in the innermost block around it that has one.

Results:
* `Function.binders_declarations`: the `let`s of a function have the numbers from 0 on.
* `Scope.Means.declare`: a scope is kept up by adding each `let` in front.
-/
namespace StackLang

/-! ## Blocks and their variables -/

/-- The `let`s that come before a place of a function: those of each block around it, innermost first. In
a block they stand as they are written, each with its number. -/
abbrev Blocks := List (List (String × Nat))

namespace Blocks

/-- The number of the latest `let` of a name in the innermost block that has one. -/
def binder? (blocks : Blocks) (name : String) : Option Nat :=
  blocks.findSome? fun lets => (lets.filter (·.1 = name)).getLast?.map (·.2)

/-- The blocks after another `let`. -/
def declare (name : String) (number : Nat) : Blocks → Blocks
  | [] => [[(name, number)]]
  | lets :: outer => (lets ++ [(name, number)]) :: outer

variable (blocks : Blocks)

theorem binder?_declare_self (name : String) (number : Nat) :
    (blocks.declare name number).binder? name = some number := by
  cases blocks <;> simp [declare, binder?]

theorem binder?_declare_of_ne {name other : String} (h : name ≠ other) (number : Nat) :
    (blocks.declare name number).binder? other = blocks.binder? other := by
  cases blocks <;> simp [declare, binder?, List.findSome?_cons, h]

end Blocks

/-- A scope has the slots that are the numbers of the `let`s. -/
def Scope.Means (scope : Scope) (blocks : Blocks) : Prop :=
  ∀ name, scope.slot? name = blocks.binder? name

namespace Scope.Means

variable {scope : Scope} {blocks : Blocks}

theorem empty : Scope.Means [] [[]] := fun _ => rfl

theorem inner (h : scope.Means blocks) : scope.Means ([] :: blocks) := h

/-- A scope is kept up by adding each `let` in front. -/
theorem declare (h : scope.Means blocks) (name : String) (number : Nat) :
    Scope.Means ((name, number) :: scope) (blocks.declare name number) := by
  intro other
  rw [slot?, List.lookup_cons]
  by_cases hname : name = other
  · subst hname
    rw [beq_self_eq_true, blocks.binder?_declare_self]
  · rw [beq_false_of_ne (Ne.symm hname), blocks.binder?_declare_of_ne hname]
    exact h other

end Scope.Means

/-! ## Occurrences -/

/-- What a variable is mentioned for. -/
inductive Use where
  | read | write | declare
  deriving DecidableEq, Repr

/-- A mention of a variable, and the number of the `let` that it is of. -/
structure Occurrence where
  use : Use
  name : String
  binder : Option Nat
  deriving DecidableEq, Repr

/-- The occurrences of names that are read. -/
def Blocks.readings (blocks : Blocks) (names : List String) : List Occurrence :=
  names.map fun name => ⟨.read, name, blocks.binder? name⟩

/-- Those occurrences that are `let`s. -/
def declarations (os : List Occurrence) : List Occurrence := os.filter (·.use = .declare)

theorem declarations_append (os os' : List Occurrence) :
    declarations (os ++ os') = declarations os ++ declarations os' := List.filter_append ..

namespace Expr

mutual

/-- The variables that an expression reads, in the order of evaluation. -/
def reads : Expr → List String
  | .integer .. | .string .. => []
  | .reference name => [name.text]
  | .operator symbol operands _ =>
    let each := readsOfEach operands
    (if symbol.text ∈ rightFirstSymbols then each.reverse else each).flatten
  | .call _ args _ => (readsOfEach args).flatten

/-- The variables that each of some expressions reads. -/
def readsOfEach : List Expr → List (List String)
  | [] => []
  | e :: es => reads e :: readsOfEach es

end

/-- The occurrences in an expression. -/
def occurrences (blocks : Blocks) (e : Expr) : List Occurrence := blocks.readings e.reads

/-- The occurrences in an expression that may be missing. -/
def optionalOccurrences (blocks : Blocks) : Option Expr → List Occurrence
  | some e => e.occurrences blocks
  | none => []

theorem declarations_occurrences (blocks : Blocks) (e : Expr) :
    declarations (e.occurrences blocks) = [] := by
  simp [declarations, occurrences, Blocks.readings]

theorem declarations_optionalOccurrences (blocks : Blocks) (e : Option Expr) :
    declarations (optionalOccurrences blocks e) = [] := by
  cases e with
  | none => rfl
  | some e => exact e.declarations_occurrences blocks

end Expr

namespace Stmt

/-- The blocks after a statement whose first `let` has the number `number`. -/
def blocksAfter (blocks : Blocks) (number : Nat) : Stmt → Blocks
  | .declare binding => blocks.declare binding.name number
  | _ => blocks

mutual

/-- The occurrences in a statement whose first `let` has the number `number`. The value of a `let` or of
an assignment comes first. -/
def occurrences (blocks : Blocks) (number : Nat) : Stmt → List Occurrence
  | .declare binding =>
    Expr.optionalOccurrences blocks binding.value ++ [⟨.declare, binding.name, some number⟩]
  | .evaluate e _ => e.occurrences blocks
  | .loop c body _ | .ifThen c body _ =>
    c.occurrences blocks ++ blockOccurrences ([] :: blocks) number body
  | .ifElse c body other _ =>
    let yes := blockOccurrences ([] :: blocks) number body
    c.occurrences blocks ++ yes ++
      blockOccurrences ([] :: blocks) (number + (declarations yes).length) other
  | .assign target value _ =>
    value.occurrences blocks ++ [⟨.write, target.text, blocks.binder? target.text⟩]
  | .giveBack value _ => Expr.optionalOccurrences blocks value

/-- The occurrences in a block. -/
def blockOccurrences (blocks : Blocks) (number : Nat) : Block Stmt → List Occurrence
  | ⟨statements, _⟩ => allOccurrences blocks number statements

/-- The occurrences in statements, each after those before it. -/
def allOccurrences (blocks : Blocks) (number : Nat) : List Stmt → List Occurrence
  | [] => []
  | s :: ss =>
    let first := occurrences blocks number s
    first ++ allOccurrences (blocksAfter blocks number s) (number + (declarations first).length) ss

end

end Stmt

/-- The occurrences of variables in a function. -/
def Function.occurrences (f : Function) : List Occurrence := Stmt.blockOccurrences [[]] 0 f.body

/-! ## Numbers of declarations -/

/-- The `let`s have so many numbers, from a number on. -/
def NumberedFrom (number count : Nat) (os : List Occurrence) : Prop :=
  (declarations os).map (·.binder) = (List.range' number count).map some

namespace NumberedFrom

variable {number n k : Nat} {os os' : List Occurrence}

theorem length_eq (h : NumberedFrom number n os) : (declarations os).length = n := by
  simpa using congrArg List.length h

theorem of_declarations_eq_nil (h : declarations os = []) : NumberedFrom number 0 os := by
  rw [NumberedFrom, h]
  rfl

theorem append (h : NumberedFrom number n os) (h' : NumberedFrom (number + n) k os') :
    NumberedFrom number (n + k) (os ++ os') := by
  rw [NumberedFrom, declarations_append, List.map_append, h, h', ← List.map_append,
    List.range'_append_1]

theorem right (h : declarations os = []) (h' : NumberedFrom number n os') :
    NumberedFrom number n (os ++ os') := by
  rwa [NumberedFrom, declarations_append, h, List.nil_append]

end NumberedFrom

namespace Stmt

mutual

/-- The `let`s of a statement are numbered from its first one on. -/
theorem numbered_occurrences (blocks : Blocks) (number : Nat) : ∀ s : Stmt,
    NumberedFrom number s.locals (s.occurrences blocks number)
  | .declare binding => .right (Expr.declarations_optionalOccurrences _ _) (by
      simp [NumberedFrom, declarations, locals])
  | .evaluate e _ => .of_declarations_eq_nil (e.declarations_occurrences blocks)
  | .loop c body _ | .ifThen c body _ =>
    .right (c.declarations_occurrences blocks) (numbered_blockOccurrences _ number body)
  | .ifElse c body other _ => by
    have hyes := numbered_blockOccurrences ([] :: blocks) number body
    have hno := numbered_blockOccurrences ([] :: blocks) (number + localsOfBlock body) other
    rw [occurrences, List.append_assoc, hyes.length_eq]
    exact .right (c.declarations_occurrences blocks) (hyes.append hno)
  | .assign _ value _ => .right (value.declarations_occurrences blocks) (.of_declarations_eq_nil rfl)
  | .giveBack value _ => .of_declarations_eq_nil (Expr.declarations_optionalOccurrences blocks value)

/-- The `let`s of a block are numbered from its first one on. -/
theorem numbered_blockOccurrences (blocks : Blocks) (number : Nat) : ∀ b : Block Stmt,
    NumberedFrom number (localsOfBlock b) (blockOccurrences blocks number b)
  | ⟨statements, _⟩ => numbered_allOccurrences blocks number statements

/-- The `let`s of statements are numbered from the first one on. -/
theorem numbered_allOccurrences (blocks : Blocks) (number : Nat) : ∀ ss : List Stmt,
    NumberedFrom number (localsOfAll ss) (allOccurrences blocks number ss)
  | [] => .of_declarations_eq_nil rfl
  | s :: ss => by
    have hs := numbered_occurrences blocks number s
    have hss := numbered_allOccurrences (blocksAfter blocks number s) (number + locals s) ss
    rw [allOccurrences, hs.length_eq]
    exact hs.append hss

end

end Stmt

/-- The `let`s of a function have the numbers from 0 on, one for each `let` that it holds. -/
theorem Function.binders_declarations (f : Function) :
    (declarations f.occurrences).map (·.binder) =
      (List.range (Stmt.localsOfBlock f.body)).map some := by
  rw [List.range_eq_range']
  exact Stmt.numbered_blockOccurrences [[]] 0 f.body

/-- A variable that is declared twice in a block, the second time by its old value, and once more within
a loop. -/
example : let here : Span := ⟨0, 0⟩; let x : Lexeme := ⟨"x", here⟩
    Stmt.allOccurrences [[]] 0 [.declare ⟨"x", none, here⟩, .declare ⟨"x", some (.reference x), here⟩,
      .loop (.reference x) ⟨[.assign x (.integer 1 here) here, .declare ⟨"x", none, here⟩,
        .assign x (.integer 2 here) here], here⟩ here, .giveBack (some (.reference x)) here] =
    [⟨.declare, "x", some 0⟩, ⟨.read, "x", some 0⟩, ⟨.declare, "x", some 1⟩, ⟨.read, "x", some 1⟩,
      ⟨.write, "x", some 1⟩, ⟨.declare, "x", some 2⟩, ⟨.write, "x", some 2⟩, ⟨.read, "x", some 1⟩] := by
  decide

end StackLang
