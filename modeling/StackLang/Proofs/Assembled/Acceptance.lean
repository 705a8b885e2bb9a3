import StackLang.Proofs.Assembled.Safety
import StackLang.Proofs.Core.Operands
import StackLang.Proofs.Tree.FirstViolation

/-!
# Which trees are assembled

All labels that the code of a valid program refers to are marked in it, as long as there are numbers
for them. So linking does not fail, and a tree is assembled just if it is well formed. Else its first
violation is reported.

Results:
* `Core.Module.assemble_of_valid`: a valid program is linked.
* `Tree.labelCount_of_resolve`: how many labels a tree takes.
* `assemble_reports`: which trees are assembled, and what is reported of the others.
-/
namespace StackLang

open Instruction

namespace Core.Module

variable {m : Module}

/-- A valid program is linked, if there are numbers for its labels. -/
theorem assemble_of_valid (hv : m.Valid) (hid : m.entry.id < 0x100000000) :
    ∃ p, m.assemble = .ok p := by
  have hnone : Draft.unresolved? m.emit m.entry = none := by
    refine List.find?_eq_none.2 fun l hl hunresolved => ?_
    have hle : l.id ≤ m.entry.id := by
      rcases List.mem_append.1 hl with hl | hl
      · obtain ⟨i, hi, hlabel⟩ := List.mem_filterMap.1 hl
        exact label_le hv hid hi hlabel
      · exact Nat.le_of_eq (congrArg Label.id (List.mem_singleton.1 hl))
    obtain ⟨a, -, ha⟩ := exists_address hid hle
    rw [ha] at hunresolved
    cases hunresolved
  refine ⟨⟨m.emit.toArray, link m.emit, m.strings.bytes, some m.entry, m.names⟩, ?_⟩
  rw [assemble, Draft.link, draft, List.toList_toArray, hnone]
  rfl

end Core.Module

/-! ## Labels of trees -/

namespace Stmt

mutual

/-- How many labels a statement takes: two for a loop, one for a conditional, and another one for its
`else`. -/
def labelCount : Stmt → Nat
  | .loop _ body _ => 2 + blockLabelCount body
  | .ifThen _ body _ => 1 + blockLabelCount body
  | .ifElse _ body other _ => 2 + blockLabelCount body + blockLabelCount other
  | .declare _ | .evaluate .. | .assign .. | .giveBack .. => 0

/-- How many labels a block takes. -/
def blockLabelCount : Block Stmt → Nat
  | ⟨statements, _⟩ => allLabelCount statements

/-- How many labels some statements take. -/
def allLabelCount : List Stmt → Nat
  | [] => 0
  | s :: ss => labelCount s + allLabelCount ss

end

variable {functions : List String}

theorem labels_of_resolveStatement {scope : Scope} {e : Expr} {c : Core.Stmt}
    (h : e.resolveStatement functions scope = .ok c) : Core.Stmt.labels c = 0 := by
  rcases Expr.resolveStatement_eq_ok h with ⟨_, _, _, _, -, ⟨-, rfl⟩ | ⟨-, rfl⟩⟩ | ⟨_, -, rfl⟩ <;> rfl

mutual

theorem labels_of_resolve : ∀ (s : Stmt) {scope : Scope} {next : Nat} {c : Core.Stmt},
    s.resolve functions scope next = .ok c → Core.Stmt.labels c = s.labelCount
  | .declare _, _, _, _, h => by
    obtain ⟨_, -, h⟩ := Effect.except_bind_eq_ok.1 h
    cases h
    rfl
  | .evaluate _ _, _, _, _, h => labels_of_resolveStatement h
  | .loop _ body _, _, _, _, h => by
    obtain ⟨_, -, h⟩ := Effect.except_bind_eq_ok.1 h
    obtain ⟨_, hb, h⟩ := Effect.except_bind_eq_ok.1 h
    cases h
    rw [Core.Stmt.labels, labelCount, labels_of_resolveBlock body hb]
  | .ifThen _ body _, _, _, _, h => by
    obtain ⟨_, -, h⟩ := Effect.except_bind_eq_ok.1 h
    obtain ⟨_, hb, h⟩ := Effect.except_bind_eq_ok.1 h
    cases h
    rw [Core.Stmt.labels, labelCount, labels_of_resolveBlock body hb]
  | .ifElse _ body other _, _, _, _, h => by
    obtain ⟨_, -, h⟩ := Effect.except_bind_eq_ok.1 h
    obtain ⟨_, hb, h⟩ := Effect.except_bind_eq_ok.1 h
    obtain ⟨_, ho, h⟩ := Effect.except_bind_eq_ok.1 h
    cases h
    rw [Core.Stmt.labels, labelCount, labels_of_resolveBlock body hb,
      labels_of_resolveBlock other ho]
  | .assign target _ _, scope, _, _, h => by
    rw [resolve] at h
    split at h
    · obtain ⟨_, -, h⟩ := Effect.except_bind_eq_ok.1 h
      cases h
      rfl
    · cases h
  | .giveBack _ _, _, _, _, h => by
    obtain ⟨_, -, h⟩ := Effect.except_bind_eq_ok.1 h
    cases h
    rfl

theorem labels_of_resolveBlock : ∀ (b : Block Stmt) {scope : Scope} {next : Nat}
    {cs : List Core.Stmt}, resolveBlock functions scope next b = .ok cs →
    Core.Stmt.labelsOfAll cs = blockLabelCount b
  | ⟨statements, _⟩, _, _, _, h => labels_of_resolveAll statements h

theorem labels_of_resolveAll : ∀ (ss : List Stmt) {scope : Scope} {next : Nat}
    {cs : List Core.Stmt}, resolveAll functions scope next ss = .ok cs →
    Core.Stmt.labelsOfAll cs = allLabelCount ss
  | [], _, _, _, h => by cases h; rfl
  | s :: ss, _, _, _, h => by
    obtain ⟨_, hs, h⟩ := Effect.except_bind_eq_ok.1 h
    obtain ⟨_, hss, h⟩ := Effect.except_bind_eq_ok.1 h
    cases h
    rw [Core.Stmt.labelsOfAll, allLabelCount, labels_of_resolve s hs, labels_of_resolveAll ss hss]

end

end Stmt

/-- How many labels some functions take: one each for their start and their end, and those of their
bodies. -/
def functionLabelCount : List Function → Nat
  | [] => 0
  | f :: fs => 2 + Stmt.blockLabelCount f.body + functionLabelCount fs

/-- How many labels a tree takes, with that of the entry. -/
def Tree.labelCount (t : Tree) : Nat := functionLabelCount t.functions + 1

theorem labels_of_mapM {names : List String} {fs : List Function} {cs : List Core.Function}
    (h : fs.mapM (Function.resolve names) = .ok cs) :
    cs.length + Core.Function.labelsOfAll cs = functionLabelCount fs := by
  induction fs generalizing cs with
  | nil => cases h; rfl
  | cons f fs ih =>
    rw [List.mapM_cons] at h
    obtain ⟨c, hc, h⟩ := Effect.except_bind_eq_ok.1 h
    obtain ⟨cs, hcs, h⟩ := Effect.except_bind_eq_ok.1 h
    cases h
    obtain ⟨body, hbody, rfl⟩ := Function.resolve_eq_ok hc
    have := ih hcs
    have := Stmt.labels_of_resolveBlock f.body hbody
    simp only [List.length_cons, Core.Function.labelsOfAll, Core.Function.labels, functionLabelCount]
    omega

theorem Tree.labelCount_of_resolve {t : Tree} {m : Core.Module} (h : t.resolve = .ok m) :
    m.entry.id + 1 = t.labelCount := by
  obtain ⟨names, -, -, -, hf⟩ := Tree.resolve_eq_ok h
  exact congrArg (· + 1) (labels_of_mapM hf)

/-! ## Acceptance -/

/-- A tree, with fewer labels than there are numbers for, is assembled just if it is well formed.
Else its first violation is reported. -/
theorem assemble_reports {t : Tree} (h : t.labelCount < 0x100000000) :
    ((∃ p, t.assemble = .ok p) ↔ t.WellFormed) ∧
      ∀ e, t.assemble = .error e ↔ t.violations.head? = some e := by
  have hreports : Reports t.assemble t.violations := by
    rw [← List.append_nil t.violations]
    refine t.reports_resolve.bind fun m hm => ?_
    have hcount := Tree.labelCount_of_resolve hm
    obtain ⟨p, hp⟩ := Core.Module.assemble_of_valid (Tree.valid_of_resolve hm) (by omega)
    rw [hp]
    exact reports_ok p
  exact ⟨hreports.ok_iff.trans t.violations_eq_nil_iff, hreports.error_iff⟩

/-- A program that returns the sum of a variable and a call, neither of which is declared. The call is
the right operand. -/
def Tree.astray : Tree :=
  let here : Span := ⟨0, 0⟩
  let name (text : String) : Lexeme := ⟨text, here⟩
  ⟨[.function ⟨name "main", ⟨[.giveBack (some (.operator (name "+")
    [.reference (name "x"), .call (name "f") [] here] here)) here], here⟩, here⟩]⟩

theorem successor_accepted_astray_rejected : (∃ p, Tree.successor.assemble = .ok p) ∧
    Tree.astray.assemble = .error (.functionNotFound ⟨"f", ⟨0, 0⟩⟩) := by
  have hsuccessor : Tree.successor.labelCount < 0x100000000 := by decide
  have hastray : Tree.astray.labelCount < 0x100000000 := by decide
  exact ⟨(assemble_reports hsuccessor).1.2 (by decide), ((assemble_reports hastray).2 _).2 (by decide)⟩

end StackLang
