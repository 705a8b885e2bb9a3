import StackLang.Proofs.Assembled.Safety
import StackLang.Proofs.Tree.Reachable

/-!
# The order of declarations does not matter

Programs that are the same from their main functions run alike, wherever their functions are declared
and whatever other functions there are: only addresses, labels and offsets of static data differ.

Results:
* `runs_alike_of_assemble`: the runs of such programs.
-/
namespace StackLang

/-- Assembled programs that are the same from their main functions run alike, with any input, limit on
steps and sink, in any number of turns. So do programs of which one has the declarations of the other
in some order, and functions that the other one does not call. The static data are vectors of bytes,
and no vector has more of them than a word can say. -/
theorem runs_alike_of_assemble {t t' : Tree} {p q : Program} (hp : t.assemble = .ok p)
    (hq : t'.assemble = .ok q) (hstatics : p.statics.length < 0x8000000000000000)
    (hstatics' : q.statics.length < 0x8000000000000000)
    (h : t.SameFromMain t' ∨ t.RearrangedTo t') (vm : Machine) (output : Sink) (turns : Nat) :
    Option.Rel (Outcome.Alike p q) (vm.runWithin? turns p output) (vm.runWithin? turns q output) := by
  obtain ⟨m, hm, hp⟩ := Tree.assemble_eq_ok hp
  obtain ⟨m', hm', hq⟩ := Tree.assemble_eq_ok hq
  have hsame : t.SameFromMain t' := by
    rcases h with h | h
    · exact h
    · obtain ⟨_, rfl, hnodup, -, -⟩ := Tree.resolve_eq_ok hm'
      exact h.sameFromMain hnodup
  exact ((hsame.alike hm hm').corresponds hp hq hstatics hstatics').runWithin? vm output turns

/-- The program that adds 1 to the next byte of its input, with its functions in another order after
one that is not called. -/
def Tree.successorMoved : Tree :=
  let here : Span := ⟨0, 0⟩
  let name (text : String) : Lexeme := ⟨text, here⟩
  let idle : Function := ⟨name "idle", ⟨[.loop (.call (name "next") [] here)
    ⟨[.evaluate (.call (name "putstr") [.string "idle" here] here) here], here⟩ here], here⟩, here⟩
  ⟨.function idle :: Tree.successor.declarations.reverse⟩

theorem successor_moved_runs_alike : ∃ p q o o', Tree.successor.assemble = .ok p ∧
    Tree.successorMoved.assemble = .ok q ∧ p.statics.length < 0x8000000000000000 ∧
    q.statics.length < 0x8000000000000000 ∧ Tree.successor.RearrangedTo Tree.successorMoved ∧
    (Machine.new ⟨[65], none⟩).run? p .unlimited = some o ∧
    (Machine.new ⟨[65], none⟩).run? q .unlimited = some o' ∧ o.Alike p q o' ∧
    o'.machine.registers.r0 = 66 := by
  have hmoved : Tree.successor.RearrangedTo Tree.successorMoved :=
    ⟨[_], ((List.reverse_perm _).cons _).trans (List.perm_append_singleton _ _).symm, by decide⟩
  have hp : Tree.successor.assemble = .ok _ := rfl
  have hq : Tree.successorMoved.assemble = .ok _ := rfl
  refine ⟨_, _, _, _, hp, hq, by decide, by decide, hmoved, rfl, rfl, ?_, rfl⟩
  have hruns := runs_alike_of_assemble hp hq (by decide) (by decide) (.inr hmoved)
    (.new ⟨[65], none⟩) .unlimited Machine.turnLimit
  cases hruns with
  | some h => exact h

end StackLang
