import StackLang.Proofs.Assembled.Calls
import StackLang.Proofs.Core.Heights
import StackLang.Proofs.Run.Control

/-!
# The height of the stack depends on the address alone

In every run of an assembled program the stack is as high above the stack of the call that is executed,
when it was called, as the next address says, and by nothing else. So no way through a function leaves
more or fewer words than another one, and the depth of the calls bounds the stack.

Results:
* `exists_inCall`: each address to return to was saved by a call that has not returned.
* `height_of_address`: the height of the stack and the frame pointer of an assembled program.
-/
namespace StackLang

open StackLang.Core Instruction

/-- Each address to return to was saved by a call that has not returned: `k` is how many calls have not,
from that call on. -/
theorem exists_inCall {vm : Machine} {p : Program} {output : Sink} {n : Nat} {b : Machine}
    (hb : (vm.load p output).after? p.code n = some b) {k : Nat} (hk : k < b.calls.length) :
    ∃ j < n, ∃ a, (vm.load p output).after? p.code j = some a ∧ a.opcode? p.code = some .call ∧
      InCall p.code a (k + 1) b := by
  induction n generalizing b k with
  | zero => cases hb; exact absurd hk (Nat.not_lt_zero k)
  | succ n ih =>
    obtain ⟨c, hc, hturn⟩ := Machine.after?_succ_eq_some_iff.1 hb
    obtain ⟨i, hi, -, hperform⟩ := Machine.perform_of_turn hturn
    have hop : c.opcode? p.code = some i.opcode := by rw [Machine.opcode?, hi]; rfl
    have hgoes := c.goes_perform i
    rw [hperform] at hgoes
    -- the call under way in `c`, from which the turn goes on
    have earlier {l : Nat} (hl : l < c.calls.length) :
        ∃ j < n + 1, ∃ a, (vm.load p output).after? p.code j = some a ∧
          a.opcode? p.code = some .call ∧ InCall p.code a (l + 1) c := by
      obtain ⟨j, hj, a, ha, hcall, hin⟩ := ih hc hl
      exact ⟨j, Nat.lt_succ_of_lt hj, a, ha, hcall, hin⟩
    -- neither a call nor a return
    have other (hc : i.opcode ≠ .call) (hr : i.opcode ≠ .ret) (calls : b.calls = c.calls) :
        ∃ j < n + 1, ∃ a, (vm.load p output).after? p.code j = some a ∧
          a.opcode? p.code = some .call ∧ InCall p.code a (k + 1) b := by
      obtain ⟨j, hj, a, ha, hcall, hin⟩ := earlier (calls ▸ hk)
      exact ⟨j, hj, a, ha, hcall, .other hin (fun h => hc (Option.some.inj (hop.symm.trans h)))
        (fun h => hr (Option.some.inj (hop.symm.trans h))) hturn⟩
    cases hgoes with
    | next hne _ calls =>
      exact other (fun h => hne (by simp [h])) (fun h => hne (by simp [h])) calls
    | jumps hjump _ calls =>
      exact other (fun h => by simp [h] at hjump) (fun h => by simp [h] at hjump) calls
    | calls hcall _ calls =>
      rw [hcall] at hop
      rw [calls, List.length_cons] at hk
      cases k with
      | zero => exact ⟨n, Nat.lt_succ_self n, c, hc, hop, .enter hturn⟩
      | succ k =>
        obtain ⟨j, hj, a, ha, hcall, hin⟩ := earlier (Nat.lt_of_succ_lt_succ hk)
        exact ⟨j, hj, a, ha, hcall, .call hin hop hturn⟩
    | returns hret calls =>
      rw [hret] at hop
      have hlt : k + 1 < c.calls.length := by rw [calls]; exact Nat.succ_lt_succ hk
      obtain ⟨j, hj, a, ha, hcall, hin⟩ := earlier hlt
      exact ⟨j, hj, a, ha, hcall, .ret hin hop hturn⟩

/-- A run passes through all machines before one that it passes through. -/
theorem Machine.Passes.before {vm b : Machine} {p : Program} {output : Sink}
    (hb : vm.Passes p output b) {j n : Nat} (hn : (vm.load p output).after? p.code n = some b)
    (hj : j ≤ n) {a : Machine} (ha : (vm.load p output).after? p.code j = some a) :
    vm.Passes p output a := by
  obtain ⟨k, hk, hsmall⟩ := hb
  obtain rfl : k = n := Nat.add_left_cancel ((steps_of_after? hk).symm.trans (steps_of_after? hn))
  exact ⟨j, ha, fun hle hout => hsmall (Nat.le_trans hle hj) (hout.mono hj)⟩

/-- Above the stack of the call that is executed, the stack is as high as the address says, and in the
body of a function the frame pointer is above the variables. -/
theorem InCall.heights {t : Tree} {m : Core.Module} {p : Program} (hm : t.resolve = .ok m)
    (hv : m.Valid) (hp : m.assemble = .ok p) {vm a b : Machine} {output : Sink}
    (hb : vm.Passes p output b) (ha : vm.Passes p output a) (hcall : a.opcode? p.code = some .call)
    (hin : InCall p.code a 1 b) : b.stack.length = a.stack.length + m.heightAt b.pc ∧
      ∀ index f, t.functions[index]? = some f → m.InBody index b.pc →
        b.registers.fp.toInt = a.stack.length + (1 + Stmt.localsOfBlock f.body) := by
  obtain ⟨names, -, -, -, hmap⟩ := Tree.resolve_eq_ok hm
  have hactive := hin.active hp hv ha hcall hb
  have hsmall := hb.stack_lt (sound_of_passes hv hp hb).height
  cases hactive with
  | @call _ _ _ caller _ f' _ outer _ within =>
    cases outer with
    | base hbase =>
      subst hbase
      refine ⟨within.length_stack, fun index f hf hbody => ?_⟩
      obtain ⟨rfl, hfp, hle⟩ := within.fp_of_inBody hbody
      obtain ⟨c, hc, hresolve⟩ := (mapM_eq_ok hmap).2 index f hf
      obtain ⟨body, -, rfl⟩ := Function.resolve_eq_ok hresolve
      obtain rfl := Option.some.inj (hc.symm.trans within.function)
      show b.view.fp.toInt = _
      rw [hfp, toInt_sizeWord (Nat.lt_of_le_of_lt hle hsmall)]
      rfl

/-- The stack is no higher than the calls and the entry together. -/
theorem Machine.Passes.length_stack_le {m : Core.Module} {p : Program} (hv : m.Valid)
    (hp : m.assemble = .ok p) {vm b : Machine} {output : Sink} (hb : vm.Passes p output b)
    {most : Nat} (hmost : ∀ address < m.emit.length, m.heightAt address ≤ most) :
    b.stack.length ≤ (b.calls.length + 1) * most := by
  change b.view.stack.length ≤ (b.view.calls.length + 1) * most
  rcases (sound_of_passes hv hp hb).place with hentry | ⟨depth, hactive⟩
  · obtain ⟨hcalls, hpc⟩ := hentry.calls_eq_nil
    rw [hcalls, List.length_nil, Nat.zero_add, Nat.one_mul, hentry.length_stack]
    exact hmost _ hpc
  · obtain ⟨hstack, hcalls⟩ := hactive.length_stack_le hmost
    rw [hcalls]
    exact hstack

/-- The height of the stack depends on the address alone. For every assembled program there is a function
`d` from addresses to heights, and each machine that one of its runs passes through is as high as `d` says:
in the entry by itself, and otherwise above the stack of the machine that stood at the call that is
executed, of which there is one. In the body of a function the frame pointer is one more than its number
of variables above that stack. The stack is no higher than the calls and the entry together, each as high
as the highest address. -/
theorem height_of_address {t : Tree} {p : Program} (h : t.assemble = .ok p) :
    ∃ (m : Core.Module) (d : Nat → Nat), t.resolve = .ok m ∧
      ∀ vm output b, Machine.Passes vm p output b →
        (b.calls = [] → b.stack.length = d b.pc) ∧
        (b.calls ≠ [] →
          ∃ a, vm.Passes p output a ∧ a.opcode? p.code = some .call ∧ InCall p.code a 1 b) ∧
        (∀ a, vm.Passes p output a → a.opcode? p.code = some .call → InCall p.code a 1 b →
          b.stack.length = a.stack.length + d b.pc ∧
            ∀ index f, t.functions[index]? = some f → m.InBody index b.pc →
              b.registers.fp.toInt = a.stack.length + (1 + Stmt.localsOfBlock f.body)) ∧
        ∀ most, (∀ address < p.code.size, d address ≤ most) →
          b.stack.length ≤ (b.calls.length + 1) * most := by
  obtain ⟨m, hm, hp⟩ := Tree.assemble_eq_ok h
  have hv := Tree.valid_of_resolve hm
  have hsize : p.code.size = m.emit.length := by
    rw [(Core.Module.assemble_eq_ok hp).1, List.size_toArray]
  refine ⟨m, m.heightAt, hm, fun vm output b hb => ⟨fun hcalls => ?_, fun hcalls => ?_,
    fun a ha hcall hin => hin.heights hm hv hp hb ha hcall,
    fun most hmost => hb.length_stack_le hv hp (hsize ▸ hmost)⟩⟩
  · rcases (sound_of_passes hv hp hb).place with hentry | ⟨depth, hactive⟩
    · exact hentry.length_stack
    · cases hactive with
      | call _ _ within => exact absurd (within.calls.symm.trans hcalls) (List.cons_ne_nil _ _)
  · obtain ⟨n, hn, -⟩ := id hb
    obtain ⟨j, hj, a, ha, hcall, hin⟩ := exists_inCall hn (List.length_pos_iff.2 hcalls)
    exact ⟨a, hb.before hn (Nat.le_of_lt hj) ha, hcall, hin⟩

/-- After 12 turns the program stands in the function that it has called with the 1 on the stack. -/
theorem successor_height_of_address : ∃ p m, ∃ d : Nat → Nat, ∃ a b,
    Tree.successor.assemble = .ok p ∧ Tree.successor.resolve = .ok m ∧
    (Machine.new ⟨[65], none⟩).Passes p .unlimited a ∧ a.opcode? p.code = some .call ∧
    (Machine.new ⟨[65], none⟩).Passes p .unlimited b ∧ InCall p.code a 1 b ∧
    a.stack = [1, 0] ∧ b.calls.length = 2 ∧ b.stack.length = a.stack.length + d b.pc ∧
    m.InBody 1 b.pc ∧ b.registers.fp.toInt = a.stack.length + (1 + 1) ∧
    ∀ most, (∀ address < p.code.size, d address ≤ most) → b.stack.length ≤ (2 + 1) * most := by
  obtain ⟨p, m', a, c, b, hp, hm', ha, hcall, henter, hops, hc, hb, hstack, hcalls, hbody⟩ :
      ∃ p m a c b, Tree.successor.assemble = .ok p ∧ Tree.successor.resolve = .ok m ∧
        (Machine.new ⟨[65], none⟩).Passes p .unlimited a ∧ a.opcode? p.code = some .call ∧
        a.turn p.code = .running c ∧
        (∀ j < 5, ∀ op ∈ (c.after? p.code j).bind (·.opcode? p.code), op ≠ .call ∧ op ≠ .ret) ∧
        c.after? p.code 5 = some b ∧ (Machine.new ⟨[65], none⟩).Passes p .unlimited b ∧
        a.stack = [1, 0] ∧ b.calls.length = 2 ∧ m.InBody 1 b.pc :=
    ⟨_, _, _, _, _, rfl, rfl, ⟨6, rfl, fun h => absurd h (by decide)⟩, rfl, rfl, by decide, rfl,
      ⟨12, rfl, fun h => absurd h (by decide)⟩, rfl, rfl, ⟨_, rfl, by decide, by decide⟩⟩
  have hin := InCall.stretch (.enter henter) 5 hops hc
  obtain ⟨m, d, hm, hruns⟩ := height_of_address hp
  obtain rfl : m = m' := Except.ok.inj (hm.symm.trans hm')
  obtain ⟨-, -, hheight, hmost⟩ := hruns _ _ b hb
  obtain ⟨hlength, hfp⟩ := hheight a ha hcall hin
  rw [hcalls] at hmost
  exact ⟨p, m, d, a, b, hp, hm, ha, hcall, hb, hin, hstack, hcalls, hlength, hbody,
    hfp 1 _ rfl hbody, hmost⟩

end StackLang
