import StackLang.Proofs.Assembled.Safety

/-!
# Calls preserve the frame of the caller

While a call is under way, its caller's stack and the address to return to stay below all that the
call, and the calls that it makes, put on the two stacks. When it has returned, the caller finds its
stack with the result on it, its frame pointer, and its own addresses to return to.

Results:
* `InCall.active`: the calls since a call form a chain on top of it.
* `call_preserves_frame`: what a call leaves alone, and what its caller finds after it.
-/
namespace StackLang

open StackLang.Core Instruction

/-- The operation that a machine executes next. -/
def Machine.opcode? (code : Array Instruction) (a : Machine) : Option Opcode :=
  code[a.pc]?.map (·.opcode)

/-- The machines after the turn of `a`, which is a call, up to the one about to execute the return
that belongs to it, with how many calls have not returned. -/
inductive InCall (code : Array Instruction) (a : Machine) : Nat → Machine → Prop where
  | enter {b : Machine} (turn : a.turn code = .running b) : InCall code a 1 b
  | call {n : Nat} {b c : Machine} (h : InCall code a (n + 1) b) (op : b.opcode? code = some .call)
    (turn : b.turn code = .running c) : InCall code a (n + 2) c
  | ret {n : Nat} {b c : Machine} (h : InCall code a (n + 2) b) (op : b.opcode? code = some .ret)
    (turn : b.turn code = .running c) : InCall code a (n + 1) c
  | other {n : Nat} {b c : Machine} (h : InCall code a (n + 1) b)
    (hc : b.opcode? code ≠ some .call) (hr : b.opcode? code ≠ some .ret)
    (turn : b.turn code = .running c) : InCall code a (n + 1) c

/-- The same calls are under way as long as no instruction calls or returns. -/
theorem InCall.stretch {code : Array Instruction} {a b c : Machine} {n : Nat}
    (h : InCall code a (n + 1) b) (k : Nat)
    (hops : ∀ j < k, ∀ op ∈ (b.after? code j).bind (·.opcode? code), op ≠ .call ∧ op ≠ .ret)
    (hc : b.after? code k = some c) : InCall code a (n + 1) c := by
  induction k generalizing c with
  | zero => cases hc; exact h
  | succ k ih =>
    obtain ⟨d, hd, ht⟩ := Machine.after?_succ_eq_some_iff.1 hc
    have hop := hops k (Nat.lt_succ_self k)
    rw [hd] at hop
    exact .other (ih (fun j hj => hops j (Nat.lt_succ_of_lt hj)) hd)
      (fun h => (hop _ h).1 rfl) (fun h => (hop _ h).2 rfl) ht

variable {m : Core.Module}

theorem opcode?_eq {code : List Instruction} {a : Machine} {i : Instruction}
    (h : code[a.pc]? = some i) : a.opcode? code.toArray = some i.opcode := by
  rw [Machine.opcode?, List.getElem?_toArray, h]; rfl

/-- The call in the entry code enters the main function. -/
theorem Core.Sound.enter_main {a b : Machine} (h : Sound m a) (hv : m.Valid)
    (hid : m.entry.id < 0x100000000) (hentry : m.AtEntry a.view)
    (hcall : a.opcode? m.emit.toArray = some .call) (hturn : a.turn m.emit.toArray = .running b) :
    Active m (· = a.view) 1 b.view := by
  have hcode := m.holds_entry
  obtain ⟨v, hview⟩ : ∃ v, a.view = v := ⟨_, rfl⟩
  rw [hview] at hentry
  have other {j : Nat} {i : Instruction} (hpc : a.pc = m.entryStart + j)
      (hi : m.emit[m.entryStart + j]? = some i) (hne : i.opcode ≠ .call) : False := by
    rw [← hpc] at hi
    exact hne (Option.some.inj ((opcode?_eq hi).symm.trans hcall))
  cases hentry with
  | mark => exact (other (j := 0) (View.mk.inj hview).1 hcode.head (by simp [ofLabel])).elim
  | store =>
    exact (other (j := 2) (View.mk.inj hview).1 hcode.tail.tail.head (by simp [ofRegister])).elim
  | halt =>
    exact (other (j := 3) (View.mk.inj hview).1 hcode.tail.tail.tail.head (by simp [bare])).elim
  | call =>
    have hpc : a.pc = m.entryStart + 1 := (View.mk.inj hview).1
    have hi : m.emit[a.pc]? = some (ofLabel .call ⟨m.main⟩) := by rw [hpc]; exact hcode.tail.head
    obtain ⟨i', hi', -, hperform⟩ := Machine.perform_of_turn hturn
    rw [List.getElem?_toArray, hi] at hi'
    obtain rfl := Option.some.inj hi'
    rw [h.loaded.perform_call hid hv.main] at hperform
    cases hperform
    exact .call (.base rfl) hi (Within.enter a.view (List.getElem?_eq_getElem hv.main))

/-- A sound machine that stands at a call enters a function on top of what it has. -/
theorem Core.Sound.enter {a b : Machine} (h : Sound m a) (hv : m.Valid)
    (hid : m.entry.id < 0x100000000) (hsmall : a.stack.length < Machine.heightLimit)
    (hcall : a.opcode? m.emit.toArray = some .call) (hturn : a.turn m.emit.toArray = .running b) :
    Active m (· = a.view) 1 b.view := by
  rcases h.place with hentry | ⟨depth, hactive⟩
  · exact h.enter_main hv hid hentry hcall hturn
  · cases hactive with
    | call outer _ within =>
      obtain ⟨i, hi, hadv⟩ := within.turn hv hid h.loaded hsmall
      have hop : i.opcode = .call := Option.some.inj ((opcode?_eq hi).symm.trans hcall)
      rw [hturn] at hadv
      cases hadv with
      | stays hc => exact absurd hop hc
      | calls heq _ within' => exact .call (.base rfl) (heq ▸ hi) within'
      | returns heq => rw [heq] at hop; cases hop

/-- What one turn makes of a chain of calls on top of `base`. -/
theorem Core.Active.turn {base : View → Prop} {n : Nat} {b c : Machine}
    (h : Active m base (n + 1) b.view) (hs : Sound m b) (hv : m.Valid)
    (hid : m.entry.id < 0x100000000) (hsmall : b.stack.length < Machine.heightLimit)
    (hturn : b.turn m.emit.toArray = .running c) :
    (b.opcode? m.emit.toArray = some .call → Active m base (n + 2) c.view) ∧
      (b.opcode? m.emit.toArray = some .ret → ∃ caller, Active m base n caller ∧
        (0 < n → Active m base n c.view) ∧ c.view = caller.returned b.registers.r0) ∧
      (b.opcode? m.emit.toArray ≠ some .call → b.opcode? m.emit.toArray ≠ some .ret →
        Active m base (n + 1) c.view) := by
  cases h with
  | @call _ _ _ caller _ _ _ outer hcall within =>
    obtain ⟨i, hi, hadv⟩ := within.turn hv hid hs.loaded hsmall
    rw [opcode?_eq hi, hturn] at *
    simp only [ne_eq, Option.some.injEq]
    cases hadv with
    | stays hc hr _ within' =>
      exact ⟨fun h => absurd h hc, fun h => absurd h hr, fun _ _ => .call outer hcall within'⟩
    | calls heq _ within' =>
      subst heq
      exact ⟨fun _ => .call (.call outer hcall within) hi within', fun h => (by cases h),
        fun h => absurd rfl h⟩
    | returns heq _ view =>
      subst heq
      refine ⟨fun h => (by cases h), fun _ => ⟨caller, outer, fun hn => ?_, view⟩,
        fun _ h => absurd rfl h⟩
      obtain ⟨n, rfl⟩ : ∃ k, n = k + 1 := ⟨n - 1, by omega⟩
      rw [view]
      exact outer.returned hv hcall _

/-- The machines since a call come after it. -/
theorem InCall.after? {code : Array Instruction} {a b c : Machine} {n k : Nat}
    (h : InCall code a n b) (ha : c.after? code k = some a) : ∃ j, c.after? code j = some b := by
  induction h with
  | enter turn => exact ⟨k + 1, Machine.after?_succ_eq_some_iff.2 ⟨a, ha, turn⟩⟩
  | call _ _ turn ih | ret _ _ turn ih | other _ _ _ turn ih =>
    obtain ⟨j, hj⟩ := ih
    exact ⟨j + 1, Machine.after?_succ_eq_some_iff.2 ⟨_, hj, turn⟩⟩

/-- The calls since a call form a chain on top of it. -/
theorem InCall.active {p : Program} (hp : m.assemble = .ok p) (hv : m.Valid) {vm : Machine}
    {output : Sink} {a b : Machine} {n : Nat} (hin : InCall p.code a n b)
    (ha : vm.Passes p output a) (hcall : a.opcode? p.code = some .call)
    (hb : vm.Passes p output b) : Active m (· = a.view) n b.view := by
  have hid := (Core.Module.assemble_eq_ok hp).2
  have hcode : p.code = m.emit.toArray := by rw [(Core.Module.assemble_eq_ok hp).1]
  obtain ⟨k, hk, -⟩ := id ha
  have before {n : Nat} {b c : Machine} (hin : InCall p.code a n b) (hc : vm.Passes p output c)
      (turn : b.turn p.code = .running c) :
      vm.Passes p output b ∧ Sound m b ∧ b.stack.length < Machine.heightLimit := by
    obtain ⟨j, hj⟩ := hin.after? hk
    have hb := hc.of_turn hj turn
    have hs := sound_of_passes hv hp hb
    exact ⟨hb, hs, hb.stack_lt hs.height⟩
  induction hin with
  | enter turn =>
    have hs := sound_of_passes hv hp ha
    rw [hcode] at hcall turn
    exact hs.enter hv hid (ha.stack_lt hs.height) hcall turn
  | call hin op turn ih =>
    obtain ⟨hb, hs, hsmall⟩ := before hin hb turn
    rw [hcode] at op turn
    exact ((ih hb).turn hs hv hid hsmall turn).1 op
  | ret hin op turn ih =>
    obtain ⟨hb, hs, hsmall⟩ := before hin hb turn
    rw [hcode] at op turn
    obtain ⟨_, -, hon, -⟩ := ((ih hb).turn hs hv hid hsmall turn).2.1 op
    exact hon (Nat.succ_pos _)
  | other hin hc hr turn ih =>
    obtain ⟨hb, hs, hsmall⟩ := before hin hb turn
    rw [hcode] at hc hr turn
    exact ((ih hb).turn hs hv hid hsmall turn).2.2 hc hr

/-- What a call leaves alone, and what its caller finds after it. In a run of an assembled program
that passes through `a`, which stands at a call, and later through `b`, before the call has returned:
both stacks of `a`, and the address after the call, are still there. If `b` stands at the return
that belongs to the call, then the machine after it has the stack of `a` with `r0` on it, the frame
pointer and the calls of `a`, and goes on after the call. -/
theorem call_preserves_frame {t : Tree} {p : Program} (h : t.assemble = .ok p) {vm : Machine}
    {output : Sink} {a b : Machine} {n : Nat} (ha : vm.Passes p output a)
    (hcall : a.opcode? p.code = some .call) (hb : vm.Passes p output b) (hin : InCall p.code a n b) :
    a.stack <:+ b.stack ∧ (a.pc + 1) :: a.calls <:+ b.calls ∧
      ∀ c, n = 1 → b.opcode? p.code = some .ret → b.turn p.code = .running c →
        c.stack = b.registers.r0 :: a.stack ∧ c.registers.fp = a.registers.fp ∧
          c.calls = a.calls ∧ c.pc = a.pc + 1 := by
  obtain ⟨m, hm, hp⟩ := Tree.assemble_eq_ok h
  have hv := Tree.valid_of_resolve hm
  have hid := (Core.Module.assemble_eq_ok hp).2
  have hcode : p.code = m.emit.toArray := by rw [(Core.Module.assemble_eq_ok hp).1]
  have hs := sound_of_passes hv hp hb
  have hactive := hin.active hp hv ha hcall hb
  obtain ⟨k, rfl⟩ : ∃ k, n = k + 1 := by
    cases hin <;> exact ⟨_, rfl⟩
  obtain ⟨v, rfl, hstack, hcalls⟩ := hactive.suffix
  refine ⟨hstack, hcalls, fun c hn hret hturn => ?_⟩
  obtain rfl : k = 0 := by omega
  rw [hcode] at hret hturn
  obtain ⟨caller, hcaller, -, hview⟩ :=
    (hactive.turn hs hv hid (hb.stack_lt hs.height) hturn).2.1 hret
  cases hcaller with
  | base hbase =>
    rw [hbase] at hview
    obtain ⟨hpc, hfp, hcstack, hccalls⟩ := View.mk.inj hview
    exact ⟨hcstack, hfp, hccalls, hpc⟩

/-- The call that the program stands at after 6 turns is about to return after 22. -/
theorem successor_call_preserves_frame : ∃ p a b c, Tree.successor.assemble = .ok p ∧
    (Machine.new ⟨[65], none⟩).Passes p .unlimited a ∧ a.opcode? p.code = some .call ∧
    (Machine.new ⟨[65], none⟩).Passes p .unlimited b ∧ InCall p.code a 1 b ∧
    b.opcode? p.code = some .ret ∧ b.turn p.code = .running c ∧ a.stack = [1, 0] ∧
    c.stack = b.registers.r0 :: a.stack ∧ c.registers.fp = a.registers.fp ∧ c.calls = a.calls ∧
    c.pc = a.pc + 1 := by
  obtain ⟨p, a, d, b, c, hp, ha, hcall, henter, hops, hd, hb, hret, hleave, hstack⟩ :
      ∃ p a d b c, Tree.successor.assemble = .ok p ∧
        (Machine.new ⟨[65], none⟩).Passes p .unlimited a ∧ a.opcode? p.code = some .call ∧
        a.turn p.code = .running d ∧
        (∀ j < 15, ∀ op ∈ (d.after? p.code j).bind (·.opcode? p.code), op ≠ .call ∧ op ≠ .ret) ∧
        d.after? p.code 15 = some b ∧ (Machine.new ⟨[65], none⟩).Passes p .unlimited b ∧
        b.opcode? p.code = some .ret ∧ b.turn p.code = .running c ∧ a.stack = [1, 0] :=
    ⟨_, _, _, _, _, rfl, ⟨6, rfl, fun h => absurd h (by decide)⟩, rfl, rfl, by decide, rfl,
      ⟨22, rfl, fun h => absurd h (by decide)⟩, rfl, rfl, rfl⟩
  have hin := InCall.stretch (.enter henter) 15 hops hd
  exact ⟨p, a, b, c, hp, ha, hcall, hb, hin, hret, hleave, hstack,
    (call_preserves_frame hp ha hcall hb hin).2.2 c rfl hret hleave⟩

end StackLang
