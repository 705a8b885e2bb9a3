import StackLang.Proofs.Assembled.Heights
import StackLang.Proofs.Core.Chain
import StackLang.Proofs.Core.Scoping

/-!
# Slots of assembled programs

Variables have the slots that their `let`s have as numbers, and each is given its value by its `let` before
it is read. For the code after a `let`, up to the end of its block, is entered only from the `let`, and a
call that is under way keeps to the code of its function. Below the slots of a call stands the frame
pointer of its caller, which no slot reaches.

Results:
* `InCall.entered`: a call that has got to code that is entered only at its start has passed there.
* `slots_of_assemble`: the slots of an assembled program.
-/
namespace StackLang

open StackLang.Core Instruction

/-! ## Turns within a function -/

/-- The instruction at an address may come right after the one at another. -/
inductive Moves (code : List Instruction) (j : Nat) : Nat → Prop where
  | next : Moves code j (j + 1)
  | jump {j' : Nat} {i i' : Instruction} {l : Label} (hi : code[j]? = some i)
    (jumps : i.jumpsTo? = some l) (hi' : code[j']? = some i') (marked : i'.marked? = some l) :
    Moves code j j'

/-- Code that is entered only at its start is entered only there. -/
theorem Closed.entered {code : List Instruction} {low high k stop j j' : Nat}
    (h : Closed code low high (k + 1) stop) (hmoves : Moves code j j') (hk : k < j') (hstop : j' < stop) :
    j = k ∨ k < j ∧ j < stop := by
  cases hmoves with
  | next => omega
  | jump hi jumps hi' marked =>
    obtain ⟨hlow, hhigh⟩ := h.mark _ _ _ hk hstop hi' marked
    exact .inr (h.jump _ _ _ hi jumps hlow hhigh)

/-- What a turn makes of the calls. -/
theorem Machine.calls_of_turn {code : Array Instruction} {b c : Machine}
    (h : b.turn code = .running c) :
    (b.opcode? code = some .call → c.calls = (b.pc + 1) :: b.calls) ∧
      (b.opcode? code = some .ret → b.calls = c.pc :: c.calls) ∧
      (b.opcode? code ≠ some .call → b.opcode? code ≠ some .ret → c.calls = b.calls) := by
  obtain ⟨i, hi, -, hperform⟩ := Machine.perform_of_turn h
  have hop : b.opcode? code = some i.opcode := by rw [Machine.opcode?, hi]; rfl
  have hgoes := b.goes_perform i
  rw [hperform] at hgoes
  simp only [hop, ne_eq, Option.some.injEq]
  cases hgoes with
  | next hne _ calls =>
    simp only [List.mem_cons, List.not_mem_nil, or_false, not_or] at hne
    exact ⟨fun h => absurd h hne.2.1, fun h => absurd h hne.2.2.1, fun _ _ => calls⟩
  | jumps hjump _ calls =>
    refine ⟨fun h => ?_, fun h => ?_, fun _ _ => calls⟩ <;> simp [h] at hjump
  | calls hcall _ calls =>
    exact ⟨fun _ => calls, fun h => (by rw [h] at hcall; cases hcall), fun h => absurd hcall h⟩
  | returns hret calls =>
    exact ⟨fun h => (by rw [h] at hret; cases hret), fun _ => calls, fun _ h => absurd hret h⟩

section

variable {m : Core.Module} {p : Program} {index : Nat} {f : Core.Function} {b c : Machine} {j : Nat}

theorem Core.Module.getElem?_code (hp : m.assemble = .ok p) (hf : m.functions[index]? = some f)
    (hpc : b.pc = m.start index + j) (hj : j < (m.functionCode index f).length) :
    p.code[b.pc]? = (m.functionCode index f)[j]? := by
  rw [(assemble_eq_ok hp).1, List.getElem?_toArray, hpc, (holds_function hf).getElem? hj]

/-- A turn that neither calls nor returns leads to an instruction of the same function. -/
theorem Core.Module.moves_of_turn (hp : m.assemble = .ok p) (hv : m.Valid)
    (hf : m.functions[index]? = some f) (hloaded : m.Loaded b) (hpc : b.pc = m.start index + j)
    (hj : j < (m.functionCode index f).length) (hturn : b.turn p.code = .running c)
    (hcall : b.opcode? p.code ≠ some .call) (hret : b.opcode? p.code ≠ some .ret) :
    ∃ j' < (m.functionCode index f).length, c.pc = m.start index + j' ∧
      Moves (m.functionCode index f) j j' := by
  obtain ⟨i, hi, -, hperform⟩ := Machine.perform_of_turn hturn
  have hop : b.opcode? p.code = some i.opcode := by rw [Machine.opcode?, hi]; rfl
  have hid := (assemble_eq_ok hp).2
  rw [getElem?_code hp hf hpc hj] at hi
  have hgoes := b.goes_perform i
  rw [hperform] at hgoes
  cases hgoes with
  | next hne pc =>
    refine ⟨j + 1, lt_length_of_ne_ret hi ?_, by rw [pc, hpc, Nat.add_assoc], .next⟩
    rintro rfl
    exact hret hop
  | jumps hjump target =>
    obtain ⟨l, k, hlabel, hnamed, hk, hresolve⟩ := exists_mark_of_jump hv hid hf hi hjump
    rw [Machine.target?, hloaded.labels, hnamed, Option.bind_some, hresolve] at target
    refine ⟨k, (List.getElem?_eq_some_iff.1 hk).1, (Option.some.inj target).symm,
      .jump hi (by rw [jumpsTo?, if_pos hjump, hlabel]) hk ?_⟩
    have hlt := Label.lt_of_ofOperand? hnamed
    exact marked?_eq_some_iff.2 ⟨rfl, Label.ofOperand?_operand hlt⟩
  | calls hop' => exact absurd (hop.trans (congrArg some hop')) hcall
  | returns hop' => exact absurd (hop.trans (congrArg some hop')) hret

/-- A call under way stands in the function that it is of, or goes on there when the calls made since have
returned. If this is within code that is entered only at its start, it has passed the instruction before
that code. -/
theorem InCall.entered (hp : m.assemble = .ok p) (hv : m.Valid) (hf : m.functions[index]? = some f)
    {low high k stop n : Nat} (hclosed : Closed (m.functionCode index f) low high (k + 1) stop)
    {a : Machine} (hloaded : m.Loaded a) (hcall : p.code[a.pc]? = some (ofLabel .call ⟨index⟩))
    (h : InCall p.code a n b) : m.Loaded b ∧ ∃ j < (m.functionCode index f).length,
      (b.pc :: b.calls)[n - 1]? = some (m.start index + j) ∧
        (k < j → j < stop → ∃ c i, InCall p.code a 1 c ∧ c.pc = m.start index + k ∧
          c.after? p.code (i + 1) = some b) := by
  -- what has been passed before a turn has been passed after it
  have later {b d : Machine} (turn : b.turn p.code = .running d) (hpassed : ∃ c i, InCall p.code a 1 c ∧
      c.pc = m.start index + k ∧ c.after? p.code (i + 1) = some b) : ∃ c i, InCall p.code a 1 c ∧
      c.pc = m.start index + k ∧ c.after? p.code (i + 1) = some d := by
    obtain ⟨c, i, hin, hpc, hafter⟩ := hpassed
    exact ⟨c, i + 1, hin, hpc, Machine.after?_succ_eq_some_iff.2 ⟨b, hafter, turn⟩⟩
  -- from one instruction of the function to the next
  have move {b d : Machine} {j j' : Nat} (hin : InCall p.code a 1 b) (hpc : b.pc = m.start index + j)
      (turn : b.turn p.code = .running d) (hmoves : Moves (m.functionCode index f) j j')
      (hpassed : k < j → j < stop → ∃ c i, InCall p.code a 1 c ∧ c.pc = m.start index + k ∧
        c.after? p.code (i + 1) = some b) (hk : k < j') (hstop : j' < stop) :
      ∃ c i, InCall p.code a 1 c ∧ c.pc = m.start index + k ∧ c.after? p.code (i + 1) = some d := by
    rcases hclosed.entered hmoves hk hstop with rfl | ⟨hk, hstop⟩
    · exact ⟨b, 0, hin, hpc, Machine.after?_succ_eq_some_iff.2 ⟨b, rfl, turn⟩⟩
    · exact later turn (hpassed hk hstop)
  induction h with
  | @enter b turn =>
    refine ⟨hloaded.turn turn, 0, by
      simp [Core.Module.functionCode, Core.Function.emit, Core.Function.prologue], ?_,
      fun h => absurd h (Nat.not_lt_zero k)⟩
    obtain ⟨i, hi, -, hperform⟩ := Machine.perform_of_turn turn
    obtain rfl := Option.some.inj (hi.symm.trans hcall)
    rw [hloaded.perform_call (Core.Module.assemble_eq_ok hp).2 (Core.Module.lt_of_getElem? hf)]
      at hperform
    cases hperform
    rfl
  | @call n b d h op turn ih =>
    obtain ⟨hb, j, hj, hpc, hpassed⟩ := ih
    have hcalls := (Machine.calls_of_turn turn).1 op
    cases n with
    | zero =>
      have hpc : b.pc = m.start index + j := Option.some.inj hpc
      obtain ⟨i, hi, hop⟩ := Option.map_eq_some_iff.1 op
      rw [Core.Module.getElem?_code hp hf hpc hj] at hi
      have hnext : j + 1 < (m.functionCode index f).length := by
        refine Core.Module.lt_length_of_ne_ret hi ?_
        rintro rfl
        cases hop
      refine ⟨hb.turn turn, j + 1, hnext, ?_, move h hpc turn .next hpassed⟩
      show d.calls[0]? = _
      rw [hcalls, hpc]
      rfl
    | succ n =>
      refine ⟨hb.turn turn, j, hj, ?_, fun hk hstop => later turn (hpassed hk hstop)⟩
      rw [hcalls]
      exact hpc
  | @ret n b d h op turn ih =>
    obtain ⟨hb, j, hj, hpc, hpassed⟩ := ih
    refine ⟨hb.turn turn, j, hj, ?_, fun hk hstop => later turn (hpassed hk hstop)⟩
    rw [← (Machine.calls_of_turn turn).2.1 op]
    exact hpc
  | @other n b d h hc hr turn ih =>
    obtain ⟨hb, j, hj, hpc, hpassed⟩ := ih
    have hcalls := (Machine.calls_of_turn turn).2.2 hc hr
    cases n with
    | zero =>
      have hpc : b.pc = m.start index + j := Option.some.inj hpc
      obtain ⟨j', hj', hpc', hmoves⟩ := Core.Module.moves_of_turn hp hv hf hb hpc hj turn hc hr
      exact ⟨hb.turn turn, j', hj', congrArg some hpc', move h hpc turn hmoves hpassed⟩
    | succ n =>
      refine ⟨hb.turn turn, j, hj, ?_, fun hk hstop => later turn (hpassed hk hstop)⟩
      show d.calls[n]? = _
      rw [hcalls]
      exact hpc

/-! ## Calls and their frames -/

/-- An instruction with a slot stands where the frame is set up, and its slot is one of the function. -/
theorem Core.Fits.inside_of_isSlot {s : Place} {i : Instruction} (h : Fits m index f s i)
    (hslot : i.isSlot = true) : ∃ k, s = .inside f.locals k := by
  cases h with
  | slot k | storeSlot k => exact ⟨_, rfl⟩
  | arithmetic _ op | comparison _ op => cases op <;> cases hslot
  | _ => cases hslot

/-- An instruction with a slot stands in a function. -/
theorem Core.Module.exists_function_of_isSlot {a : Nat} {i : Instruction} (hi : m.emit[a]? = some i)
    (hslot : i.isSlot = true) :
    ∃ index < m.functions.length, m.start index ≤ a ∧ a < m.start (index + 1) := by
  by_cases hlt : a < m.entryStart
  · obtain ⟨index, f, j, hf, hj, rfl⟩ := exists_function hlt
    refine ⟨index, lt_of_getElem? hf, Nat.le_add_right _ _, ?_⟩
    rw [start_succ hf]
    exact Nat.add_lt_add_left hj _
  · have hmem := mem_entryCode hi (Nat.le_of_not_lt hlt)
    simp only [entryCode, List.mem_cons, List.not_mem_nil, or_false] at hmem
    rcases hmem with rfl | rfl | rfl | rfl <;> cases hslot

/-- A machine that stands in a function is in a call of it. -/
theorem exists_inCall_of_pc (hp : m.assemble = .ok p) (hv : m.Valid) (hf : m.functions[index]? = some f)
    {vm : Machine} {output : Sink} (hb : vm.Passes p output b) (hpc : b.pc = m.start index + j)
    (hj : j < (m.functionCode index f).length) :
    ∃ a, vm.Passes p output a ∧ a.opcode? p.code = some .call ∧ InCall p.code a 1 b := by
  obtain ⟨n, hn, -⟩ := id hb
  obtain ⟨-, part?, hchain, hcovers⟩ := follows_of_after? hp hv hn
  have hcalls : 0 < b.calls.length := by
    generalize hcalls : b.calls = calls at hchain
    cases hchain with
    | entry =>
      have hle := Core.Module.start_add_length_le hf (Core.Module.lt_of_getElem? hf) (Nat.le_refl _)
      have hentry : m.start m.functions.length ≤ b.pc := hcovers.1
      omega
    | call => exact Nat.zero_lt_succ _
  obtain ⟨i, hi, a, ha, hcall, hin⟩ := exists_inCall hn hcalls
  exact ⟨a, hb.before hn (Nat.le_of_lt hi) ha, hcall, hin⟩

/-- A call that stands in a function is a call of it, and has its frame there. -/
theorem InCall.within (hp : m.assemble = .ok p) (hv : m.Valid) (hf : m.functions[index]? = some f)
    {vm a : Machine} {output : Sink} (ha : vm.Passes p output a)
    (hcall : a.opcode? p.code = some .call) (hb : vm.Passes p output b) (hin : InCall p.code a 1 b)
    (hpc : b.pc = m.start index + j) (hj : j < (m.functionCode index f).length) :
    p.code[a.pc]? = some (ofLabel .call ⟨index⟩) ∧ ∃ own, Within m a.view index f j own b.view := by
  have hactive := hin.active hp hv ha hcall hb
  cases hactive with
  | @call _ index' j' _ _ f' own outer hsite within =>
    cases outer with
    | base hbase =>
      subst hbase
      -- an address lies in one function only
      have hpart := Core.Module.partAt?_function hf hj
      rw [← hpc, show b.pc = _ from within.pc, Core.Module.partAt?_function within.function within.bound]
        at hpart
      obtain rfl := Option.some.inj hpart
      obtain rfl := Option.some.inj (hf.symm.trans within.function)
      obtain rfl : j = j' := Nat.add_left_cancel (hpc.symm.trans within.pc)
      rw [(Core.Module.assemble_eq_ok hp).1, List.getElem?_toArray]
      exact ⟨hsite, own, within⟩

end

/-- What an occurrence finds where `b` is about to execute it, in the call that was made at `a`, of a
function that starts at `start` and has so many variables. Its slot is above the frame pointer of the
caller, which is still there. If it is not a `let` itself, its `let` has been executed in the same call. -/
structure Occurrence.Found (p : Program) (start count : Nat) (code : List Instruction)
    (os : List Occurrence) (a b : Machine) (o : Occurrence) (k : Nat) : Prop where
  binder : o.binder = some k
  lt : k < count
  instruction : p.code[b.pc]? = o.instruction?
  slot : b.slotHeight? (Int64.ofNat k) = some (a.stack.length + (count - k))
  saved : b.stack.reverse[a.stack.length]? = some a.registers.fp
  declared : o.use ≠ .declare → ∃ c i j, InCall p.code a 1 c ∧ c.after? p.code (i + 1) = some b ∧
    c.pc = start + j ∧ occurrenceAt? code os j = some ⟨.declare, o.name, some k⟩ ∧
    p.code[c.pc]? = some ⟨.storeSlot, Int64.ofNat k⟩

section

variable {m : Core.Module} {p : Program} {index : Nat} {g : Core.Function} {a b : Machine} {j : Nat}

/-- In a frame that is set up, a slot is above the frame pointer of the caller, which stands lowest. -/
theorem Core.Within.slotHeight? {own : List Int64} {above : Nat}
    (h : Within m a.view index g j own b.view) (hplace : m.placeAt index g j = .inside g.locals above)
    (hsmall : b.stack.length < Machine.heightLimit) {k : Nat} (hk : k < g.locals) :
    b.slotHeight? (Int64.ofNat k) = some (a.stack.length + (g.locals - k)) ∧
      b.stack.reverse[a.stack.length]? = some a.registers.fp := by
  have hheight : own.length = 1 + g.locals + above := by rw [h.height, hplace]; rfl
  have hstack : b.stack = own ++ a.stack := h.stack
  have hlength : b.stack.length = own.length + a.stack.length := by rw [hstack, List.length_append]
  have hfp : b.registers.fp = sizeWord (a.stack.length + (1 + g.locals)) := by
    have := h.fp
    rw [hplace] at this
    exact this
  simp only [Machine.heightLimit] at hsmall
  constructor
  · rw [Machine.slotHeight?_eq_some_iff, hfp, toInt_sizeWord (by omega),
      Int64.toInt_ofNat_of_lt (by omega)]
    omega
  · rcases h.saved with rfl | ⟨words, rfl⟩
    · rw [List.length_nil] at hheight
      omega
    · have hreverse : b.stack.reverse = a.stack.reverse ++ a.registers.fp :: words.reverse := by
        rw [hstack]
        simp [Machine.view]
      rw [hreverse, List.getElem?_append_right (by simp), List.length_reverse, Nat.sub_self]
      rfl

/-- Where an occurrence is executed, its slot is in place and has been given a value. -/
theorem Occurrence.exists_found {f : StackLang.Function} {low high : Nat} (hp : m.assemble = .ok p)
    (hv : m.Valid) (hg : m.functions[index]? = some g) (hlocals : g.locals = Stmt.localsOfBlock f.body)
    (hsettled : Settled [] low high (m.functionCode index g) f.occurrences) {vm : Machine}
    {output : Sink} (ha : vm.Passes p output a) (hcall : a.opcode? p.code = some .call)
    (hb : vm.Passes p output b) (hin : InCall p.code a 1 b) (hpc : b.pc = m.start index + j)
    {o : Occurrence} (ho : occurrenceAt? (m.functionCode index g) f.occurrences j = some o) :
    ∃ k, o.Found p (m.start index) (Stmt.localsOfBlock f.body) (m.functionCode index g) f.occurrences
      a b k := by
  obtain ⟨i, hi, hslot, -⟩ := occurrenceAt?_eq_some_iff.1 ho
  have hj := lt_of_occurrenceAt? ho
  obtain ⟨hsite, own, hwithin⟩ := hin.within hp hv hg ha hcall hb hpc hj
  obtain ⟨above, hplace⟩ := (Core.Module.fits_placeAt hv hg hi).inside_of_isSlot hslot
  obtain ⟨k, hk, hbinder⟩ := f.exists_binder hsettled (mem_of_occurrenceAt? ho)
  have hsmall := hb.stack_lt (sound_of_passes hv hp hb).height
  obtain ⟨hcell, hsaved⟩ := hwithin.slotHeight? hplace hsmall (hlocals ▸ hk)
  refine ⟨k, hbinder, hk, ?_, hlocals ▸ hcell, hsaved, fun huse => ?_⟩
  · rw [Core.Module.getElem?_code hp hg hpc hj]
    exact hsettled.standsFor.instruction?_of_occurrenceAt? ho
  · obtain ⟨j₀, stop, first, last, hlow, hhigh, -, -, hopen, hclosed⟩ := hsettled.opened ho huse
    obtain ⟨n, hn, -⟩ := id ha
    obtain ⟨-, j', -, hpc', hpassed⟩ :=
      hin.entered hp hv hg hclosed (follows_of_after? hp hv hn).1 hsite
    obtain rfl : j = j' := Nat.add_left_cancel (hpc.symm.trans (Option.some.inj hpc'))
    obtain ⟨c, i, hc, hcpc, hafter⟩ := hpassed hlow hhigh
    rw [hbinder] at hopen
    refine ⟨c, i, j₀, hc, hafter, hcpc, hopen, ?_⟩
    rw [Core.Module.getElem?_code hp hg hcpc (lt_of_occurrenceAt? hopen)]
    exact hsettled.standsFor.instruction?_of_occurrenceAt? hopen

end

/-- The slots of a function whose code stands at `start`. The code makes room for as many words as the
function has `let`s, and takes them down at its end. The `let`s have the numbers from 0 on, and the
instructions with a slot stand for the occurrences of variables, each with the number of the `let` that its
name means there. Where a run executes one of them, the function has been called, and in every such call
the occurrence finds its slot. -/
structure Function.HasSlots (f : Function) (p : Program) (index start : Nat) (code : List Instruction) :
    Prop where
  shape : ∃ body done, code = [ofLabel .mark ⟨index⟩, ofRegister .load .fp] ++
    List.replicate (Stmt.localsOfBlock f.body) ⟨.loadImmediate, 0⟩ ++ [bare .setFrame] ++ body ++
    [⟨.loadImmediate, 0⟩] ++ ([ofLabel .mark done, ofRegister .store .r0] ++
    List.replicate (Stmt.localsOfBlock f.body) (bare .pop) ++ [ofRegister .store .fp, bare .ret])
  numbers : (declarations f.occurrences).map (·.binder) =
    (List.range (Stmt.localsOfBlock f.body)).map some
  standsFor : StandsFor code f.occurrences
  binder : ∀ o ∈ f.occurrences, ∃ k < Stmt.localsOfBlock f.body, o.binder = some k
  called : ∀ (vm : Machine) output b j o, vm.Passes p output b → b.pc = start + j →
    occurrenceAt? code f.occurrences j = some o →
    ∃ a, vm.Passes p output a ∧ a.opcode? p.code = some .call ∧ InCall p.code a 1 b
  found : ∀ (vm : Machine) output a b j o, vm.Passes p output a → a.opcode? p.code = some .call →
    vm.Passes p output b → InCall p.code a 1 b → b.pc = start + j →
    occurrenceAt? code f.occurrences j = some o →
    ∃ k, o.Found p start (Stmt.localsOfBlock f.body) code f.occurrences a b k

/-- The slots of an assembled program follow the scopes of its tree, in each of its functions, and outside
of functions there are none. -/
theorem slots_of_assemble {t : Tree} {p : Program} (h : t.assemble = .ok p) :
    ∃ m, t.resolve = .ok m ∧
      (∀ (a : Nat) i, p.code[a]? = some i → i.isSlot = true →
        ∃ index < t.functions.length, m.start index ≤ a ∧ a < m.start (index + 1)) ∧
      ∀ index f, t.functions[index]? = some f → ∃ code, Holds p.code.toList (m.start index) code ∧
        m.start index + code.length = m.start (index + 1) ∧ f.HasSlots p index (m.start index) code := by
  obtain ⟨m, hm, hp⟩ := Tree.assemble_eq_ok h
  have hv := Tree.valid_of_resolve hm
  have hid := (Core.Module.assemble_eq_ok hp).2
  obtain ⟨names, -, -, -, hfunctions⟩ := Tree.resolve_eq_ok hm
  obtain ⟨hlength, hget⟩ := mapM_eq_ok hfunctions
  refine ⟨m, hm, fun a i hi hslot => ?_, fun index f hf => ?_⟩
  · rw [(Core.Module.assemble_eq_ok hp).1, List.getElem?_toArray] at hi
    rw [hlength]
    exact Core.Module.exists_function_of_isSlot hi hslot
  obtain ⟨g, hg, hresolve⟩ := hget index f hf
  have hlabels := Core.Module.firstLabel_add_labels_le_entry hg
  have hsettled := Function.settled_emit m.strings.offset hresolve index (m.firstLabel index) (by omega)
  obtain ⟨body, -, rfl⟩ := Function.resolve_eq_ok hresolve
  refine ⟨m.functionCode index _, ?_, (Core.Module.start_succ hg).symm, ⟨_, ⟨m.firstLabel index⟩, rfl⟩,
    f.binders_declarations, hsettled.standsFor, fun o ho => f.exists_binder hsettled ho,
    fun vm output b j o hb hpc ho => exists_inCall_of_pc hp hv hg hb hpc (lt_of_occurrenceAt? ho),
    fun vm output a b j o ha hcall hb hin hpc ho =>
      Occurrence.exists_found hp hv hg rfl hsettled ha hcall hb hin hpc ho⟩
  rw [(Core.Module.assemble_eq_ok hp).1]
  exact Core.Module.holds_function hg

/-- The second function has one `let`, which it then reads twice. -/
theorem successor_slots : ∃ p m f code, Tree.successor.assemble = .ok p ∧
    Tree.successor.resolve = .ok m ∧ Tree.successor.functions[1]? = some f ∧
    f.occurrences = [⟨.declare, "x", some 0⟩, ⟨.read, "x", some 0⟩, ⟨.read, "x", some 0⟩] ∧
    Holds p.code.toList (m.start 1) code ∧ f.HasSlots p 1 (m.start 1) code ∧
    code.filter isSlot = [⟨.storeSlot, 0⟩, ⟨.loadSlot, 0⟩, ⟨.loadSlot, 0⟩] := by
  obtain ⟨p, hp⟩ : ∃ p, Tree.successor.assemble = .ok p := ⟨_, rfl⟩
  obtain ⟨f, hf, hos⟩ : ∃ f, Tree.successor.functions[1]? = some f ∧
      f.occurrences = [⟨.declare, "x", some 0⟩, ⟨.read, "x", some 0⟩, ⟨.read, "x", some 0⟩] :=
    ⟨_, rfl, by decide⟩
  obtain ⟨m, hm, -, hslots⟩ := slots_of_assemble hp
  obtain ⟨code, hholds, -, hcode⟩ := hslots 1 f hf
  refine ⟨p, m, f, code, hp, hm, hf, hos, hholds, hcode, ?_⟩
  have hfilter := hcode.standsFor
  rw [StandsFor, hos] at hfilter
  exact (List.map_inj_right fun _ _ h => Option.some.inj h).1 hfilter

end StackLang
