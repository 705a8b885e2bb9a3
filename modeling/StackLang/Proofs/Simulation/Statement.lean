import StackLang.Proofs.Simulation.Expression

/-!
# The code of statements

What a statement's code does, whatever comes after it. There are two ways on: behind the code, with
the slots as the statement leaves them, and at the end of the function, with a value that is
returned. A loop is followed for as many turns as the computation was granted: each takes at least
one turn of the machine.

Results:
* `Simulates.mark`, `Simulates.marked`, `Simulates.jump`, `Simulates.branch`: code around statements.
* `Stmt.loop_simulates`: the code of a loop, given what those of its condition and body do.
* `Stmt.simulates`, `Stmt.simulatesAll`: the code of statements.
-/
namespace StackLang

open Semantics Instruction

namespace Core

theorem CallsAgree.mono {m : Module} {bound n : Nat} {calls : Calls} (h : CallsAgree m bound calls)
    (hn : n ≤ bound) : CallsAgree m n calls := fun k hk => h k (Nat.le_trans hk hn)

/-- A machine at `pc` agrees with a computation that ends as a statement does, if the machines agree
that go on at `after`, and those that return at `doneAt`. -/
def Simulates (m : Module) (frame : Frame) (n pc after doneAt : Nat) (slots : Slots)
    (x : Eval (Completion Slots)) : Prop :=
  ∀ (a : Machine) (k : Completion Slots → Eval Int64), frame.At m pc [] slots a →
    (∀ slots' b, frame.At m after [] slots' b → Agrees m.emit.toArray n b (k (.next slots') b.world)) →
    (∀ v slots' b, frame.At m doneAt [v] slots' b →
      Agrees m.emit.toArray n b (k (.returned v) b.world)) →
    Agrees m.emit.toArray n a ((x >>= k) a.world)

namespace Simulates

section

variable {m : Module} {frame : Frame} {n pc after doneAt : Nat} {slots : Slots}
  {x : Eval (Completion Slots)} {l : Label}

/-- No code. -/
theorem skip : Simulates m frame n pc pc doneAt slots (pure (.next slots)) :=
  fun a _ ha hnext _ => hnext slots a ha

/-- Code before a mark. -/
theorem mark (h : Simulates m frame n pc after doneAt slots x)
    (hmark : m.emit[after]? = some (ofLabel .mark l)) :
    Simulates m frame n pc (after + 1) doneAt slots x := fun a k ha hnext hret =>
  h a k ha (fun slots' _ hb => hb.mark hmark fun c hc => (hnext slots' c hc).mono (Nat.sub_le n 1))
    hret

/-- Code behind a mark. -/
theorem marked (hmark : m.emit[pc]? = some (ofLabel .mark l))
    (h : Simulates m frame n (pc + 1) after doneAt slots x) :
    Simulates m frame n pc after doneAt slots x := fun _ k ha hnext hret =>
  ha.mark hmark fun b hb => (h b k hb hnext hret).mono (Nat.sub_le n 1)

/-- Code before a jump to where a label is marked. -/
theorem jump (h : Simulates m frame n pc after doneAt slots x) (hid : m.entry.id < 0x100000000)
    (hl : l.id < 0x100000000) {address : Nat} (hjump : m.emit[after]? = some (ofLabel .jump l))
    (hmark : m.emit[address]? = some (ofLabel .mark l)) :
    Simulates m frame n pc address doneAt slots x := fun a k ha hnext hret =>
  h a k ha (fun slots' _ hb => hb.jump hid hl hjump hmark fun c hc => hnext slots' c hc) hret

/-- The code of a condition, a jump to `address` if it is 0, and the code for when it is not. -/
theorem branch (hid : m.entry.id < 0x100000000)
    (hstatics : m.strings.bytes.length < 0x8000000000000000) {calls : Calls}
    (hcalls : CallsAgree m n calls) {e : Expr} (hv : e.Valid frame.locals m.functions.length)
    (ht : ∀ text ∈ e.texts, text ∈ m.texts) {address : Nat} (hl : l.id < 0x100000000)
    (hcode : Holds m.emit pc (e.emit m.strings.offset ++ [ofLabel .jumpIfZero l]))
    (hmark : m.emit[address]? = some (ofLabel .mark l)) {no yes : Eval (Completion Slots)}
    (hno : Simulates m frame n address after doneAt slots no)
    (hyes : Simulates m frame n (pc + (e.emit m.strings.offset).length + 1) after doneAt slots yes) :
    Simulates m frame n pc after doneAt slots (do
      if (← e.value calls slots) = 0 then no else yes) := by
  intro a k ha hnext hret
  rw [bind_assoc]
  refine Expr.branches hid hstatics hcalls hv ht hl hcode hmark ha (fun b hb => ?_)
    fun v hne b hb => ?_
  · exact hno b k hb hnext hret
  · rw [if_neg hne]
    exact hyes b k hb hnext hret

end

end Simulates

namespace Stmt

section

variable {m : Module} {n bound : Nat} {calls : Calls} {frame : Frame} {doneAt : Nat}

/-- The code of a loop: a mark at `pc`, the condition, a jump past the loop, the body, a jump back
and a mark behind it. -/
theorem loop_simulates (hid : m.entry.id < 0x100000000)
    (hstatics : m.strings.bytes.length < 0x8000000000000000) (hcalls : CallsAgree m bound calls)
    {condition : Expr} (hv : condition.Valid frame.locals m.functions.length)
    (ht : ∀ text ∈ condition.texts, text ∈ m.texts) {body : Slots → Eval (Completion Slots)}
    {pc backAt : Nat} {start stop : Label} (hstart : start.id < 0x100000000)
    (hstop : stop.id < 0x100000000) (hmark : m.emit[pc]? = some (ofLabel .mark start))
    (hcondition : Holds m.emit (pc + 1)
      (condition.emit m.strings.offset ++ [ofLabel .jumpIfZero stop]))
    (hbody : ∀ n ≤ bound, ∀ slots, Simulates m frame n
      (pc + 1 + (condition.emit m.strings.offset).length + 1) backAt doneAt slots (body slots))
    (hback : m.emit[backAt]? = some (ofLabel .jump start))
    (hend : m.emit[backAt + 1]? = some (ofLabel .mark stop)) (count : Nat) (hn : n ≤ count)
    (hbound : n ≤ bound) (slots : Slots) :
    Simulates m frame n pc (backAt + 2) doneAt slots
      (Eval.repeatWhile (fun slots => condition.value calls slots) body count slots) := by
  intro a k ha hnext hret
  induction count generalizing n slots a k with
  | zero =>
    obtain rfl : n = 0 := Nat.le_zero.1 hn
    exact .unfinished rfl
  | succ count ih =>
    have hless : n - 1 ≤ bound := Nat.le_trans (Nat.sub_le n 1) hbound
    refine ha.mark hmark fun b hb => ?_
    rw [Eval.repeatWhile, bind_assoc]
    refine Expr.branches hid hstatics (hcalls.mono hless) hv ht hstop hcondition hend hb
      (fun c hc => ?_) fun v hne c hc => ?_
    · exact hc.mark hend fun d hd => (hnext slots d hd).mono (by omega)
    · rw [if_neg hne, bind_assoc]
      refine hbody (n - 1) hless slots c _ hc ?_ ?_
      · refine fun slots' d hd => hd.jump hid hstart hback hmark fun e he => ?_
        refine ih (by omega) hless slots' e k he ?_ ?_
        · exact fun slots'' f hf => (hnext slots'' f hf).mono (Nat.sub_le n 1)
        · exact fun v slots'' f hf => (hret v slots'' f hf).mono (Nat.sub_le n 1)
      · exact fun v slots' d hd => (hret v slots' d hd).mono (Nat.sub_le n 1)

mutual

/-- The code of a statement. -/
theorem simulates (hid : m.entry.id < 0x100000000)
    (hstatics : m.strings.bytes.length < 0x8000000000000000) (hcalls : CallsAgree m bound calls)
    {done : Label} (hdone : done.id < 0x100000000)
    (hend : m.emit[doneAt]? = some (ofLabel .mark done)) :
    ∀ (s : Stmt), ValidAll frame.locals m.functions.length [s] →
    (∀ text ∈ texts s, text ∈ m.texts) → ∀ {n next pc : Nat} (slots : Slots), n ≤ bound →
    next + labels s ≤ 0x100000000 → Holds m.emit pc (emit m.strings.offset done.id next s) →
    Simulates m frame n pc (pc + (emit m.strings.offset done.id next s).length) doneAt slots
      (exec calls bound slots s)
  | .store slot e, hv, ht, n, next, pc, slots, hn, _, hcode => by
    intro a k ha hnext _
    rw [exec, bind_assoc]
    refine Expr.simulates hid hstatics (hcalls.mono hn) e hv.1.2 ht hcode.left ha fun v b hb => ?_
    refine hb.storeSlot hv.1.1 hcode.right.head fun c hc => hnext _ c ?_
    rwa [emit, List.length_append, ← Nat.add_assoc]
  | .discard e, hv, ht, n, next, pc, slots, hn, _, hcode => by
    intro a k ha hnext _
    rw [exec, bind_assoc]
    refine Expr.simulates hid hstatics (hcalls.mono hn) e hv.1 ht hcode.left ha fun v b hb => ?_
    refine hb.pop hcode.right.head fun c hc => hnext slots c ?_
    rwa [emit, List.length_append, ← Nat.add_assoc]
  | .putInt e, hv, ht, n, next, pc, slots, hn, _, hcode => by
    intro a k ha hnext _
    rw [exec, bind_assoc]
    refine Expr.simulates hid hstatics (hcalls.mono hn) e hv.1 ht hcode.left ha fun v b hb => ?_
    rw [bind_assoc]
    refine hb.putInt hcode.right.head fun c hc => hnext slots c ?_
    rwa [emit, List.length_append, ← Nat.add_assoc]
  | .putString e, hv, ht, n, next, pc, slots, hn, _, hcode => by
    intro a k ha hnext _
    rw [exec, bind_assoc]
    refine Expr.simulates hid hstatics (hcalls.mono hn) e hv.1 ht hcode.left ha fun v b hb => ?_
    rw [bind_assoc]
    refine hb.putString hcode.right.head fun c hc => hnext slots c ?_
    rwa [emit, List.length_append, ← Nat.add_assoc]
  | .giveBack e, hv, ht, n, next, pc, slots, hn, _, hcode => by
    intro a k ha _ hret
    rw [exec, bind_assoc]
    refine Expr.simulates hid hstatics (hcalls.mono hn) e hv.1 ht hcode.left ha fun v b hb => ?_
    exact hb.jump hid hdone hcode.right.head hend fun c hc => hret v slots c hc
  | .loop condition body, hv, ht, n, next, pc, slots, hn, hlabels, hcode => by
    simp only [labels] at hlabels
    have hstart : (Label.mk next).id < 0x100000000 := by simp only; omega
    have hstop : (Label.mk (next + 1)).id < 0x100000000 := by simp only; omega
    have hhead := hcode.left.left
    have hbody := hcode.left.right
    have hback := hcode.right.head
    have hstopAt := hcode.right.tail.head
    have hbodyAt : pc + (ofLabel .mark ⟨next⟩ :: condition.emit m.strings.offset ++
        [ofLabel .jumpIfZero ⟨next + 1⟩]).length =
        pc + 1 + (condition.emit m.strings.offset).length + 1 := by simp; omega
    rw [hbodyAt] at hbody
    rw [List.length_append, ← Nat.add_assoc, hbodyAt] at hback hstopAt
    have hafter : pc + (emit m.strings.offset done.id next (.loop condition body)).length =
        pc + 1 + (condition.emit m.strings.offset).length + 1 +
          (emitAll m.strings.offset done.id (next + 2) body).length + 2 := by
      simp [emit]; omega
    rw [hafter, exec]
    refine loop_simulates hid hstatics hcalls hv.1.1 (fun text h => ht text (List.mem_append_left _ h))
      hstart hstop hhead.head hhead.tail (fun n hn slots => ?_) hback hstopAt bound hn hn slots
    exact simulatesAll hid hstatics hcalls hdone hend body hv.1.2
      (fun text h => ht text (List.mem_append_right _ h)) slots hn (by omega) hbody
  | .ifThen condition body, hv, ht, n, next, pc, slots, hn, hlabels, hcode => by
    simp only [labels] at hlabels
    have hstop : (Label.mk next).id < 0x100000000 := by simp only; omega
    have hbody := hcode.left.right
    have hstopAt := hcode.right.head
    simp only [List.length_append, List.length_singleton, ← Nat.add_assoc] at hbody hstopAt
    rw [emit, exec]
    simp only [List.length_append, List.length_singleton, ← Nat.add_assoc]
    refine .branch hid hstatics (hcalls.mono hn) hv.1.1
      (fun text h => ht text (List.mem_append_left _ h)) hstop hcode.left.left hstopAt
      (Simulates.skip.mark hstopAt) (.mark ?_ hstopAt)
    exact simulatesAll hid hstatics hcalls hdone hend body hv.1.2
      (fun text h => ht text (List.mem_append_right _ h)) slots hn (by omega) hbody
  | .ifElse condition body other, hv, ht, n, next, pc, slots, hn, hlabels, hcode => by
    simp only [labels] at hlabels
    simp only [texts, List.mem_append] at ht
    have hno : (Label.mk next).id < 0x100000000 := by simp only; omega
    have hstop : (Label.mk (next + 1 + labelsOfAll body)).id < 0x100000000 := by simp only; omega
    have hbody := hcode.left.left.left.right
    have hjump := hcode.left.left.right.head
    have hnoAt := hcode.left.left.right.tail.head
    have hother := hcode.left.right
    have hstopAt := hcode.right.head
    simp only [List.length_append, List.length_cons, List.length_nil, Nat.zero_add,
      ← Nat.add_assoc] at hbody hjump hnoAt hother hstopAt
    rw [emit, exec]
    simp only [List.length_append, List.length_cons, List.length_nil, Nat.zero_add,
      ← Nat.add_assoc]
    refine .branch hid hstatics (hcalls.mono hn) hv.1.1 (fun text h => ht text (.inl (.inl h)))
      hno hcode.left.left.left.left hnoAt (.mark (.marked hnoAt ?_) hstopAt)
      (.mark (.jump ?_ hid hstop hjump hstopAt) hstopAt)
    · exact simulatesAll hid hstatics hcalls hdone hend other hv.1.2.2
        (fun text h => ht text (.inr h)) slots hn (by omega) hother
    · exact simulatesAll hid hstatics hcalls hdone hend body hv.1.2.1
        (fun text h => ht text (.inl (.inr h))) slots hn (by omega) hbody

/-- The code of statements. -/
theorem simulatesAll (hid : m.entry.id < 0x100000000)
    (hstatics : m.strings.bytes.length < 0x8000000000000000) (hcalls : CallsAgree m bound calls)
    {done : Label} (hdone : done.id < 0x100000000)
    (hend : m.emit[doneAt]? = some (ofLabel .mark done)) :
    ∀ (ss : List Stmt), ValidAll frame.locals m.functions.length ss →
    (∀ text ∈ textsOfAll ss, text ∈ m.texts) → ∀ {n next pc : Nat} (slots : Slots), n ≤ bound →
    next + labelsOfAll ss ≤ 0x100000000 →
    Holds m.emit pc (emitAll m.strings.offset done.id next ss) →
    Simulates m frame n pc (pc + (emitAll m.strings.offset done.id next ss).length) doneAt slots
      (execAll calls bound slots ss)
  | [], _, _, n, next, pc, slots, _, _, _ => fun a k ha hnext _ => hnext slots a ha
  | s :: ss, hv, ht, n, next, pc, slots, hn, hlabels, hcode => by
    simp only [labelsOfAll] at hlabels
    intro a k ha hnext hret
    rw [execAll, bind_assoc]
    refine simulates hid hstatics hcalls hdone hend s ⟨hv.1, trivial⟩
      (fun text h => ht text (List.mem_append_left _ h)) slots hn (by omega) hcode.left a _ ha ?_ hret
    intro slots' b hb
    refine simulatesAll hid hstatics hcalls hdone hend ss hv.2
      (fun text h => ht text (List.mem_append_right _ h)) slots' hn (by omega) hcode.right b _ hb
      ?_ hret
    intro slots'' c hc
    refine hnext slots'' c ?_
    rwa [emitAll, List.length_append, ← Nat.add_assoc]

end

end

end Stmt
end Core
end StackLang
