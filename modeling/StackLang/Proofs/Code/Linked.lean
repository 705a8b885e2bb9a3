import StackLang.Proofs.Core.Names
import StackLang.Proofs.Run.Standing

/-!
# What linking gives

A label that some code marks leads to the last address that marks it, so two labels never lead to one
address. A draft can be linked just if it marks the entry and each label that its code refers to. An operand
that is no 32-bit number refers to no label. Two named labels do not lead to one address either, so the name
that is found for an address does not depend on the order in which names are looked through.

Results:
* `resolve?_link_iff`, `resolve?_link_inj`: where labels lead.
* `Draft.link_eq_error_iff`, `Draft.link_eq_ok_iff`: what linking reports, and what it gives.
* `Program.nearest?_eq_some_iff`: the nearest of some addresses, if they are different.
* `Draft.linking_exact`: all that linking gives.
-/
namespace StackLang

/-! ## Labels -/

/-- The operand of an instruction is the number of a label, which has 32 bits. -/
def Instruction.HasLabel (i : Instruction) (l : Label) : Prop :=
  i.operand.toInt = l.id ∧ l.id < 0x100000000

/-- The instruction marks a label, jumps to it or calls it. -/
def Instruction.RefersTo (i : Instruction) (l : Label) : Prop :=
  i.opcode.operandRole = .label ∧ i.HasLabel l

/-- The instruction at an address of some code marks a label. -/
def MarkedAt (code : List Instruction) (a : Nat) (l : Label) : Prop :=
  ∃ i, code[a]? = some i ∧ i.opcode = .mark ∧ i.HasLabel l

/-- Some address of the code marks the label. -/
def Marked (code : List Instruction) (l : Label) : Prop := ∃ a, MarkedAt code a l

/-- All labels that the instructions refer to are marked in the code. -/
def AllMarked (code part : List Instruction) : Prop :=
  ∀ i ∈ part, ∀ l, i.RefersTo l → Marked code l

/-- What there is to report of code and its entry: the first label that is referred to and not marked. -/
inductive FirstUnresolved (code : List Instruction) (entry : Label) : Label → Prop where
  | instruction {before after : List Instruction} {i : Instruction} {l : Label}
    (split : code = before ++ i :: after) (earlier : AllMarked code before) (refers : i.RefersTo l)
    (unmarked : ¬ Marked code l) : FirstUnresolved code entry l
  | entry (all : AllMarked code code) (unmarked : ¬ Marked code entry) : FirstUnresolved code entry entry

variable {code : List Instruction} {l : Label} {a : Nat}

theorem Instruction.label?_eq_some_iff {i : Instruction} : i.label? = some l ↔ i.RefersTo l := by
  rw [label?, Option.ite_none_right_eq_some, Label.ofOperand?_eq_some_iff]
  rfl

theorem markedAt_iff : MarkedAt code a l ↔ code[a]?.bind Instruction.marked? = some l := by
  simp only [MarkedAt, Instruction.HasLabel, Option.bind_eq_some_iff, marked?_eq_some_iff,
    Label.ofOperand?_eq_some_iff]

/-- A label leads to the greatest address that marks it. -/
theorem resolve?_link_iff :
    (link code).resolve? l = some a ↔ MarkedAt code a l ∧ ∀ b, MarkedAt code b l → b ≤ a := by
  rw [resolve?_link_eq_some_iff, markedAt_iff]
  refine and_congr_right fun _ => forall_congr' fun b => ?_
  rw [markedAt_iff, ne_eq, imp_not_comm, Nat.not_lt]

/-- Different labels lead to different addresses. -/
theorem resolve?_link_inj {k : Label} (hl : (link code).resolve? l = some a)
    (hk : (link code).resolve? k = some a) : l = k := by
  have hl := markedAt_iff.1 (resolve?_link_iff.1 hl).1
  rw [markedAt_iff.1 (resolve?_link_iff.1 hk).1] at hl
  exact (Option.some.inj hl).symm

/-- The labels that lead somewhere are those that are marked. -/
theorem resolve?_link_ne_none_iff : (link code).resolve? l ≠ none ↔ Marked code l := by
  have hmarks : (link code).resolve? l ≠ none ↔ ∃ i ∈ code, i.marked? = some l := by
    induction code using List.reverseRecOn with
    | nil => simp [link, Labels.resolve?]
    | append_singleton code i ih =>
      rw [link_concat, Labels.resolve?_note]
      by_cases hi : i.marked? = some l
      · simp [hi]
      · rw [if_neg hi, ih]
        simp only [List.mem_append, List.mem_singleton, or_and_right, exists_or, exists_eq_left, hi,
          or_false]
  rw [hmarks]
  constructor
  · rintro ⟨i, hi, hl⟩
    obtain ⟨a, ha⟩ := List.getElem?_of_mem hi
    exact ⟨a, markedAt_iff.2 (Option.bind_eq_some_iff.2 ⟨i, ha, hl⟩)⟩
  · rintro ⟨a, ha⟩
    obtain ⟨i, hi, hl⟩ := Option.bind_eq_some_iff.1 (markedAt_iff.1 ha)
    exact ⟨i, List.mem_of_getElem? hi, hl⟩

theorem isNone_resolve?_link : ((link code).resolve? l).isNone ↔ ¬ Marked code l := by
  rw [Option.isNone_iff_eq_none, ← resolve?_link_ne_none_iff, not_not]

/-! ## Drafts -/

namespace Draft

variable {d : Draft} {entry : Label} {p : Program}

/-- The instruction refers to a label that has no address. -/
def lacks (code : List Instruction) (i : Instruction) : Bool :=
  i.label?.any fun l => ((StackLang.link code).resolve? l).isNone

theorem lacks_iff {i : Instruction} : lacks code i ↔ ∃ l, i.RefersTo l ∧ ¬ Marked code l := by
  simp only [lacks, Option.any_eq_true, Instruction.label?_eq_some_iff, isNone_resolve?_link]

theorem allMarked_iff {part : List Instruction} :
    AllMarked code part ↔ ∀ i ∈ part, lacks code i = false := by
  simp only [Bool.eq_false_iff, ne_eq, lacks_iff, not_exists, not_and, not_not]
  rfl

theorem unresolved?_eq (code : List Instruction) (entry : Label) : unresolved? code entry =
    ((code.find? (lacks code)).bind Instruction.label?).or
      (if ((StackLang.link code).resolve? entry).isNone then some entry else none) := by
  simp only [unresolved?, List.find?_append, List.find?_filterMap, List.find?_singleton]
  rfl

/-- The label that is looked for is the one that there is to report. -/
theorem unresolved?_eq_some_iff : unresolved? code entry = some l ↔ FirstUnresolved code entry l := by
  rw [unresolved?_eq]
  constructor
  · intro h
    cases hfirst : code.find? (lacks code) with
    | none =>
      rw [hfirst, Option.bind_none, Option.none_or, Option.ite_none_right_eq_some,
        isNone_resolve?_link, Option.some.injEq] at h
      obtain ⟨hentry, rfl⟩ := h
      refine .entry (allMarked_iff.2 fun i hi => ?_) hentry
      exact Bool.eq_false_iff.2 (List.find?_eq_none.1 hfirst i hi)
    | some i =>
      obtain ⟨hi, before, after, hsplit, hbefore⟩ := List.find?_eq_some_iff_append.1 hfirst
      obtain ⟨k, hk, hunmarked⟩ := lacks_iff.1 hi
      rw [hfirst, Option.bind_some, Instruction.label?_eq_some_iff.2 hk] at h
      obtain rfl := Option.some.inj h
      exact .instruction hsplit (allMarked_iff.2 fun j hj => by simpa using hbefore j hj) hk hunmarked
  · intro h
    cases h with
    | instruction split earlier refers unmarked =>
      have hfirst := List.find?_eq_some_iff_append.2 ⟨lacks_iff.2 ⟨l, refers, unmarked⟩, _, _, split,
        fun j hj => by simpa using allMarked_iff.1 earlier j hj⟩
      rw [hfirst, Option.bind_some, Instruction.label?_eq_some_iff.2 refers]
      rfl
    | entry all unmarked =>
      have hnone : code.find? (lacks code) = none :=
        List.find?_eq_none.2 fun i hi => Bool.eq_false_iff.1 (allMarked_iff.1 all i hi)
      rw [hnone, Option.bind_none, Option.none_or, if_pos (isNone_resolve?_link.2 unmarked)]

/-- Linking a draft fails with the label that there is to report. -/
theorem link_eq_error_iff : d.link entry = .error l ↔ FirstUnresolved d.code.toList entry l := by
  rw [← unresolved?_eq_some_iff, Draft.link]
  cases unresolved? d.code.toList entry <;> simp

/-- A draft can be linked if all labels are marked, and keeps all that it holds. -/
theorem link_eq_ok_iff : d.link entry = .ok p ↔
    (AllMarked d.code.toList d.code.toList ∧ Marked d.code.toList entry) ∧
      p = ⟨d.code, StackLang.link d.code.toList, d.strings.bytes, some entry, d.names⟩ := by
  constructor
  · intro h
    have hnone (l : Label) : ¬ FirstUnresolved d.code.toList entry l := by
      rw [← link_eq_error_iff, h]
      exact nofun
    have hall : AllMarked d.code.toList d.code.toList := by
      intro i hi l hl
      refine resolve?_link_ne_none_iff.1 ?_
      have := (link_ok h).2 i hi l (Instruction.label?_eq_some_iff.2 hl)
      rwa [(link_ok h).1] at this
    exact ⟨⟨hall, not_not.1 fun hentry => hnone entry (.entry hall hentry)⟩, (link_ok h).1⟩
  · rintro ⟨⟨hall, hentry⟩, rfl⟩
    cases h : unresolved? d.code.toList entry with
    | none => rw [Draft.link, h]
    | some l =>
      obtain ⟨hsplit, -, hrefers, hunmarked⟩ | ⟨-, hunmarked⟩ := unresolved?_eq_some_iff.1 h
      · refine absurd (hall _ ?_ l hrefers) hunmarked
        rw [hsplit]
        exact List.mem_append_right _ List.mem_cons_self
      · exact absurd hentry hunmarked

end Draft

/-! ## Names -/

namespace Program

variable {address : Nat} {functions : List (Nat × String)} {x : Nat × String}

/-- What is found is no later than the address, and nothing that is no later is later than it. -/
theorem nearest?_spec : (∀ x, nearest? address functions = some x →
      x ∈ functions ∧ x.1 ≤ address ∧ ∀ y ∈ functions, y.1 ≤ address → y.1 ≤ x.1) ∧
    (nearest? address functions = none → ∀ y ∈ functions, address < y.1) := by
  induction functions using List.reverseRecOn with
  | nil => exact ⟨nofun, nofun⟩
  | append_singleton functions z ih =>
    obtain ⟨hsome, hnone⟩ := ih
    rw [nearest?_concat]
    split
    · rename_i hz
      refine ⟨?_, nofun⟩
      rintro x ⟨⟩
      refine ⟨List.mem_append_right _ List.mem_cons_self, hz.1, fun y hy hle => ?_⟩
      rcases List.mem_append.1 hy with hy | hy
      · cases hbest : nearest? address functions with
        | none => exact absurd (hnone hbest y hy) (Nat.not_lt_of_le hle)
        | some b => exact Nat.le_trans ((hsome b hbest).2.2 y hy hle) (hz.2 b hbest)
      · exact Nat.le_of_eq (congrArg Prod.fst (List.mem_singleton.1 hy))
    · rename_i hz
      have hz (hle : z.1 ≤ address) : ∃ b, nearest? address functions = some b ∧ z.1 < b.1 := by
        simpa [hle] using hz
      refine ⟨fun x hx => ?_, fun hx y hy => ?_⟩
      · obtain ⟨hmem, hle, hmax⟩ := hsome x hx
        refine ⟨List.mem_append_left _ hmem, hle, fun y hy hyle => ?_⟩
        rcases List.mem_append.1 hy with hy | hy
        · exact hmax y hy hyle
        · obtain rfl := List.mem_singleton.1 hy
          obtain ⟨b, hb, hlt⟩ := hz hyle
          rw [hx] at hb
          cases hb
          exact Nat.le_of_lt hlt
      · rcases List.mem_append.1 hy with hy | hy
        · exact hnone hx y hy
        · obtain rfl := List.mem_singleton.1 hy
          refine Nat.lt_of_not_le fun hyle => ?_
          obtain ⟨b, hb, -⟩ := hz hyle
          rw [hx] at hb
          cases hb

/-- Where no address has two names, the nearest one is found. -/
theorem nearest?_eq_some_iff (h : ∀ x ∈ functions, ∀ y ∈ functions, x.1 = y.1 → x = y) :
    nearest? address functions = some x ↔
      x ∈ functions ∧ x.1 ≤ address ∧ ∀ y ∈ functions, y.1 ≤ address → y.1 ≤ x.1 := by
  refine ⟨fun hx => nearest?_spec.1 x hx, ?_⟩
  rintro ⟨hmem, hle, hmax⟩
  cases hfound : nearest? address functions with
  | none => exact absurd (nearest?_spec.2 hfound x hmem) (Nat.not_lt_of_le hle)
  | some y =>
    obtain ⟨hy, hyle, hymax⟩ := nearest?_spec.1 y hfound
    rw [h y hy x hmem (Nat.le_antisymm (hmax y hy hyle) (hymax x hmem hle))]

/-- The name is that of a label that leads to the address. -/
def NamedAt (p : Program) (start : Nat) (name : String) : Prop :=
  ∃ l : Label, p.names.get? l.id = some name ∧ p.labels.resolve? l = some start

/-- The named labels that have an address, for names that are listed in some order. -/
def functionsOf (labels : Labels) (names : List (Nat × String)) : List (Nat × String) :=
  names.filterMap fun (id, name) => (labels.get? id).map (·, name)

variable {p : Program}

theorem mem_functions : x ∈ p.functions ↔ p.NamedAt x.1 x.2 := by
  obtain ⟨start, name⟩ := x
  rw [functions, List.mem_filterMap]
  constructor
  · rintro ⟨⟨id, other⟩, hmem, h⟩
    obtain ⟨a, ha, heq⟩ := Option.map_eq_some_iff.1 h
    obtain ⟨rfl, rfl⟩ := Prod.mk.inj heq
    exact ⟨⟨id⟩, Table.get?_eq_some_iff.2 hmem, ha⟩
  · rintro ⟨l, hname, hstart⟩
    exact ⟨(l.id, name), Table.get?_eq_some_iff.1 hname, Option.map_eq_some_iff.2 ⟨start, hstart, rfl⟩⟩

/-- No address has two names. -/
theorem Made.eq_of_mem_functions (hp : p.Made) {x y : Nat × String} (hx : x ∈ p.functions)
    (hy : y ∈ p.functions) (h : x.1 = y.1) : x = y := by
  obtain ⟨l, hl, hx⟩ := mem_functions.1 hx
  obtain ⟨k, hk, hy⟩ := mem_functions.1 hy
  rw [hp.labels_eq] at hx hy
  obtain rfl := resolve?_link_inj (h ▸ hx) hy
  exact Prod.ext h (Option.some.inj (hl.symm.trans hk))

/-- The name that is found for an address is the one with the greatest address up to there. -/
theorem Made.functionNameAt?_eq_some_iff (hp : p.Made) {name : String} :
    p.functionNameAt? address = some name ↔ ∃ start, p.NamedAt start name ∧ start ≤ address ∧
      ∀ other name', p.NamedAt other name' → other ≤ address → other ≤ start := by
  have hnearest (start : Nat) : nearest? address p.functions = some (start, name) ↔
      p.NamedAt start name ∧ start ≤ address ∧
        ∀ other name', p.NamedAt other name' → other ≤ address → other ≤ start := by
    rw [nearest?_eq_some_iff fun x hx y hy => hp.eq_of_mem_functions hx hy]
    simp only [mem_functions, Prod.forall]
  simp only [functionNameAt?, Option.map_eq_some_iff, Prod.exists, hnearest, exists_eq_right]

/-- Names can be looked through in any order. -/
theorem Made.nearest?_perm (hp : p.Made) {names : List (Nat × String)}
    (h : names.Perm p.names.entries) :
    nearest? address (functionsOf p.labels names) = nearest? address p.functions := by
  have hperm : (functionsOf p.labels names).Perm p.functions := h.filterMap _
  refine Option.ext fun x => ?_
  rw [nearest?_eq_some_iff fun x hx y hy =>
      hp.eq_of_mem_functions (hperm.mem_iff.1 hx) (hperm.mem_iff.1 hy),
    nearest?_eq_some_iff fun x hx y hy => hp.eq_of_mem_functions hx hy]
  simp only [hperm.mem_iff]

end Program

/-- What linking gives. A label leads to the greatest address that marks it, so that different labels lead
to different addresses. A draft can be linked just if its code marks the entry and each label that its code
refers to, and then keeps its code, data and names, with the labels of this code. Else linking reports the
first label that is referred to and not marked, or the entry if there is none. Any program has the labels of
its code, also if it is linked again. The name that is found in it for an address is that of the label with
the greatest address up to there, in whatever order the names are looked through. -/
theorem Draft.linking_exact (d : Draft) (entry : Label) :
    (∀ code l a, (StackLang.link code).resolve? l = some a ↔
      MarkedAt code a l ∧ ∀ b, MarkedAt code b l → b ≤ a) ∧
    (∀ code l k a, (StackLang.link code).resolve? l = some a →
      (StackLang.link code).resolve? k = some a → l = k) ∧
    ((∃ p, d.link entry = .ok p) ↔
      AllMarked d.code.toList d.code.toList ∧ Marked d.code.toList entry) ∧
    (∀ p, d.link entry = .ok p →
      p = ⟨d.code, StackLang.link d.code.toList, d.strings.bytes, some entry, d.names⟩) ∧
    (∀ l, d.link entry = .error l ↔ FirstUnresolved d.code.toList entry l) ∧
    ∀ p : Program, p.Made → p.linkAgain = p ∧ ∀ address,
      (∀ name, p.functionNameAt? address = some name ↔
        ∃ start, p.NamedAt start name ∧ start ≤ address ∧
          ∀ other name', p.NamedAt other name' → other ≤ address → other ≤ start) ∧
      ∀ names : List (Nat × String), names.Perm p.names.entries →
        (Program.nearest? address (Program.functionsOf p.labels names)).map Prod.snd =
          p.functionNameAt? address := by
  refine ⟨fun code l a => resolve?_link_iff, fun code l k a => resolve?_link_inj, ?_,
    fun p h => (link_ok h).1, fun l => link_eq_error_iff, fun p hp => ⟨?_, fun address => ⟨?_, ?_⟩⟩⟩
  · simp only [link_eq_ok_iff, exists_and_left, exists_eq, and_true]
  · rw [Program.linkAgain, ← hp.labels_eq]
  · exact fun name => hp.functionNameAt?_eq_some_iff
  · intro names h
    rw [hp.nearest?_perm h]
    rfl

/-- A draft that marks a label twice and names it, and another one. Two operands are no numbers of labels,
and a third name is that of a label that is not marked. -/
def Draft.markedTwice : Draft :=
  let code : List Instruction := [.ofLabel .mark ⟨0⟩, .ofLabel .jump ⟨1⟩, .ofLabel .mark ⟨1⟩,
    .ofLabel .mark ⟨0⟩, ⟨.jump, -1⟩, ⟨.mark, 0x100000000⟩, .ofLabel .call ⟨0⟩]
  let named := ((empty.nameLabel ⟨1⟩ "once").nameLabel ⟨0⟩ "again").nameLabel ⟨7⟩ "nowhere"
  code.foldl add named

/-- It can be linked, and the address of the second mark counts. With another call or another entry it
cannot. -/
theorem Draft.markedTwice_linked : ∃ p, markedTwice.link ⟨1⟩ = .ok p ∧ p.Made ∧ p.linkAgain = p ∧
    p.labels.resolve? ⟨0⟩ = some 3 ∧ (∀ b, MarkedAt p.code.toList b ⟨0⟩ → b ≤ 3) ∧
    p.functionNameAt? 4 = some "again" ∧
    (∃ start, p.NamedAt start "again" ∧ start ≤ 4 ∧
      ∀ other name', p.NamedAt other name' → other ≤ 4 → other ≤ start) ∧
    (Program.nearest? 4 (Program.functionsOf p.labels p.names.entries.reverse)).map Prod.snd =
      some "again" ∧
    FirstUnresolved (markedTwice.add (.ofLabel .call ⟨9⟩)).code.toList ⟨8⟩ ⟨9⟩ ∧
    FirstUnresolved markedTwice.code.toList ⟨8⟩ ⟨8⟩ := by
  obtain ⟨p, hp, hresolve, hname, hlabels⟩ : ∃ p, markedTwice.link ⟨1⟩ = .ok p ∧
      p.labels.resolve? ⟨0⟩ = some 3 ∧ p.functionNameAt? 4 = some "again" ∧
      p.labels = StackLang.link p.code.toList := ⟨_, rfl, by decide, by decide, rfl⟩
  have hmade : p.Made := .link hp
  obtain ⟨hresolves, -, -, -, hreports, hprograms⟩ := linking_exact markedTwice ⟨8⟩
  obtain ⟨hagain, hnames⟩ := hprograms p hmade
  obtain ⟨hnearest, horder⟩ := hnames 4
  have hlast := hresolves p.code.toList ⟨0⟩ 3
  rw [← hlabels] at hlast
  refine ⟨p, hp, hmade, hagain, hresolve, (hlast.1 hresolve).2, hname, (hnearest "again").1 hname, ?_, ?_,
    (hreports ⟨8⟩).1 rfl⟩
  · rw [horder _ (List.reverse_perm _), hname]
  · exact ((linking_exact (markedTwice.add (.ofLabel .call ⟨9⟩)) ⟨8⟩).2.2.2.2.1 ⟨9⟩).1 rfl

end StackLang
