import StackLang.Proofs.Assembled.Listing
import StackLang.Proofs.Assembled.Labels

/-!
# Names in a listing

A listing shows the label of a function by the name of the function, the label of the entry as `<entry>`,
and each other label as `L` and its number. Nothing keeps a function from having a name of the last form,
so two labels may be shown by one name. That is the only way: names of functions differ, numbers differ,
and no function of a source text can be called `<entry>`. The address beside the name of a jump or a call
tells which label is meant.

Results:
* `Tree.labelName_eq_iff`: which labels are shown by one name.
* `Tree.existsUnique_row_iff`: which names are shown by one row of a mark alone.
* `names_of_assemble`: what the rows of marks, jumps and calls show.
-/
namespace StackLang

open Instruction

/-! ## Labels of one name -/

theorem Label.head?_text (l : Label) : l.text.toList.head? = some 'L' := by simp [Label.text]

namespace Tree

/-- How a label is shown that is no function's. -/
def plainName (t : Tree) (l : Label) : String := if l.id + 1 = t.labelCount then "<entry>" else l.text

/-- Label `l` is that of a function, label `k` is no function's, and the function is called what label `k`
is shown as. -/
def NamedLike (t : Tree) (l k : Label) : Prop :=
  t.functions.length ≤ k.id ∧ k.id < t.labelCount ∧
    ∃ f, t.functions[l.id]? = some f ∧ f.name.text = t.plainName k

variable {t : Tree} {p : Program} {l k : Label}

theorem plainName_inj (h : t.plainName l = t.plainName k) : l = k := by
  have text_ne (j : Label) : j.text ≠ "<entry>" := by
    intro heq
    have hhead := j.head?_text
    rw [heq] at hhead
    exact absurd hhead (by decide)
  unfold plainName at h
  split at h <;> split at h
  · exact congrArg Label.mk (by omega)
  · exact absurd h.symm (text_ne k)
  · exact absurd h (text_ne l)
  · exact Label.text_inj h

/-- No two functions of an assembled tree have one name. -/
theorem function_name_inj (h : t.assemble = .ok p) {i j : Nat} {f g : Function}
    (hf : t.functions[i]? = some f) (hg : t.functions[j]? = some g) (heq : f.name.text = g.name.text) :
    i = j := by
  obtain ⟨m, hm, -⟩ := assemble_eq_ok h
  obtain ⟨names, rfl, hnodup, -⟩ := resolve_eq_ok hm
  have hi : (t.functions.map (·.name.text))[i]? = some f.name.text := by rw [List.getElem?_map, hf]; rfl
  have hj : (t.functions.map (·.name.text))[j]? = some f.name.text := by
    rw [List.getElem?_map, hg, heq]
    rfl
  exact (List.getElem?_inj (List.getElem?_eq_some_iff.1 hi).1 hnodup).1 (hi.trans hj.symm)

/-- The label of a function is shown by the name of the function. -/
theorem labelName_function (h : t.assemble = .ok p) {f : Function} (hf : t.functions[l.id]? = some f) :
    p.labelName l = f.name.text := by
  obtain ⟨m, hm, hp⟩ := assemble_eq_ok h
  have hname : (m.functions.map (·.name))[l.id]? = some f.name.text := by
    rw [map_name_of_resolve hm, List.getElem?_map, hf]
    rfl
  rw [List.getElem?_map] at hname
  obtain ⟨c, hc, heq⟩ := Option.map_eq_some_iff.1 hname
  exact (Core.Module.labelName_function hp hc).trans heq

/-- A label that is no function's is shown as the entry or by its number. -/
theorem labelName_plain (h : t.assemble = .ok p) (hlow : t.functions.length ≤ l.id)
    (hhigh : l.id < t.labelCount) : p.labelName l = t.plainName l := by
  obtain ⟨m, hm, hp⟩ := assemble_eq_ok h
  have hcount := labelCount_of_resolve hm
  have hlength : m.functions.length = t.functions.length := by
    simpa using congrArg List.length (map_name_of_resolve hm)
  unfold plainName
  split
  · have hid : l.id = m.entry.id := by omega
    have hentry : l = m.entry := congrArg Label.mk hid
    exact hentry ▸ Core.Module.labelName_entry hp
  · exact Core.Module.labelName_inner hp (by omega) (by omega)

theorem NamedLike.lt_and_ne (hl : l.id < t.labelCount) (h : t.NamedLike l k ∨ t.NamedLike k l) :
    k.id < t.labelCount ∧ l ≠ k := by
  rcases h with ⟨hlow, hhigh, f, hf, -⟩ | ⟨hlow, hhigh, f, hf, -⟩
  all_goals
    have hlt := (List.getElem?_eq_some_iff.1 hf).1
    refine ⟨by omega, ?_⟩
    rintro rfl
    omega

/-- Two labels are shown by one name just if one is that of a function which is called what the other, no
function's, is shown as. -/
theorem labelName_eq_iff (h : t.assemble = .ok p) (hl : l.id < t.labelCount) (hk : k.id < t.labelCount) :
    p.labelName l = p.labelName k ↔ l = k ∨ t.NamedLike l k ∨ t.NamedLike k l := by
  constructor
  · intro heq
    -- Names within a kind differ, so only a function's label and another's can meet.
    rcases Nat.lt_or_ge l.id t.functions.length with hf | hlow <;>
      rcases Nat.lt_or_ge k.id t.functions.length with hg | hlow'
    · have hf := List.getElem?_eq_getElem hf
      have hg := List.getElem?_eq_getElem hg
      rw [labelName_function h hf, labelName_function h hg] at heq
      exact .inl (congrArg Label.mk (function_name_inj h hf hg heq))
    · have hf := List.getElem?_eq_getElem hf
      rw [labelName_function h hf, labelName_plain h hlow' hk] at heq
      exact .inr (.inl ⟨hlow', hk, _, hf, heq⟩)
    · have hg := List.getElem?_eq_getElem hg
      rw [labelName_plain h hlow hl, labelName_function h hg] at heq
      exact .inr (.inr ⟨hlow, hl, _, hg, heq.symm⟩)
    · rw [labelName_plain h hlow hl, labelName_plain h hlow' hk] at heq
      exact .inl (plainName_inj heq)
  · have alike {l k : Label} (hlike : t.NamedLike l k) : p.labelName l = p.labelName k := by
      obtain ⟨hlow, hhigh, f, hf, hname⟩ := hlike
      rw [labelName_function h hf, labelName_plain h hlow hhigh, hname]
    rintro (rfl | hlike | hlike)
    · rfl
    · exact alike hlike
    · exact (alike hlike).symm

/-- No function of a source text is called `<entry>`. -/
theorem NamedLike.plainName_eq {source : String} (hsource : ofSource source = .ok t)
    (h : t.NamedLike l k) : t.plainName k = k.text := by
  obtain ⟨-, -, f, hf, hname⟩ := h
  have hform := form_of_ofSource hsource f (List.mem_of_getElem? hf)
  unfold plainName at hname ⊢
  split
  · rename_i hentry
    rw [hname, if_pos hentry] at hform
    exact absurd hform.1.1 (by decide)
  · rfl

/-! ## Rows -/

/-- An instruction on a label refers to one of the labels, which leads to where it is marked. -/
theorem exists_label (h : t.assemble = .ok p) {i : Instruction} (hi : i ∈ p.code)
    (hrole : i.opcode.operandRole = .label) :
    ∃ (l : Label) (a : Nat), l.id < t.labelCount ∧ i.label? = some l ∧
      p.labels.resolve? l = some a ∧ p.code[a]?.bind marked? = some l := by
  obtain ⟨m, hm, hp⟩ := assemble_eq_ok h
  have hcount := labelCount_of_resolve hm
  obtain ⟨rfl, hid⟩ := Core.Module.assemble_eq_ok hp
  rw [List.mem_toArray] at hi
  obtain ⟨l, hl, heq⟩ := Core.Module.exists_label (valid_of_resolve hm) hi hrole
  obtain ⟨a, ha, hresolve⟩ := Core.Module.exists_address hid hl
  have hmarked : (ofLabel .mark l).marked? = some l :=
    marked?_eq_some_iff.2 ⟨rfl, Label.ofOperand?_operand (by omega)⟩
  refine ⟨l, a, by omega, heq ▸ Core.label?_ofLabel hrole (by omega), hresolve, ?_⟩
  rw [List.getElem?_toArray, ha, Option.bind_some, hmarked]

/-- Each label is marked at one address. -/
theorem existsUnique_marked (h : t.assemble = .ok p) (hl : l.id < t.labelCount) :
    ∃! a : Nat, p.code[a]?.bind marked? = some l := by
  obtain ⟨m, hm, hp⟩ := assemble_eq_ok h
  have hcount := labelCount_of_resolve hm
  obtain ⟨rfl, hid⟩ := Core.Module.assemble_eq_ok hp
  simp only [List.getElem?_toArray]
  exact Core.Module.existsUnique_marked hid (by omega)

/-- A row of a mark shows the name of the label that is marked there. -/
theorem row?_mark_iff (h : t.assemble = .ok p) {a : Nat} {name : String} :
    p.row? a = some (.mark, some name) ↔
      ∃ l : Label, l.id < t.labelCount ∧ p.code[a]?.bind marked? = some l ∧ p.labelName l = name := by
  constructor
  · intro hrow
    obtain ⟨i, hi, hshown⟩ := Option.map_eq_some_iff.1 hrow
    obtain ⟨hop, hname⟩ := Prod.mk.inj hshown
    obtain ⟨l, -, hcount, hl, -⟩ := exists_label h (Array.mem_of_getElem? hi) (by rw [hop]; rfl)
    rw [Program.operandText?_mark hop hl] at hname
    exact ⟨l, hcount, by rw [hi, Option.bind_some, marked?, if_pos hop, hl], Option.some.inj hname⟩
  · rintro ⟨l, -, hmarked, rfl⟩
    obtain ⟨i, hi, hl⟩ := Option.bind_eq_some_iff.1 hmarked
    unfold marked? at hl
    split at hl
    · rename_i hop
      rw [Program.row?, hi, Option.map_some, hop, Program.operandText?_mark hop hl]
    · cases hl

/-- The row of a jump or a call shows the name of a label and an address, and the row of the mark at this
address shows the same name. -/
theorem row?_jump (h : t.assemble = .ok p) {a : Nat} {i : Instruction} (hi : p.code[a]? = some i)
    (hrole : i.opcode.operandRole = .label) (hmark : i.opcode ≠ .mark) :
    ∃ (l : Label) (b : Nat), l.id < t.labelCount ∧ i.label? = some l ∧ p.labels.resolve? l = some b ∧
      p.row? a = some (i.opcode, some (p.labelName l ++ " (" ++ addressText b ++ ")")) ∧
      p.row? b = some (.mark, some (p.labelName l)) := by
  obtain ⟨l, b, hcount, hl, hb, hmarked⟩ := exists_label h (Array.mem_of_getElem? hi) hrole
  refine ⟨l, b, hcount, hl, hb, ?_, (row?_mark_iff h).2 ⟨l, hcount, hmarked, rfl⟩⟩
  rw [Program.row?, hi, Option.map_some, Program.operandText?_jump hmark hl, hb, Option.map_some,
    Option.getD_some]

/-- One row of a mark alone shows the name of a label just if the label shares its name with no other. -/
theorem existsUnique_row_iff (h : t.assemble = .ok p) (hl : l.id < t.labelCount) :
    (∃! a, p.row? a = some (.mark, some (p.labelName l))) ↔
      ∀ k, ¬ t.NamedLike l k ∧ ¬ t.NamedLike k l := by
  obtain ⟨a, ha, honly⟩ := existsUnique_marked h hl
  have hrow : p.row? a = some (.mark, some (p.labelName l)) := (row?_mark_iff h).2 ⟨l, hl, ha, rfl⟩
  constructor
  · rintro ⟨c, -, hunique⟩ k
    by_contra hlike
    have hlike : t.NamedLike l k ∨ t.NamedLike k l := by tauto
    obtain ⟨hk, hne⟩ := NamedLike.lt_and_ne hl hlike
    obtain ⟨b, hb, -⟩ := existsUnique_marked h hk
    have hname : p.labelName k = p.labelName l := ((labelName_eq_iff h hl hk).2 (.inr hlike)).symm
    have hrow' := (row?_mark_iff h).2 ⟨k, hk, hb, hname⟩
    rw [hunique b hrow', ← hunique a hrow, ha] at hb
    exact hne (Option.some.inj hb)
  · intro hfree
    refine ⟨a, hrow, fun b hb => ?_⟩
    obtain ⟨k, hk, hmarked, hname⟩ := (row?_mark_iff h).1 hb
    rcases (labelName_eq_iff h hl hk).1 hname.symm with rfl | hlike | hlike
    · exact honly b hmarked
    · exact absurd hlike (hfree k).1
    · exact absurd hlike (hfree k).2

end Tree

/-! ## Programs -/

/-- Two labels of an assembled program are shown by one name just if one is that of a function which is
called what the other, no function's, is shown as: `<entry>`, or `L` and its number. In a program from a
source text it is the latter. The rows of marks show the names of the labels that are marked there. The
row of a jump or a call shows the name of its label and the address that it leads to, and the row at this
address is one of a mark and shows the same name. It is the only such row just if no other label has the
name. So no two rows of marks show one name if no function is called what a label is shown as. -/
theorem names_of_assemble {t : Tree} {p : Program} (h : t.assemble = .ok p) :
    (∀ l k : Label, l.id < t.labelCount → k.id < t.labelCount →
      (p.labelName l = p.labelName k ↔ l = k ∨ t.NamedLike l k ∨ t.NamedLike k l)) ∧
    (∀ source, Tree.ofSource source = .ok t → ∀ l k, t.NamedLike l k → t.plainName k = k.text) ∧
    (∀ (a : Nat) name, p.row? a = some (.mark, some name) ↔
      ∃ l : Label, l.id < t.labelCount ∧ p.code[a]?.bind marked? = some l ∧ p.labelName l = name) ∧
    (∀ (a : Nat) i, p.code[a]? = some i → i.opcode ∈ [.jump, .jumpIfZero, .call] →
      ∃ (l : Label) (b : Nat), l.id < t.labelCount ∧ i.label? = some l ∧ p.labels.resolve? l = some b ∧
        p.row? a = some (i.opcode, some (p.labelName l ++ " (" ++ addressText b ++ ")")) ∧
        p.row? b = some (.mark, some (p.labelName l))) ∧
    (∀ l : Label, l.id < t.labelCount → ((∃! a, p.row? a = some (.mark, some (p.labelName l))) ↔
      ∀ k, ¬ t.NamedLike l k ∧ ¬ t.NamedLike k l)) ∧
    ((∀ l k, ¬ t.NamedLike l k) → ∀ (a b : Nat) name, p.row? a = some (.mark, some name) →
      p.row? b = some (.mark, some name) → a = b) := by
  refine ⟨fun l k => Tree.labelName_eq_iff h,
    fun source hsource l k hlike => hlike.plainName_eq hsource, fun a name => Tree.row?_mark_iff h, ?_,
    fun l => Tree.existsUnique_row_iff h, ?_⟩
  · intro a i hi hop
    have hrole : i.opcode.operandRole = .label ∧ i.opcode ≠ .mark := by
      simp only [List.mem_cons, List.not_mem_nil, or_false] at hop
      rcases hop with hop | hop | hop <;> rw [hop] <;> decide
    exact Tree.row?_jump h hi hrole.1 hrole.2
  · intro hfree a b name ha hb
    obtain ⟨l, hl, -, rfl⟩ := (Tree.row?_mark_iff h).1 ha
    have hunique := (Tree.existsUnique_row_iff h hl).2 fun k => ⟨hfree l k, hfree k l⟩
    exact hunique.unique ha hb

/-- The functions `main` and `next` are called what no label is shown as. -/
theorem successor_names : ∃ p, Tree.successor.assemble = .ok p ∧
    ∀ (a b : Nat) name, p.row? a = some (.mark, some name) → p.row? b = some (.mark, some name) → a = b := by
  obtain ⟨p, hp⟩ : ∃ p, Tree.successor.assemble = .ok p := ⟨_, rfl⟩
  have hfree (l k : Label) : ¬ Tree.successor.NamedLike l k := by
    rintro ⟨-, -, f, hf, hname⟩
    have hhead : (Tree.successor.plainName k).toList.head? ∈ [some '<', some 'L'] := by
      unfold Tree.plainName
      split
      · decide
      · rw [k.head?_text]
        decide
    have hfunctions : ∀ f ∈ Tree.successor.functions,
        f.name.text.toList.head? ∉ [some '<', some 'L'] := by decide
    exact hfunctions f (List.mem_of_getElem? hf) (hname ▸ hhead)
  obtain ⟨-, -, -, -, -, hrows⟩ := names_of_assemble hp
  exact ⟨p, hp, hrows hfree⟩

/-- A function is called what label 2, the end of the function before it, is shown as. Two rows of marks show
this name, and so does the call of the function. -/
theorem function_named_like_label : ∃ t p,
    Tree.ofSource "fun main() \x7b L2(); \x7d fun L2() \x7b \x7d" = .ok t ∧ t.assemble = .ok p ∧
    t.labelCount = 5 ∧ p.labelName ⟨1⟩ = "L2" ∧ p.labelName ⟨2⟩ = "L2" ∧
    p.row? 6 = some (.mark, some "L2") ∧ p.row? 10 = some (.mark, some "L2") ∧
    p.row? 3 = some (.call, some "L2 (0010)") ∧ ¬ ∃! a, p.row? a = some (.mark, some "L2") := by
  have hscan : Token.scan "fun main() \x7b L2(); \x7d fun L2() \x7b \x7d" =
      [⟨.funWord, 0, "fun"⟩, ⟨.identifier, 4, "main"⟩, ⟨.leftParen, 8, "("⟩, ⟨.rightParen, 9, ")"⟩,
        ⟨.leftCurly, 11, "\x7b"⟩, ⟨.identifier, 13, "L2"⟩, ⟨.leftParen, 15, "("⟩,
        ⟨.rightParen, 16, ")"⟩, ⟨.semicolon, 17, ";"⟩, ⟨.rightCurly, 19, "\x7d"⟩,
        ⟨.funWord, 21, "fun"⟩, ⟨.identifier, 25, "L2"⟩, ⟨.leftParen, 27, "("⟩, ⟨.rightParen, 28, ")"⟩,
        ⟨.leftCurly, 30, "\x7b"⟩, ⟨.rightCurly, 32, "\x7d"⟩] := by decide +kernel
  obtain ⟨t, p, ht, hp, hcount, hone, htwo, hsix, hten, hcall⟩ : ∃ t p,
      Tree.ofSource "fun main() \x7b L2(); \x7d fun L2() \x7b \x7d" = .ok t ∧ t.assemble = .ok p ∧
      t.labelCount = 5 ∧ p.labelName ⟨1⟩ = "L2" ∧ p.labelName ⟨2⟩ = "L2" ∧
      p.row? 6 = some (.mark, some "L2") ∧ p.row? 10 = some (.mark, some "L2") ∧
      p.row? 3 = some (.call, some "L2 (0010)") := by
    simp only [Tree.ofSource, hscan]
    exact ⟨_, _, rfl, rfl, rfl, rfl, by decide +kernel, by decide +kernel, by decide +kernel,
      by decide +kernel⟩
  refine ⟨t, p, ht, hp, hcount, hone, htwo, hsix, hten, hcall, ?_⟩
  rintro ⟨a, -, honly⟩
  have heq : 6 = 10 := (honly 6 hsix).trans (honly 10 hten).symm
  exact absurd heq (by decide)

end StackLang
