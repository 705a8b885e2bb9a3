import StackLang.Proofs.Assembled.Attribution
import StackLang.Proofs.Core.Shown
import StackLang.Proofs.Grammar.Source

/-!
# A listing tells the program

The listing of an assembled program is cut into lines, each line shows what stands at its address, and
nothing of the program is hidden. So there is one program for each listing. Names are shown as they are: one
of several lines can pass for lines of its own, but no function of a source text has such a name.

Results:
* `Core.Module.eq_of_listing`: programs with one listing are the same.
* `listing_determines`: assembled programs with one listing are the same, and so are their runs.
* `rows_in_names_listed_alike`: what names of several lines can hide.
-/
namespace StackLang

/-! ## Names -/

/-- No function has a name of several lines. -/
def Tree.NamesOnOneLine (t : Tree) : Prop := ∀ f ∈ t.functions, '\n' ∉ f.name.text.toList

theorem Tree.namesOnOneLine_of_ofSource {source : String} {t : Tree} (h : ofSource source = .ok t) :
    t.NamesOnOneLine :=
  fun f hf => (form_of_ofSource h f hf).newline_notMem (by decide) (by decide)

namespace Core.Module

variable {m m' : Module} {p q : Program}

theorem namesOnOneLine (h : m.assemble = .ok p) (hnames : ∀ f ∈ m.functions, '\n' ∉ f.name.toList) :
    p.NamesOnOneLine := by
  intro id name hname
  rw [(assemble_eq_ok h).1, Table.get?_eq_some_iff, entries_names] at hname
  rcases List.mem_append.1 hname with hname | hname
  · obtain ⟨x, hx, heq⟩ := List.mem_map.1 hname
    cases heq
    exact hnames x.1 (List.fst_mem_of_mem_zipIdx hx)
  · cases List.mem_singleton.1 hname
    decide

/-! ## Programs -/

/-- Programs with one listing are the same. -/
theorem eq_of_listing (hp : m.assemble = .ok p) (hq : m'.assemble = .ok q) (hv : m.Valid)
    (hv' : m'.Valid) (hnames : p.NamesOnOneLine) (hnames' : q.NamesOnOneLine)
    (h : p.listing = q.listing) : p = q := by
  obtain ⟨hrows, hlines⟩ := Program.rows_of_listing hnames hnames' h
  have halike : ShownAlike m m' p q := ⟨hp, hq, hv, hv', hrows⟩
  have hstrings : m.strings.bytes = m'.strings.bytes := by
    apply StringPool.bytes_of_staticLines
    rw [(assemble_eq_ok hp).1, (assemble_eq_ok hq).1] at hlines
    exact hlines
  rw [(assemble_eq_ok hp).1, (assemble_eq_ok hq).1, halike.emit_eq, hstrings, halike.entry_eq,
    halike.names_eq]

end Core.Module

theorem Tree.namesOnOneLine_of_assemble {t : Tree} {p : Program} (h : t.assemble = .ok p)
    (hnames : t.NamesOnOneLine) :
    ∃ m : Core.Module, m.assemble = .ok p ∧ m.Valid ∧ p.NamesOnOneLine := by
  obtain ⟨m, hm, hp⟩ := Tree.assemble_eq_ok h
  refine ⟨m, hp, Tree.valid_of_resolve hm, Core.Module.namesOnOneLine hp fun c hc => ?_⟩
  have hmem : c.name ∈ t.functions.map (·.name.text) := by
    rw [← Tree.map_name_of_resolve hm]
    exact List.mem_map_of_mem hc
  obtain ⟨f, hf, heq⟩ := List.mem_map.1 hmem
  exact heq ▸ hnames f hf

/-- A listing tells the program. The functions of a source text have no names of several lines; and if two
trees without such names are assembled to programs with one listing, the programs are the same in code,
labels, static data, entry and names. So they run alike from each machine, with each sink and within each
bound on turns: in result, output, steps, registers, stacks and heap. -/
theorem listing_determines :
    (∀ source t, Tree.ofSource source = .ok t → t.NamesOnOneLine) ∧
    ∀ t t' : Tree, t.NamesOnOneLine → t'.NamesOnOneLine →
      ∀ p q, t.assemble = .ok p → t'.assemble = .ok q → p.listing = q.listing →
        p = q ∧ ∀ (vm : Machine) (turns : Nat) (output : Sink),
          vm.runWithin? turns p output = vm.runWithin? turns q output := by
  refine ⟨fun source t => Tree.namesOnOneLine_of_ofSource, ?_⟩
  intro t t' hnames hnames' p q ht ht' hlisting
  obtain ⟨m, hp, hv, hline⟩ := Tree.namesOnOneLine_of_assemble ht hnames
  obtain ⟨m', hq, hv', hline'⟩ := Tree.namesOnOneLine_of_assemble ht' hnames'
  obtain rfl := Core.Module.eq_of_listing hp hq hv hv' hline hline' hlisting
  exact ⟨rfl, fun vm turns output => rfl⟩

/-- The names of variables are not in a listing, and make no difference. -/
theorem variable_renamed_listed_alike : ∃ t t' p q,
    Tree.ofSource "fun main() \x7b let i = 1; \x7d" = .ok t ∧
    Tree.ofSource "fun main() \x7b let j = 1; \x7d" = .ok t' ∧ t ≠ t' ∧
    t.assemble = .ok p ∧ t'.assemble = .ok q ∧ p.listing = q.listing ∧ p = q ∧
    ∀ (vm : Machine) (turns : Nat) (output : Sink),
      vm.runWithin? turns p output = vm.runWithin? turns q output := by
  let tokens (name : String) : List Token := [⟨.funWord, 0, "fun"⟩, ⟨.identifier, 4, "main"⟩,
    ⟨.leftParen, 8, "("⟩, ⟨.rightParen, 9, ")"⟩, ⟨.leftCurly, 11, "\x7b"⟩, ⟨.letWord, 13, "let"⟩,
    ⟨.identifier, 17, name⟩, ⟨.equal, 19, "="⟩, ⟨.number, 21, "1"⟩, ⟨.semicolon, 22, ";"⟩,
    ⟨.rightCurly, 24, "\x7d"⟩]
  have hscan : Token.scan "fun main() \x7b let i = 1; \x7d" = tokens "i" := by decide +kernel
  have hscan' : Token.scan "fun main() \x7b let j = 1; \x7d" = tokens "j" := by decide +kernel
  obtain ⟨t, t', p, q, ht, ht', hne, hp, hq, hlisting⟩ : ∃ t t' p q,
      Tree.ofSource "fun main() \x7b let i = 1; \x7d" = .ok t ∧
      Tree.ofSource "fun main() \x7b let j = 1; \x7d" = .ok t' ∧ t ≠ t' ∧
      t.assemble = .ok p ∧ t'.assemble = .ok q ∧ p.listing = q.listing := by
    simp only [Tree.ofSource, hscan, hscan', tokens]
    exact ⟨_, _, _, _, rfl, rfl, by simp, rfl, rfl, by decide +kernel⟩
  obtain ⟨heq, hruns⟩ := listing_determines.2 t t' (listing_determines.1 _ t ht)
    (listing_determines.1 _ t' ht') p q hp hq hlisting
  exact ⟨t, t', p, q, ht, ht', hne, hp, hq, hlisting, heq, hruns⟩

/-! ## Names of several lines -/

/-- A main function that gives back a value, between two functions that do nothing. -/
def betweenOthers (before : String) (result : Int64) (after : String) : Tree :=
  let nowhere : Span := ⟨0, 0⟩
  let function (name : String) (body : List Stmt) : Declaration :=
    .function ⟨⟨name, nowhere⟩, ⟨body, nowhere⟩, nowhere⟩
  ⟨[function before [],
    function "main" [.giveBack (some (.integer result nowhere)) nowhere],
    function after []]⟩

/-- What a listing shows from the name of the first of these functions to that of the last. -/
def rowsBetween (result : String) : String :=
  "\n 0001 │ Load fp\n 0002 │ SetFp\n 0003 │ LoadImmediate 0\n 0004 │ Lbl L3\n 0005 │ Store r0\n" ++
  " 0006 │ Store fp\n 0007 │ Ret\n 0008 │ Lbl main\n 0009 │ Load fp\n 0010 │ SetFp\n" ++
  " 0011 │ LoadImmediate " ++ result ++ "\n 0012 │ Jmp L4 (0014)\n 0013 │ LoadImmediate 0\n" ++
  " 0014 │ Lbl L4\n 0015 │ Store r0\n 0016 │ Store fp\n 0017 │ Ret\n 0018 │ Lbl "

/-- Names of several lines pass for lines of their own. Here the rows of both programs are in both listings:
in each, one of the main functions is no more than a part of a name. So the listings are the same, but the
programs are not, and give different results. -/
theorem rows_in_names_listed_alike : ∃ p q o o',
    (betweenOthers "a" 1 ("b" ++ rowsBetween "2" ++ "c")).assemble = .ok p ∧
    (betweenOthers ("a" ++ rowsBetween "1" ++ "b") 2 "c").assemble = .ok q ∧
    p.listing = q.listing ∧
    p.code[11]? = some ⟨.loadImmediate, 1⟩ ∧ q.code[11]? = some ⟨.loadImmediate, 2⟩ ∧
    (Machine.new ⟨[], none⟩).run? p .unlimited = some o ∧
    (Machine.new ⟨[], none⟩).run? q .unlimited = some o' ∧
    o.machine.registers.r0 = 1 ∧ o'.machine.registers.r0 = 2 :=
  ⟨_, _, _, _, rfl, rfl, by decide +kernel, rfl, rfl, rfl, rfl, rfl, rfl⟩

end StackLang
