import StackLang.Proofs.Assembled.Labels
import StackLang.Proofs.Core.Prints
import StackLang.Proofs.Run.Strings
import StackLang.Proofs.Token.Bytes

/-!
# String literals that are printed

What `putstr` prints of a literal. The text of the literal's token goes into the static data with a NUL
after it, from there up to its first NUL into the heap, and from the heap to the output. So the output gets
what comes before the first NUL of the text, and all of it if it has none, whatever else is in the static
data and on the heap.

Results:
* `stringOf_eq_utf8`: the bytes of a text up to the first that is 0.
* `Machine.printsNew`: a new string that is printed at once.
* `literals_printed`: the literals that functions print at once, from the source to the output.
* `nul_ends_literal`: a literal with a NUL is not printed as a whole.
-/
namespace StackLang

open Instruction

/-! ## Texts up to a NUL -/

/-- A text up to its first NUL. -/
def upToNul (text : String) : String := String.ofList (text.toList.takeWhile (· ≠ '\x00'))

theorem upToNul_eq_self {text : String} (h : '\x00' ∉ text.toList) : upToNul text = text := by
  have hall : ∀ c ∈ text.toList, (c ≠ '\x00' : Bool) = true :=
    fun c hc => decide_eq_true fun heq => h (heq ▸ hc)
  have htext : (text.toList ++ []).takeWhile (· ≠ '\x00') =
      text.toList ++ [].takeWhile (· ≠ '\x00') := List.takeWhile_append_of_pos hall
  rw [List.takeWhile_nil, List.append_nil] at htext
  rw [upToNul, htext, String.ofList_toList]

/-- Only a NUL has a byte that is 0. -/
theorem stringOf_eq_utf8 (text : String) : stringOf text = utf8 (upToNul text) := by
  have hclass : Token.AsciiClass (· ≠ '\x00') := by
    intro c d hc hd
    have ne {c : Char} (hc : 128 ≤ c.toNat) : c ≠ '\x00' := by
      rintro rfl
      exact absurd hc (by decide)
    exact (decide_eq_true (ne hc)).trans (decide_eq_true (ne hd)).symm
  have hbyte (b : UInt8) : (b ≠ 0 : Bool) = (Token.byteChar b ≠ '\x00' : Bool) := by
    have hiff : b = 0 ↔ Token.byteChar b = '\x00' :=
      ⟨fun h => h ▸ rfl, fun h => Token.byteChar_inj (d := 0) h⟩
    simp only [ne_eq, hiff]
  have htext := Token.takeWhile_encode hclass text.toList
  simp only [← hbyte] at htext
  rw [stringOf, upToNul, utf8, utf8, String.toList_ofList]
  exact htext

namespace Machine

variable {code : Array Instruction} {a : Machine} {data : List UInt8}

/-! ## New strings that are printed at once -/

/-- In the next turn nothing is written, and in the one after it, just this data. If the output takes it,
the machine goes on behind the two instructions, with its stack as it was. If it does not, the run ends
there, and what fits has been written. -/
def PrintsNew (code : Array Instruction) (a : Machine) (data : List UInt8) : Prop :=
  ∃ b, a.turn code = .running b ∧ b.output = a.output ∧
    ((a.output.write data).1 = true → ∃ c, b.turn code = .running c ∧
      c.output.written = a.output.written ++ data ∧ c.pc = a.pc + 2 ∧ c.stack = a.stack) ∧
    ((a.output.write data).1 = false → ∃ c, b.turn code =
        .stopped c (some ⟨.output a.output.error, a.pc + 1, .putString⟩) ∧
      c.output.written = a.output.written ++ a.output.fitting data)

theorem spentLimit?_eq_none {steps : Nat} (h : AtLeast steps a.settings.stepLimit?)
    (hlt : a.steps < steps) : a.spentLimit? = none := by
  rw [spentLimit?, Option.filter_eq_none_iff]
  intro limit hlimit hle
  exact absurd (Nat.lt_of_lt_of_le hlt (h limit hlimit)) (Nat.not_lt.2 (of_decide_eq_true hle))

/-- The string of the static data that an operand gives is printed, whatever is on the heap. -/
theorem printsNew {operand other : Int64} (hnew : code[a.pc]? = some ⟨.newString, operand⟩)
    (hput : code[a.pc + 1]? = some ⟨.putString, other⟩) (hdata : a.static? operand = some data)
    (hsize : a.heap.size < 0x8000000000000000)
    (hlimit : AtLeast (a.steps + 2) a.settings.stepLimit?) : a.PrintsNew code data := by
  let b := { a with heap := (a.heap.allocateString data).2 }.advance (a.pc + 1)
    (sizeWord a.heap.size :: a.stack)
  have hb : a.turn code = .running b := by
    rw [turn_of_getElem? hnew (spentLimit?_eq_none hlimit (by omega)), a.perform_newString hdata]
  have hputs : b.Puts code (sizeWord a.heap.size) a.stack :=
    ⟨⟨other, hput⟩, spentLimit?_eq_none (a := b) hlimit (Nat.lt_succ_self _), rfl⟩
  have hpointer := toInt_sizeWord hsize
  have hstring : b.heap.UpToNul (sizeWord a.heap.size).toInt.toNat data := by
    have hdrop : (a.heap.bytes ++ data ++ [0]).drop (sizeWord a.heap.size).toInt.toNat =
        data ++ [0] := by
      rw [hpointer, Int.toNat_natCast, Heap.size, List.append_assoc, List.drop_left]
    exact ⟨not_mem_of_static? hdata, [], (List.append_nil _).trans hdrop.symm⟩
  have hturn : b.turn code = b.writeThen .putString data a.stack := by
    rw [hputs.turn_eq, hstring.pointer (by omega)]
  refine ⟨b, hb, rfl, fun htaken => ?_, fun hcut => ?_⟩
  · rw [hturn, writeThen, if_pos (by exact htaken)]
    exact ⟨_, rfl, Sink.written_of_write htaken, rfl, rfl⟩
  · rw [hturn, writeThen, if_neg (by rw [Bool.not_eq_true]; exact hcut)]
    exact ⟨_, rfl, Sink.written_write _ _⟩

end Machine

/-! ## Programs -/

/-- Wherever a run stands at the address, with steps left for two turns, it prints just this data, whatever
it has put on the heap before. A heap is a vector of bytes, and no vector has more of them than a word can
say. -/
def Program.PrintsAt (p : Program) (address : Nat) (data : List UInt8) : Prop :=
  ∀ (vm : Machine) output n a, (vm.load p output).after? p.code n = some a → a.pc = address →
    a.heap.size < 0x8000000000000000 → AtLeast (a.steps + 2) a.settings.stepLimit? →
      a.PrintsNew p.code data

/-- Where the code from one address up to another makes new strings that are printed at once. -/
def Program.literalPlaces (p : Program) (start stop : Nat) : List Nat :=
  (literalPrints start ((p.code.toList.drop start).take (stop - start))).map (·.1)

/-- What an address of a program prints of a literal. -/
structure StringLiteral.PrintedAt (p : Program) (l : StringLiteral) (address : Nat) : Prop where
  cut : p.PrintsAt address (utf8 (upToNul l.value))
  whole : '\x00' ∉ l.value.toList → p.PrintsAt address (utf8 l.value)

namespace Core.Module

variable {m : Module} {p : Program} {index : Nat} {f : Function}

/-- The code for a text that is printed at once prints it up to its first NUL. -/
theorem printsAt (hp : m.assemble = .ok p) (hv : m.Valid)
    (hstatics : p.statics.length < 0x8000000000000000) (hf : m.functions[index]? = some f)
    {text : String} (htext : text ∈ m.texts) {address : Nat}
    (hmem : (address, sizeWord (m.strings.offset text)) ∈
      literalPrints (m.start index) (m.functionCode index f)) :
    p.PrintsAt address (utf8 (upToNul text)) := by
  intro vm output n a ha hpc hsize hlimit
  have hloaded := (follows_of_after? hp hv ha).1
  have hcode (j : Nat) (hj : j < (m.functionCode index f).length) :
      p.code[m.start index + j]? = (m.functionCode index f)[j]? := by
    rw [(assemble_eq_ok hp).1, List.getElem?_toArray, (holds_function hf).getElem? hj]
  have hbytes : p.statics = m.strings.bytes := by rw [(assemble_eq_ok hp).1]
  obtain ⟨j, rfl, hnew, other, hput⟩ := getElem?_of_mem_literalPrints hmem
  have hnext := (List.getElem?_eq_some_iff.1 hput).1
  rw [← hcode j (by omega), ← hpc] at hnew
  rw [← hcode (j + 1) hnext, ← Nat.add_assoc, ← hpc] at hput
  have hdata : a.static? (sizeWord (m.strings.offset text)) = some (utf8 (upToNul text)) := by
    rw [Machine.static?, hloaded.statics, ← stringOf_eq_utf8]
    exact StringPool.string_word (StringPool.mem_ofList htext) (hbytes ▸ hstatics)
  exact Machine.printsNew hnew hput hdata hsize hlimit

/-- The places of a function are those of its code. -/
theorem literalPlaces_eq (hp : m.assemble = .ok p) (hf : m.functions[index]? = some f) :
    p.literalPlaces (m.start index) (m.start (index + 1)) =
      (literalPrints (m.start index) (m.functionCode index f)).map (·.1) := by
  have htake := List.prefix_iff_eq_take.1 (holds_function hf)
  rw [Program.literalPlaces, (assemble_eq_ok hp).1, start_succ hf, Nat.add_sub_cancel_left, ← htake]

end Core.Module

/-- The literals that a function prints at once, each at its place. -/
theorem Function.printedAt {t : Tree} {m : Core.Module} {p : Program} (hm : t.resolve = .ok m)
    (hp : m.assemble = .ok p) (hstatics : p.statics.length < 0x8000000000000000) {index : Nat}
    {f : Function} {g : Core.Function} (hg : m.functions[index]? = some g) {functions : List String}
    (hresolve : f.resolve functions = .ok g) : List.Forall₂ (StringLiteral.PrintedAt p) f.printed
      (p.literalPlaces (m.start index) (m.start (index + 1))) := by
  have hoperands := (g.prints_emit m.strings.offset index (m.firstLabel index)).operands (m.start index)
  rw [Core.Stmt.operands, Function.printed_of_resolve hresolve, List.map_map] at hoperands
  have hplaces : List.Forall₂ (fun (l : StringLiteral) e => sizeWord (m.strings.offset l.value) = e.2)
      f.printed (literalPrints (m.start index) (m.functionCode index g)) := by
    rw [← List.forall₂_map_right_iff (f := Prod.snd), Core.Module.functionCode, hoperands,
      List.forall₂_map_right_iff, List.forall₂_same]
    exact fun l _ => rfl
  rw [Core.Module.literalPlaces_eq hp hg, List.forall₂_map_right_iff, List.forall₂_iff_zip]
  refine ⟨hplaces.length_eq, fun {l e} hzip => ?_⟩
  obtain ⟨address, operand⟩ := e
  obtain rfl : sizeWord (m.strings.offset l.value) = operand := List.forall₂_zip hplaces hzip
  obtain ⟨hl, hmem⟩ := List.of_mem_zip hzip
  have htext : l.value ∈ m.texts := by
    refine Core.Module.mem_texts_of_printed (List.mem_of_getElem? hg) ?_
    rw [Function.printed_of_resolve hresolve]
    exact List.mem_map_of_mem hl
  have hprints := Core.Module.printsAt hp (Tree.valid_of_resolve hm) hstatics hg htext hmem
  exact ⟨hprints, fun h => upToNul_eq_self h ▸ hprints⟩

/-- From the source to the output. The string literals of a source text are its string tokens, in order and
each with the text that its token stands for. The literals that a function prints at once are among them,
and for each of these, in the same order, the code of the function has a place that prints its text up to
the first NUL, which is all of it if there is none. The static data are a vector of bytes, and no vector
has more of them than a word can say. -/
theorem literals_printed {source : String} {t : Tree} {p : Program} (ht : Tree.ofSource source = .ok t)
    (hp : t.assemble = .ok p) (hstatics : p.statics.length < 0x8000000000000000) :
    List.Forall₂ StringLiteral.ReadFrom t.literals
      ((Token.scan source).filter (·.kind = .string)) ∧
    ∃ m, t.resolve = .ok m ∧ ∀ index f, t.functions[index]? = some f →
      f.printed.Sublist t.literals ∧
      p.HasFunction index f.name.text (m.start index) (m.start (index + 1)) ∧
      List.Forall₂ (StringLiteral.PrintedAt p) f.printed
        (p.literalPlaces (m.start index) (m.start (index + 1))) := by
  obtain ⟨m, hm, hp⟩ := Tree.assemble_eq_ok hp
  obtain ⟨names, -, -, -, hfunctions⟩ := Tree.resolve_eq_ok hm
  refine ⟨Tree.literals_of_ofSource ht, m, hm, fun index f hf => ?_⟩
  obtain ⟨g, hg, hresolve⟩ := (mapM_eq_ok hfunctions).2 index f hf
  refine ⟨Tree.printed_sublist (List.mem_of_getElem? hf), ?_,
    Function.printedAt hm hp hstatics hg hresolve⟩
  have hfunction := Core.Module.hasFunction hp hg
  obtain ⟨body, -, rfl⟩ := Function.resolve_eq_ok hresolve
  exact hfunction

/-- A source text with two literals, one of which is printed at once: a letter of two bytes and an
escape. -/
def accentSource : String := "fun main() \x7b let s = \"one\"; putstr(\"é\\n\"); \x7d"

/-- The tree of that source text. -/
def accentTree : Tree := ⟨[.function ⟨⟨"main", ⟨4, 8⟩⟩,
  ⟨[.declare ⟨"s", some (.string "one" ⟨21, 26⟩), ⟨13, 27⟩⟩,
    .evaluate (.call ⟨"putstr", ⟨28, 34⟩⟩ [.string "é\n" ⟨35, 41⟩] ⟨28, 42⟩) ⟨28, 43⟩], ⟨11, 45⟩⟩,
  ⟨0, 45⟩⟩]⟩

theorem ofSource_accentSource : Tree.ofSource accentSource = .ok accentTree := by
  have hscan : Token.scan accentSource =
      [⟨.funWord, 0, "fun"⟩, ⟨.identifier, 4, "main"⟩, ⟨.leftParen, 8, "("⟩, ⟨.rightParen, 9, ")"⟩,
        ⟨.leftCurly, 11, "\x7b"⟩, ⟨.letWord, 13, "let"⟩, ⟨.identifier, 17, "s"⟩, ⟨.equal, 19, "="⟩,
        ⟨.string, 21, "\"one\""⟩, ⟨.semicolon, 26, ";"⟩, ⟨.identifier, 28, "putstr"⟩,
        ⟨.leftParen, 34, "("⟩, ⟨.string, 35, "\"é\\n\""⟩, ⟨.rightParen, 41, ")"⟩,
        ⟨.semicolon, 42, ";"⟩, ⟨.rightCurly, 44, "\x7d"⟩] := by decide +kernel
  rw [Tree.ofSource, hscan]
  rfl

/-- The letter and the newline are printed, wherever on the heap they have got to. -/
theorem accent_printed : Tree.ofSource accentSource = .ok accentTree ∧ ∃ p f,
    accentTree.assemble = .ok p ∧ p.statics.length < 0x8000000000000000 ∧
    accentTree.functions[0]? = some f ∧ f.printed = [⟨"é\n", ⟨35, 41⟩⟩] ∧
    p.PrintsAt 6 [0xC3, 0xA9, 10] := by
  obtain ⟨p, m, f, hp, hstatics, hm, hf, hprinted, hplaces⟩ : ∃ p m f,
      accentTree.assemble = .ok p ∧ p.statics.length < 0x8000000000000000 ∧
      accentTree.resolve = .ok m ∧ accentTree.functions[0]? = some f ∧
      f.printed = [⟨"é\n", ⟨35, 41⟩⟩] ∧ p.literalPlaces (m.start 0) (m.start 1) = [6] :=
    ⟨_, _, _, rfl, by decide, rfl, rfl, rfl, rfl⟩
  obtain ⟨-, m', hm', hprints⟩ := literals_printed ofSource_accentSource hp hstatics
  obtain rfl := Except.ok.inj (hm.symm.trans hm')
  obtain ⟨-, -, hprints⟩ := hprints 0 f hf
  rw [hprinted, hplaces] at hprints
  obtain ⟨⟨-, hwhole⟩, -⟩ := List.forall₂_cons.1 hprints
  exact ⟨ofSource_accentSource, p, f, hp, hstatics, hf, hprinted, hwhole (by decide)⟩

/-- A source text that just prints a literal with a NUL. -/
def nulSource : String := "fun main() \x7b putstr(\"a\x00b\"); \x7d"

/-- The tree of that source text. -/
def nulTree : Tree := ⟨[.function ⟨⟨"main", ⟨4, 8⟩⟩,
  ⟨[.evaluate (.call ⟨"putstr", ⟨13, 19⟩⟩ [.string "a\x00b" ⟨20, 25⟩] ⟨13, 26⟩) ⟨13, 27⟩], ⟨11, 29⟩⟩,
  ⟨0, 29⟩⟩]⟩

theorem ofSource_nulSource : Tree.ofSource nulSource = .ok nulTree := by
  have hscan : Token.scan nulSource =
      [⟨.funWord, 0, "fun"⟩, ⟨.identifier, 4, "main"⟩, ⟨.leftParen, 8, "("⟩, ⟨.rightParen, 9, ")"⟩,
        ⟨.leftCurly, 11, "\x7b"⟩, ⟨.identifier, 13, "putstr"⟩, ⟨.leftParen, 19, "("⟩,
        ⟨.string, 20, "\"a\x00b\""⟩, ⟨.rightParen, 25, ")"⟩, ⟨.semicolon, 26, ";"⟩,
        ⟨.rightCurly, 28, "\x7d"⟩] := by decide +kernel
  rw [Tree.ofSource, hscan]
  rfl

/-- A literal with a NUL is not printed as a whole: its program prints what comes before the NUL. -/
theorem nul_ends_literal : Tree.ofSource nulSource = .ok nulTree ∧ ∃ p f o,
    nulTree.assemble = .ok p ∧ nulTree.functions = [f] ∧ f.printed = [⟨"a\x00b", ⟨20, 25⟩⟩] ∧
    p.literalPlaces 0 p.code.size = [3] ∧ ¬ p.PrintsAt 3 (utf8 "a\x00b") ∧
    (Machine.new ⟨[], none⟩).run? p .unlimited = some o ∧ o.failure? = none ∧
    o.machine.output.written = utf8 "a" := by
  obtain ⟨p, o, a, c, hp, hplaces, ha, hstart, hc, hwritten, ho, hend⟩ : ∃ p o a c,
      nulTree.assemble = .ok p ∧ p.literalPlaces 0 p.code.size = [3] ∧
      ((Machine.new ⟨[], none⟩).load p .unlimited).after? p.code 5 = some a ∧
      (a.pc = 3 ∧ a.heap = .empty ∧ a.output = .unlimited ∧ a.settings.stepLimit? = none) ∧
      a.after? p.code 2 = some c ∧ c.output.written = utf8 "a" ∧
      (Machine.new ⟨[], none⟩).run? p .unlimited = some o ∧
      o.failure? = none ∧ o.machine.output.written = utf8 "a" :=
    ⟨_, _, _, _, rfl, rfl, rfl, ⟨rfl, rfl, rfl, rfl⟩, rfl, rfl, rfl, rfl, rfl⟩
  refine ⟨ofSource_nulSource, p, _, o, hp, rfl, rfl, hplaces, fun h => ?_, ho, hend⟩
  obtain ⟨hpc, hheap, houtput, hlimit⟩ := hstart
  obtain ⟨b, hb, -, htaken, -⟩ := h _ _ 5 a ha hpc (by rw [hheap]; decide)
    (hlimit ▸ atLeast_none _)
  obtain ⟨c', hc', hwritten', -⟩ := htaken (by rw [houtput]; rfl)
  rw [Machine.after?_succ_of_running hb, Machine.after?_succ_of_running hc', Machine.after?_zero] at hc
  cases hc
  rw [hwritten, houtput] at hwritten'
  exact absurd hwritten' (by decide)

end StackLang
