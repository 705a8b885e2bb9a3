/-!
# Where output goes

A sink keeps the bytes that are written to it, up to a limit if it has one. A byte beyond the limit
is an error, and so may be the flush at the end of a run. The output is `written`.

* `written_write`: a write adds to the output what there is room for.
-/
namespace StackLang

/-- Why output cannot be written: the kind of the error, and what it is in words. -/
structure WriteError where
  kind : String
  text : String
  deriving DecidableEq, Repr, Inhabited

/-- Nothing reads what is written. -/
def WriteError.brokenPipe : WriteError := ⟨"BrokenPipe", "broken pipe"⟩

/-- An error of none of the usual kinds. -/
def WriteError.other : WriteError := ⟨"Other", "other error"⟩

/-- Output so far, and how writing on may fail. -/
structure Sink where
  /-- What each write has added, the last one first. -/
  chunks : List (List UInt8)
  /-- How many more bytes are kept. -/
  room? : Option Nat
  /-- The error for a byte that there is no room for, and for a flush that fails. -/
  error : WriteError
  flushFails : Bool
  deriving DecidableEq, Repr, Inhabited

namespace Sink

/-- A sink that takes everything. -/
def unlimited : Sink := ⟨[], none, .other, false⟩

/-- The output. -/
def written (s : Sink) : List UInt8 := s.chunks.reverse.flatten

/-- As much of some data as there is room for. -/
def fitting (s : Sink) (data : List UInt8) : List UInt8 :=
  match s.room? with
  | none => data
  | some room => data.take room

/-- Writes what fits, and says whether that is all of the data. -/
def write (s : Sink) (data : List UInt8) : Bool × Sink :=
  let kept := s.fitting data
  (kept.length = data.length,
    { s with chunks := kept :: s.chunks, room? := s.room?.map (· - kept.length) })

@[simp] theorem written_write (s : Sink) (data : List UInt8) :
    (s.write data).2.written = s.written ++ s.fitting data := by simp [write, written]

/-- Nothing can always be written. -/
theorem write_nil (s : Sink) : (s.write []).1 = true := by
  unfold write fitting
  cases s.room? <;> simp

end Sink
end StackLang
