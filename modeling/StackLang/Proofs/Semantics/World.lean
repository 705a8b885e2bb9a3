import StackLang.Proofs.Code.Pool

/-!
# What programs act on

The meaning of a program is a computation on a world: a heap of bytes, the output so far, and the
input that is left. It may stop for a reason of its own, or because it was not granted enough turns
and calls; then it keeps the world that it has reached.
-/
namespace StackLang.Semantics

/-- The heap, the output so far and the input that is left. -/
structure World where
  heap : List UInt8
  output : List UInt8
  unread : List UInt8
  deriving DecidableEq, Repr

/-- Why a computation stops. -/
inductive Stop where
  | divisionByZero
  | heapOutOfBounds (pointer : Int64)
  /-- A name has no meaning, or does not fit how it is used. -/
  | undefined
  /-- More turns of a loop or more calls within calls than were granted. -/
  | unfinished
  deriving DecidableEq, Repr

/-- A computation on a world. -/
abbrev Eval := EStateM Stop World

/-- How a statement ends: what it leaves for the next one, or a return with a value. -/
inductive Completion (σ : Type) where
  | next (state : σ)
  | returned (value : Int64)
  deriving DecidableEq, Repr

/-- The same end, with another way to keep the state. -/
def Completion.map {σ τ : Type} (f : σ → τ) : Completion σ → Completion τ
  | next s => .next (f s)
  | returned v => .returned v

namespace Eval

/-- A new copy of a text, up to its first NUL and with a NUL after it; its value is where the copy
starts on the heap. -/
def allocate (text : String) : Eval Int64 := fun w =>
  .ok (sizeWord w.heap.length) { w with heap := w.heap ++ stringOf text ++ [0] }

/-- Adds to the output. -/
def print (data : List UInt8) : Eval Unit := fun w => .ok () { w with output := w.output ++ data }

/-- Prints an integer in decimal. -/
def printInt (value : Int64) : Eval Unit := print (utf8 (toString value))

/-- Prints what is on the heap from a pointer to the next NUL. -/
def printString (pointer : Int64) : Eval Unit := fun w =>
  match (wordSize? pointer).bind (stringAt? w.heap) with
  | some string => print string w
  | none => .error (.heapOutOfBounds pointer) w

/-- The next byte of the input, or -1 if there is none. -/
def readByte : Eval Int64 := fun w =>
  match w.unread with
  | [] => .ok (-1) w
  | byte :: unread => .ok (Int64.ofNat byte.toNat) { w with unread }

/-- A quotient or a remainder. -/
def divide (op : Int64 → Int64 → Int64) (left right : Int64) : Eval Int64 :=
  if right = 0 then throw .divisionByZero else pure (op left right)

/-- Does `body` as long as `test` is not 0, at most so many times. -/
def repeatWhile {σ : Type} (test : σ → Eval Int64) (body : σ → Eval (Completion σ)) :
    Nat → σ → Eval (Completion σ)
  | 0, _ => throw .unfinished
  | n + 1, s => do
    if (← test s) = 0 then return .next s
    match ← body s with
    | .next s' => repeatWhile test body n s'
    | .returned v => return .returned v

end Eval
end StackLang.Semantics
