import StackLang.Code.Program
import StackLang.Machine.Fault
import StackLang.Machine.Heap

/-!
# The state of the machine

A machine keeps its settings from run to run; loading a program resets all else.
-/
namespace StackLang

/-- The contents of the registers. -/
structure Registers where
  r0 : Int64
  r1 : Int64
  r2 : Int64
  r3 : Int64
  fp : Int64
  deriving DecidableEq, Repr, Inhabited

namespace Registers

/-- All registers 0. -/
def zero : Registers := ⟨0, 0, 0, 0, 0⟩

/-- The contents of a register. -/
def get (rs : Registers) : Register → Int64
  | .r0 => rs.r0
  | .r1 => rs.r1
  | .r2 => rs.r2
  | .r3 => rs.r3
  | .fp => rs.fp

/-- The registers after one of them is given a value. -/
def set (rs : Registers) (r : Register) (value : Int64) : Registers :=
  match r with
  | .r0 => { rs with r0 := value }
  | .r1 => { rs with r1 := value }
  | .r2 => { rs with r2 := value }
  | .r3 => { rs with r3 := value }
  | .fp => { rs with fp := value }

end Registers

/-- The settings of a machine. -/
structure Settings where
  /-- The bytes that a run can read. -/
  input : List UInt8
  /-- How many instructions a run may take. -/
  stepLimit? : Option Nat
  deriving DecidableEq, Repr, Inhabited

/-- How the last run went. -/
inductive Status where
  /-- Nothing has been run. -/
  | ready
  | halted
  | trapped
  deriving DecidableEq, Repr, Inhabited

/-- How a status is written. -/
def Status.name : Status → String
  | ready => "Ready"
  | halted => "Halted"
  | trapped => "Trapped"

/-- A machine. Both stacks are kept with their top first. -/
structure Machine where
  settings : Settings
  registers : Registers
  stack : List Int64
  /-- The addresses to return to. -/
  calls : List Nat
  heap : Heap
  statics : List UInt8
  labels : Labels
  /-- The input that has not been read. -/
  unread : List UInt8
  output : Sink
  /-- The address of the next instruction. -/
  pc : Nat
  /-- How many instructions have been executed. -/
  steps : Nat
  status : Status
  deriving DecidableEq, Repr, Inhabited

namespace Machine

/-- A machine on which nothing has been run. -/
def new (settings : Settings) : Machine :=
  ⟨settings, .zero, [], [], .empty, [], .empty, settings.input, .unlimited, 0, 0, .ready⟩

/-- The machine about to run a program. -/
def load (m : Machine) (p : Program) (output : Sink) : Machine :=
  { new m.settings with statics := p.statics, labels := p.labels, output, pc := p.start }

end Machine
end StackLang
