import StackLang.Code.Draft
import StackLang.Core.Basic

/-!
# Code for core programs

An expression's code leaves its value on the stack and a statement's code leaves the stack as it
was. A function's frame holds the caller's frame pointer and above it the slots, slot 0 on top; the
frame pointer is one past slot 0. A `return` leaves its value on the stack and jumps to the end of
the function, which moves the value to `r0` and takes the frame down.

The label of a function has the function's number. All other labels are numbered in the order in
which they come up: a function's end, then those of its statements; the entry of the program is
last. So the numbers that a part of the program uses are known from the number it starts at.
-/
namespace StackLang.Core

open Instruction

/-- Code for an expression, given where each text starts in the static data. -/
def Expr.emit (offset : String → Nat) : Expr → List Instruction
  | literal value => [⟨.loadImmediate, value⟩]
  | text value => [⟨.newString, sizeWord (offset value)⟩]
  | slot index => [⟨.loadSlot, Int64.ofNat index⟩]
  | arithmetic op left right => right.emit offset ++ left.emit offset ++ [bare op.opcode]
  | comparison op left right => left.emit offset ++ right.emit offset ++ [bare op.opcode]
  | not operand => operand.emit offset ++ [bare .not]
  | call function => [ofLabel .call ⟨function⟩]
  | getByte => [bare .getByte]

namespace Stmt

mutual

/-- How many labels a statement uses. -/
def labels : Stmt → Nat
  | .loop _ body => 2 + labelsOfAll body
  | .ifThen _ body => 1 + labelsOfAll body
  | .ifElse _ body other => 2 + labelsOfAll body + labelsOfAll other
  | .store .. | .discard _ | .putInt _ | .putString _ | .giveBack _ => 0

/-- How many labels some statements use. -/
def labelsOfAll : List Stmt → Nat
  | [] => 0
  | s :: ss => labels s + labelsOfAll ss

end

mutual

/-- Code for a statement of a function that ends at label `done`; its own labels are numbered from
`next` on. -/
def emit (offset : String → Nat) (done next : Nat) : Stmt → List Instruction
  | .store slot value => value.emit offset ++ [⟨.storeSlot, Int64.ofNat slot⟩]
  | .discard value => value.emit offset ++ [bare .pop]
  | .putInt value => value.emit offset ++ [bare .putInt]
  | .putString value => value.emit offset ++ [bare .putString]
  | .loop condition body =>
    ofLabel .mark ⟨next⟩ :: condition.emit offset ++ [ofLabel .jumpIfZero ⟨next + 1⟩] ++
      emitAll offset done (next + 2) body ++
      [ofLabel .jump ⟨next⟩, ofLabel .mark ⟨next + 1⟩]
  | .ifThen condition body =>
    condition.emit offset ++ [ofLabel .jumpIfZero ⟨next⟩] ++
      emitAll offset done (next + 1) body ++ [ofLabel .mark ⟨next⟩]
  | .ifElse condition body other =>
    let after := next + 1 + labelsOfAll body
    condition.emit offset ++ [ofLabel .jumpIfZero ⟨next⟩] ++
      emitAll offset done (next + 1) body ++
      [ofLabel .jump ⟨after⟩, ofLabel .mark ⟨next⟩] ++
      emitAll offset done (after + 1) other ++ [ofLabel .mark ⟨after⟩]
  | .giveBack value => value.emit offset ++ [ofLabel .jump ⟨done⟩]

/-- Code for statements, one after the other. -/
def emitAll (offset : String → Nat) (done next : Nat) : List Stmt → List Instruction
  | [] => []
  | s :: ss => emit offset done next s ++ emitAll offset done (next + labels s) ss

end

end Stmt

namespace Function

/-- How many labels a function uses beside its own. -/
def labels (f : Function) : Nat := 1 + Stmt.labelsOfAll f.body

/-- How many labels some functions use beside their own. -/
def labelsOfAll : List Function → Nat
  | [] => 0
  | f :: fs => f.labels + labelsOfAll fs

/-- What a function does first: saves the frame pointer and makes room for its slots. -/
def prologue (f : Function) (index : Nat) : List Instruction :=
  [ofLabel .mark ⟨index⟩, ofRegister .load .fp] ++
    List.replicate f.locals ⟨.loadImmediate, 0⟩ ++ [bare .setFrame]

/-- What a function does last, with its result on the stack. -/
def epilogue (f : Function) (done : Nat) : List Instruction :=
  [ofLabel .mark ⟨done⟩, ofRegister .store .r0] ++
    List.replicate f.locals (bare .pop) ++ [ofRegister .store .fp, bare .ret]

/-- Code for the function with number `index`; its end has the label `next`. -/
def emit (offset : String → Nat) (index next : Nat) (f : Function) : List Instruction :=
  f.prologue index ++ Stmt.emitAll offset next (next + 1) f.body ++
    [⟨.loadImmediate, 0⟩] ++ f.epilogue next

/-- Code for functions, numbered from `index` on. -/
def emitAll (offset : String → Nat) (index next : Nat) : List Function → List Instruction
  | [] => []
  | f :: fs => f.emit offset index next ++ emitAll offset (index + 1) (next + f.labels) fs

end Function

namespace Module

/-- The static data of a program. -/
def strings (m : Module) : StringPool := .ofList m.texts

/-- The label at which a program starts: the last one. -/
def entry (m : Module) : Label := ⟨m.functions.length + Function.labelsOfAll m.functions⟩

/-- What a program does first: calls its main function and stops with the result in `r0`. -/
def entryCode (m : Module) : List Instruction :=
  [ofLabel .mark m.entry, ofLabel .call ⟨m.main⟩, ofRegister .store .r0, bare .halt]

/-- The code of a program, the entry last. -/
def emit (m : Module) : List Instruction :=
  Function.emitAll m.strings.offset 0 m.functions.length m.functions ++ m.entryCode

/-- The names of the labels of functions and of the entry. -/
def names (m : Module) : Table String :=
  let functions := m.functions.zipIdx.foldl (fun (names : Table String) (f, index) =>
    names.insert index f.name) .empty
  functions.insert m.entry.id "<entry>"

/-- A program ready to be linked. -/
def draft (m : Module) : Draft :=
  ⟨m.emit.toArray, m.entry.id + 1, m.strings, m.names⟩

end Module
end StackLang.Core
