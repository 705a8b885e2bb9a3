import StackLang.Code.Program
import StackLang.Text.Padding
import StackLang.Text.Quoted

/-!
# Listings

A listing shows a program line by line: each instruction with its address, then each string of the
static data with its offset. Labels are shown by name, jumps also with the address they go to.
-/
namespace StackLang.Program

/-- The operand of an instruction as a listing shows it. -/
def operandText? (p : Program) (i : Instruction) : Option String :=
  match i.opcode.operandRole, i.label? with
  | .static, _ =>
    let string := ((wordSize? i.operand).bind (stringAt? p.statics)).getD []
    some (toString i.operand ++ " " ++ quoted (lossyText string))
  | .label, some l =>
    if i.opcode = .mark then some (p.labelName l)
    else
      let target := ((p.labels.resolve? l).map addressText).getD "????"
      some (p.labelName l ++ " (" ++ target ++ ")")
  | _, _ => i.operandText?

/-- The line of an instruction. -/
def codeLine (p : Program) (address : Nat) (i : Instruction) : String :=
  " " ++ addressText address ++ " │ " ++ Instruction.textWith i.opcode (p.operandText? i)

/-- The line of a string of the static data. -/
def staticLine (offset : Nat) (string : List UInt8) : String :=
  " " ++ addressText offset ++ " │ " ++ quoted (lossyText string)

/-- The lines about the static data, of which there are none if there is no data. -/
def staticLines (statics : List UInt8) : List String :=
  if statics.isEmpty then []
  else "      ├─[Statics]" :: (staticRows 0 statics).map fun (offset, row) => staticLine offset row

/-- A program as text. -/
def listing (p : Program) : String :=
  String.join <| List.map (· ++ "\n") <|
    "      ╭─[Bytecode]" ::
    p.code.toList.zipIdx.map (fun (i, address) => p.codeLine address i) ++
    staticLines p.statics ++ ["──────╯"]

end StackLang.Program
