import Shader.Instruction.Basic
import Shader.Text.Quoted

/-!
# Listings of instructions

One line per instruction. A result stands before an equals sign, and its type after the opcode; the
other leading words of an instruction are listed as operands are, in decimal.
-/

namespace Shader

def Op.mnemonic (op : Op) := "Op" ++ Enumerated.name op

/-- Whether the result's place holds a result. -/
def Op.yieldsResult (op : Op) : Bool :=
  match op.shape? with
  | none => false
  | some shape => (shape.result && shape.tail != .labels && !shape.name) || op == .ExtInstImport || op == .String

namespace Inst

def listingHead (inst : Inst) : String :=
  match inst.op.yieldsResult, inst.resultType, inst.result with
  | true, some type, some id => s!"%{id} = {inst.op.mnemonic} %{type}"
  | true, none, some id => s!"%{id} = {inst.op.mnemonic}"
  | _, type, id => inst.op.mnemonic ++ String.join ((type.toList ++ id.toList).map (fun w => s!" {w}"))

def listing (inst : Inst) : String :=
  inst.listingHead ++ String.join (inst.name.toList.map (fun s => " " ++ Text.quote s))
    ++ String.join (inst.operands.map (fun w => s!" {w}"))
    ++ String.join ((inst.labels.getD []).map (fun l => s!" {l.1} %{l.2}"))

end Inst

end Shader
