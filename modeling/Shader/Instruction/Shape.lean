import Shader.Standard.Opcode

/-!
# Shapes of instructions

An instruction is a leading word, up to two identifiers, possibly a literal string, and a tail.
Which of these an instruction has depends on its opcode alone.

For a few opcodes the places of the two identifiers hold other leading words: the target of `OpName`
stands in the result's place, the struct type and the member index of `OpMemberName`, the execution
model and the function of `OpEntryPoint`, and the selector and the default label of `OpSwitch` in
the places of result type and result.
-/

namespace Shader

inductive Tail where
  | none
  | operands
  | labels
deriving DecidableEq, Repr

def Tail.name : Tail → String
  | .none => "None"
  | .operands => "Operands"
  | .labels => "Labels"

structure Shape where
  resultType : Bool := false
  result : Bool := false
  name : Bool := false
  tail : Tail := .none
deriving DecidableEq, Repr

/-- The shape of an opcode, for the opcodes that a module may hold here. All that are not listed
yield a value: they have a result type, a result and operands. -/
def Op.shape? : Op → Option Shape
  | .TypeOpaque | .CopyMemory | .FUnordEqual | .GroupAsyncCopy | .SizeOf | .TerminateInvocation => none
  | .Nop | .NoLine | .FunctionEnd | .EmitVertex | .EndPrimitive | .Kill | .Return
  | .Unreachable => some {}
  | .Capability | .MemoryModel | .ExecutionMode | .ExecutionModeId | .Source | .Line
  | .Decorate | .MemberDecorate | .GroupDecorate | .Store | .ImageWrite | .ControlBarrier
  | .MemoryBarrier | .AtomicStore | .LoopMerge | .SelectionMerge | .Branch | .BranchConditional
  | .ReturnValue => some { tail := .operands }
  | .Extension | .SourceExtension | .ModuleProcessed => some { name := true }
  | .ExtInstImport | .Name | .String => some { result := true, name := true }
  | .DecorationGroup | .TypeVoid | .TypeBool | .TypeInt | .TypeFloat | .TypeVector | .TypeMatrix
  | .TypeImage | .TypeSampler | .TypeSampledImage | .TypeArray | .TypeRuntimeArray | .TypeStruct
  | .TypePointer | .TypeFunction | .Label => some { result := true, tail := .operands }
  | .EntryPoint => some { resultType := true, result := true, name := true, tail := .operands }
  | .MemberName => some { resultType := true, result := true, name := true }
  | .Switch => some { resultType := true, result := true, tail := .labels }
  | _ => some { resultType := true, result := true, tail := .operands }

def Op.read? (n : Word) : Option (Op × Shape) := do
  let op : Op ← Enumerated.ofNumber? n
  let shape ← op.shape?
  return (op, shape)

def Op.isTerminator : Op → Bool
  | .Branch | .BranchConditional | .Switch | .Return | .ReturnValue | .Kill => true
  | _ => false

end Shader
