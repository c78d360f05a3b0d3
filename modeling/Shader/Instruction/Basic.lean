import Shader.Instruction.Shape

/-!
# Instructions

An instruction holds the fields that its opcode's shape asks for. The type does not force that: a
caller may build any combination, and writing one that does not fit its shape is an error.
-/

namespace Shader

structure Inst where
  op : Op
  resultType : Option Id := none
  result : Option Id := none
  name : Option String := none
  operands : List Word := []
  labels : Option (List (Int32 × Id)) := none
deriving DecidableEq

namespace Inst

def value (op : Op) (type result : Id) (operands : List Word) : Inst :=
  { op, resultType := some type, result := some result, operands }

def defining (op : Op) (result : Id) (operands : List Word) : Inst :=
  { op, result := some result, operands }

def effect (op : Op) (operands : List Word) : Inst := { op, operands }

def nameOf (target : Id) (name : String) : Inst :=
  { op := .Name, result := some target, name := some name }

end Inst

end Shader
