import Shader.Text.Quoted
import Shader.Ty.Basic

/-!
# The notation of types

Types and variables in messages: a constructor with its arguments in parentheses, or with its named
fields in braces.
-/

namespace Shader

def Scalar.text : Scalar → String
  | .bool => "Bool"
  | .int => "Int"
  | .uint => "UInt"
  | .float => "Float"
  | .double => "Double"

def MemoryLayout.text : MemoryLayout → String
  | .std140 => "Std140"
  | .std430 => "Std430"

namespace Text

def record (name : String) (fields : List (String × String)) : String :=
  name ++ " \x7b " ++ ", ".intercalate (fields.map (fun f => f.1 ++ ": " ++ f.2)) ++ " \x7d"

def list (items : List String) : String := "[" ++ ", ".intercalate items ++ "]"

def option : Option String → String
  | none => "None"
  | some s => "Some(" ++ s ++ ")"

def bool (b : Bool) : String := if b then "true" else "false"

end Text

def ImageConfig.text (c : ImageConfig) : String :=
  Text.record "ImageConfig" [ ("sampled", c.sampled.text), ("dim", Enumerated.name c.dim),
    ("format", Enumerated.name c.format), ("arrayed", Text.bool c.arrayed),
    ("ms", Text.bool c.ms), ("depth", Text.bool c.depth), ("storage", Text.bool c.storage)]

namespace Roles

def named (f : Roles) : List (String × Bool) :=
  [("UNIFORM", f.uniform), ("BUILTIN", f.builtin), ("SHADER_INPUT", f.input),
   ("SHADER_OUTPUT", f.output), ("CONSTANT", f.constant), ("PUSH_CONSTANT", f.pushConstant),
   ("SPECIALIZATION_CONSTANT", f.specConstant), ("LOCAL", f.functionLocal),
   ("PARAMETER", f.parameter), ("OUTPUT_PARAMETER", f.outParameter),
   ("INPUT_PARAMETER", f.inParameter), ("STORAGE_BUFFER", f.storageBuffer)]

def bits (f : Roles) : Nat := f.named.foldr (fun e n => 2 * n + if e.2 then 1 else 0) 0

def text (f : Roles) : String :=
  let set := (f.named.filter (·.2)).map (·.1)
  "VarFlags(" ++ (if set.isEmpty then "0x0" else " | ".intercalate set) ++ ")"

def set? (f : Roles) : String → Option Roles
  | "UNIFORM" => some { f with uniform := true }
  | "BUILTIN" => some { f with builtin := true }
  | "SHADER_INPUT" => some { f with input := true }
  | "SHADER_OUTPUT" => some { f with output := true }
  | "CONSTANT" => some { f with constant := true }
  | "PUSH_CONSTANT" => some { f with pushConstant := true }
  | "SPECIALIZATION_CONSTANT" => some { f with specConstant := true }
  | "LOCAL" => some { f with functionLocal := true }
  | "PARAMETER" => some { f with parameter := true }
  | "OUTPUT_PARAMETER" => some { f with outParameter := true }
  | "INPUT_PARAMETER" => some { f with inParameter := true }
  | "STORAGE_BUFFER" => some { f with storageBuffer := true }
  | _ => none

end Roles

mutual

def Ty.text : Ty → String
  | .void => "Void"
  | .scalar s => "Scalar(" ++ s.text ++ ")"
  | .vector s n => s!"Vector({s.text}, {n})"
  | .matrix s columns rows =>
    Text.record "Matrix" [ ("scalar", s.text), ("columns", toString columns), ("rows", toString rows)]
  | .array element length =>
    "Array(" ++ Text.record "ArrayType" [ ("element", element.text), ("len", Text.option (length.map toString))] ++ ")"
  | .struct name layout members =>
    "Struct(" ++ Text.record "StructType" [ ("name", Text.quote name), ("layout", layout.text),
      ("members", Text.list (Member.texts members))] ++ ")"
  | .image c => "Image(" ++ c.text ++ ")"
  | .sampledImage c => "SampledImage(" ++ c.text ++ ")"
  | .sampler comparison => Text.record "Sampler" [("comparison", Text.bool comparison)]
  | .function ret params =>
    "Function(" ++ Text.record "FunctionType" [ ("ret", ret.text), ("params", Text.list (Variable.texts params))] ++ ")"

def Member.texts : List Member → List String
  | [] => []
  | ⟨name, ty, offset, stride⟩ :: ms =>
    Text.record "Member" [ ("name", Text.quote name), ("ty", ty.text), ("offset", toString offset),
      ("array_stride", Text.option (stride.map toString))] :: Member.texts ms

def Variable.text : Variable → String
  | .root name ty roles =>
    Text.record "Variable" [ ("name", Text.quote name), ("ty", ty.text), ("flags", roles.text), ("outer", "None")]
  | .member outer index name ty =>
    Text.record "Variable" [ ("name", Text.quote name), ("ty", ty.text), ("flags", outer.roles.text),
      ("outer", s!"Some(({outer.text}, {index}))")]

def Variable.texts : List Variable → List String
  | [] => []
  | v :: vs => v.text :: Variable.texts vs

end

end Shader
