import Shader.Standard.Execution

/-!
# Settings of a module

What is fixed when a module is begun: the version of the standard, the tool that writes it, the
models, and how deep expressions may nest.
-/

namespace Shader

structure Version where
  major : UInt8
  minor : UInt8
deriving DecidableEq, Repr

namespace Version

def atLeast (self v : Version) : Bool := v.major < self.major || (v.major = self.major && v.minor ≤ self.minor)

def word (v : Version) : Word := (v.major.toUInt32 <<< 16) ||| (v.minor.toUInt32 <<< 8)

end Version

structure Config where
  version : Version := ⟨1, 0⟩
  generator : Word := 0
  executionModel : ExecutionModel := .Vertex
  memoryModel : MemoryModel := .GLSL450
  /-- Where the origin lies for a fragment entry point. -/
  fragmentOrigin : ExecutionMode := .OriginUpperLeft
  nestingLimit : Nat := 256
deriving DecidableEq

end Shader
