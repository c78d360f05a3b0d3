import Shader.Expr.Basic
import Shader.Ordered
import Shader.Standard.Capability

/-!
# Requirements of expressions

What a module has to declare before it holds certain expressions: capabilities, and the inputs and
outputs of the shader. Expressions are read from left to right, an expression before its parts.

* `Requirements.scan`: the uses collected, each once
-/

namespace Shader

/-! ## Uses in an expression -/

namespace Expr

mutual

/-- The variables read, written or initialized, in order. A called function is none. -/
def mentions : Expr → List Variable
  | ⟨_, .literal _⟩ => []
  | ⟨_, .ident v⟩ => [v]
  | ⟨_, .init v value⟩ => v :: value.mentions
  | ⟨_, .assign _ a b⟩ | ⟨_, .binary _ a b⟩ | ⟨_, .index a b⟩ => a.mentions ++ b.mentions
  | ⟨_, .unary _ e⟩ | ⟨_, .step _ e⟩ | ⟨_, .cast e⟩ | ⟨_, .member e _⟩ | ⟨_, .swizzle e _⟩ => e.mentions
  | ⟨_, .construct args⟩ | ⟨_, .call _ args⟩ | ⟨_, .intrinsic _ args⟩ | ⟨_, .image _ args⟩
  | ⟨_, .texture _ args⟩ => mentionsOfAll args
  | ⟨_, .select c t f⟩ => c.mentions ++ t.mentions ++ f.mentions

def mentionsOfAll : List Expr → List Variable
  | [] => []
  | e :: es => e.mentions ++ mentionsOfAll es

end

end Expr

namespace Capability

def ofType (ty : Ty) : List Capability := if ty.hasDouble then [.Float64] else []

def ofImage (sampled : Bool) (config : ImageConfig) : List Capability :=
  let ofDim : List Capability :=
    match config.dim, sampled with
    | .Dim1D, true => [.Sampled1D]
    | .Dim1D, false => [.Image1D]
    | .DimRect, true => [.SampledRect]
    | .DimRect, false => [.ImageRect]
    | .DimBuffer, true => [.SampledBuffer]
    | .DimBuffer, false => [.ImageBuffer]
    | .DimCube, true => if config.arrayed then [.SampledCubeArray] else []
    | .DimCube, false => if config.arrayed then [.ImageCubeArray] else []
    | _, _ => []
  ofDim ++ if !sampled && config.ms && config.arrayed then [.ImageMSArray] else []

def ofImageArg (sampled : Bool) (args : List Expr) : List Capability :=
  ((args.head?.bind (·.ty.imageConfig?)).map (ofImage sampled)).getD []

def ofImageAccess (access : ImageAccess) (args : List Expr) : List Capability :=
  (if access = .size ∨ access = .samples then [.ImageQuery] else []) ++ ofImageArg false args

def ofTextureAccess (access : TextureAccess) (args : List Expr) : List Capability :=
  let dynamicOffset := args.getLast?.any (!·.isConstant)
  (if access.isQuery then [.ImageQuery] else [])
    ++ (if access.hasOffset && (access = .gatherOffsets || dynamicOffset) then [.ImageGatherExtended] else [])
    ++ ofImageArg true args

end Capability

namespace Expr

mutual

def capabilities : Expr → List Capability
  | ⟨ty, node⟩ => Capability.ofType ty ++
    match node with
    | .literal _ => []
    | .ident v => Capability.ofType v.ty
    | .init v value => Capability.ofType v.ty ++ value.capabilities
    | .assign _ a b | .binary _ a b | .index a b => a.capabilities ++ b.capabilities
    | .unary _ e | .step _ e | .cast e | .member e _ | .swizzle e _ => e.capabilities
    | .construct args | .call _ args | .intrinsic _ args => capabilitiesOfAll args
    | .image access args => Capability.ofImageAccess access args ++ capabilitiesOfAll args
    | .texture access args => Capability.ofTextureAccess access args ++ capabilitiesOfAll args
    | .select c t f => c.capabilities ++ t.capabilities ++ f.capabilities

def capabilitiesOfAll : List Expr → List Capability
  | [] => []
  | e :: es => e.capabilities ++ capabilitiesOfAll es

end

end Expr

/-! ## Uses collected -/

/-- What a module has to declare, each in the order of its first use. -/
structure Requirements where
  capabilities : List Capability := []
  inputs : OrderedMap String Variable := ∅
  /-- Outputs of the shader by name, those that are members of another variable left out. -/
  outputs : OrderedMap String Variable := ∅

namespace Requirements

def addVariable (r : Requirements) (v : Variable) : Requirements :=
  if v.roles.input then { r with inputs := r.inputs.putNew v.name v }
  else if v.roles.output && !v.isMember then { r with outputs := r.outputs.putNew v.name v }
  else r

def scan (r : Requirements) (e : Expr) : Requirements :=
  e.mentions.foldl addVariable { r with capabilities := e.capabilities.foldl addNew r.capabilities }

def requires (r : Requirements) (c : Capability) : Bool := r.capabilities.contains c

end Requirements

end Shader
