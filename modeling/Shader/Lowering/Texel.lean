import Shader.Lowering.Intrinsic

/-!
# Texels

Access to the texels of images, directly or through a sampler, and questions about images. Arguments
beyond the coordinate are announced by a mask and follow it in the order of its bits.
-/

namespace Shader

/-! ## Arguments that a mask announces -/

inductive ImageOperand where
  | bias
  | lod
  /-- Two derivatives of the coordinate. -/
  | grad
  | offset
  /-- Four constant offsets in an array. -/
  | offsets
deriving DecidableEq, Repr

namespace ImageOperand

def arity : ImageOperand → Nat
  | .grad => 2
  | .bias | .lod | .offset | .offsets => 1

def sampleBit : Word := 64

/-- The bit of the mask that announces the arguments. For multisampled images a sample index stands
in place of the level of detail. -/
def bit (operand : ImageOperand) (multisampled : Bool) (args : List Expr) : Word :=
  match operand with
  | .bias => 1
  | .lod => if multisampled then sampleBit else 2
  | .grad => 4
  | .offset => if Expr.allConstant args then 8 else 16
  | .offsets => 32

end ImageOperand

def insertByBit (entry : Word × List Id) : List (Word × List Id) → List (Word × List Id)
  | [] => [entry]
  | other :: rest =>
    if entry.1 < other.1 then entry :: other :: rest else other :: insertByBit entry rest

/-- The mask and what it announces in the order of the bits, or nothing if there is nothing. -/
def maskedOperands (entries : List (Word × List Id)) : List Word :=
  if entries.isEmpty then []
  else
    let sorted := entries.foldl (fun sorted entry => insertByBit entry sorted) []
    sorted.foldl (fun mask entry => mask ||| entry.1) 0 :: sorted.flatMap (·.2)

/-! ## Images -/

def ImageAccess.atomic? : ImageAccess → Option Intrinsic
  | .atomicAdd => some .atomicAdd
  | .atomicMin => some .atomicMin
  | .atomicMax => some .atomicMax
  | .atomicAnd => some .atomicAnd
  | .atomicOr => some .atomicOr
  | .atomicXor => some .atomicXor
  | .atomicExchange => some .atomicExchange
  | .atomicCompSwap => some .atomicCompSwap
  | .size | .samples | .load | .store => none

/-- The number of arguments. An address is a coordinate, and a sample index for multisampled
images. -/
def ImageAccess.arity (access : ImageAccess) (address : Nat) : Nat :=
  match access with
  | .size | .samples => 1
  | .load => 1 + address
  | .atomicCompSwap => 3 + address
  | _ => 2 + address

def ImageConfig.addressLength (config : ImageConfig) : Nat := if config.ms then 2 else 1

namespace Lower

def checkCount (callee : Callee) (args : List Expr) (expected : Nat) : Lower Unit := do
  if args.length ≠ expected then Build.refuse (.argCount callee expected args.length)

def imageArg (callee : Callee) (args : List Expr) : Lower (Expr × ImageConfig) := do
  match args with
  | [] => Build.refuse (.argCount callee 1 0)
  | image :: _ =>
    match image.ty.imageConfig? with
    | none => Build.refuse (.typeMismatch .image image.ty)
    | some config => return (image, config)

def sampleOperands : List Id → List Word
  | [] => []
  | sample => ImageOperand.sampleBit :: sample

def atomicTexel (parts : Parts) (f : Intrinsic) (ops : PerFamily Op) (config : ImageConfig)
    (image : Expr) (address values : List Expr) (ty : Ty) : Lower Id := do
  let texel ← onModule (Module.declareType (.scalar config.sampled))
  let pointerType ← onModule (Module.declarePointer texel .Image)
  let base ← parts.pointer image
  let ids ← address.mapM parts.value
  let sample ←
    if config.ms then pure []
    else do
      let zero ← onModule (Module.declareLiteral (.uint 0))
      pure [zero]
  let pointer ← emitAs .ImageTexelPointer pointerType (base :: ids ++ sample)
  let values ← values.mapM parts.value
  atomic f ops .image (some config.sampled) pointer values ty

def imageAccess (parts : Parts) (access : ImageAccess) (args : List Expr) (ty : Ty) :
    Lower Id := do
  let (image, config) ← imageArg (.image access) args
  checkCount (.image access) args (access.arity config.addressLength)
  let (address, values) := args.tail.splitAt config.addressLength
  match access.atomic? with
  | some f =>
    match f.form with
    | .atomic ops => atomicTexel parts f ops config image address values ty
    | _ => Build.refuse (.unsupportedIntrinsic f)
  | none =>
    let base ← parts.value image
    let ids ← address.mapM parts.value
    let texel ← values.mapM parts.value
    let (coordinate, sample) := ids.splitAt 1
    match access with
    | .samples => emit .ImageQuerySamples ty [base]
    | .load => emit .ImageRead ty (base :: coordinate ++ sampleOperands sample)
    | .store =>
      emitEffect .ImageWrite (base :: coordinate ++ texel ++ sampleOperands sample)
      return noResult
    | _ => emit .ImageQuerySize ty [base]

end Lower

/-! ## Textures -/

inductive TextureHandle where
  | image
  | sampledImage
deriving DecidableEq, Repr

structure TextureForm where
  op : Op
  handle : TextureHandle
  /-- The number of arguments that the instruction takes before the mask. -/
  fixed : Nat
  /-- The arguments that the mask announces, in the order of the call. -/
  operands : List ImageOperand

def TextureAccess.form : TextureAccess → TextureForm
  | .sizeLod => ⟨.ImageQuerySizeLod, .image, 1, []⟩
  | .size => ⟨.ImageQuerySize, .image, 0, []⟩
  | .queryLod => ⟨.ImageQueryLod, .sampledImage, 1, []⟩
  | .queryLevels => ⟨.ImageQueryLevels, .image, 0, []⟩
  | .samples => ⟨.ImageQuerySamples, .image, 0, []⟩
  | .sample => ⟨.ImageSampleImplicitLod, .sampledImage, 1, []⟩
  | .sampleBias => ⟨.ImageSampleImplicitLod, .sampledImage, 1, [.bias]⟩
  | .sampleLod => ⟨.ImageSampleExplicitLod, .sampledImage, 1, [.lod]⟩
  | .sampleOffset => ⟨.ImageSampleImplicitLod, .sampledImage, 1, [.offset]⟩
  | .sampleBiasOffset => ⟨.ImageSampleImplicitLod, .sampledImage, 1, [.bias, .offset]⟩
  | .sampleLodOffset => ⟨.ImageSampleExplicitLod, .sampledImage, 1, [.lod, .offset]⟩
  | .sampleGrad => ⟨.ImageSampleExplicitLod, .sampledImage, 1, [.grad]⟩
  | .sampleGradOffset => ⟨.ImageSampleExplicitLod, .sampledImage, 1, [.grad, .offset]⟩
  | .sampleProj => ⟨.ImageSampleProjImplicitLod, .sampledImage, 1, []⟩
  | .sampleProjBias => ⟨.ImageSampleProjImplicitLod, .sampledImage, 1, [.bias]⟩
  | .sampleProjLod => ⟨.ImageSampleProjExplicitLod, .sampledImage, 1, [.lod]⟩
  | .sampleProjOffset => ⟨.ImageSampleProjImplicitLod, .sampledImage, 1, [.offset]⟩
  | .sampleProjGrad => ⟨.ImageSampleProjExplicitLod, .sampledImage, 1, [.grad]⟩
  | .sampleDref => ⟨.ImageSampleDrefImplicitLod, .sampledImage, 2, []⟩
  | .sampleDrefBias => ⟨.ImageSampleDrefImplicitLod, .sampledImage, 2, [.bias]⟩
  | .sampleDrefLod => ⟨.ImageSampleDrefExplicitLod, .sampledImage, 2, [.lod]⟩
  | .sampleDrefOffset => ⟨.ImageSampleDrefImplicitLod, .sampledImage, 2, [.offset]⟩
  | .sampleProjDref => ⟨.ImageSampleProjDrefImplicitLod, .sampledImage, 2, []⟩
  | .sampleProjDrefLod => ⟨.ImageSampleProjDrefExplicitLod, .sampledImage, 2, [.lod]⟩
  | .fetch => ⟨.ImageFetch, .image, 1, [.lod]⟩
  | .fetchOffset => ⟨.ImageFetch, .image, 1, [.lod, .offset]⟩
  | .gather => ⟨.ImageGather, .sampledImage, 2, []⟩
  | .gatherOffset => ⟨.ImageGather, .sampledImage, 2, [.offset]⟩
  | .gatherOffsets => ⟨.ImageGather, .sampledImage, 2, [.offsets]⟩
  | .gatherDref => ⟨.ImageDrefGather, .sampledImage, 2, []⟩
  | .gatherDrefOffset => ⟨.ImageDrefGather, .sampledImage, 2, [.offset]⟩

/-- The arguments that the mask announces for an image. Fetching from images that have one level
only takes no level of detail. -/
def TextureForm.operandsFor (form : TextureForm) (dim : Dim) : List ImageOperand :=
  let oneLevel := dim = .DimBuffer || dim = .DimRect
  form.operands.filter fun operand => !(operand = .lod && form.op = .ImageFetch && oneLevel)

def ImageOperand.totalArity (operands : List ImageOperand) : Nat :=
  operands.foldl (fun n operand => n + operand.arity) 0

namespace Lower

def announced (parts : Parts) (multisampled : Bool) : List ImageOperand → List Expr → Lower (List (Word × List Id))
  | [], _ => return []
  | operand :: operands, args => do
    let own := args.take operand.arity
    let ids ← own.mapM parts.value
    let rest ← announced parts multisampled operands (args.drop operand.arity)
    return (operand.bit multisampled own, ids) :: rest

def textureHandle (parts : Parts) (form : TextureForm) (image : Expr) : Lower Id := do
  let id ← parts.value image
  match form.handle, image.ty with
  | .image, .sampledImage config => emit .Image (.image config) [id]
  | _, _ => return id

def textureAccess (parts : Parts) (access : TextureAccess) (args : List Expr) (ty : Ty) :
    Lower Id := do
  let form := access.form
  let (image, config) ← imageArg (.texture access) args
  let operands := form.operandsFor config.dim
  checkCount (.texture access) args (1 + form.fixed + ImageOperand.totalArity operands)
  let handle ← textureHandle parts form image
  let (fixed, optional) := args.tail.splitAt form.fixed
  let ids ← fixed.mapM parts.value
  let entries ← announced parts config.ms operands optional
  emit form.op ty (handle :: ids ++ maskedOperands entries)

end Lower

end Shader
