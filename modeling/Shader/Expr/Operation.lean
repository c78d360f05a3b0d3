/-!
# Operations

The operators, built-in functions and image accesses that expressions apply, with the names by which
messages call them.
-/

namespace Shader

/-- Types with finitely many members, each with a name. -/
class Named (α : Type) where
  all : List α
  name : α → String

def Named.ofName? {α : Type} [Named α] (s : String) : Option α := all.find? (fun a => name a == s)

/-- Operators on one operand: negation of a number, no change, negation of a truth value,
complement. -/
inductive UnOp where
  | neg | plus | not | bitNot
deriving DecidableEq, Repr

instance : Named UnOp where
  all := (List.range 4).map UnOp.ofNat
  name a := ["Neg", "Plus", "Not", "BitNot"].getD a.ctorIdx ""

inductive BinOp where
  | add | sub | mul | div | mod | shl | shr | bitAnd | bitOr | bitXor | logAnd | logOr | eq | ne
  | lt | le | gt | ge
deriving DecidableEq, Repr

instance : Named BinOp where
  all := (List.range 18).map BinOp.ofNat
  name a := [ "Add", "Sub", "Mul", "Div", "Mod", "Shl", "Shr", "BitAnd", "BitOr", "BitXor", "LogAnd",
    "LogOr", "Eq", "Ne", "Lt", "Le", "Gt", "Ge"].getD a.ctorIdx ""

def BinOp.isComparison : BinOp → Bool
  | .eq | .ne | .lt | .le | .gt | .ge => true
  | _ => false

/-- Steps up and down by one, with the value before or after the step as the result. -/
inductive StepOp where
  | preInc | preDec | postInc | postDec
deriving DecidableEq, Repr

instance : Named StepOp where
  all := (List.range 4).map StepOp.ofNat
  name a := ["PreInc", "PreDec", "PostInc", "PostDec"].getD a.ctorIdx ""

namespace StepOp

def yieldsNew : StepOp → Bool
  | .preInc | .preDec => true
  | _ => false

def isIncrement : StepOp → Bool
  | .preInc | .postInc => true
  | _ => false

end StepOp

/-- Built-in functions, each for all the types it applies to. -/
inductive Intrinsic where
  | radians | degrees | sin | cos | tan | asin | acos | atan | atan2 | sinh | cosh | tanh | asinh
  | acosh | atanh | pow | exp | log | exp2 | log2 | sqrt | inverseSqrt | abs | sign | floor | trunc
  | round | roundEven | ceil | fract | mod | modf | min | max | clamp | mix | step | smoothStep
  | fma | frexp | ldexp | isNan | isInf | floatBitsToInt | floatBitsToUint | intBitsToFloat
  | uintBitsToFloat | packSnorm4x8 | packUnorm4x8 | packSnorm2x16 | packUnorm2x16 | packHalf2x16
  | packDouble2x32 | unpackSnorm4x8 | unpackUnorm4x8 | unpackSnorm2x16 | unpackUnorm2x16
  | unpackHalf2x16 | unpackDouble2x32 | length | distance | dot | cross | normalize | faceForward
  | reflect | refract | outerProduct | transpose | determinant | inverse | lessThan | lessThanEqual
  | greaterThan | greaterThanEqual | equal | notEqual | any | all | not | uaddCarry | usubBorrow
  | umulExtended | imulExtended | bitfieldExtract | bitfieldInsert | bitfieldReverse | bitCount
  | findLsb | findMsb | atomicAdd | atomicMin | atomicMax | atomicAnd | atomicOr | atomicXor
  | atomicExchange | atomicCompSwap | dfdx | dfdy | fwidth | dfdxCoarse | dfdyCoarse | fwidthCoarse
  | dfdxFine | dfdyFine | fwidthFine
deriving DecidableEq, Repr

instance : Named Intrinsic where
  all := (List.range 107).map Intrinsic.ofNat
  name a := [ "Radians", "Degrees", "Sin", "Cos", "Tan", "Asin", "Acos", "Atan", "Atan2", "Sinh", "Cosh",
    "Tanh", "Asinh", "Acosh", "Atanh", "Pow", "Exp", "Log", "Exp2", "Log2", "Sqrt", "InverseSqrt",
    "Abs", "Sign", "Floor", "Trunc", "Round", "RoundEven", "Ceil", "Fract", "Mod", "Modf", "Min",
    "Max", "Clamp", "Mix", "Step", "SmoothStep", "Fma", "Frexp", "Ldexp", "IsNan", "IsInf",
    "FloatBitsToInt", "FloatBitsToUint", "IntBitsToFloat", "UintBitsToFloat", "PackSnorm4x8",
    "PackUnorm4x8", "PackSnorm2x16", "PackUnorm2x16", "PackHalf2x16", "PackDouble2x32",
    "UnpackSnorm4x8", "UnpackUnorm4x8", "UnpackSnorm2x16", "UnpackUnorm2x16", "UnpackHalf2x16",
    "UnpackDouble2x32", "Length", "Distance", "Dot", "Cross", "Normalize", "FaceForward",
    "Reflect", "Refract", "OuterProduct", "Transpose", "Determinant", "Inverse", "LessThan",
    "LessThanEqual", "GreaterThan", "GreaterThanEqual", "Equal", "NotEqual", "Any", "All", "Not",
    "UaddCarry", "UsubBorrow", "UmulExtended", "ImulExtended", "BitfieldExtract",
    "BitfieldInsert", "BitfieldReverse", "BitCount", "FindLsb", "FindMsb", "AtomicAdd",
    "AtomicMin", "AtomicMax", "AtomicAnd", "AtomicOr", "AtomicXor", "AtomicExchange",
    "AtomicCompSwap", "Dfdx", "Dfdy", "Fwidth", "DfdxCoarse", "DfdyCoarse", "FwidthCoarse",
    "DfdxFine", "DfdyFine", "FwidthFine"].getD a.ctorIdx ""

/-- Accesses to an image without a sampler. The arguments are the image, the coordinate, the sample
of a multisampled image, and the values to write. -/
inductive ImageAccess where
  | size | samples | load | store | atomicAdd | atomicMin | atomicMax | atomicAnd | atomicOr
  | atomicXor | atomicExchange | atomicCompSwap
deriving DecidableEq, Repr

instance : Named ImageAccess where
  all := (List.range 12).map ImageAccess.ofNat
  name a := [ "Size", "Samples", "Load", "Store", "AtomicAdd", "AtomicMin", "AtomicMax", "AtomicAnd",
    "AtomicOr", "AtomicXor", "AtomicExchange", "AtomicCompSwap"].getD a.ctorIdx ""

/-- Accesses to an image through a sampler. The arguments are the sampled image, the coordinate, the
depth to compare with or the component to gather, and what else the access takes. -/
inductive TextureAccess where
  | sizeLod | size | queryLod | queryLevels | samples | sample | sampleBias | sampleLod
  | sampleOffset | sampleBiasOffset | sampleLodOffset | sampleGrad | sampleGradOffset | sampleProj
  | sampleProjBias | sampleProjLod | sampleProjOffset | sampleProjGrad | sampleDref
  | sampleDrefBias | sampleDrefLod | sampleDrefOffset | sampleProjDref | sampleProjDrefLod | fetch
  | fetchOffset | gather | gatherOffset | gatherOffsets | gatherDref | gatherDrefOffset
deriving DecidableEq, Repr

instance : Named TextureAccess where
  all := (List.range 31).map TextureAccess.ofNat
  name a := [ "SizeLod", "Size", "QueryLod", "QueryLevels", "Samples", "Sample", "SampleBias", "SampleLod",
    "SampleOffset", "SampleBiasOffset", "SampleLodOffset", "SampleGrad", "SampleGradOffset",
    "SampleProj", "SampleProjBias", "SampleProjLod", "SampleProjOffset", "SampleProjGrad",
    "SampleDref", "SampleDrefBias", "SampleDrefLod", "SampleDrefOffset", "SampleProjDref",
    "SampleProjDrefLod", "Fetch", "FetchOffset", "Gather", "GatherOffset", "GatherOffsets",
    "GatherDref", "GatherDrefOffset"].getD a.ctorIdx ""

namespace TextureAccess

def isQuery : TextureAccess → Bool
  | .sizeLod | .size | .queryLod | .queryLevels | .samples => true
  | _ => false

/-- Whether the last argument is a texel offset, or an array of four. -/
def hasOffset : TextureAccess → Bool
  | .sampleOffset | .sampleBiasOffset | .sampleLodOffset | .sampleGradOffset | .sampleProjOffset
  | .sampleDrefOffset | .fetchOffset | .gatherOffset | .gatherOffsets | .gatherDrefOffset => true
  | _ => false

end TextureAccess

end Shader
