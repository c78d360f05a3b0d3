import Shader.Lowering.Arithmetic
import Shader.Lowering.Call
import Shader.Standard.GlslStd450

/-!
# Intrinsic functions

Most are one instruction, of the core or of the extended set `GLSL.std.450`, chosen by the scalar
type of the first argument. Some write a second result to an argument, and the atomic ones work on
the storage that their first argument names.
-/

namespace Shader

inductive IntrinsicForm where
  /-- A core instruction on the values of the arguments. -/
  | core (ops : PerFamily Op)
  /-- An extended instruction on the values of the arguments. -/
  | extended (ops : PerFamily GlslOp)
  /-- An extended instruction with a pointer to its second argument, which it writes to. -/
  | extendedOutput (op : GlslOp)
  /-- An atomic instruction on what the first argument names. -/
  | atomic (ops : PerFamily Op)
  /-- An instruction with two results, of which the third argument takes the second. -/
  | carry (op : Op)
  /-- An instruction with two results: the third argument takes the high half, which is the second
  result, and the fourth argument the low half. -/
  | wideProduct (op : Op)

def Intrinsic.form : Intrinsic → IntrinsicForm
  | .radians => .extended (.ofFloat .Radians)
  | .degrees => .extended (.ofFloat .Degrees)
  | .sin => .extended (.ofFloat .Sin)
  | .cos => .extended (.ofFloat .Cos)
  | .tan => .extended (.ofFloat .Tan)
  | .asin => .extended (.ofFloat .Asin)
  | .acos => .extended (.ofFloat .Acos)
  | .atan => .extended (.ofFloat .Atan)
  | .atan2 => .extended (.ofFloat .Atan2)
  | .sinh => .extended (.ofFloat .Sinh)
  | .cosh => .extended (.ofFloat .Cosh)
  | .tanh => .extended (.ofFloat .Tanh)
  | .asinh => .extended (.ofFloat .Asinh)
  | .acosh => .extended (.ofFloat .Acosh)
  | .atanh => .extended (.ofFloat .Atanh)
  | .pow => .extended (.ofFloat .Pow)
  | .exp => .extended (.ofFloat .Exp)
  | .log => .extended (.ofFloat .Log)
  | .exp2 => .extended (.ofFloat .Exp2)
  | .log2 => .extended (.ofFloat .Log2)
  | .sqrt => .extended (.ofFloat .Sqrt)
  | .inverseSqrt => .extended (.ofFloat .InverseSqrt)
  | .abs => .extended { float := some .FAbs, sint := some .SAbs }
  | .sign => .extended { float := some .FSign, sint := some .SSign }
  | .floor => .extended (.ofFloat .Floor)
  | .trunc => .extended (.ofFloat .Trunc)
  | .round => .extended (.ofFloat .Round)
  | .roundEven => .extended (.ofFloat .RoundEven)
  | .ceil => .extended (.ofFloat .Ceil)
  | .fract => .extended (.ofFloat .Fract)
  | .mod => .core (.ofFloat .FMod)
  | .modf => .extendedOutput .Modf
  | .min => .extended { float := some .FMin, sint := some .SMin, uint := some .UMin }
  | .max => .extended { float := some .FMax, sint := some .SMax, uint := some .UMax }
  | .clamp => .extended { float := some .FClamp, sint := some .SClamp, uint := some .UClamp }
  | .mix => .extended (.ofFloat .FMix)
  | .step => .extended (.ofFloat .Step)
  | .smoothStep => .extended (.ofFloat .SmoothStep)
  | .fma => .extended (.ofFloat .Fma)
  | .frexp => .extendedOutput .Frexp
  | .ldexp => .extended (.ofFloat .Ldexp)
  | .isNan => .core (.ofFloat .IsNan)
  | .isInf => .core (.ofFloat .IsInf)
  | .floatBitsToInt => .core (.ofFloat .Bitcast)
  | .floatBitsToUint => .core (.ofFloat .Bitcast)
  | .intBitsToFloat => .core { sint := some .Bitcast }
  | .uintBitsToFloat => .core { uint := some .Bitcast }
  | .packSnorm4x8 => .extended (.ofFloat .PackSnorm4x8)
  | .packUnorm4x8 => .extended (.ofFloat .PackUnorm4x8)
  | .packSnorm2x16 => .extended (.ofFloat .PackSnorm2x16)
  | .packUnorm2x16 => .extended (.ofFloat .PackUnorm2x16)
  | .packHalf2x16 => .extended (.ofFloat .PackHalf2x16)
  | .packDouble2x32 => .extended { uint := some .PackDouble2x32 }
  | .unpackSnorm4x8 => .extended { uint := some .UnpackSnorm4x8 }
  | .unpackUnorm4x8 => .extended { uint := some .UnpackUnorm4x8 }
  | .unpackSnorm2x16 => .extended { uint := some .UnpackSnorm2x16 }
  | .unpackUnorm2x16 => .extended { uint := some .UnpackUnorm2x16 }
  | .unpackHalf2x16 => .extended { uint := some .UnpackHalf2x16 }
  | .unpackDouble2x32 => .extended (.ofFloat .UnpackDouble2x32)
  | .length => .extended (.ofFloat .Length)
  | .distance => .extended (.ofFloat .Distance)
  | .dot => .core (.ofFloat .Dot)
  | .cross => .extended (.ofFloat .Cross)
  | .normalize => .extended (.ofFloat .Normalize)
  | .faceForward => .extended (.ofFloat .FaceForward)
  | .reflect => .extended (.ofFloat .Reflect)
  | .refract => .extended (.ofFloat .Refract)
  | .outerProduct => .core (.ofFloat .OuterProduct)
  | .transpose => .core (.ofFloat .Transpose)
  | .determinant => .extended (.ofFloat .Determinant)
  | .inverse => .extended (.ofFloat .MatrixInverse)
  | .lessThan => .core {
      float := some .FOrdLessThan, sint := some .SLessThan, uint := some .ULessThan }
  | .lessThanEqual => .core {
      float := some .FOrdLessThanEqual, sint := some .SLessThanEqual, uint := some .ULessThanEqual }
  | .greaterThan => .core {
      float := some .FOrdGreaterThan, sint := some .SGreaterThan, uint := some .UGreaterThan }
  | .greaterThanEqual => .core {
      float := some .FOrdGreaterThanEqual, sint := some .SGreaterThanEqual
      uint := some .UGreaterThanEqual }
  | .equal => .core {
      float := some .FOrdEqual, sint := some .IEqual
      uint := some .IEqual, bool := some .LogicalEqual }
  | .notEqual => .core {
      float := some .FUnordNotEqual, sint := some .INotEqual
      uint := some .INotEqual, bool := some .LogicalNotEqual }
  | .any => .core { bool := some .Any }
  | .all => .core { bool := some .All }
  | .not => .core { bool := some .LogicalNot }
  | .uaddCarry => .carry .IAddCarry
  | .usubBorrow => .carry .ISubBorrow
  | .umulExtended => .wideProduct .UMulExtended
  | .imulExtended => .wideProduct .SMulExtended
  | .bitfieldExtract => .core { sint := some .BitFieldSExtract, uint := some .BitFieldUExtract }
  | .bitfieldInsert => .core (.ofInteger .BitFieldInsert)
  | .bitfieldReverse => .core (.ofInteger .BitReverse)
  | .bitCount => .core (.ofInteger .BitCount)
  | .findLsb => .extended (.ofInteger .FindILsb)
  | .findMsb => .extended { sint := some .FindSMsb, uint := some .FindUMsb }
  | .atomicAdd => .atomic (.ofInteger .AtomicIAdd)
  | .atomicMin => .atomic { sint := some .AtomicSMin, uint := some .AtomicUMin }
  | .atomicMax => .atomic { sint := some .AtomicSMax, uint := some .AtomicUMax }
  | .atomicAnd => .atomic (.ofInteger .AtomicAnd)
  | .atomicOr => .atomic (.ofInteger .AtomicOr)
  | .atomicXor => .atomic (.ofInteger .AtomicXor)
  | .atomicExchange => .atomic {
      float := some .AtomicExchange, sint := some .AtomicExchange, uint := some .AtomicExchange }
  | .atomicCompSwap => .atomic (.ofInteger .AtomicCompareExchange)
  | .dfdx => .core (.ofFloat .DPdx)
  | .dfdy => .core (.ofFloat .DPdy)
  | .fwidth => .core (.ofFloat .Fwidth)
  | .dfdxCoarse => .core (.ofFloat .DPdxCoarse)
  | .dfdyCoarse => .core (.ofFloat .DPdyCoarse)
  | .fwidthCoarse => .core (.ofFloat .FwidthCoarse)
  | .dfdxFine => .core (.ofFloat .DPdxFine)
  | .dfdyFine => .core (.ofFloat .DPdyFine)
  | .fwidthFine => .core (.ofFloat .FwidthFine)

def Intrinsic.arity? (f : Intrinsic) : Option Nat :=
  match f.form with
  | .core _ | .extended _ => none
  | .extendedOutput _ => some 2
  | .atomic _ => some (if f = .atomicCompSwap then 3 else 2)
  | .carry _ => some 3
  | .wideProduct _ => some 4

def Op.controlsDerivative : Op → Bool
  | .DPdxCoarse | .DPdyCoarse | .FwidthCoarse | .DPdxFine | .DPdyFine | .FwidthFine => true
  | _ => false

/-- How an atomic instruction orders memory accesses around it. -/
structure MemorySemantics where
  equal : Word
  /-- The order if a comparison fails, which cannot release. -/
  unequal : Word

/-- For buffers: acquire and release; acquire if a comparison fails. -/
def MemorySemantics.buffer : MemorySemantics := ⟨8, 2⟩

def MemorySemantics.image : MemorySemantics := ⟨2048, 2048⟩

def deviceScope : Word := 1

namespace Lower

def emitExtended (op : GlslOp) (ty : Ty) (operands : List Id) : Lower Id := do
  let set ← onModule Module.importGlslStd450
  emit .ExtInst ty (set :: op.number :: operands)

def emitPair (op : Op) (ty : Ty) (x y : Id) : Lower (Id × Id) := do
  let field ← onModule (Module.declareType ty)
  let tuple ← onModule (Module.declareTuple [field, field])
  let pair ← emitAs op tuple [x, y]
  let first ← emitAs .CompositeExtract field [pair, 0]
  let second ← emitAs .CompositeExtract field [pair, 1]
  return (first, second)

def assignTo (parts : Parts) (target : Expr) (value : Id) : Lower Unit := do
  writePlace (← placeToAssign parts target) value

/-- An atomic instruction on a pointer to a scalar. Compare-and-exchange takes the value to compare
with first, and its instruction takes it last. -/
def atomic (f : Intrinsic) (ops : PerFamily Op) (semantics : MemorySemantics) (s : Option Scalar)
    (pointer : Id) (values : List Id) (ty : Ty) : Lower Id := do
  match ops.forScalar? s with
  | none => Build.refuse (.unsupportedIntrinsic f)
  | some op =>
    let scope ← onModule (Module.declareLiteral (.uint deviceScope))
    let equal ← onModule (Module.declareLiteral (.uint semantics.equal))
    match op, values with
    | .AtomicCompareExchange, [compare, data] =>
      let unequal ← onModule (Module.declareLiteral (.uint semantics.unequal))
      emit op ty [pointer, scope, equal, unequal, data, compare]
    | .AtomicCompareExchange, _ => Build.refuse (.argCount (.intrinsic f) 3 (values.length + 1))
    | _, _ => emit op ty ([pointer, scope, equal] ++ values)

def mixSelect (parts : Parts) (ty : Ty) (x y choice : Expr) : Lower Id := do
  let x ← parts.value x
  let y ← parts.value y
  let choice ← parts.value choice
  emit .Select ty [choice, y, x]

def intrinsicOfForm (parts : Parts) (f : Intrinsic) (ty : Ty) (first : Expr) (rest : List Expr) :
    Lower Id := do
  match f.form, rest with
  | .core ops, _ =>
    match ops.forScalar? first.ty.scalar? with
    | none => Build.refuse (.unsupportedIntrinsic f)
    | some op =>
      if op.controlsDerivative then onModule (Module.addCapability .DerivativeControl)
      emit op ty (← (first :: rest).mapM parts.value)
  | .extended ops, _ =>
    match ops.forScalar? first.ty.scalar? with
    | none => Build.refuse (.unsupportedIntrinsic f)
    | some op => emitExtended op ty (← (first :: rest).mapM parts.value)
  | .extendedOutput op, [output] =>
    let x ← parts.value first
    let (pointer, back) ← outputArg parts output false
    let id ← emitExtended op ty [x, pointer]
    back.forM copyOut
    return id
  | .atomic ops, _ =>
    let pointer ← parts.pointer first
    let values ← rest.mapM parts.value
    atomic f ops .buffer first.ty.scalar? pointer values ty
  | .carry op, [second, output] =>
    let x ← parts.value first
    let y ← parts.value second
    let (result, carry) ← emitPair op ty x y
    assignTo parts output carry
    return result
  | .wideProduct op, [second, high, low] =>
    let x ← parts.value first
    let y ← parts.value second
    let (lowHalf, highHalf) ← emitPair op first.ty x y
    assignTo parts high highHalf
    assignTo parts low lowHalf
    return noResult
  | _, _ => Build.refuse (.argCount (.intrinsic f) (f.arity?.getD 1) (rest.length + 1))

def intrinsic (parts : Parts) (f : Intrinsic) (args : List Expr) (ty : Ty) : Lower Id := do
  let expected := f.arity?.getD args.length
  if args.length ≠ expected then Build.refuse (.argCount (.intrinsic f) expected args.length)
  match f, args with
  | _, [] => Build.refuse (.argCount (.intrinsic f) 1 0)
  | .mix, [x, y, choice] =>
    if choice.ty.scalar? = some .bool then mixSelect parts ty x y choice
    else intrinsicOfForm parts .mix ty x [y, choice]
  | _, first :: rest => intrinsicOfForm parts f ty first rest

end Lower

end Shader
