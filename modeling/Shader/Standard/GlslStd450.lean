import Shader.Word

/-!
# Extended instructions

The instructions of the set `GLSL.std.450` that built-in functions become.
-/

namespace Shader

inductive GlslOp where
  | Round | RoundEven | Trunc | FAbs | SAbs | FSign | SSign | Floor | Ceil | Fract | Radians
  | Degrees | Sin | Cos | Tan | Asin | Acos | Atan | Sinh | Cosh | Tanh | Asinh | Acosh | Atanh
  | Atan2 | Pow | Exp | Log | Exp2 | Log2 | Sqrt | InverseSqrt | Determinant | MatrixInverse | Modf
  | FMin | UMin | SMin | FMax | UMax | SMax | FClamp | UClamp | SClamp | FMix | Step | SmoothStep
  | Fma | Frexp | Ldexp | PackSnorm4x8 | PackUnorm4x8 | PackSnorm2x16 | PackUnorm2x16
  | PackHalf2x16 | PackDouble2x32 | UnpackSnorm2x16 | UnpackUnorm2x16 | UnpackHalf2x16
  | UnpackSnorm4x8 | UnpackUnorm4x8 | UnpackDouble2x32 | Length | Distance | Cross | Normalize
  | FaceForward | Reflect | Refract | FindILsb | FindSMsb | FindUMsb
deriving DecidableEq

def GlslOp.number (op : GlslOp) : Word :=
  [1, 2, 3, 4, 5, 6, 7, 8, 9, 10, 11, 12, 13, 14, 15, 16, 17, 18, 19, 20, 21, 22, 23, 24, 25, 26,
   27, 28, 29, 30, 31, 32, 33, 34, 35, 37, 38, 39, 40, 41, 42, 43, 44, 45, 46, 48, 49, 50, 51,
   53, 54, 55, 56, 57, 58, 59, 60, 61, 62, 63, 64, 65, 66, 67, 68, 69, 70, 71, 72, 73, 74, 75].getD op.ctorIdx 0

end Shader
