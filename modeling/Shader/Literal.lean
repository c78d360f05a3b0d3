import Shader.Ieee
import Shader.Ty.Basic

/-!
# Literals

Scalar constants. Floating-point numbers are bit patterns, so that zeros of either sign and numbers
that are none are told apart.
-/

namespace Shader

inductive Literal where
  | bool (b : Bool)
  | int (n : Int32)
  | uint (n : UInt32)
  | float (bits : UInt32)
  | double (bits : UInt64)
deriving DecidableEq

namespace Literal

def scalar : Literal → Scalar
  | .bool _ => .bool
  | .int _ => .int
  | .uint _ => .uint
  | .float _ => .float
  | .double _ => .double

def one? : Scalar → Option Literal
  | .bool => none
  | .int => some (.int 1)
  | .uint => some (.uint 1)
  | .float => some (.float 0x3f800000)
  | .double => some (.double 0x3ff0000000000000)

def zero : Scalar → Literal
  | .bool => .bool false
  | .int => .int 0
  | .uint => .uint 0
  | .float => .float 0
  | .double => .double 0

def words : Literal → List Word
  | .bool b => [Word.ofBool b]
  | .int n => [n.toUInt32]
  | .uint n => [n]
  | .float bits => [bits]
  | .double bits => [bits.toUInt32, (bits >>> 32).toUInt32]

def integerOf (f : Ieee.Format) (bits : Nat) : Int :=
  Ieee.truncate (-Ieee.pow2 63) (Ieee.pow2 63 - 1) (Ieee.decode f bits)

def toInteger : Literal → Int
  | .bool b => if b then 1 else 0
  | .int n => n.toInt
  | .uint n => n.toNat
  | .float bits => integerOf Ieee.single bits.toNat
  | .double bits => integerOf Ieee.double bits.toNat

def toDouble : Literal → Nat
  | .bool b => Ieee.ofInt Ieee.double (if b then 1 else 0)
  | .int n => Ieee.ofInt Ieee.double n.toInt
  | .uint n => Ieee.ofInt Ieee.double n.toNat
  | .float bits => Ieee.convert Ieee.single Ieee.double bits.toNat
  | .double bits => bits.toNat

/-- The literal as one of another scalar type: integers wrap around, floating-point numbers are
rounded to the nearest, and all numbers but zero are true. -/
def convert (value : Literal) : Scalar → Literal
  | .bool => .bool !(Ieee.isZero Ieee.double value.toDouble)
  | .int => .int (Int32.ofInt value.toInteger)
  | .uint => .uint (Int32.ofInt value.toInteger).toUInt32
  | .float => .float (Ieee.convert Ieee.double Ieee.single value.toDouble).toUInt32
  | .double => .double value.toDouble.toUInt64

end Literal

end Shader
