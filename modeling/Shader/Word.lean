/-!
# Words

A word is an unsigned 32-bit number: identifiers, sizes, offsets and operands are words. A sum or a
product that leaves the range is refused, with the operation at fault.
-/

namespace Shader

abbrev Word := UInt32

/-- The number that names a value, a type, a label or a function in a module. -/
abbrev Id := Word

inductive Overflow where
  | add
  | mul
deriving DecidableEq, Repr

def Overflow.message : Overflow → String
  | .add => "attempt to add with overflow"
  | .mul => "attempt to multiply with overflow"

abbrev Checked := Except Overflow

namespace Word

def add (a b : Word) : Checked Word :=
  if a.toNat + b.toNat < UInt32.size then .ok (a + b) else .error .add

def mul (a b : Word) : Checked Word :=
  if a.toNat * b.toNat < UInt32.size then .ok (a * b) else .error .mul

def divCeil (x y : Word) : Word :=
  if x % y = 0 then x / y else x / y + 1

/-- The least multiple of `align` that is not below `x`; alignments 0 and 1 leave `x` alone. -/
def roundUp (x align : Word) : Checked Word :=
  if align ≤ 1 then .ok x else mul (divCeil x align) align

def ofBool (b : Bool) : Word := if b then 1 else 0

end Word

end Shader
