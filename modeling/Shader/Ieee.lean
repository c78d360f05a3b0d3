/-!
# Binary floating-point numbers

Numbers of the IEEE formats as bit patterns: what a pattern stands for, the pattern nearest to a
number, and the conversions between formats and to integers.

* `Ieee.decode`, `Ieee.encode`: patterns to values and back, rounding to nearest, ties to even
-/

namespace Shader.Ieee

def pow2 (n : Nat) : Nat := Nat.pow 2 n

/-- A format by the widths of its fraction and of its exponent. -/
structure Format where
  fraction : Nat
  exponent : Nat
deriving DecidableEq, Repr

def single : Format := ⟨23, 8⟩

def double : Format := ⟨52, 11⟩

namespace Format

/-- The exponent field of infinities and of patterns that are no number. -/
def special (f : Format) : Nat := pow2 f.exponent - 1

/-- The weight of the fraction's lowest bit in the smallest numbers, as a power of two. -/
def lowest (f : Format) : Int := 2 - pow2 (f.exponent - 1) - f.fraction

end Format

inductive Value where
  /-- No number; the payload is its fraction, in the width of double precision. -/
  | nan (negative : Bool) (payload : Nat)
  | infinity (negative : Bool)
  /-- `mantissa * 2 ^ exponent`, with a sign even if it is zero. -/
  | finite (negative : Bool) (mantissa : Nat) (exponent : Int)
deriving DecidableEq, Repr

def decode (f : Format) (bits : Nat) : Value :=
  let fraction := bits % pow2 f.fraction
  let exponent := bits / pow2 f.fraction % pow2 f.exponent
  let negative := bits / pow2 (f.fraction + f.exponent) % 2 = 1
  if exponent = f.special then
    if fraction = 0 then .infinity negative else .nan negative (fraction * pow2 (52 - f.fraction))
  else if exponent = 0 then .finite negative fraction f.lowest
  else .finite negative (pow2 f.fraction + fraction) (f.lowest + (exponent - 1 : Nat))

/-- `m / 2 ^ k`, rounded to the nearest integer, a half to the even one. -/
def roundShift (m k : Nat) : Nat :=
  let q := m / pow2 k
  let r := m % pow2 k
  if 2 * r > pow2 k ∨ (2 * r = pow2 k ∧ q % 2 = 1) then q + 1 else q

/-- The pattern without its sign of the number nearest to `m * 2 ^ e`. A number that rounding takes
past the largest gives the pattern of infinity. -/
def magnitude (f : Format) (m : Nat) (e : Int) : Nat :=
  if m = 0 then 0
  else
    let steps := (max (e + Nat.log2 m - f.fraction) f.lowest - f.lowest).toNat
    let unit := f.lowest + steps
    let rounded := if unit ≤ e then m * pow2 (e - unit).toNat else roundShift m (unit - e).toNat
    min (steps * pow2 f.fraction + rounded) (f.special * pow2 f.fraction)

def encode (f : Format) (v : Value) : Nat :=
  let sign (negative : Bool) := if negative then pow2 (f.fraction + f.exponent) else 0
  match v with
  | .nan negative payload =>
    let kept := payload / pow2 (52 - f.fraction) % pow2 (f.fraction - 1)
    sign negative + f.special * pow2 f.fraction + pow2 (f.fraction - 1) + kept
  | .infinity negative => sign negative + f.special * pow2 f.fraction
  | .finite negative m e => sign negative + magnitude f m e

/-- The pattern in format `g` of the number nearest to the one with pattern `bits` in format `f`. A
pattern that is no number stays none and becomes a quiet one. -/
def convert (f g : Format) (bits : Nat) : Nat := encode g (decode f bits)

def isZero (f : Format) (bits : Nat) : Bool := bits % pow2 (f.fraction + f.exponent) = 0

def ofInt (f : Format) (n : Int) : Nat := encode f (.finite (n < 0) n.natAbs 0)

/-- The integer part of a number, moved to the nearest end of the range if it is outside. What is no
number gives zero. -/
def truncate (low high : Int) : Value → Int
  | .nan _ _ => 0
  | .infinity negative => if negative then low else high
  | .finite negative m e =>
    let n : Nat := if 0 ≤ e then m * pow2 e.toNat else m / pow2 (-e).toNat
    max low (min high (if negative then -n else n))

end Shader.Ieee
