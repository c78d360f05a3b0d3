import Mathlib.Logic.Function.Basic
import Shader.Proofs.Machine
import Shader.Lowering.Expression

/-!
# Values of expressions

Expressions on integers, truth values and vectors of them, in local variables. All operands are
evaluated, from left to right: also the second one of a logical operator, and both branches of a choice.
-/

namespace Shader

/-! ## Operators on components -/

/-- The literal at run time. -/
def Literal.atom : Literal → Atom
  | .bool b => .bool b
  | .int n => .word n.toUInt32
  | .uint n => .word n
  | .float bits => .word bits
  | .double bits => .long bits

/-- The value of a unary operator on one component. -/
def UnOp.onLiteral? : UnOp → Literal → Option Literal
  | .plus, l => some l
  | .neg, .int n => some (.int (-n))
  | .neg, .uint n => some (.uint (-n))
  | .bitNot, .int n => some (.int (~~~n))
  | .bitNot, .uint n => some (.uint (~~~n))
  | .not, .bool b => some (.bool !b)
  | _, _ => none

namespace BinOp

/-- The value of a binary operator on signed integers. -/
def onInt (device : Device) : BinOp → Int32 → Int32 → Option Literal
  | .add, a, b => some (.int (a + b))
  | .sub, a, b => some (.int (a - b))
  | .mul, a, b => some (.int (a * b))
  | .div, a, b => some (.int (
    if b = 0 ∨ a = Int32.minValue ∧ b = -1 then (device .SDiv a.toUInt32 b.toUInt32).toInt32
    else a / b))
  | .mod, a, b => some (.int (
    if b = 0 ∨ a = Int32.minValue ∧ b = -1 then (device .SMod a.toUInt32 b.toUInt32).toInt32
    else Int32.ofInt (a.toInt.fmod b.toInt)))
  | .bitAnd, a, b => some (.int (a &&& b))
  | .bitOr, a, b => some (.int (a ||| b))
  | .bitXor, a, b => some (.int (a ^^^ b))
  | .eq, a, b => some (.bool (a = b))
  | .ne, a, b => some (.bool (a ≠ b))
  | .lt, a, b => some (.bool (a < b))
  | .le, a, b => some (.bool (a ≤ b))
  | .gt, a, b => some (.bool (b < a))
  | .ge, a, b => some (.bool (b ≤ a))
  | _, _, _ => none

/-- The value of a binary operator on unsigned integers. -/
def onUInt (device : Device) : BinOp → UInt32 → UInt32 → Option Literal
  | .add, a, b => some (.uint (a + b))
  | .sub, a, b => some (.uint (a - b))
  | .mul, a, b => some (.uint (a * b))
  | .div, a, b => some (.uint (if b = 0 then device .UDiv a b else a / b))
  | .mod, a, b => some (.uint (if b = 0 then device .UMod a b else a % b))
  | .bitAnd, a, b => some (.uint (a &&& b))
  | .bitOr, a, b => some (.uint (a ||| b))
  | .bitXor, a, b => some (.uint (a ^^^ b))
  | .eq, a, b => some (.bool (a = b))
  | .ne, a, b => some (.bool (a ≠ b))
  | .lt, a, b => some (.bool (a < b))
  | .le, a, b => some (.bool (a ≤ b))
  | .gt, a, b => some (.bool (b < a))
  | .ge, a, b => some (.bool (b ≤ a))
  | _, _, _ => none

/-- The value of a binary operator on truth values. -/
def onBool : BinOp → Bool → Bool → Option Literal
  | .bitAnd, a, b | .logAnd, a, b => some (.bool (a && b))
  | .bitOr, a, b | .logOr, a, b => some (.bool (a || b))
  | .bitXor, a, b | .ne, a, b => some (.bool (a != b))
  | .eq, a, b => some (.bool (a == b))
  | _, _, _ => none

/-- The value of a shift, by whatever integer. -/
def shift (device : Device) : BinOp → Literal → Word → Option Literal
  | .shl, .int a, b => some (.int (
    if b < 32 then (a.toUInt32 <<< b).toInt32 else (device .ShiftLeftLogical a.toUInt32 b).toInt32))
  | .shl, .uint a, b => some (.uint (if b < 32 then a <<< b else device .ShiftLeftLogical a b))
  | .shr, .int a, b => some (.int (
    if b < 32 then a >>> b.toInt32 else (device .ShiftRightArithmetic a.toUInt32 b).toInt32))
  | .shr, .uint a, b => some (.uint (if b < 32 then a >>> b else device .ShiftRightLogical a b))
  | _, _, _ => none

def isShift (op : BinOp) : Bool := op = .shl || op = .shr

/-- The value of a binary operator on two components. -/
def onLiterals? (device : Device) (op : BinOp) (l r : Literal) : Option Literal :=
  if op.isShift then
    match r with
    | .int b => op.shift device l b.toUInt32
    | .uint b => op.shift device l b
    | _ => none
  else
    match l, r with
    | .int a, .int b => op.onInt device a b
    | .uint a, .uint b => op.onUInt device a b
    | .bool a, .bool b => op.onBool a b
    | _, _ => none

end BinOp

/-- The component, converted to a scalar type. -/
def Literal.cast? : Scalar → Literal → Option Literal
  | .bool, .bool b => some (.bool b)
  | .bool, .int n => some (.bool (n ≠ 0))
  | .bool, .uint n => some (.bool (n ≠ 0))
  | .int, .bool b => some (.int (if b then 1 else 0))
  | .int, .int n => some (.int n)
  | .int, .uint n => some (.int n.toInt32)
  | .uint, .bool b => some (.uint (if b then 1 else 0))
  | .uint, .int n => some (.uint n.toUInt32)
  | .uint, .uint n => some (.uint n)
  | _, _ => none

/-- The components of a value. -/
abbrev Components := List Literal

/-- Repeats a single component to match the other operand. -/
def spread (l r : Components) : Components × Components :=
  match l, r with
  | [a], _ => (List.replicate r.length a, r)
  | _, [b] => (l, List.replicate l.length b)
  | _, _ => (l, r)

def Literal.isTrue : Literal → Bool
  | .bool b => b
  | _ => false

/-- The result from those for components. A comparison of vectors that gives one Boolean is of all of
them. -/
def BinOp.joined (op : BinOp) (ty : Ty) (each : Components) : Components :=
  if op.isComparison && 1 < each.length && ty.isScalar then
    [.bool (if op = .ne then each.any Literal.isTrue else each.all Literal.isTrue)]
  else each

/-- The value of a binary operator, component by component. -/
def BinOp.combine? (device : Device) (op : BinOp) (ty : Ty) (l r : Components) :
    Option Components :=
  (zipAll (op.onLiterals? device) (spread l r).1 (spread l r).2).map (op.joined ty)

/-- One of two values by one condition, or component by component. -/
def select? : Components → Components → Components → Option Components
  | [c], onTrue, onFalse => some (if c.isTrue then onTrue else onFalse)
  | conditions, onTrue, onFalse => do
    zipAll (fun (c : Literal) (p : Literal × Literal) => some (if c.isTrue then p.1 else p.2))
      conditions (← zipAll (fun t f => some (t, f)) onTrue onFalse)

/-- The values of local variables. -/
abbrev Store := String → Components

/-- Takes lanes. -/
def Swizzle.read? (s : Swizzle) (whole : Components) : Option Components := s.lanes.mapM fun lane => whole[lane.val]?

/-- Sets lanes, one after the other. -/
def Swizzle.write (s : Swizzle) (whole part : Components) : Components :=
  (s.lanes.zip part).foldl (fun whole p => whole.set p.1.val p.2) whole

/-! ## Expressions -/

/-- Assigns to a variable or to lanes of it. -/
def Expr.assign? : Expr → Components → Store → Option Store
  | ⟨_, .ident v⟩, value, st => some (Function.update st v.name value)
  | ⟨_, .swizzle ⟨_, .ident v⟩ s⟩, value, st => some (Function.update st v.name (s.write (st v.name) value))
  | _, _, _ => none

/-- The value of an expression, and the variables after it. -/
def Expr.evaluate? (device : Device) : Expr → Store → Option (Components × Store)
  | ⟨_, .literal l⟩, st => some ([l], st)
  | ⟨_, .ident v⟩, st => some (st v.name, st)
  | ⟨_, .swizzle outer s⟩, st => do
    let (whole, st) ← outer.evaluate? device st
    return (← s.read? whole, st)
  | ⟨_, .assign none lhs rhs⟩, st => do
    let (value, st) ← rhs.evaluate? device st
    return (value, ← lhs.assign? value st)
  | ⟨_, .assign (some op) lhs rhs⟩, st => do
    let (old, st) ← lhs.evaluate? device st
    let (r, st) ← rhs.evaluate? device st
    let value ← op.combine? device lhs.ty old r
    return (value, ← lhs.assign? value st)
  | ⟨_, .init v initial⟩, st => do
    let (value, st) ← initial.evaluate? device st
    return (value, Function.update st v.name value)
  | ⟨_, .step op target⟩, st => do
    let (old, st) ← target.evaluate? device st
    let one ← (target.ty.scalar?.bind Literal.one?)
    let new ← (if op.isIncrement then BinOp.add else .sub).combine? device target.ty old [one]
    return (if op.yieldsNew then new else old, ← target.assign? new st)
  | ⟨_, .unary op x⟩, st => do
    let (value, st) ← x.evaluate? device st
    return (← value.mapM op.onLiteral?, st)
  | ⟨ty, .binary op l r⟩, st => do
    let (l, st) ← l.evaluate? device st
    let (r, st) ← r.evaluate? device st
    return (← op.combine? device ty l r, st)
  | ⟨ty, .cast x⟩, st => do
    let (value, st) ← x.evaluate? device st
    return (← value.mapM (Literal.cast? (← ty.scalar?)), st)
  | ⟨_, .select c t f⟩, st => do
    let (condition, st) ← c.evaluate? device st
    let (onTrue, st) ← t.evaluate? device st
    let (onFalse, st) ← f.evaluate? device st
    return (← select? condition onTrue onFalse, st)
  | _, _ => none

end Shader
