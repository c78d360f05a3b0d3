import Shader.Module.FunctionBuilding
import Shader.Module.Interface

/-!
# Lowering: state and basic steps

Expressions become instructions in a block of a function. What they refer to is declared in the
module, or queued in the function, on the way. An expression stands for a value, or for a pointer
that is loaded from only where the value is needed.
-/

namespace Shader

structure Lowerer where
  module : Module
  func : FunctionScope
  block : Block
  /-- How many expressions stand around the one that is lowered. -/
  depth : Nat := 0

abbrev Lower := Action Lowerer

/-- What stands for the result of an expression that has none. -/
def noResult : Id := 0

/-- What is needed of an expression. An assignment has a value and a pointer to what it wrote. -/
inductive Demand where
  | value
  | pointer
deriving DecidableEq, Repr

/-- The lowering of the parts of an expression, to a value or to a pointer. -/
structure Parts where
  value : Expr → Lower Id
  pointer : Expr → Lower Id

namespace Lower

def onModule {α : Type} (x : Build α) : Lower α := fun s =>
  let (result, module) := x s.module
  (result, { s with module })

/-! ## Instructions -/

def push (inst : Inst) : Lower Unit := modify fun s => { s with block := s.block.push inst }

def emitAs (op : Op) (type : Id) (operands : List Word) : Lower Id := do
  let id ← onModule Module.freshId
  push (.value op type id operands)
  return id

def emit (op : Op) (ty : Ty) (operands : List Word) : Lower Id := do
  let type ← onModule (Module.declareType ty)
  emitAs op type operands

def emitEffect (op : Op) (operands : List Word) : Lower Unit := push (.effect op operands)

/-- An instruction with a result, or the same operation on constants, done at specialization. -/
def emitOrDeclare (fold : Bool) (op : Op) (ty : Ty) (operands : List Word) : Lower Id := do
  if fold then
    let type ← onModule (Module.declareType ty)
    onModule (Module.declareFolded type op operands)
  else emit op ty operands

def load (e : Entity) : Lower Id :=
  if e.isValue || e.id = noResult then return e.id else emitAs .Load e.type [e.id]

def store (pointer value : Id) : Lower Unit := emitEffect .Store [pointer, value]

def value (ty : Ty) (id : Id) : Lower Entity := do
  let type ← onModule (Module.declareType ty)
  return ⟨id, none, type⟩

def composite (ty : Ty) (constituents : List Id) (constant : Bool) : Lower Id := do
  if constant then onModule (Module.declareComposite constituents ty)
  else emit .CompositeConstruct ty constituents

def splat (s : Scalar) (id : Id) (n : Word) (constant : Bool) : Lower Id :=
  composite (.vector s n) (List.replicate n.toNat id) constant

/-! ## Variables -/

def resolve (v : Variable) : Lower Entity := do
  let locals := (← get).func.locals
  let d ← onModule (Module.declareByRole (some locals) v)
  modify fun s => { s with func := s.func.take v.outermost.name d }
  return d.entity

def temp (ty : Ty) : Lower Id := do
  let (id, inst) ← onModule (Module.declareTemporary ty)
  modify fun s => { s with func := s.func.queue inst }
  return id

def spill (ty : Ty) (value : Id) : Lower Id := do
  let id ← temp ty
  store id value
  return id

end Lower

end Shader
