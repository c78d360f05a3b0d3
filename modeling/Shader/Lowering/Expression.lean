import Shader.Lowering.Composite
import Shader.Lowering.Texel

/-!
# Expressions

Every kind of expression, given the lowering of its parts, and the whole by recursion on the height of
the expression. The state counts the expressions that lowering is in.
-/

namespace Shader

/-- Whether a type is one that constants are computed in at specialization. -/
def Ty.isFoldable : Ty → Bool
  | .scalar s => !s.isFloat
  | _ => false

/-- Whether an operation on the operands is computed at specialization. -/
def Expr.folds (e : Expr) (operands : List Expr) : Bool :=
  e.isSpecialization && e.ty.isFoldable && operands.all (·.ty.isFoldable)

namespace Lower

/-! ## Parts of places and of values -/

/-- What a place stands for: a pointer, or a value of type `ty` if several lanes are meant. -/
def placeEntity (ty : Ty) (p : Place) : Lower Entity := do
  match p.swizzle with
  | none => return p.entity
  | some _ => value ty (← readPlace p)

def chain (parts : Parts) (e : Expr) : Lower Entity := do
  let p ← place parts e
  placeEntity e.ty p

def swizzleValue (parts : Parts) (ty : Ty) (outer : Expr) (s : Swizzle) : Lower Id := do
  let vector ← parts.value outer
  match outer.ty, s.components with
  | .scalar _, [_] => return vector
  | .scalar scalar, lanes => splat scalar vector lanes.length.toUInt32 outer.isConstant
  | _, [lane] => emit .CompositeExtract ty [vector, lane]
  | _, lanes => emit .VectorShuffle ty ([vector, vector] ++ lanes)

/-- An element of a value. What is neither a vector nor indexed by a literal goes through a copy. -/
def indexValue (parts : Parts) (ty : Ty) (array index : Expr) : Lower Id := do
  let whole ← parts.value array
  match index.constantIndex? with
  | some i => emit .CompositeExtract ty [whole, i]
  | none =>
    let i ← parts.value index
    match array.ty with
    | .vector .. => emit .VectorExtractDynamic ty [whole, i]
    | _ =>
      let copy ← spill array.ty whole
      let element ← onModule (Module.declareType ty)
      let pointerType ← onModule (Module.declarePointer element .Function)
      let pointer ← onModule Module.takeIntermediate
      push (.value .AccessChain pointerType pointer [copy, i])
      let id ← load ⟨pointer, some .Function, element⟩
      onModule (Module.releaseIntermediate pointer)
      return id

/-! ## Operators -/

def operand (parts : Parts) (e : Expr) : Lower Operand := do
  let id ← parts.value e
  return { ty := e.ty, id, constant := e.isConstant }

/-- An assignment, the result of which is also the storage that was written, if it is wanted. -/
def assign (parts : Parts) (ty : Ty) (op : Option BinOp) (lhs rhs : Expr) (demand : Demand) :
    Lower Entity := do
  let p ← placeToAssign parts lhs
  let id ← match op with
    | none => parts.value rhs
    | some op => do
      let current ← readPlace p
      let r ← operand parts rhs
      binary op { ty := lhs.ty, id := current } r lhs.ty false
  writePlace p id
  match p.swizzle, demand with
  | none, .pointer => return p.entity
  | _, _ => value ty id

def init (parts : Parts) (e : Expr) (v : Variable) (initial : Expr) (demand : Demand) :
    Lower Entity := do
  let entity ← resolve v
  if !entity.isPointer then Build.refuse (.notAssignable e.kind)
  let id ← parts.value initial
  store entity.id id
  match demand with
  | .pointer => return entity
  | .value => value e.ty id

def step (parts : Parts) (op : StepOp) (target : Expr) : Lower Id := do
  let p ← placeToAssign parts target
  let old ← readPlace p
  match target.ty.scalar?.bind Literal.one?, target.ty.width? with
  | some one, some size =>
    let literal ← onModule (Module.declareLiteral one)
    let one ←
      if 1 < size then splat one.scalar literal size true
      else pure literal
    let new ← binary (if op.isIncrement then .add else .sub) { ty := target.ty, id := old }
      { ty := target.ty, id := one, constant := true } target.ty false
    writePlace p new
    return if op.yieldsNew then new else old
  | _, _ => Build.refuse (.typeMismatch .numeric target.ty)

/-- A choice between two values. Choosing between vectors by one Boolean needs version 1.4; before
it the Boolean is replicated. -/
def choose (ty : Ty) (c : Operand) (onTrue onFalse : Id) (fold : Bool) : Lower Id := do
  let size := ty.width?.getD 1
  let version := (← get).module.config.version
  let condition ←
    if c.ty = .scalar .bool && 2 ≤ size && !version.atLeast ⟨1, 4⟩ then splat .bool c.id size c.constant
    else pure c.id
  emitOrDeclare fold .Select ty [condition, onTrue, onFalse]

def select (parts : Parts) (e c t f : Expr) : Lower Id := do
  let condition ← operand parts c
  let onTrue ← parts.value t
  let onFalse ← parts.value f
  choose e.ty condition onTrue onFalse (e.folds [c, t, f])

/-! ## Whole expressions -/

def node (parts : Parts) (e : Expr) (demand : Demand) : Lower Entity := do
  match e.node with
  | .literal l => value e.ty (← onModule (Module.declareLiteral l))
  | .ident v => if v.isMember then chain parts e else resolve v
  | .member outer index =>
    if e.isChain then chain parts e
    else
      let whole ← parts.value outer
      value e.ty (← emit .CompositeExtract e.ty [whole, index])
  | .index array index =>
    if e.isChain then chain parts e
    else value e.ty (← indexValue parts e.ty array index)
  | .swizzle outer s =>
    if e.isChain then chain parts e
    else value e.ty (← swizzleValue parts e.ty outer s)
  | .assign op lhs rhs => assign parts e.ty op lhs rhs demand
  | .init v initial => init parts e v initial demand
  | .unary op x => value e.ty (← unary op (← operand parts x) (e.folds [x]))
  | .binary op l r =>
    let lhs ← operand parts l
    let rhs ← operand parts r
    value e.ty (← binary op lhs rhs e.ty (e.folds [l, r]))
  | .cast x => value e.ty (← cast (← operand parts x) e.ty)
  | .step op x => value e.ty (← step parts op x)
  | .construct args => value e.ty (← construct parts e.ty args e.isConstant)
  | .call func args => value e.ty (← call parts func args)
  | .intrinsic f args => value e.ty (← intrinsic parts f args e.ty)
  | .image access args => value e.ty (← imageAccess parts access args e.ty)
  | .texture access args => value e.ty (← textureAccess parts access args e.ty)
  | .select c t f => value e.ty (← select parts e c t f)

def pointerOf (e : Expr) (entity : Entity) : Lower Id := do
  if !entity.isPointer then Build.refuse (.notAssignable e.kind)
  return entity.id

def partsOf (entity : Expr → Demand → Lower Entity) : Parts where
  value e := do load (← entity e .value)
  pointer e := do pointerOf e (← entity e .pointer)

/-- Goes into an expression, unless lowering is in as many as it may be. Leaving it is counted as well,
whether something was refused there or not. -/
def nested {α : Type} (x : Lower α) : Lower α := fun s =>
  let limit := s.module.config.nestingLimit
  if limit ≤ s.depth then (.error (.refused (.tooDeep limit)), s)
  else
    let (result, t) := x { s with depth := s.depth + 1 }
    (result, { t with depth := t.depth - 1 })

/-- The lowering of an expression that is no higher than `height`. -/
def lowerWithin (height : Nat) (e : Expr) (demand : Demand) : Lower Entity :=
  match height with
  | 0 => do Build.refuse (.tooDeep (← get).module.config.nestingLimit)
  | rest + 1 => nested (node (partsOf (lowerWithin rest)) e demand)

def visit (e : Expr) : Demand → Lower Entity := lowerWithin e.height e

def lower (e : Expr) : Lower Id := (partsOf visit).value e

def lowerPointer (e : Expr) : Lower Id := (partsOf visit).pointer e

end Lower

end Shader
