import Shader.Lowering.Basic

/-!
# Operators and conversions

Which instruction an operator becomes depends on the family of scalars it works on. Scalars beside
vectors are replicated; matrices are worked on column by column, but for the products of linear
algebra, which have instructions of their own.
-/

namespace Shader

inductive Family where
  | float
  | sint
  | uint
  | bool
deriving DecidableEq, Repr

def Scalar.family : Scalar → Family
  | .float | .double => .float
  | .int => .sint
  | .uint => .uint
  | .bool => .bool

structure PerFamily (α : Type) where
  float : Option α := none
  sint : Option α := none
  uint : Option α := none
  bool : Option α := none

namespace PerFamily

variable {α : Type}

def get? (choice : PerFamily α) : Family → Option α
  | .float => choice.float
  | .sint => choice.sint
  | .uint => choice.uint
  | .bool => choice.bool

def forScalar? (choice : PerFamily α) (s : Option Scalar) : Option α := s.bind (choice.get? ·.family)

def ofFloat (a : α) : PerFamily α := { float := some a }

def ofInteger (a : α) : PerFamily α := { sint := some a, uint := some a }

end PerFamily

/-- The instruction of an operator. `LogAnd` and `LogOr` evaluate both operands. -/
def BinOp.opcodes : BinOp → PerFamily Op
  | .add => { float := some .FAdd, sint := some .IAdd, uint := some .IAdd }
  | .sub => { float := some .FSub, sint := some .ISub, uint := some .ISub }
  | .mul => { float := some .FMul, sint := some .IMul, uint := some .IMul }
  | .div => { float := some .FDiv, sint := some .SDiv, uint := some .UDiv }
  | .mod => { float := some .FMod, sint := some .SMod, uint := some .UMod }
  | .shl => .ofInteger .ShiftLeftLogical
  | .shr => { sint := some .ShiftRightArithmetic, uint := some .ShiftRightLogical }
  | .bitAnd => { sint := some .BitwiseAnd, uint := some .BitwiseAnd, bool := some .LogicalAnd }
  | .bitOr => { sint := some .BitwiseOr, uint := some .BitwiseOr, bool := some .LogicalOr }
  | .bitXor => { sint := some .BitwiseXor, uint := some .BitwiseXor, bool := some .LogicalNotEqual }
  | .logAnd => { bool := some .LogicalAnd }
  | .logOr => { bool := some .LogicalOr }
  | .eq => {
      float := some .FOrdEqual, sint := some .IEqual, uint := some .IEqual
      bool := some .LogicalEqual }
  | .ne => {
      float := some .FUnordNotEqual, sint := some .INotEqual, uint := some .INotEqual
      bool := some .LogicalNotEqual }
  | .lt => { float := some .FOrdLessThan, sint := some .SLessThan, uint := some .ULessThan }
  | .le => {
      float := some .FOrdLessThanEqual, sint := some .SLessThanEqual, uint := some .ULessThanEqual }
  | .gt => {
      float := some .FOrdGreaterThan, sint := some .SGreaterThan, uint := some .UGreaterThan }
  | .ge => {
      float := some .FOrdGreaterThanEqual, sint := some .SGreaterThanEqual
      uint := some .UGreaterThanEqual }

/-- The instruction of an operator; the one that changes nothing has none. -/
def UnOp.opcodes : UnOp → PerFamily Op
  | .neg => { float := some .FNegate, sint := some .SNegate, uint := some .SNegate }
  | .plus => {}
  | .not => { bool := some .LogicalNot }
  | .bitNot => .ofInteger .Not

structure Operand where
  ty : Ty
  id : Id
  /-- Whether it is a constant, so that replicating it gives one. -/
  constant : Bool := false

namespace Lower

/-- The opcode and the operands of a product of floating-point matrices, vectors and scalars of
different shape. -/
def product? (l r : Operand) : Option (Op × Id × Id) :=
  match l.ty, r.ty with
  | .matrix .., .matrix .. => some (.MatrixTimesMatrix, l.id, r.id)
  | .matrix .., .vector .. => some (.MatrixTimesVector, l.id, r.id)
  | .vector .., .matrix .. => some (.VectorTimesMatrix, l.id, r.id)
  | .matrix .., .scalar _ => some (.MatrixTimesScalar, l.id, r.id)
  | .scalar _, .matrix .. => some (.MatrixTimesScalar, r.id, l.id)
  | .vector .., .scalar _ => some (.VectorTimesScalar, l.id, r.id)
  | .scalar _, .vector .. => some (.VectorTimesScalar, r.id, l.id)
  | _, _ => none

/-- The operands with a scalar beside a vector replicated, and their number of components. -/
def broadcast (l r : Operand) : Lower (Id × Id × Word) := do
  match l.ty, r.ty with
  | .vector _ n, .scalar s => return (l.id, ← splat s r.id n r.constant, n)
  | .scalar s, .vector _ n => return (← splat s l.id n l.constant, r.id, n)
  | _, _ => return (l.id, r.id, l.ty.width?.getD 1)

/-- An operator on scalars and vectors. The comparison of whole vectors joins those of their
components. -/
def componentWise (op : BinOp) (family : Family) (l r : Operand) (ty : Ty) (fold : Bool) :
    Lower Id := do
  let (lhs, rhs, size) ← broadcast l r
  match op.opcodes.get? family with
  | none => Build.refuse (.unsupportedOperator (.binary op) l.ty)
  | some opcode =>
    if op.isComparison && 1 < size && ty.isScalar then
      let each ← emit opcode (.vector .bool size) [lhs, rhs]
      emit (if op = .ne then .Any else .All) ty [each]
    else emitOrDeclare fold opcode ty [lhs, rhs]

/-- The product instruction for the operands, if the operator is a product of floating-point
numbers. -/
def productOf? (op : BinOp) (family : Family) (l r : Operand) : Option (Op × Id × Id) :=
  if op = .mul && family = .float then product? l r else none

def vectorBinary (op : BinOp) (l r : Operand) (ty : Ty) (fold : Bool) : Lower Id := do
  match l.ty.scalar? with
  | none => Build.refuse (.unsupportedOperator (.binary op) l.ty)
  | some s =>
    match productOf? op s.family l r with
    | some (opcode, a, b) => emit opcode ty [a, b]
    | none => componentWise op s.family l r ty fold

def columnWise (ty : Ty) (column : Ty → Word → Lower Id) : Lower Id := do
  match ty with
  | .matrix s columns rows =>
    let ids ← (List.range columns.toNat).mapM (fun c => column (.vector s rows) c.toUInt32)
    emit .CompositeConstruct ty ids
  | _ => Build.refuse (.typeMismatch .matrix ty)

/-- A column of an operand; an operand that is no matrix stands for all its columns. -/
def columnOf (o : Operand) (columnTy : Ty) (c : Word) : Lower Operand := do
  if o.ty.isMatrix then
    return { ty := columnTy, id := ← emit .CompositeExtract columnTy [o.id, c] }
  else return o

def binary (op : BinOp) (l r : Operand) (ty : Ty) (fold : Bool) : Lower Id := do
  if l.ty.isMatrix || r.ty.isMatrix then
    match l.ty.scalar? with
    | none => Build.refuse (.unsupportedOperator (.binary op) l.ty)
    | some s =>
      match productOf? op s.family l r with
      | some (opcode, a, b) => emit opcode ty [a, b]
      | none =>
        columnWise ty fun columnTy c => do
          let lc ← columnOf l columnTy c
          let rc ← columnOf r columnTy c
          vectorBinary op lc rc columnTy false
  else vectorBinary op l r ty fold

def vectorUnary (op : UnOp) (o : Operand) (fold : Bool) : Lower Id := do
  match op.opcodes.forScalar? o.ty.scalar? with
  | none => Build.refuse (.unsupportedOperator (.unary op) o.ty)
  | some opcode => emitOrDeclare fold opcode o.ty [o.id]

def unary (op : UnOp) (o : Operand) (fold : Bool) : Lower Id := do
  if op = .plus then return o.id
  else if o.ty.isMatrix then columnWise o.ty fun columnTy c => do
      vectorUnary op (← columnOf o columnTy c) false
  else vectorUnary op o fold

/-! ## Conversions -/

inductive Conversion where
  | none
  | instruction (op : Op)
  /-- One for true and zero for false. -/
  | ofBool
  /-- Whether it differs from zero. -/
  | toBool
deriving DecidableEq

def conversion : Scalar → Scalar → Conversion
  | .bool, .bool | .int, .int | .uint, .uint | .float, .float | .double, .double => .none
  | .bool, _ => .ofBool
  | _, .bool => .toBool
  | .int, .uint | .uint, .int => .instruction .Bitcast
  | .int, .float | .int, .double => .instruction .ConvertSToF
  | .uint, .float | .uint, .double => .instruction .ConvertUToF
  | .float, .int | .double, .int => .instruction .ConvertFToS
  | .float, .uint | .double, .uint => .instruction .ConvertFToU
  | .float, .double | .double, .float => .instruction .FConvert

def replicated (value : Literal) (size : Word) : Lower Id := do
  let id ← onModule (Module.declareLiteral value)
  if 1 < size then splat value.scalar id size true else return id

/-- The scalar types and the common size of a conversion between scalars or vectors. -/
def castShape? : Ty → Ty → Option (Scalar × Scalar × Word)
  | .scalar a, .scalar b => some (a, b, 1)
  | .vector a n, .vector b m => if n = m then some (a, b, n) else none
  | _, _ => none

def cast (o : Operand) (target : Ty) : Lower Id := do
  if o.ty = target then return o.id
  match castShape? o.ty target with
  | none => Build.refuse (.unsupportedCast o.ty target)
  | some (a, b, size) =>
    match conversion a b with
    | .none => return o.id
    | .instruction op => emit op target [o.id]
    | .ofBool =>
      match Literal.one? b with
      | none => Build.refuse (.unsupportedCast o.ty target)
      | some one =>
        let one ← replicated one size
        let zero ← replicated (Literal.zero b) size
        emit .Select target [o.id, one, zero]
    | .toBool =>
      let zero ← replicated (Literal.zero a) size
      emit (if a.isFloat then .FUnordNotEqual else .INotEqual) target [o.id, zero]

end Lower

end Shader
