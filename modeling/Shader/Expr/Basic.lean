import Shader.Expr.Operation
import Shader.Literal
import Shader.Swizzle

/-!
# Expressions

Typed expressions of a shader. An expression is a type and a node; a node is an operation on
expressions. The constructors that take an expression's type from its parts refuse parts that do not
fit; all others take the type as given.
-/

namespace Shader

/-- An operation on expressions of type `ε`. -/
inductive Node (ε : Type) where
  | literal (value : Literal)
  | ident (v : Variable)
  | assign (op : Option BinOp) (lhs rhs : ε)
  | init (v : Variable) (value : ε)
  | unary (op : UnOp) (operand : ε)
  | binary (op : BinOp) (lhs rhs : ε)
  | cast (operand : ε)
  | step (op : StepOp) (operand : ε)
  | construct (args : List ε)
  | call (func : Variable) (args : List ε)
  | member (outer : ε) (index : Word)
  | index (array index : ε)
  | swizzle (outer : ε) (swizzle : Swizzle)
  | intrinsic (function : Intrinsic) (args : List ε)
  | image (access : ImageAccess) (args : List ε)
  | texture (access : TextureAccess) (args : List ε)
  | select (cond onTrue onFalse : ε)

structure Expr where
  ty : Ty
  node : Node Expr

/-! ## Kinds -/

inductive Kind where
  | literal
  | ident
  | assign
  | init
  | unary
  | binary
  | cast
  | step
  | construct
  | call
  | member
  | index
  | swizzle
  | intrinsic
  | image
  | texture
  | select
deriving DecidableEq, Repr

def Kind.text : Kind → String
  | .literal => "literal"
  | .ident => "identifier"
  | .assign => "assignment"
  | .init => "initialization"
  | .unary => "unary operation"
  | .binary => "binary operation"
  | .cast => "cast"
  | .step => "increment/decrement"
  | .construct => "composite construction"
  | .call => "function call"
  | .member => "member selection"
  | .index => "array access"
  | .swizzle => "swizzle"
  | .intrinsic => "intrinsic call"
  | .image => "image access"
  | .texture => "texture access"
  | .select => "ternary"

def Node.kind {ε : Type} : Node ε → Kind
  | .literal _ => .literal
  | .ident _ => .ident
  | .assign .. => .assign
  | .init .. => .init
  | .unary .. => .unary
  | .binary .. => .binary
  | .cast _ => .cast
  | .step .. => .step
  | .construct _ => .construct
  | .call .. => .call
  | .member .. => .member
  | .index .. => .index
  | .swizzle .. => .swizzle
  | .intrinsic .. => .intrinsic
  | .image .. => .image
  | .texture .. => .texture
  | .select .. => .select

def Expr.kind (e : Expr) : Kind := e.node.kind

/-! ## Construction -/

namespace Expr

def literal (value : Literal) : Expr := ⟨.scalar value.scalar, .literal value⟩

def ident (v : Variable) : Expr := ⟨v.ty, .ident v⟩

def assign (op : Option BinOp) (lhs rhs : Expr) : Expr := ⟨lhs.ty, .assign op lhs rhs⟩

def init (v : Variable) (value : Expr) : Expr := ⟨v.ty, .init v value⟩

def unary (op : UnOp) (operand : Expr) : Expr := ⟨operand.ty, .unary op operand⟩

def step (op : StepOp) (operand : Expr) : Expr := ⟨operand.ty, .step op operand⟩

def select (cond onTrue onFalse : Expr) : Expr := ⟨onTrue.ty, .select cond onTrue onFalse⟩

def call? (func : Variable) (args : List Expr) : Option Expr :=
  match func.ty with
  | .function ret _ => some ⟨ret, .call func args⟩
  | _ => none

def member? (outer : Expr) (index : Word) : Option Expr :=
  match outer.ty with
  | .struct _ _ members => members[index.toNat]?.map (fun m => ⟨m.ty, .member outer index⟩)
  | _ => none

def index? (array index : Expr) : Option Expr :=
  match array.ty with
  | .array element _ => some ⟨element, .index array index⟩
  | .matrix s _ rows => some ⟨.vector s rows, .index array index⟩
  | .vector s _ => some ⟨.scalar s, .index array index⟩
  | _ => none

/-- The lanes of a vector that the letters name, if it has them; a scalar has the first. -/
def swizzle? (outer : Expr) (letters : String) : Option Expr := do
  let swizzle ← Swizzle.parse? letters
  let (s, size) ← match outer.ty with
    | .vector s n => some (s, n)
    | .scalar s => some (s, 1)
    | _ => none
  if swizzle.components.any (size ≤ ·) then none
  else
    let ty := if swizzle.isSingle then .scalar s else .vector s swizzle.length.toUInt32
    some ⟨ty, .swizzle outer swizzle⟩

/-! ## Constants and chains -/

mutual

/-- Literals, and constructions of nothing else. -/
def isConstant : Expr → Bool
  | ⟨_, .literal _⟩ => true
  | ⟨_, .construct args⟩ => !args.isEmpty && allConstant args
  | _ => false

def allConstant : List Expr → Bool
  | [] => true
  | e :: es => e.isConstant && allConstant es

end

mutual

/-- How many expressions stand within each other. -/
def height : Expr → Nat
  | ⟨_, .literal _⟩ | ⟨_, .ident _⟩ => 1
  | ⟨_, .init _ e⟩ | ⟨_, .unary _ e⟩ | ⟨_, .cast e⟩ | ⟨_, .step _ e⟩ | ⟨_, .member e _⟩
  | ⟨_, .swizzle e _⟩ => e.height + 1
  | ⟨_, .assign _ a b⟩ | ⟨_, .binary _ a b⟩ | ⟨_, .index a b⟩ => max a.height b.height + 1
  | ⟨_, .construct args⟩ | ⟨_, .call _ args⟩ | ⟨_, .intrinsic _ args⟩ | ⟨_, .image _ args⟩
  | ⟨_, .texture _ args⟩ => heights args + 1
  | ⟨_, .select c t f⟩ => max c.height (max t.height f.height) + 1

def heights : List Expr → Nat
  | [] => 0
  | e :: es => max e.height (heights es)

end

/-- For an expression of literals, specialization constants and operators: whether a
specialization constant occurs in it. -/
def specialized? : Expr → Option Bool
  | ⟨_, .literal _⟩ => some false
  | ⟨_, .ident v⟩ => if v.roles.specConstant then some true else none
  | ⟨_, .unary _ operand⟩ => operand.specialized?
  | ⟨_, .binary _ lhs rhs⟩ => do return (← lhs.specialized?) || (← rhs.specialized?)
  | ⟨_, .select cond onTrue onFalse⟩ => do
    return (← cond.specialized?) || (← onTrue.specialized?) || (← onFalse.specialized?)
  | _ => none

/-- Whether the value depends on specialization constants and otherwise on literals only. -/
def isSpecialization (e : Expr) : Bool := e.specialized? = some true

def isIntegerLiteral (e : Expr) : Bool :=
  match e.node with
  | .literal (.int _) | .literal (.uint _) => true
  | _ => false

def constantIndex? (e : Expr) : Option Word :=
  match e.node with
  | .literal (.int n) => if 0 ≤ n then some n.toUInt32 else none
  | .literal (.uint n) => some n
  | _ => none

def swizzleLength? (e : Expr) : Option Nat :=
  match e.node with
  | .swizzle _ s => some s.length
  | _ => none

/-- Members, elements and lanes of a variable, which a pointer can address. A component of several
lanes at an index that is no literal has no pointer of its own. -/
def isChain : Expr → Bool
  | ⟨_, .ident _⟩ => true
  | ⟨_, .member outer _⟩ => outer.isChain
  | ⟨_, .swizzle outer _⟩ => outer.isChain
  | ⟨_, .index array index⟩ => !(array.swizzleLength?.any (1 < ·) && !index.isIntegerLiteral) && array.isChain
  | _ => false

end Expr

end Shader
