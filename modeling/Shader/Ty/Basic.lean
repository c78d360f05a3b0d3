import Shader.Standard.Image

/-!
# Types and variables

The types of shader values, and the variables that hold them. A function type names its parameters,
which are variables, so the two are defined together.
-/

namespace Shader

inductive Scalar where
  | bool
  | int
  | uint
  | float
  | double
deriving DecidableEq, Repr

namespace Scalar

def isFloat : Scalar → Bool
  | .float | .double => true
  | _ => false

def isInteger : Scalar → Bool
  | .int | .uint => true
  | _ => false

def size : Scalar → Word
  | .double => 8
  | _ => 4

end Scalar

/-- The rules by which members, elements and columns are placed in a buffer. -/
inductive MemoryLayout where
  | std140
  | std430
deriving DecidableEq, Repr

structure ImageConfig where
  sampled : Scalar := .float
  dim : Dim := .Dim2D
  format : ImageFormat := .Unknown
  arrayed : Bool := false
  ms : Bool := false
  depth : Bool := false
  storage : Bool := false
deriving DecidableEq

structure Roles where
  uniform : Bool := false
  builtin : Bool := false
  input : Bool := false
  output : Bool := false
  constant : Bool := false
  pushConstant : Bool := false
  specConstant : Bool := false
  functionLocal : Bool := false
  parameter : Bool := false
  outParameter : Bool := false
  inParameter : Bool := false
  storageBuffer : Bool := false
deriving DecidableEq, Repr

mutual

inductive Ty where
  | void
  | scalar (s : Scalar)
  | vector (s : Scalar) (size : Word)
  /-- A matrix is a row of columns, each a vector. -/
  | matrix (s : Scalar) (columns rows : Word)
  /-- Without a length, the array is as long as its buffer. -/
  | array (element : Ty) (length : Option Word)
  | struct (name : String) (layout : MemoryLayout) (members : List Member)
  | image (config : ImageConfig)
  | sampledImage (config : ImageConfig)
  | sampler (comparison : Bool)
  | function (ret : Ty) (params : List Variable)

structure Member where
  name : String
  ty : Ty
  offset : Word
  arrayStride : Option Word

inductive Variable where
  | root (name : String) (ty : Ty) (roles : Roles)
  /-- A member of another variable under a name of its own, with the roles of that variable. -/
  | member (outer : Variable) (index : Word) (name : String) (ty : Ty)

end

/-! ## Equality -/

mutual

def Ty.beq : Ty → Ty → Bool
  | .void, .void => true
  | .scalar s, .scalar s' => s = s'
  | .vector s n, .vector s' n' => s = s' && n = n'
  | .matrix s c r, .matrix s' c' r' => s = s' && c = c' && r = r'
  | .array e n, .array e' n' => e.beq e' && n = n'
  | .struct x l ms, .struct x' l' ms' => x = x' && l = l' && Member.beqAll ms ms'
  | .image c, .image c' => c = c'
  | .sampledImage c, .sampledImage c' => c = c'
  | .sampler c, .sampler c' => c = c'
  | .function r ps, .function r' ps' => r.beq r' && Variable.beqAll ps ps'
  | _, _ => false

def Member.beqAll : List Member → List Member → Bool
  | [], [] => true
  | ⟨x, t, o, a⟩ :: ms, ⟨x', t', o', a'⟩ :: ms' => x = x' && t.beq t' && o = o' && a = a' && Member.beqAll ms ms'
  | _, _ => false

def Variable.beq : Variable → Variable → Bool
  | .root x t f, .root x' t' f' => x = x' && t.beq t' && f = f'
  | .member v i x t, .member v' i' x' t' => v.beq v' && i = i' && x = x' && t.beq t'
  | _, _ => false

def Variable.beqAll : List Variable → List Variable → Bool
  | [], [] => true
  | v :: vs, v' :: vs' => v.beq v' && Variable.beqAll vs vs'
  | _, _ => false

end

mutual

theorem Ty.beq_iff : ∀ t t' : Ty, t.beq t' = true ↔ t = t'
  | .void, t' => by cases t' <;> simp [Ty.beq]
  | .scalar _, t' => by cases t' <;> simp [Ty.beq]
  | .vector _ _, t' => by cases t' <;> simp [Ty.beq]
  | .matrix _ _ _, t' => by cases t' <;> simp [Ty.beq, and_assoc]
  | .array e _, t' => by cases t' <;> simp [Ty.beq, Ty.beq_iff e]
  | .struct _ _ ms, t' => by cases t' <;> simp [Ty.beq, Member.beqAll_iff ms, and_assoc]
  | .image _, t' => by cases t' <;> simp [Ty.beq]
  | .sampledImage _, t' => by cases t' <;> simp [Ty.beq]
  | .sampler _, t' => by cases t' <;> simp [Ty.beq]
  | .function r ps, t' => by cases t' <;> simp [Ty.beq, Ty.beq_iff r, Variable.beqAll_iff ps]

theorem Member.beqAll_iff : ∀ ms ms' : List Member, Member.beqAll ms ms' = true ↔ ms = ms'
  | [], ms' => by cases ms' <;> simp [Member.beqAll]
  | ⟨_, t, _, _⟩ :: ms, [] => by simp [Member.beqAll]
  | ⟨_, t, _, _⟩ :: ms, ⟨_, _, _, _⟩ :: ms' => by
    simp [Member.beqAll, Ty.beq_iff t, Member.beqAll_iff ms, and_assoc]

theorem Variable.beq_iff : ∀ v v' : Variable, v.beq v' = true ↔ v = v'
  | .root _ t _, v' => by cases v' <;> simp [Variable.beq, Ty.beq_iff t, and_assoc]
  | .member v _ _ t, v' => by
    cases v' <;> simp [Variable.beq, Variable.beq_iff v, Ty.beq_iff t, and_assoc]

theorem Variable.beqAll_iff : ∀ vs vs' : List Variable, Variable.beqAll vs vs' = true ↔ vs = vs'
  | [], vs' => by cases vs' <;> simp [Variable.beqAll]
  | v :: vs, [] => by simp [Variable.beqAll]
  | v :: vs, _ :: vs' => by simp [Variable.beqAll, Variable.beq_iff v, Variable.beqAll_iff vs]

end

instance : DecidableEq Ty := fun t t' => decidable_of_iff _ (Ty.beq_iff t t')

instance : DecidableEq Variable := fun v v' => decidable_of_iff _ (Variable.beq_iff v v')

/-! ## Parts of a type -/

namespace Ty

def scalar? : Ty → Option Scalar
  | .scalar s | .vector s _ | .matrix s _ _ => some s
  | _ => none

def width? : Ty → Option Word
  | .scalar _ => some 1
  | .vector _ n => some n
  | _ => none

def column? : Ty → Option Ty
  | .matrix s _ rows => some (.vector s rows)
  | _ => none

/-- The type of a component, a column, an element or a member, by its position. -/
def part? : Ty → Word → Option Ty
  | .vector s n, i => if i < n then some (.scalar s) else none
  | .matrix s columns rows, i => if i < columns then some (.vector s rows) else none
  | .array element _, _ => some element
  | .struct _ _ members, i => members[i.toNat]?.map (·.ty)
  | _, _ => none

def isScalar : Ty → Bool
  | .scalar _ => true
  | _ => false

def isMatrix : Ty → Bool
  | .matrix .. => true
  | _ => false

/-- Handles of images and samplers, which have no bytes in memory. -/
def isOpaque : Ty → Bool
  | .image _ | .sampledImage _ | .sampler _ => true
  | _ => false

def isAggregate : Ty → Bool
  | .array .. | .struct .. => true
  | _ => false

def isVoid : Ty → Bool
  | .void => true
  | _ => false

def imageConfig? : Ty → Option ImageConfig
  | .image c | .sampledImage c => some c
  | _ => none

def innermost : Ty → Ty
  | .array element _ => element.innermost
  | t => t

end Ty

mutual

/-- Whether a value of the type holds numbers of double precision. A function counts by its
result. -/
def Ty.hasDouble : Ty → Bool
  | .scalar s | .vector s _ | .matrix s _ _ => s = .double
  | .array element _ => element.hasDouble
  | .struct _ _ members => Member.anyHasDouble members
  | .function ret _ => ret.hasDouble
  | .void | .image _ | .sampledImage _ | .sampler _ => false

def Member.anyHasDouble : List Member → Bool
  | [] => false
  | ⟨_, t, _, _⟩ :: ms => t.hasDouble || Member.anyHasDouble ms

end

/-! ## Parts of a variable -/

namespace Variable

def name : Variable → String
  | .root name _ _ | .member _ _ name _ => name

def ty : Variable → Ty
  | .root _ ty _ | .member _ _ _ ty => ty

/-- The roles of the variable itself, or of the outermost variable that it is part of. -/
def roles : Variable → Roles
  | .root _ _ roles => roles
  | .member outer _ _ _ => outer.roles

def outer? : Variable → Option Variable
  | .root .. => none
  | .member outer .. => some outer

def isMember (v : Variable) : Bool := v.outer?.isSome

/-- The variable that is no member of another and of which this one is a part. -/
def outermost : Variable → Variable
  | .root name ty roles => .root name ty roles
  | .member outer .. => outer.outermost

def isParameter (v : Variable) : Bool := v.roles.parameter || v.roles.inParameter || v.roles.outParameter

def isByReference (v : Variable) : Bool := v.roles.outParameter || v.ty.isAggregate || v.ty.isOpaque

end Variable

end Shader
