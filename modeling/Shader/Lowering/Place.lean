import Shader.Expr.Chain
import Shader.Lowering.Basic

/-!
# Places

The storage that an expression names: a pointer, and the lanes of the vector it points to if they
are several. A path from a variable becomes one instruction that computes the pointer.
-/

namespace Shader

structure Place where
  entity : Entity
  ty : Ty
  /-- The lanes of it that are meant, if they are several. -/
  swizzle : Option Swizzle := none
  /-- Whether writing has an effect: a copy made only to be indexed is no place to write to. -/
  assignable : Bool

def Place.isInFunction (p : Place) : Bool := p.swizzle.isNone && p.entity.storage = some .Function

structure Walk where
  ty : Ty
  layout : Option MemoryLayout
  stride : Option Word := none
  indices : List Id := []
  swizzle : Option Swizzle := none
  /-- The variable that the next member of its own name belongs to. -/
  anchor : Id

namespace Lower

def walkMember (w : Walk) (index : Word) (name : Option String) : Lower Walk := do
  match w.ty with
  | .struct _ layout members =>
    match members[index.toNat]? with
    | none => Build.refuse (.typeMismatch .structWithMoreMembers w.ty)
    | some member =>
      let anchor ← match name with
        | none => pure w.anchor
        | some name => do
          let locals := (← get).func.locals
          onModule (Module.nameMember (some locals) w.anchor name index)
      let i ← onModule (Module.declareLiteral (.uint index))
      return { w with
        ty := member.ty, layout := some layout, stride := member.arrayStride,
        indices := w.indices ++ [i], anchor }
  | _ => Build.refuse (.typeMismatch .struct w.ty)

def walkIndex (parts : Parts) (w : Walk) (index : Expr) : Lower Walk := do
  match w.ty.part? 0 with
  | none => Build.refuse (.typeMismatch .indexable w.ty)
  | some element =>
    let i ← parts.value index
    return { w with ty := element, stride := none, indices := w.indices ++ [i] }

/-- Follows a path to one lane, or notes that several are meant. A scalar is its own first lane. -/
def walkSwizzle (w : Walk) (s : Swizzle) : Lower Walk := do
  match s.components with
  | [lane] =>
    if lane = 0 && w.ty.isScalar then return w
    else
      match w.ty.part? lane with
      | none => Build.refuse (.typeMismatch .vector w.ty)
      | some element =>
        let i ← onModule (Module.declareLiteral (.uint lane))
        return { w with ty := element, indices := w.indices ++ [i] }
  | _ => return { w with swizzle := some s }

def walk (parts : Parts) (w : Walk) : Step → Lower Walk
  | .member index name => walkMember w index name
  | .index index => walkIndex parts w index
  | .swizzle s => walkSwizzle w s

/-- What a path starts from. A path into a value goes through a copy of it. -/
def pathBase (head : Variable) (root : Entity) : Lower Entity := do
  if root.isPointer then return root
  else
    let copy ← spill head.ty root.id
    let type ← onModule (Module.declareType head.ty)
    return ⟨copy, some .Function, type⟩

def follow (parts : Parts) (path : Chain) (root base : Entity) : Lower Place := do
  let storage := base.storage.getD .Function
  let start : Walk := { ty := path.head.ty, layout := storage.layout?, anchor := root.id }
  let w ← path.steps.foldlM (walk parts) start
  if w.indices.isEmpty then
    return { entity := base, ty := w.ty, swizzle := w.swizzle, assignable := root.isPointer }
  let type ← onModule (Module.declareTypeWith w.layout w.stride w.ty)
  let pointer ← onModule (Module.declarePointer type storage)
  let id ← onModule Module.takeIntermediate
  push (.value .AccessChain pointer id (base.id :: w.indices))
  return {
    entity := ⟨id, some storage, type⟩, ty := w.ty, swizzle := w.swizzle,
    assignable := root.isPointer }

def placeOfChain (parts : Parts) (path : Chain) : Lower Place := do
  let root ← resolve path.head
  let base ← pathBase path.head root
  follow parts path root base

def place (parts : Parts) (e : Expr) : Lower Place := do
  match e.node with
  | .ident (.root name ty roles) =>
    let entity ← resolve (.root name ty roles)
    return { entity, ty, assignable := entity.isPointer }
  | _ =>
    if e.isChain then
      match Chain.ofExpr e with
      | .error error => Build.refuse error
      | .ok path => placeOfChain parts path
    else Build.refuse (.notAssignable e.kind)

def placeToAssign (parts : Parts) (e : Expr) : Lower Place := do
  let p ← place parts e
  if !p.assignable then Build.refuse (.notAssignable e.kind)
  return p

def readPlace (p : Place) : Lower Id := do
  let value ← load p.entity
  match p.swizzle with
  | none => return value
  | some s =>
    let ty : Ty := match p.ty with
      | .vector scalar _ => .vector scalar s.length.toUInt32
      | ty => ty
    emit .VectorShuffle ty ([value, value] ++ s.components)

/-- Writes a value to a place. Lanes of a vector are written by writing the whole vector. -/
def writePlace (p : Place) (value : Id) : Lower Unit := do
  match p.swizzle with
  | none => store p.entity.id value
  | some s =>
    let vector ← load p.entity
    let mask ← Build.checked (s.writeMask (p.ty.width?.getD 1))
    let merged ← emitAs .VectorShuffle p.entity.type ([vector, value] ++ mask)
    store p.entity.id merged

end Lower

end Shader
