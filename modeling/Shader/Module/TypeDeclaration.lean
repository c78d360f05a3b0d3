import Shader.Module.Basic
import Shader.Ty.Layout

/-!
# Declarations of types and literals

A type is declared once, after all that it refers to. In a buffer, arrays are told apart by their
stride, and structs carry the offsets of their members.

* `Module.declareType`, `Module.declareTypeWith`: a type outside or inside of a buffer layout
* `Module.declareLiteral`: scalar constants, of which array lengths are some
-/

namespace Shader

/-- The layout of arrays that are not in a struct, in variables of a storage class. -/
def StorageClass.layout? : StorageClass → Option MemoryLayout
  | .Uniform => some .std140
  | .PushConstant | .StorageBuffer => some .std430
  | _ => none

namespace Module

def cachedType (key : TypeIdentity) (make : Build Id) : Build Id :=
  findOrMake (·.types.get? key) (fun id m => { m with types := m.types.put key id }) make

def declareVoid : Build Id := cachedType (.plain .void) (define .TypeVoid [])

def scalarDeclaration : Scalar → Op × List Word
  | .bool => (.TypeBool, [])
  | .int => (.TypeInt, [32, 1])
  | .uint => (.TypeInt, [32, 0])
  | .float => (.TypeFloat, [32])
  | .double => (.TypeFloat, [64])

def declareScalar (s : Scalar) : Build Id :=
  let (op, operands) := scalarDeclaration s
  cachedType (.plain (.scalar s)) (define op operands)

def declareVector (s : Scalar) (n : Word) : Build Id :=
  cachedType (.plain (.vector s n)) do
    define .TypeVector [← declareScalar s, n]

def declareMatrix (s : Scalar) (columns rows : Word) : Build Id :=
  cachedType (.plain (.matrix s columns rows)) do
    define .TypeMatrix [← declareVector s rows, columns]

def imageOperands (sampledType : Id) (c : ImageConfig) : List Word :=
  [sampledType, Enumerated.number c.dim, Word.ofBool c.depth, Word.ofBool c.arrayed,
    Word.ofBool c.ms, if c.storage then 2 else 1, Enumerated.number c.format]

def declareImage (c : ImageConfig) : Build Id :=
  cachedType (.plain (.image c)) do
    define .TypeImage (imageOperands (← declareScalar c.sampled) c)

def declareSampledImage (c : ImageConfig) : Build Id :=
  cachedType (.plain (.sampledImage c)) do
    define .TypeSampledImage [← declareImage c]

/-- Samplers that compare are of the same type as those that do not. -/
def declareSampler : Build Id := cachedType (.plain (.sampler false)) (define .TypeSampler [])

def declareTuple (members : List Id) : Build Id := cachedType (.tuple members) (define .TypeStruct members)

def declarePointer (pointee : Id) (storage : StorageClass) : Build Id :=
  findOrMake (·.pointers.get? (pointee, storage))
    (fun id m => { m with pointers := m.pointers.put (pointee, storage) id })
    (define .TypePointer [Enumerated.number storage, pointee])

def declareSignature (ret : Id) (params : List Id) : Build Id :=
  findOrMake (·.functionTypes.get? (ret :: params))
    (fun id m => { m with functionTypes := m.functionTypes.put (ret :: params) id })
    (define .TypeFunction (ret :: params))

def literalDeclaration : Literal → Op × List Word
  | .bool true => (.ConstantTrue, [])
  | .bool false => (.ConstantFalse, [])
  | value => (.Constant, value.words)

def declareLiteral (value : Literal) : Build Id :=
  findOrMake (·.literals.get? value) (fun id m => { m with literals := m.literals.put value id }) do
    let type ← declareScalar value.scalar
    let (op, operands) := literalDeclaration value
    defineValue op type operands

/-- The stride of an array, if it has one: handles have none, and outside of a layout there is none
but an explicit one. -/
def strideIn (layout : Option MemoryLayout) (explicit : Option Word) (element : Ty) : Build (Option Word) :=
  if element.innermost.isOpaque then return none
  else match explicit, layout with
    | some stride, _ => return some stride
    | none, some layout => do return some (← Build.checked (element.arrayStride layout))
    | none, none => return none

def declareArray (element : Id) (length stride : Option Word) : Build Id :=
  cachedType (.array element length stride) do
    let id ← match length with
      | some n => do
        let n ← declareLiteral (.uint n)
        define .TypeArray [element, n]
      | none => define .TypeRuntimeArray [element]
    if let some stride := stride then decorate id .ArrayStride [stride]
    return id

def describeMember (struct : Id) (layout : MemoryLayout) (index : Word) (m : Member) :
    Build Unit := do
  addDebug {
    op := .MemberName, resultType := some struct, result := some index, name := some m.name }
  decorateMember struct index .Offset [m.offset]
  if m.ty.innermost.isMatrix then
    let stride ← Build.checked (m.ty.innermost.matrixStride layout)
    decorateMember struct index .ColMajor []
    decorateMember struct index .MatrixStride [stride]

/-- The members from `index` on. The number after each index is a word, also after the last. -/
def describeMembers (struct : Id) (layout : MemoryLayout) : Word → List Member → Build Unit
  | index, [] => do
    let _ ← Build.checked (Word.add index 1)
    return ()
  | index, m :: ms => do
    let next ← Build.checked (Word.add index 1)
    describeMember struct layout index m
    describeMembers struct layout next ms

def defineStruct (name : String) (layout : MemoryLayout) (members : List Member) (types : List Id) :
    Build Id := do
  let id ← define .TypeStruct types
  addDebug (.nameOf id name)
  describeMembers id layout 0 members
  return id

/-- The type under which a parameter is passed, from the type of its value. -/
def passedAs (param : Variable) (type : Id) : Build Id :=
  if param.isByReference then declarePointer type .Function else return type

mutual

/-- A type in a layout, if one is given. An explicit stride counts for the outermost array only. -/
def declareTypeWith (layout : Option MemoryLayout) (explicit : Option Word) : Ty → Build Id
  | .void => declareVoid
  | .scalar s => declareScalar s
  | .vector s n => declareVector s n
  | .matrix s columns rows => declareMatrix s columns rows
  | .array element length => do
    let type ← declareTypeWith layout none element
    let stride ← strideIn layout explicit element
    declareArray type length stride
  | .struct name layout members =>
    cachedType (.plain (.struct name layout members)) do
      defineStruct name layout members (← declareMembers layout members)
  | .image c => declareImage c
  | .sampledImage c => declareSampledImage c
  | .sampler _ => declareSampler
  | .function ret params =>
    cachedType (.plain (.function ret params)) do
      let ret ← declareTypeWith none none ret
      declareSignature ret (← declareParams params)

def declareMembers (layout : MemoryLayout) : List Member → Build (List Id)
  | [] => return []
  | ⟨_, ty, _, stride⟩ :: ms => do
    let type ← declareTypeWith (some layout) stride ty
    return type :: (← declareMembers layout ms)

def declareParam : Variable → Build Id
  | .root name ty roles => do
    passedAs (.root name ty roles) (← declareTypeWith none none ty)
  | .member outer index name ty => do
    passedAs (.member outer index name ty) (← declareTypeWith none none ty)

def declareParams : List Variable → Build (List Id)
  | [] => return []
  | v :: vs => do
    let type ← declareParam v
    return type :: (← declareParams vs)

end

def declareType (ty : Ty) : Build Id := declareTypeWith none none ty

end Module

end Shader
