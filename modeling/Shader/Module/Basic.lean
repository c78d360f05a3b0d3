import Shader.Config.Basic
import Shader.Error
import Shader.Instruction.Basic
import Shader.Ordered
import Shader.Standard.Capability
import Shader.Standard.Decoration
import Shader.Standard.StorageClass

/-!
# Modules under construction

A module is kept in the sections of the standard's logical layout. Beside them stand the identifiers
of what is already declared, so that types and constants are declared once, and the names in scope.
-/

namespace Shader

/-! ## Names -/

structure Entity where
  id : Id
  /-- The storage that the pointer points into; a value has none. -/
  storage : Option StorageClass
  type : Id
deriving DecidableEq

namespace Entity

def isPointer (e : Entity) : Bool := e.storage.isSome

def isValue (e : Entity) : Bool := e.storage.isNone

end Entity

abbrev Scope := OrderedMap String Entity

def Scope.nameOf? (scope : Scope) (id : Id) : Option String := scope.keyOf? (·.id == id)

/-! ## Functions -/

/-- A label, the instructions after it and the one that ends the block, once it is ended. -/
structure Block where
  label : Id
  instructions : List Inst := []
  terminator : Option Inst := none
deriving DecidableEq

structure Function where
  name : String
  id : Id
  returnType : Id
  control : Word := 0
  functionType : Id
  params : List (Id × Id) := []
  queued : List Inst := []
  blocks : List Block := []
deriving DecidableEq

/-- A function under construction and the names that are local to it. -/
structure FunctionScope where
  function : Function
  locals : Scope := ∅

/-! ## The module -/

inductive TypeIdentity where
  | plain (ty : Ty)
  /-- Arrays of one element type and length differ by their stride. -/
  | array (element : Id) (length stride : Option Word)
  /-- A struct without names and offsets. -/
  | tuple (members : List Id)
deriving DecidableEq

structure Module where
  config : Config := {}
  bound : Id := 1
  capabilities : List Inst := []
  extensions : List Inst := []
  imports : List Inst := []
  memoryModel : Option Inst := none
  entryPoint : Option Inst := none
  executionModes : List Inst := []
  debug : List Inst := []
  decorations : List Inst := []
  declarations : List Inst := []
  functions : List Function := []
  types : OrderedMap TypeIdentity Id := ∅
  pointers : OrderedMap (Id × StorageClass) Id := ∅
  functionTypes : OrderedMap (List Id) Id := ∅
  literals : OrderedMap Literal Id := ∅
  composites : OrderedMap (List Id × Id) Id := ∅
  globals : Scope := ∅
  /-- Members under names of their own: the variable each is part of, and its own identifier. -/
  memberVariables : OrderedMap String (Id × Id) := ∅
  /-- Functions by name, also those that are only called so far. -/
  functionIds : OrderedMap String Id := ∅
  blockTypes : List Id := []
  capabilitySet : List Word := []
  extensionSet : List String := []
  glslStd450 : Option Id := none
  pendingModes : List (ExecutionMode × List Word) := []
  intermediates : List Id := []
  busyIntermediates : List Id := []

/-! ## Construction -/

/-- A step that changes a state of type `σ` and yields a value or ends early. The changes made until
then stay. -/
abbrev Action (σ : Type) := ExceptT Fault (StateM σ)

abbrev Build := Action Module

namespace Build

variable {σ α : Type}

def refuse (e : BuildError) : Action σ α := throw (.refused e)

def checked (x : Checked α) : Action σ α :=
  match x with
  | .ok a => return a
  | .error o => throw (.overflow o)

end Build

namespace Module

def freshId : Build Id := do
  let m ← get
  let next ← Build.checked (Word.add m.bound 1)
  set { m with bound := next }
  return m.bound

def addDeclaration (inst : Inst) : Build Unit := modify fun m => { m with declarations := m.declarations ++ [inst] }

def addDebug (inst : Inst) : Build Unit := modify fun m => { m with debug := m.debug ++ [inst] }

def addDecoration (inst : Inst) : Build Unit := modify fun m => { m with decorations := m.decorations ++ [inst] }

def define (op : Op) (operands : List Word) : Build Id := do
  let id ← freshId
  addDeclaration (.defining op id operands)
  return id

def defineValue (op : Op) (type : Id) (operands : List Word) : Build Id := do
  let id ← freshId
  addDeclaration (.value op type id operands)
  return id

def decorate (id : Id) (d : Decoration) (operands : List Word) : Build Unit :=
  addDecoration (.effect .Decorate ([id, Enumerated.number d] ++ operands))

def decorateMember (id : Id) (index : Word) (d : Decoration) (operands : List Word) : Build Unit :=
  addDecoration (.effect .MemberDecorate ([id, index, Enumerated.number d] ++ operands))

/-- What `find` finds, or else what `make` makes, which `keep` then remembers. -/
def findOrMake (find : Module → Option Id) (keep : Id → Module → Module) (make : Build Id) :
    Build Id := do
  match find (← get) with
  | some id => return id
  | none =>
    let id ← make
    modify (keep id)
    return id

def setName : String := "GLSL.std.450"

def importGlslStd450 : Build Id :=
  findOrMake (·.glslStd450) (fun id m => { m with glslStd450 := some id }) do
    let id ← freshId
    let inst : Inst := { op := .ExtInstImport, result := some id, name := some setName }
    modify fun m => { m with imports := m.imports ++ [inst] }
    return id

/-- An identifier for a value that is needed for a while only. Identifiers are not used again. -/
def takeIntermediate : Build Id := do
  let id ← freshId
  modify fun m => { m with
    intermediates := addNew m.intermediates id
    busyIntermediates := addNew m.busyIntermediates id }
  return id

def releaseIntermediate (id : Id) : Build Unit :=
  modify fun m => { m with busyIntermediates := m.busyIntermediates.filter (· != id) }

/-- A module with what every module has: the extended instructions, the source language, the
capability of the execution model and the memory model. -/
def new (config : Config) : Module :=
  let capability : Capability := if config.executionModel = .Kernel then .Kernel else .Shader
  { config
    bound := 2
    imports := [{ op := .ExtInstImport, result := some 1, name := some setName }]
    glslStd450 := some 1
    debug := [.effect .Source [2, 450]]
    capabilities := [.effect .Capability [Enumerated.number capability]]
    capabilitySet := [Enumerated.number capability]
    memoryModel := some (.effect .MemoryModel [0, Enumerated.number config.memoryModel]) }

end Module

end Shader
