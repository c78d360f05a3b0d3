import Shader.Module.Constant
import Shader.Standard.BuiltIn

/-!
# Declarations of variables

A variable is declared at its first use, in the storage that its roles call for. Locals are declared
in the function under construction, all others in the module. Members of variables that have names
of their own are known by the name of the outer variable and theirs.
-/

namespace Shader

/-- The storage class of buffers that shaders write, which is core since version 1.3. -/
def Version.bufferClass (v : Version) : StorageClass :=
  if v.atLeast ⟨1, 3⟩ then .StorageBuffer else .Uniform

def Variable.storageClass (version : Version) (v : Variable) : StorageClass :=
  let f := v.roles
  if f.output then .Output
  else if f.input || f.builtin then .Input
  else if f.uniform then
    if f.constant || v.ty.innermost.isOpaque then .UniformConstant
    else if f.storageBuffer then version.bufferClass
    else .Uniform
  else if f.storageBuffer then version.bufferClass
  else if f.pushConstant then .PushConstant
  else if f.functionLocal || v.isParameter then .Function
  else .Private

structure Declared where
  entity : Entity
  /-- The declaration of a new local variable, which goes into its function. -/
  queued : Option Inst := none

namespace FunctionScope

def queue (scope : FunctionScope) (inst : Inst) : FunctionScope :=
  { scope with function :=
    { scope.function with queued := scope.function.queued ++ [inst] } }

/-- Takes in a declared variable, which the scope then knows by its name if it is a new local. -/
def take (scope : FunctionScope) (name : String) (d : Declared) : FunctionScope :=
  match d.queued with
  | none => scope
  | some inst => { scope.queue inst with locals := scope.locals.put name d.entity }

end FunctionScope

namespace Module

def lookup (m : Module) (locals : Option Scope) (name : String) : Option Entity :=
  (locals.bind (·.get? name)).or (m.globals.get? name)

/-- The name of a variable in listings, which is not the name of its struct type. -/
def variableName (name : String) : Ty → String
  | .struct structName _ _ => if structName = name then name ++ "Inst" else name
  | _ => name

/-- Declares a variable whose name is new in the scope that its storage belongs to. -/
def newVariable (name : String) (storage : StorageClass) (ty : Ty) : Build Declared := do
  let id ← freshId
  addDebug (.nameOf id (variableName name ty))
  if let some number := builtinNumber? name then decorate id .BuiltIn [number]
  let type ← declareTypeWith storage.layout? none ty
  let pointer ← declarePointer type storage
  let inst := Inst.value .Variable pointer id [Enumerated.number storage]
  let entity : Entity := ⟨id, some storage, type⟩
  if storage = .Function then
    return { entity, queued := some inst }
  addDeclaration inst
  modify fun m => { m with globals := m.globals.put name entity }
  return { entity }

/-- The variable of that name in the scope that its storage belongs to, declared if it is new. -/
def declareVariable (locals : Option Scope) (name : String) (storage : StorageClass) (ty : Ty) :
    Build Declared := do
  let isLocal := storage = .Function
  let globals := (← get).globals
  let existing := if isLocal then locals.bind (·.get? name) else globals.get? name
  match existing with
  | some entity => return { entity }
  | none =>
    if isLocal && locals.isNone then Build.refuse (.noFunctionScope name)
    newVariable name storage ty

/-- What a variable stands for, declared at its first use. A member stands for the outermost
variable. -/
def declareByRole (locals : Option Scope) (v : Variable) : Build Declared := do
  let v := v.outermost
  match (← get).lookup locals v.name with
  | some entity => return { entity }
  | none =>
    if v.roles.specConstant then Build.refuse (.unknownVariable v.name)
    declareVariable locals v.name (v.storageClass (← get).config.version) v.ty

def declareTemporary (ty : Ty) : Build (Id × Inst) := do
  let type ← declareType ty
  let pointer ← declarePointer type .Function
  let id ← freshId
  return (id, .value .Variable pointer id [Enumerated.number StorageClass.Function])

/-! ## Members as variables -/

def variableNameOf? (m : Module) (locals : Option Scope) (id : Id) : Option String :=
  (locals.bind (·.nameOf? id)).or ((m.globals.nameOf? id).or (m.memberVariables.keyOf? (·.2 == id)))

/-- The member of that name of a variable, together with the constant that is its index. -/
def nameMember (locals : Option Scope) (outer : Id) (name : String) (index : Word) :
    Build Id := do
  match (← get).variableNameOf? locals outer with
  | none => Build.refuse (.unknownId outer)
  | some outerName =>
    let fullName := outerName ++ "::" ++ name
    match (← get).memberVariables.get? fullName with
    | some (_, id) => return id
    | none =>
      let id ← freshId
      let _ ← declareLiteral (.uint index)
      modify fun m => { m with memberVariables := m.memberVariables.put fullName (outer, id) }
      return id

def outerOf? (m : Module) (id : Id) : Option Id := (m.memberVariables.values.find? (·.2 == id)).map (·.1)

def outwards (m : Module) : Nat → Id → Id
  | 0, id => id
  | steps + 1, id =>
    match m.outerOf? id with
    | none => id
    | some outer => m.outwards steps outer

def outermostOf? (m : Module) (id : Id) : Option Id := (m.outerOf? id).map (m.outwards m.memberVariables.size)

/-! ## Decorations of variables -/

def bindResource (id : Id) (binding set : Word) : Build Unit := do
  decorate id .Binding [binding]
  decorate id .DescriptorSet [set]

/-- Binds the global of that name, and marks its type as the contents of a buffer, once. -/
def bindBuffer (name : String) (binding set : Word) (mark : Decoration) : Build Unit := do
  match (← get).globals.get? name with
  | none => Build.refuse (.unknownVariable name)
  | some entity =>
    bindResource entity.id binding set
    if !(← get).blockTypes.contains entity.type then
      modify fun m => { m with blockTypes := addNew m.blockTypes entity.type }
      decorate entity.type mark []

def setLocation (id : Id) (location : Word) : Build Unit := decorate id .Location [location]

end Module

end Shader
