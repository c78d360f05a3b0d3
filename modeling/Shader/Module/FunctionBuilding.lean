import Shader.Module.VariableDeclaration

/-!
# Building functions

A function is begun, gets blocks, and is ended. Its local variables are queued while it is built and
go to the start of its first block at the end.
-/

namespace Shader

namespace Block

def isTerminated (b : Block) : Bool := b.terminator.isSome

def push (b : Block) (inst : Inst) : Block := { b with instructions := b.instructions ++ [inst] }

/-- The block ended by the instruction, if that ends blocks and this one is open. -/
def terminate (b : Block) (inst : Inst) : Except BuildError Block :=
  if !inst.op.isTerminator then .error (.notATerminator inst.op)
  else if b.isTerminated then .error (.alreadyTerminated b.label)
  else .ok { b with terminator := some inst }

end Block

namespace Function

def hoist (f : Function) : Function :=
  match f.blocks with
  | [] => f
  | first :: rest =>
    { f with
      queued := []
      blocks := { first with instructions := f.queued ++ first.instructions } :: rest }

end Function

namespace FunctionScope

def appendBlock (scope : FunctionScope) (b : Block) : FunctionScope :=
  { scope with function := { scope.function with blocks := scope.function.blocks ++ [b] } }

end FunctionScope

namespace Module

def functionNamed (name : String) : Build Id :=
  findOrMake (·.functionIds.get? name) (fun id m => { m with functionIds := m.functionIds.put name id }) freshId

/-- Declares the parameters of a function: the type and the identifier of each, and the names. -/
def openParams (locals : Scope) : List Variable → Build (List (Id × Id) × Scope)
  | [] => return ([], locals)
  | param :: params => do
    let valueType ← declareType param.ty
    let type ← passedAs param valueType
    let id ← freshId
    addDebug (.nameOf id param.name)
    let storage := if param.isByReference then some .Function else none
    let (ids, locals) ← openParams (locals.put param.name ⟨id, storage, valueType⟩) params
    return ((type, id) :: ids, locals)

def openFunction (name : String) (ret : Ty) (params : List Variable) : Build FunctionScope := do
  let id ← functionNamed name
  let returnType ← declareType ret
  let (params, locals) ← openParams ∅ params
  let functionType ← declareSignature returnType (params.map (·.1))
  addDebug (.nameOf id name)
  return { function := { name, id, returnType, functionType, params }, locals }

def freshBlock : Build Block := do return { label := ← freshId }

/-- Adds the function to the module, if it has blocks and all of them are ended. -/
def closeFunction (scope : FunctionScope) : Build Id := do
  let f := scope.function
  if f.blocks.isEmpty then Build.refuse (.emptyFunction f.name)
  if let some open_ := f.blocks.find? (!·.isTerminated) then Build.refuse (.unterminated open_.label)
  modify fun m => { m with functions := m.functions ++ [f.hoist] }
  return f.id

end Module

end Shader
