import Shader.Module.TypeDeclaration

/-!
# Constants

Composite constants, specialization constants and operations on them. A composite is declared once
per list of constituents and type; an operation on specialization constants every time.
-/

namespace Shader.Module

def declareComposite (constituents : List Id) (ty : Ty) : Build Id := do
  let type ← declareType ty
  findOrMake (·.composites.get? (constituents, type))
    (fun id m => { m with composites := m.composites.put (constituents, type) id })
    (defineValue .ConstantComposite type constituents)

/-- The opcode and the operands of a specialization constant with that default. -/
def specDeclaration : Literal → Op × List Word
  | .bool true => (.SpecConstantTrue, [])
  | .bool false => (.SpecConstantFalse, [])
  | value => (.SpecConstant, value.words)

/-- The specialization constant of that name. If a global has the name already, it is that one. -/
def declareSpecialization (name : String) (specId : Word) (ty : Ty) (default : Literal) :
    Build Id := do
  match (← get).globals.get? name with
  | some entity => return entity.id
  | none =>
    let type ← declareType ty
    let (op, operands) := specDeclaration default
    let id ← freshId
    addDebug (.nameOf id name)
    addDeclaration (.value op type id operands)
    decorate id .SpecId [specId]
    modify fun m => { m with globals := m.globals.put name ⟨id, none, type⟩ }
    return id

def declareFolded (type : Id) (op : Op) (operands : List Id) : Build Id :=
  defineValue .SpecConstantOp type (Enumerated.number op :: operands)

end Shader.Module
