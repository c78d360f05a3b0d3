import Shader.Lowering.Place

/-!
# Calls

Arguments are passed by value, or as pointers to local storage. What is not in local storage is
copied into a local variable before the call, if the parameter is read, and back after the call, if
the parameter is written.
-/

namespace Shader

structure CopyOut where
  copy : Id
  copyType : Id
  place : Place

namespace Lower

def referenceArg (parts : Parts) (arg : Expr) : Lower Id := do
  if arg.isChain then
    let p ← place parts arg
    if p.isInFunction then return p.entity.id
    spill arg.ty (← readPlace p)
  else spill arg.ty (← parts.value arg)

/-- A pointer for an argument that is written, and read before if `copyIn` says so. -/
def outputArg (parts : Parts) (arg : Expr) (copyIn : Bool) : Lower (Id × Option CopyOut) := do
  let p ← placeToAssign parts arg
  if p.isInFunction then return (p.entity.id, none)
  let copy ← temp arg.ty
  let copyType ← onModule (Module.declareType arg.ty)
  if copyIn then store copy (← readPlace p)
  return (copy, some ⟨copy, copyType, p⟩)

def copyOut (w : CopyOut) : Lower Unit := do
  let value ← load ⟨w.copy, some .Function, w.copyType⟩
  writePlace w.place value

def callArg (parts : Parts) (param : Variable) (arg : Expr) : Lower (Id × Option CopyOut) := do
  if param.roles.outParameter then outputArg parts arg param.roles.inParameter
  else if param.isByReference then return (← referenceArg parts arg, none)
  else return (← parts.value arg, none)

def callArgs (parts : Parts) : List Variable → List Expr → Lower (List Id × List CopyOut)
  | param :: params, arg :: args => do
    let (id, back) ← callArg parts param arg
    let (ids, backs) ← callArgs parts params args
    return (id :: ids, back.toList ++ backs)
  | _, _ => return ([], [])

def call (parts : Parts) (func : Variable) (args : List Expr) : Lower Id := do
  match func.ty with
  | .function ret params =>
    if args.length ≠ params.length then Build.refuse (.argCount (.function func.name) params.length args.length)
    let function ← onModule (Module.functionNamed func.name)
    let (ids, backs) ← callArgs parts params args
    let id ← emit .FunctionCall ret (function :: ids)
    backs.forM copyOut
    return id
  | ty => Build.refuse (.typeMismatch .function ty)

end Lower

end Shader
