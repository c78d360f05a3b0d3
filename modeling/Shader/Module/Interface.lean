import Shader.Expr.Requirements
import Shader.Module.VariableDeclaration

/-!
# Capabilities, extensions and the entry point

What a module says about itself as a whole.
-/

namespace Shader.Module

def addCapability (c : Capability) : Build Unit :=
  modify fun m =>
    let number := Enumerated.number c
    if m.capabilitySet.contains number then m
    else { m with
      capabilitySet := m.capabilitySet ++ [number]
      capabilities := m.capabilities ++ [.effect .Capability [number]] }

def declaresCapability (m : Module) (c : Capability) : Bool := m.capabilitySet.contains (Enumerated.number c)

def addExtension (name : String) : Build Unit :=
  modify fun m =>
    if m.extensionSet.contains name then m
    else { m with
      extensionSet := m.extensionSet ++ [name]
      extensions := m.extensions ++ [{ op := .Extension, name := some name }] }

def addRequirements (r : Requirements) : Build Unit := r.capabilities.forM addCapability

def declareGlobals (ids : List Id) : List Variable → Build (List Id)
  | [] => return ids
  | v :: vs => do
    let d ← declareByRole none v
    declareGlobals (addNew ids d.entity.id) vs

def declareInterface (r : Requirements) : Build (List Id × List Id) := do
  let inputs ← declareGlobals [] r.inputs.values
  let outputs ← declareGlobals [] r.outputs.values
  return (inputs, outputs)

def entryFunction? (m : Module) : Option Id := m.entryPoint.bind (·.result)

def modeInst (function : Id) (mode : ExecutionMode) (operands : List Word) : Inst :=
  .effect .ExecutionMode ([function, Enumerated.number mode] ++ operands)

/-- Sets a mode of the entry point, or of the one to come if there is none. -/
def addExecutionMode (mode : ExecutionMode) (operands : List Word) : Build Unit :=
  modify fun m =>
    match m.entryFunction? with
    | some function =>
      { m with executionModes := m.executionModes ++ [modeInst function mode operands] }
    | none => { m with pendingModes := m.pendingModes ++ [(mode, operands)] }

/-- Makes the function the entry point. The modes that waited for one become its modes, after the
origin that a fragment entry point gets. -/
def setEntryPoint (function : Id) (name : String) (inputs outputs : List Id) :
    Build Unit := do
  modify fun m => { m with
    entryPoint := some {
      op := .EntryPoint
      resultType := some (Enumerated.number m.config.executionModel)
      result := some function
      name := some name
      operands := inputs ++ outputs } }
  if (← get).config.executionModel = .Fragment then addExecutionMode (← get).config.fragmentOrigin []
  modify fun m => { m with
    executionModes := m.executionModes ++ m.pendingModes.map (fun p => modeInst function p.1 p.2)
    pendingModes := [] }

end Shader.Module
