import Shader.Workbench.Basic

/-!
# Operations on a workbench

Everything that can be done to a module while it is built, as data. A run performs operations one
after the other; one that fails leaves behind what it did before it failed.
-/

namespace Shader

inductive Operation where
  -- Identifiers
  | freshId
  | glslStd450
  | takeIntermediate
  | releaseIntermediate (id : Id)
  -- The module as a whole
  | capability (c : Capability)
  | extension (name : String)
  | scan (e : Expr)
  | requirements
  | interface
  | entryPoint (function : Id) (name : String) (inputs outputs : List Id)
  | executionMode (mode : ExecutionMode) (operands : List Word)
  /-- Puts an instruction into a section as it is. -/
  | insert (target : Module.Section) (inst : Inst)
  -- Decorations
  | decorate (id : Id) (d : Decoration) (operands : List Word)
  | decorateMember (id : Id) (index : Word) (d : Decoration) (operands : List Word)
  | setLocation (id : Id) (location : Word)
  | bindResource (id : Id) (binding set : Word)
  | bindBuffer (name : String) (binding set : Word) (mark : Decoration)
  -- Types and constants
  | type (ty : Ty) (layout : Option MemoryLayout)
  | tupleType (members : List Id)
  | pointerType (pointee : Id) (storage : StorageClass)
  | functionType (ret : Id) (params : List Id)
  | literal (value : Literal)
  | composite (constituents : List Id) (ty : Ty)
  | specConstant (name : String) (specId : Word) (ty : Ty) (default : Literal)
  | specConstantOp (type : Id) (op : Op) (operands : List Id)
  -- Variables, in the current function or, if `global`, outside of functions
  | declare (name : String) (storage : StorageClass) (ty : Ty) (global : Bool)
  | resolve (v : Variable) (global : Bool)
  | memberVariable (outer : Id) (name : String) (index : Word) (global : Bool)
  | tempVariable (ty : Ty)
  -- Functions and blocks
  | functionNamed (name : String)
  | openFunction (name : String) (ret : Ty) (params : List Variable)
  | freshBlock
  | useFunction (i : Nat)
  | useBlock (i : Nat)
  /-- Puts an instruction into the current block as it is. -/
  | push (inst : Inst)
  | terminate (inst : Inst)
  /-- Moves the current block into the current function. -/
  | appendBlock
  /-- Ends the current function, which is gone even if it is refused. -/
  | closeFunction
  | lower (e : Expr)
  | lowerPointer (e : Expr)
  -- Words
  /-- Reads the module back from its own words. -/
  | reload
  | load (words : List Word)

inductive Answer where
  | done
  | id (id : Id)
  | entity (e : Entity)
  | function (f : Function)
  | requirements (r : Requirements)
  | interface (inputs outputs : List Id)

namespace Operation

def effect (x : Build Unit) : Work Answer := do
  Work.onModule x
  return .done

def yielding (x : Build Id) : Work Answer := do return .id (← Work.onModule x)

def perform : Operation → Work Answer
  | .freshId => yielding Module.freshId
  | .glslStd450 => yielding Module.importGlslStd450
  | .takeIntermediate => yielding Module.takeIntermediate
  | .releaseIntermediate id => effect (Module.releaseIntermediate id)
  | .capability c => effect (Module.addCapability c)
  | .extension name => effect (Module.addExtension name)
  | .scan e => do
    modify fun w => { w with requirements := w.requirements.scan e }
    return .requirements (← get).requirements
  | .requirements => do
    effect (Module.addRequirements (← get).requirements)
  | .interface => do
    let (inputs, outputs) ← Work.onModule (Module.declareInterface (← get).requirements)
    return .interface inputs outputs
  | .entryPoint function name inputs outputs => effect (Module.setEntryPoint function name inputs outputs)
  | .executionMode mode operands => effect (Module.addExecutionMode mode operands)
  | .insert target inst => effect (modify fun m => m.insert target inst)
  | .decorate id d operands => effect (Module.decorate id d operands)
  | .decorateMember id index d operands => effect (Module.decorateMember id index d operands)
  | .setLocation id location => effect (Module.setLocation id location)
  | .bindResource id binding set => effect (Module.bindResource id binding set)
  | .bindBuffer name binding set mark => effect (Module.bindBuffer name binding set mark)
  | .type ty layout => yielding (Module.declareTypeWith layout none ty)
  | .tupleType members => yielding (Module.declareTuple members)
  | .pointerType pointee storage => yielding (Module.declarePointer pointee storage)
  | .functionType ret params => yielding (Module.declareSignature ret params)
  | .literal value => yielding (Module.declareLiteral value)
  | .composite constituents ty => yielding (Module.declareComposite constituents ty)
  | .specConstant name specId ty default => yielding (Module.declareSpecialization name specId ty default)
  | .specConstantOp ty op operands => yielding (Module.declareFolded ty op operands)
  | .declare name storage ty global => do
    return .entity (← Work.declare name global fun locals => Module.declareVariable locals name storage ty)
  | .resolve v global => do
    return .entity (← Work.declare v.outermost.name global fun locals => Module.declareByRole locals v)
  | .memberVariable outer name index global => do
    let locals := (← get).locals? global
    yielding (Module.nameMember locals outer name index)
  | .tempVariable ty => do
    let f ← Work.currentFunction
    let (id, inst) ← Work.onModule (Module.declareTemporary ty)
    Work.setFunction (f.queue inst)
    return .id id
  | .functionNamed name => yielding (Module.functionNamed name)
  | .openFunction name ret params => do
    let f ← Work.onModule (Module.openFunction name ret params)
    modify fun w => { w with functions := w.functions.add f }
    return .function f.function
  | .freshBlock => do
    let b ← Work.onModule Module.freshBlock
    modify fun w => { w with blocks := w.blocks.add b }
    return .id b.label
  | .useFunction i => do
    modify fun w => { w with functions := w.functions.use i }
    return .done
  | .useBlock i => do
    modify fun w => { w with blocks := w.blocks.use i }
    return .done
  | .push inst => do
    let b ← Work.currentBlock
    Work.setBlock (b.push inst)
    return .done
  | .terminate inst => do
    let b ← Work.currentBlock
    match b.terminate inst with
    | .ok b => do
      Work.setBlock b
      return .done
    | .error e => throw (.fault (.refused e))
  | .appendBlock => do
    let f ← Work.currentFunction
    let b ← Work.currentBlock
    Work.setFunction (f.appendBlock b)
    modify fun w => { w with blocks := w.blocks.takeAway }
    return .done
  | .closeFunction => do
    let f ← Work.currentFunction
    modify fun w => { w with functions := w.functions.takeAway }
    yielding (Module.closeFunction f)
  | .lower e => do return .id (← Work.lowering (Lower.lower e))
  | .lowerPointer e => do return .id (← Work.lowering (Lower.lowerPointer e))
  | .reload => do
    Work.loadModule ((← get).module.toWords >>= Module.ofWords)
    return .done
  | .load words => do
    Work.loadModule (Module.ofWords words)
    return .done

end Operation

namespace Workbench

def perform (w : Workbench) (op : Operation) : Except Setback Answer × Workbench := op.perform w

def run (w : Workbench) (ops : List Operation) : Workbench := ops.foldl (fun w op => (w.perform op).2) w

end Workbench

end Shader
