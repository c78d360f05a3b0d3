import Shader.Lowering.Expression
import Shader.Module.Binary

/-!
# Workbenches

A module with the functions and blocks that are under construction beside it, and with what the
expressions met so far require. Functions and blocks are numbered in the order in which they are
begun; one of each can be the current one.
-/

namespace Shader

/-! ## Racks -/

/-- Things under construction. A place stays empty after its thing is taken away. -/
structure Rack (α : Type) where
  places : List (Option α) := []
  current : Option Nat := none

namespace Rack

variable {α : Type}

def get? (r : Rack α) : Option α := r.current.bind fun i => r.places[i]?.join

def add (r : Rack α) (a : α) : Rack α := ⟨r.places ++ [some a], some r.places.length⟩

def put (r : Rack α) (a : α) : Rack α :=
  match r.current with
  | none => r
  | some i => { r with places := r.places.set i (some a) }

def takeAway (r : Rack α) : Rack α :=
  match r.current with
  | none => r
  | some i => ⟨r.places.set i none, none⟩

def use (r : Rack α) (i : Nat) : Rack α := { r with current := some i }

end Rack

/-! ## Workbenches -/

structure Workbench where
  module : Module
  requirements : Requirements := {}
  functions : Rack FunctionScope := {}
  blocks : Rack Block := {}

inductive Setback where
  | fault (fault : Fault)
  | malformed (error : FormatError)
  | noFunction
  | noBlock

abbrev Work := ExceptT Setback (StateM Workbench)

namespace Workbench

def start (config : Config) : Workbench := { module := Module.new config }

/-- The names that are local to the current function; none are outside of functions. -/
def locals? (w : Workbench) (global : Bool) : Option Scope :=
  if global then none else w.functions.get?.map (·.locals)

def lookup (w : Workbench) (global : Bool) (name : String) : Option Entity := w.module.lookup (w.locals? global) name

end Workbench

namespace Work

variable {α : Type}

def ofFault (x : Except Fault α) : Work α :=
  match x with
  | .ok a => return a
  | .error f => throw (.fault f)

def onModule (x : Build α) : Work α := do
  let w ← get
  let (result, module) := x w.module
  set { w with module }
  ofFault result

def currentFunction : Work FunctionScope := do
  match (← get).functions.get? with
  | none => throw .noFunction
  | some f => return f

def currentBlock : Work Block := do
  match (← get).blocks.get? with
  | none => throw .noBlock
  | some b => return b

def setFunction (f : FunctionScope) : Work Unit := modify fun w => { w with functions := w.functions.put f }

def setBlock (b : Block) : Work Unit := modify fun w => { w with blocks := w.blocks.put b }

def declare (name : String) (global : Bool) (x : Option Scope → Build Declared) : Work Entity := do
  let locals := (← get).locals? global
  let d ← onModule (x locals)
  if let some f := (← get).functions.get? then setFunction (f.take name d)
  return d.entity

def lowering (x : Lower α) : Work α := do
  let func ← currentFunction
  let block ← currentBlock
  let module := (← get).module
  let (result, s) := x { module, func, block }
  modify fun w => { w with module := s.module }
  setFunction s.func
  setBlock s.block
  ofFault result

/-- Makes what is read the module. If it cannot be read, the module stays. -/
def loadModule (x : Except FormatError Module) : Work Unit := do
  match x with
  | .ok module => modify fun w => { w with module }
  | .error e => throw (.malformed e)

end Work

end Shader
