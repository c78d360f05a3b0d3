import Shader.Instruction.Binary
import Shader.Module.FunctionBuilding

/-!
# Modules in words

Writing a module, section by section, and reading one back. Reading sorts the instructions outside
of functions into sections and checks that functions and blocks are closed. The registries of a
module that was read are empty but for capabilities, extensions, the extended instructions and the
names of functions.
-/

namespace Shader

/-! ## Writing -/

def Block.code (b : Block) (hoisted : List Inst) : List Inst :=
  .defining .Label b.label [] :: (hoisted ++ b.instructions ++ b.terminator.toList)

/-- All instructions of the function; queued variables stand in the first block. -/
def Function.code (f : Function) : List Inst :=
  let blocks : List Inst :=
    match f.blocks with
    | [] => []
    | first :: rest => first.code f.queued ++ rest.flatMap (·.code [])
  .value .Function f.returnType f.id [f.control, f.functionType]
    :: (f.params.map (fun p => .value .FunctionParameter p.1 p.2 []) ++ blocks ++ [.effect .FunctionEnd []])

namespace Module

def globalInstructions (m : Module) : List Inst :=
  m.capabilities ++ m.extensions ++ m.imports ++ m.memoryModel.toList ++ m.entryPoint.toList
    ++ m.executionModes ++ m.debug ++ m.decorations ++ m.declarations

def instructions (m : Module) : List Inst := m.globalInstructions ++ m.functions.flatMap Function.code

def header (m : Module) : Header := ⟨m.config.version.word, m.config.generator, m.bound, 0⟩

def toWords (m : Module) : Except FormatError (List Word) := do
  return m.header.words ++ (← Inst.encodeAll m.instructions)

def listing (m : Module) : String :=
  let head := [ s!"; SPIR-V {m.config.version.major}.{m.config.version.minor}",
    "; Generator: 0x" ++ Text.hexPadded 8 m.config.generator.toNat,
    s!"; Bound: {m.bound}"]
  String.join ((head ++ m.instructions.map Inst.listing).map (· ++ "\n"))

/-! ## Reading -/

inductive Section where
  | capabilities
  | extensions
  | imports
  | memoryModel
  | entryPoint
  | executionModes
  | debug
  | decorations
  | declarations
deriving DecidableEq, Repr

end Module

def Op.section : Op → Module.Section
  | .Capability => .capabilities
  | .Extension => .extensions
  | .ExtInstImport => .imports
  | .MemoryModel => .memoryModel
  | .EntryPoint => .entryPoint
  | .ExecutionMode | .ExecutionModeId => .executionModes
  | .Source | .SourceExtension | .Name | .MemberName | .String | .Line | .NoLine
  | .ModuleProcessed => .debug
  | .Decorate | .MemberDecorate | .DecorationGroup | .GroupDecorate => .decorations
  | _ => .declarations

namespace Module

/-- The module with the instruction in a section; a memory model or an entry point takes the place
of the one before. -/
def insert (m : Module) (s : Section) (inst : Inst) : Module :=
  match s with
  | .capabilities => { m with capabilities := m.capabilities ++ [inst] }
  | .extensions => { m with extensions := m.extensions ++ [inst] }
  | .imports => { m with imports := m.imports ++ [inst] }
  | .memoryModel => { m with memoryModel := some inst }
  | .entryPoint => { m with entryPoint := some inst }
  | .executionModes => { m with executionModes := m.executionModes ++ [inst] }
  | .debug => { m with debug := m.debug ++ [inst] }
  | .decorations => { m with decorations := m.decorations ++ [inst] }
  | .declarations => { m with declarations := m.declarations ++ [inst] }

def learn (m : Module) (inst : Inst) : Module :=
  match inst.op.section with
  | .capabilities =>
    match inst.operands.head? with
    | some number => { m with capabilitySet := addNew m.capabilitySet number }
    | none => m
  | .extensions =>
    match inst.name with
    | some name => { m with extensionSet := addNew m.extensionSet name }
    | none => m
  | .imports => if inst.name = some setName then { m with glslStd450 := inst.result } else m
  | .memoryModel =>
    match inst.operands[1]?.bind Enumerated.ofNumber? with
    | some model => { m with config := { m.config with memoryModel := model } }
    | none => m
  | .entryPoint =>
    match inst.resultType.bind Enumerated.ofNumber? with
    | some model => { m with config := { m.config with executionModel := model } }
    | none => m
  | _ => m

structure Pending where
  function : Function
  block : Option Block := none

structure Reading where
  module : Module
  pending : Option Pending := none

def controlMask : Word := 0x1000f

def functionOf (inst : Inst) : Except FormatError Function :=
  match inst.resultType, inst.result with
  | some returnType, some id =>
    match inst.operands with
    | [control, functionType] => .ok { name := "", id, returnType, control := control &&& controlMask, functionType }
    | _ => .error .functionOperands
  | _, _ => .error (.missingResult .Function)

def readGlobal (m : Module) (inst : Inst) : Except FormatError Reading :=
  if inst.op = .Function then do
    return ⟨m, some { function := ← functionOf inst }⟩
  else if inst.op = .FunctionEnd || inst.op.isTerminator then .error (.outsideFunction inst.op)
  else if inst.op = .EntryPoint && m.entryPoint.isSome then .error .secondEntryPoint
  else .ok ⟨(m.learn inst).insert inst.op.section inst, none⟩

def readLocal (m : Module) (p : Pending) (inst : Inst) : Except FormatError Reading :=
  let f := p.function
  let reading (p : Pending) : Reading := ⟨m, some p⟩
  if inst.op = .FunctionParameter && p.block.isNone && f.blocks.isEmpty then
    match inst.resultType, inst.result with
    | some type, some id => .ok (reading { p with function := { f with params := f.params ++ [(type, id)] } })
    | _, _ => .error (.missingResult .FunctionParameter)
  else if inst.op = .Label then
    match p.block, inst.result with
    | some _, _ => .error .labelInBlock
    | none, some label => .ok (reading { p with block := some { label } })
    | none, none => .error (.missingResult .Label)
  else if inst.op = .FunctionEnd then
    match p.block with
    | some _ => .error .functionEndInBlock
    | none => .ok ⟨{ m with functions := m.functions ++ [f] }, none⟩
  else
    match p.block with
    | none => .error (.outsideBlock inst.op)
    | some b =>
      if inst.op.isTerminator then
        let closed := { b with terminator := some inst }
        .ok (reading { function := { f with blocks := f.blocks ++ [closed] } })
      else .ok (reading { p with block := some (b.push inst) })

def readInst (r : Reading) (inst : Inst) : Except FormatError Reading :=
  match r.pending with
  | none => readGlobal r.module inst
  | some p => readLocal r.module p inst

def debugName? (m : Module) (id : Id) : Option String :=
  m.debug.findSome? fun inst =>
    if inst.op = .Name && inst.result = some id then inst.name else none

def restoreNames (m : Module) : Module :=
  { m with
    functions := m.functions.map (fun f => { f with name := (m.debugName? f.id).getD f.name })
    functionIds := m.functions.foldl (fun ids f =>
      match m.debugName? f.id with
      | some name => ids.put name f.id
      | none => ids) m.functionIds }

/-- The module of a header and the instructions after it. A fault in the instructions is met only
after all that stand before it. -/
def ofInstructions (header : Header) (insts : List Inst) (fault : Option FormatError) :
    Except FormatError Module := do
  let config : Config := { version := ⟨header.major, header.minor⟩, generator := header.generator }
  let reading ← insts.foldlM readInst { module := { config, bound := header.bound } }
  if let some fault := fault then
    throw fault
  if reading.pending.isSome then
    throw .missingFunctionEnd
  return reading.module.restoreNames

def ofWords (words : List Word) : Except FormatError Module := do
  let (header, body) ← Header.read words
  let (insts, fault) := Inst.decodeAll body
  ofInstructions header insts fault

def ofBytes (bytes : List UInt8) : Except FormatError Module := do
  ofWords (← wordsOfBytes bytes)

def toBytes (m : Module) : Except FormatError (List UInt8) := do
  return bytesOfWords (← m.toWords)

end Module

end Shader
