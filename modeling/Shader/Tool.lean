import Shader.Module.Binary

/-!
# Tools for module files

What the command-line tools do with the bytes of a file: print the listing of the module in them, or
report on the module and write it again.
-/

namespace Shader

structure Outcome where
  success : Bool
  output : String := ""
  diagnostics : String := ""
  file : Option (List UInt8) := none

abbrev Input := Option (List UInt8)

namespace Tool

inductive Failure where
  | noSuchFile
  | malformed (error : FormatError)

def Failure.text : Failure → String
  | .noSuchFile => "Os \x7b code: 2, kind: NotFound, message: \"No such file or directory\" \x7d"
  | .malformed error => "Custom \x7b kind: InvalidData, error: " ++ Text.quote error.message ++ " \x7d"

def failed (f : Failure) (diagnostics : String) : Outcome :=
  { success := false, diagnostics := diagnostics ++ "Error: " ++ f.text ++ "\n" }

def read (input : Input) : Except Failure Module :=
  match input with
  | none => .error .noSuchFile
  | some bytes => (Module.ofBytes bytes).mapError .malformed

def disassemble (input : Input) : Outcome :=
  match read input with
  | .error f => failed f ""
  | .ok m => { success := true, output := m.listing }

/-! ## Reports -/

def capabilityLine (inst : Inst) : String :=
  match inst.operands.head?.bind (Enumerated.ofNumber? (α := Capability)) with
  | some c => "    " ++ Enumerated.name c
  | none => "    " ++ inst.listing

def functionLine (f : Function) : String :=
  let count := f.blocks.foldl (fun n b => n + (b.instructions.length + 1)) 0
  s!"    %{f.id} `{f.name}`: {f.blocks.length} block(s), {count} instruction(s)"

def report (m : Module) : List String :=
  let capabilities :=
    if m.capabilities.isEmpty then [] else "  Capabilities:" :: m.capabilities.map capabilityLine
  let entryPoint := m.entryPoint.toList.map fun inst => "  Entry-point: " ++ inst.listing
  let declarations := m.declarations.length
  let decorations := m.decorations.length
  let functions := m.functions.length
  s!"SPIR-V {m.config.version.major}.{m.config.version.minor} module:" :: (capabilities ++ entryPoint
      ++ s!"  {declarations} declaration(s), {decorations} decoration(s), {functions} function(s):"
        :: m.functions.map functionLine)

def roundtrip (input : Input) : Outcome :=
  match read input with
  | .error f => failed f ""
  | .ok m =>
    let diagnostics := String.join ((report m).map (· ++ "\n"))
    match m.toBytes with
    | .error e => failed (.malformed e) diagnostics
    | .ok bytes => { success := true, diagnostics, file := some bytes }

end Tool

/-! ## Command lines -/

inductive Command where
  | disassemble (input : String)
  | roundtrip (input output : String)
  /-- To be told how a tool is called. -/
  | usage (text : String)
deriving DecidableEq, Repr

namespace Command

/-- The command of the tool of that name with arguments; nothing if there is no such tool. -/
def ofArgs? : String → List String → Option Command
  | "dis", [input] => some (.disassemble input)
  | "dis", _ => some (.usage "dis IN")
  | "roundtrip", [input, output] => some (.roundtrip input output)
  | "roundtrip", _ => some (.usage "roundtrip IN OUT")
  | _, _ => none

def input? : Command → Option String
  | .disassemble input | .roundtrip input _ => some input
  | .usage _ => none

def output? : Command → Option String
  | .roundtrip _ output => some output
  | .disassemble _ | .usage _ => none

def run (command : Command) (input : Input) : Outcome :=
  match command with
  | .disassemble _ => Tool.disassemble input
  | .roundtrip .. => Tool.roundtrip input
  | .usage text => { success := false, diagnostics := s!"Usage: {text}\n" }

end Command

end Shader
