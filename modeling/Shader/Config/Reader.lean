import Shader.Config.Basic
import Shader.Json

/-!
# Settings in JSON

Settings are written as an object, in which each may be left out but none may stand twice, or as an
array of them in order, in which the last ones may be left out. Fields of other names are skipped.
-/

namespace Shader.Config

def readNat (bound : Nat) (v : Json) : Option Nat := do
  let n ← v.toNat?
  if n < bound then some n else none

/-- A member of an enumeration: its name, or an object with the name as its only field and no
value. -/
def readEnumerated {α : Type} [Enumerated α] : Json → Option α
  | .string name => Enumerated.ofName? name
  | .object [(name, .null)] => Enumerated.ofName? name
  | _ => none

def readVersion : Json → Option Version
  | .array [major, minor] => do
    return ⟨(← readNat 256 major).toUInt8, (← readNat 256 minor).toUInt8⟩
  | _ => none

def settings : List (String × (Config → Json → Option Config)) :=
  [("version", fun c v => do return { c with version := ← readVersion v }),
   ("generator", fun c v => do return { c with generator := (← readNat UInt32.size v).toUInt32 }),
   ("execution_model", fun c v => do return { c with executionModel := ← readEnumerated v }),
   ("memory_model", fun c v => do return { c with memoryModel := ← readEnumerated v }),
   ("fragment_origin", fun c v => do return { c with fragmentOrigin := ← readEnumerated v }),
   ("max_expr_depth", fun c v => do return { c with nestingLimit := ← readNat UInt64.size v })]

/-- Sets what the fields say, `seen` being the names of settings already met. -/
def readFields (c : Config) (seen : List String) : List (String × Json) → Option Config
  | [] => some c
  | (key, v) :: rest =>
    match settings.find? (·.1 == key) with
    | none => readFields c seen rest
    | some (_, set) =>
      if seen.contains key then none else do readFields (← set c v) (key :: seen) rest

def readItems (c : Config) : List (String × (Config → Json → Option Config)) → List Json → Option Config
  | _, [] => some c
  | [], _ :: _ => none
  | (_, set) :: rest, v :: vs => do readItems (← set c v) rest vs

def ofJson? : Json → Option Config
  | .object fields => readFields {} [] fields
  | .array items => readItems {} settings items
  | _ => none

def parse? (s : String) : Option Config := (Json.parse? s).bind ofJson?

def toJson (c : Config) : Json :=
  .object [ ("version", .array [.integer c.version.major.toNat, .integer c.version.minor.toNat]),
    ("generator", .integer c.generator.toNat),
    ("execution_model", .string (Enumerated.name c.executionModel)),
    ("memory_model", .string (Enumerated.name c.memoryModel)),
    ("fragment_origin", .string (Enumerated.name c.fragmentOrigin)),
    ("max_expr_depth", .integer c.nestingLimit)]

end Shader.Config
