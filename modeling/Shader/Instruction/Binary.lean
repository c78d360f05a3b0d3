import Shader.Instruction.Format

/-!
# Instructions in words

The leading word of an instruction holds the number of its words in the high half and the opcode in
the low half. The result type, the result, the string and the tail follow, as the shape has them.
-/

namespace Shader

namespace Inst

def wordCount (inst : Inst) : Nat :=
  1 + inst.resultType.toList.length + inst.result.toList.length + (inst.name.map LiteralString.length).getD 0
    + inst.operands.length + 2 * (inst.labels.getD []).length

def matchShape (inst : Inst) : Except EncodeFault Unit :=
  match inst.op.shape? with
  | none => .error .unsupportedOpcode
  | some shape =>
    if inst.resultType.isSome != shape.resultType then .error (.mismatch .resultType)
    else if inst.result.isSome != shape.result then .error (.mismatch .result)
    else if inst.name.isSome != shape.name then .error (.mismatch .name)
    else if inst.labels.isSome != (shape.tail == .labels) then .error (.mismatch .labels)
    else if shape.tail != .operands && !inst.operands.isEmpty then .error (.mismatch .operands)
    else .ok ()

def body (inst : Inst) : List Word :=
  inst.resultType.toList ++ inst.result.toList ++ (inst.name.map LiteralString.pack).getD [] ++ inst.operands
    ++ (inst.labels.getD []).flatMap (fun l => [l.1.toUInt32, l.2])

def encode (inst : Inst) : Except FormatError (List Word) :=
  match inst.matchShape with
  | .error fault => .error (.unencodable inst.op fault)
  | .ok () =>
    if UInt16.size ≤ inst.wordCount then .error (.unencodable inst.op (.tooLong inst.wordCount))
    else .ok ((Enumerated.number inst.op ||| (inst.wordCount.toUInt32 <<< 16)) :: inst.body)

/-- The words of the instructions one after the other, up to the first that cannot be written. -/
def encodeAll : List Inst → Except FormatError (List Word)
  | [] => .ok []
  | inst :: rest => do return (← inst.encode) ++ (← encodeAll rest)

def takeId (present : Bool) (words : List Word) : Except DecodeFault (Option Id × List Word) :=
  if !present then .ok (none, words)
  else match words with
    | [] => .error .truncated
    | w :: rest => .ok (some w, rest)

def takeName (present : Bool) (words : List Word) : Except DecodeFault (Option String × List Word) :=
  if !present then .ok (none, words)
  else match LiteralString.unpack words with
    | .error fault => .error (.badName fault)
    | .ok (name, length) => .ok (some name, words.drop length)

def pairs : List Word → Option (List (Int32 × Id))
  | [] => some []
  | [_] => none
  | literal :: label :: rest => (pairs rest).map ((literal.toInt32, label) :: ·)

/-- An instruction with all fields but those of the tail, and these from the last words. -/
def decodeTail (inst : Inst) (tail : Tail) (words : List Word) : Except DecodeFault Inst :=
  match tail with
  | .none => if words.isEmpty then .ok inst else .error .overlong
  | .operands => .ok { inst with operands := words }
  | .labels =>
    match pairs words with
    | none => .error .unpairedLabel
    | some labels => .ok { inst with labels := some labels }

def decodeBody (op : Op) (shape : Shape) (words : List Word) : Except DecodeFault Inst := do
  let (resultType, words) ← takeId shape.resultType words
  let (result, words) ← takeId shape.result words
  let (name, words) ← takeName shape.name words
  decodeTail { op, resultType, result, name } shape.tail words

def decode : List Word → Except FormatError (Inst × List Word)
  | [] => .error .truncatedStream
  | first :: rest =>
    let number := first &&& 0xFFFF
    let count := (first >>> 16).toNat
    match Op.read? number with
    | none => .error (.unsupportedOpcode number)
    | some (op, shape) =>
      if count = 0 then .error (.undecodable op .zeroWordCount)
      else if rest.length + 1 < count then .error (.undecodable op .truncated)
      else match decodeBody op shape (rest.take (count - 1)) with
        | .error fault => .error (.undecodable op fault)
        | .ok inst => .ok (inst, rest.drop (count - 1))

theorem decode_length {words rest : List Word} {inst : Inst} (h : decode words = .ok (inst, rest)) :
    rest.length < words.length := by
  cases words with
  | nil => cases h
  | cons first tail =>
    simp only [decode] at h
    repeat' split at h
    all_goals cases h
    simp only [List.length_drop, List.length_cons]
    omega

/-- All instructions of the words in order, and the fault that stopped the reading, if one did. -/
def decodeAll (words : List Word) : List Inst × Option FormatError :=
  if words.isEmpty then ([], none)
  else match h : decode words with
    | .error e => ([], some e)
    | .ok (inst, rest) =>
      have := decode_length h
      let (insts, fault) := decodeAll rest
      (inst :: insts, fault)
termination_by words.length

end Inst

structure Header where
  version : Word
  generator : Word
  bound : Word
  schema : Word
deriving DecidableEq, Repr

namespace Header

def magic : Word := 0x07230203

def words (h : Header) : List Word := [magic, h.version, h.generator, h.bound, h.schema]

def major (h : Header) : UInt8 := (h.version >>> 16).toUInt8

def minor (h : Header) : UInt8 := (h.version >>> 8).toUInt8

def read : List Word → Except FormatError (Header × List Word)
  | first :: version :: generator :: bound :: schema :: rest =>
    if first = magic then .ok (⟨version, generator, bound, schema⟩, rest)
    else if first.swapBytes = magic then
      .ok (⟨version.swapBytes, generator.swapBytes, bound.swapBytes, schema.swapBytes⟩, rest.map Word.swapBytes)
    else .error .badMagic
  | _ => .error .truncatedHeader

end Header

def wordsOfBytes : List UInt8 → Except FormatError (List Word)
  | [] => .ok []
  | a :: b :: c :: d :: rest => do return Word.ofBytes a b c d :: (← wordsOfBytes rest)
  | _ => .error .notWholeWords

def bytesOfWords (words : List Word) : List UInt8 := words.flatMap Word.bytes

end Shader
