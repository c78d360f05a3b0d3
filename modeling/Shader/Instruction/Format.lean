import Shader.Instruction.Listing
import Shader.Instruction.LiteralString

/-!
# Faults of the binary form

Every way in which words can fail to be a module, or an instruction can fail to be written, and the
text that reports it.
-/

namespace Shader

inductive Field where
  | resultType
  | result
  | name
  | labels
  | operands
deriving DecidableEq, Repr

def Field.text : Field → String
  | .resultType => "result type ID"
  | .result => "result ID"
  | .name => "name"
  | .labels => "labels"
  | .operands => "operands"

inductive EncodeFault where
  | unsupportedOpcode
  /-- The field is there although the shape has none, or the other way round. -/
  | mismatch (field : Field)
  /-- The number of words does not fit into half a word. -/
  | tooLong (count : Nat)
deriving DecidableEq, Repr

def EncodeFault.text : EncodeFault → String
  | .unsupportedOpcode => "unsupported opcode"
  | .mismatch field => s!"{field.text} mismatch"
  | .tooLong count => s!"word count {count} doesn't fit in 16 bits"

inductive DecodeFault where
  | truncated
  | overlong
  | zeroWordCount
  | unpairedLabel
  | badName (fault : LiteralString.Fault)
deriving DecidableEq, Repr

def DecodeFault.text : DecodeFault → String
  | .truncated => "truncated instruction"
  | .overlong => "overlong instruction"
  | .zeroWordCount => "word count of 0"
  | .unpairedLabel => "unpaired switch label"
  | .badName .missingTerminator => "missing \\0 terminator in literal string"
  | .badName (.invalidUtf8 fault) => s!"literal string is not UTF-8: {fault.message}"

inductive FormatError where
  | notWholeWords
  | truncatedHeader
  | badMagic
  | truncatedStream
  | unsupportedOpcode (number : Word)
  | undecodable (op : Op) (fault : DecodeFault)
  | unencodable (op : Op) (fault : EncodeFault)
  | missingResult (op : Op)
  | labelInBlock
  | functionEndInBlock
  | outsideBlock (op : Op)
  | outsideFunction (op : Op)
  | missingFunctionEnd
  | secondEntryPoint
  | functionOperands
deriving DecidableEq

namespace FormatError

def reason : FormatError → String
  | .notWholeWords => "not a multiple of 4 bytes"
  | .truncatedHeader => "truncated header"
  | .badMagic => "incorrect magic number"
  | .truncatedStream => "truncated instruction stream"
  | .unsupportedOpcode number => s!"unsupported opcode {number}"
  | .undecodable op fault => s!"in {op.mnemonic}: {fault.text}"
  | .unencodable op fault => s!"in {op.mnemonic}: {fault.text}"
  | .missingResult op => s!"{op.mnemonic} without result"
  | .labelInBlock => "OpLabel inside an unterminated block"
  | .functionEndInBlock => "OpFunctionEnd inside an unterminated block"
  | .outsideBlock op => s!"{op.mnemonic} outside of a block"
  | .outsideFunction op => s!"{op.mnemonic} outside of a function"
  | .missingFunctionEnd => "missing OpFunctionEnd"
  | .secondEntryPoint => "multiple entry-points are not supported"
  | .functionOperands => "OpFunction needs exactly 2 operands"

def message (e : FormatError) : String := s!"malformed SPIR-V ({e.reason})"

end FormatError

end Shader
