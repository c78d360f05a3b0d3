import Shader.Text.Utf8
import Shader.Word

/-!
# Literal strings

A string is stored as its UTF-8 bytes, four to a word with the first byte lowest, and at least one
zero byte after them. Reading stops at the first zero byte, so a string that holds one is cut there.
-/

namespace Shader

namespace Word

def bytes (w : Word) : List UInt8 := [w.toUInt8, (w >>> 8).toUInt8, (w >>> 16).toUInt8, (w >>> 24).toUInt8]

def ofBytes (a b c d : UInt8) : Word :=
  a.toUInt32 ||| (b.toUInt32 <<< 8) ||| (c.toUInt32 <<< 16) ||| (d.toUInt32 <<< 24)

def swapBytes (w : Word) : Word := ofBytes (w >>> 24).toUInt8 (w >>> 16).toUInt8 (w >>> 8).toUInt8 w.toUInt8

end Word

namespace LiteralString

/-- Bytes, closed by one to four zero bytes, as words. -/
def packBytes : List UInt8 → List Word
  | a :: b :: c :: d :: rest => Word.ofBytes a b c d :: packBytes rest
  | [a, b, c] => [Word.ofBytes a b c 0]
  | [a, b] => [Word.ofBytes a b 0 0]
  | [a] => [Word.ofBytes a 0 0 0]
  | [] => [0]

def pack (s : String) : List Word := packBytes (Utf8.encode s)

def length (s : String) : Nat := s.utf8ByteSize / 4 + 1

inductive Fault where
  | missingTerminator
  | invalidUtf8 (fault : Utf8.Fault)
deriving DecidableEq, Repr

/-- The string at the start of the words, and how many words it takes. -/
def unpack (words : List Word) : Except Fault (String × Nat) :=
  let bytes := words.flatMap Word.bytes
  let text := bytes.takeWhile (· ≠ 0)
  if text.length = bytes.length then .error .missingTerminator
  else match Utf8.decode text with
    | .ok s => .ok (s, text.length / 4 + 1)
    | .error fault => .error (.invalidUtf8 fault)

end LiteralString

end Shader
