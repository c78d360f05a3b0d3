/-!
# UTF-8

Reading bytes as UTF-8 text. Where the bytes are not well formed, the fault says where the longest
well-formed part ends and how many bytes from there begin no character.
-/

namespace Shader.Utf8

structure Fault where
  index : Nat
  /-- How many bytes after it can start no character; none if the text only ends too early. -/
  length : Option Nat
deriving DecidableEq, Repr

def Fault.message : Fault → String
  | ⟨index, some length⟩ => s!"invalid utf-8 sequence of {length} bytes from index {index}"
  | ⟨index, none⟩ => s!"incomplete utf-8 byte sequence from index {index}"

def isTail (b : UInt8) : Bool := 0x80 ≤ b && b ≤ 0xBF

def isSecondOfThree (a b : UInt8) : Bool :=
  if a = 0xE0 then 0xA0 ≤ b && b ≤ 0xBF
  else if a = 0xED then 0x80 ≤ b && b ≤ 0x9F
  else isTail b

def isSecondOfFour (a b : UInt8) : Bool :=
  if a = 0xF0 then 0x90 ≤ b && b ≤ 0xBF
  else if a = 0xF4 then 0x80 ≤ b && b ≤ 0x8F
  else isTail b

def tailBits (b : UInt8) : Nat := b.toNat % 64

def decodeFrom (index : Nat) : List UInt8 → Except Fault (List Char)
  | [] => .ok []
  | a :: rest =>
    if a ≤ 0x7F then (decodeFrom (index + 1) rest).map (Char.ofNat a.toNat :: ·)
    else if 0xC2 ≤ a && a ≤ 0xDF then
      match rest with
      | [] => .error ⟨index, none⟩
      | b :: rest =>
        if !isTail b then .error ⟨index, some 1⟩
        else (decodeFrom (index + 2) rest).map (Char.ofNat (a.toNat % 32 * 64 + tailBits b) :: ·)
    else if 0xE0 ≤ a && a ≤ 0xEF then
      match rest with
      | [] => .error ⟨index, none⟩
      | b :: rest =>
        if !isSecondOfThree a b then .error ⟨index, some 1⟩
        else match rest with
        | [] => .error ⟨index, none⟩
        | c :: rest =>
          if !isTail c then .error ⟨index, some 2⟩
          else (decodeFrom (index + 3) rest).map (Char.ofNat ((a.toNat % 16 * 64 + tailBits b) * 64 + tailBits c) :: ·)
    else if 0xF0 ≤ a && a ≤ 0xF4 then
      match rest with
      | [] => .error ⟨index, none⟩
      | b :: rest =>
        if !isSecondOfFour a b then .error ⟨index, some 1⟩
        else match rest with
        | [] => .error ⟨index, none⟩
        | c :: rest =>
          if !isTail c then .error ⟨index, some 2⟩
          else match rest with
          | [] => .error ⟨index, none⟩
          | d :: rest =>
            if !isTail d then .error ⟨index, some 3⟩
            else (decodeFrom (index + 4) rest).map
              (Char.ofNat (((a.toNat % 8 * 64 + tailBits b) * 64 + tailBits c) * 64 + tailBits d) :: ·)
    else .error ⟨index, some 1⟩

def decode (bytes : List UInt8) : Except Fault String := (decodeFrom 0 bytes).map String.ofList

def encode (s : String) : List UInt8 := s.toUTF8.data.toList

end Shader.Utf8
