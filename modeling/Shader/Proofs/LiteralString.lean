import Shader.Instruction.LiteralString
import Mathlib.Algebra.Group.Nat.Defs
import Mathlib.Data.List.TakeWhile
import Mathlib.Tactic.Common

/-!
# Reading back literal strings

Words and bytes are two views of the same numbers, UTF-8 is read back to the characters it was written
from, and a literal string ends at its first zero byte.
-/

namespace Shader

open List
open UInt8 (le_iff_toNat_le toNat_inj)

variable {s : String} {words : List Word}

namespace Word

/-! ## Words and bytes -/

theorem or_shiftLeft {a k : Nat} (b : Nat) (h : a < 2 ^ k) : a ||| b <<< k = a + 2 ^ k * b := by
  rw [Nat.or_comm, Nat.add_comm, Nat.two_pow_add_eq_or_of_lt h, Nat.shiftLeft_eq, Nat.mul_comm]

theorem toNat_ofBytes (a b c d : UInt8) : (ofBytes a b c d).toNat =
      a.toNat + 2 ^ 8 * b.toNat + 2 ^ 16 * c.toNat + 2 ^ 24 * d.toNat := by
  have ha := a.toNat_lt
  have hb := b.toNat_lt
  have hc := c.toNat_lt
  have hfits : ∀ (x : UInt8) (k : Nat), k ≤ 24 → x.toNat <<< k % 2 ^ 32 = x.toNat <<< k := by
    intro x k hk
    apply Nat.mod_eq_of_lt
    rw [Nat.shiftLeft_eq]
    calc x.toNat * 2 ^ k < 2 ^ 8 * 2 ^ k := Nat.mul_lt_mul_of_pos_right x.toNat_lt (Nat.two_pow_pos k)
      _ = 2 ^ (8 + k) := (Nat.pow_add 2 8 k).symm
      _ ≤ 2 ^ 32 := Nat.pow_le_pow_right (by decide) (by omega)
  simp only [ofBytes, UInt32.toNat_or, UInt32.toNat_shiftLeft, UInt8.toNat_toUInt32, UInt32.reduceToNat, Nat.reduceMod]
  rw [hfits b 8 (by decide), hfits c 16 (by decide), hfits d 24 (by decide),
    or_shiftLeft b.toNat ha, or_shiftLeft (k := 16) c.toNat (by omega),
    or_shiftLeft (k := 24) d.toNat (by omega)]

theorem bytes_ofBytes (a b c d : UInt8) : (ofBytes a b c d).bytes = [a, b, c, d] := by
  have ha := a.toNat_lt
  have hb := b.toNat_lt
  have hc := c.toNat_lt
  have hd := d.toNat_lt
  simp only [bytes, cons.injEq, ← toNat_inj, UInt32.toNat_toUInt8,
    UInt32.toNat_shiftRight, toNat_ofBytes, Nat.shiftRight_eq_div_pow, UInt32.reduceToNat,
    Nat.reduceMod, and_true]
  omega

theorem ofBytes_bytes (w : Word) : ofBytes w.toUInt8 (w >>> 8).toUInt8 (w >>> 16).toUInt8 (w >>> 24).toUInt8 = w := by
  have hw := w.toNat_lt
  simp only [← UInt32.toNat_inj, toNat_ofBytes, UInt32.toNat_toUInt8, UInt32.toNat_shiftRight,
    Nat.shiftRight_eq_div_pow, UInt32.reduceToNat, Nat.reduceMod]
  omega

theorem length_bytes (w : Word) : w.bytes.length = 4 := rfl

theorem swapBytes_ofBytes (a b c d : UInt8) : (ofBytes a b c d).swapBytes = ofBytes d c b a := by
  have h := bytes_ofBytes a b c d
  simp only [bytes, cons.injEq] at h
  obtain ⟨h₀, h₁, h₂, h₃, -⟩ := h
  rw [swapBytes, h₀, h₁, h₂, h₃]

theorem swapBytes_swapBytes (w : Word) : w.swapBytes.swapBytes = w := by
  conv_lhs => rw [← ofBytes_bytes w, swapBytes_ofBytes, swapBytes_ofBytes]
  exact ofBytes_bytes w

theorem length_flatMap_bytes (ws : List Word) : (ws.flatMap bytes).length = 4 * ws.length := by
  induction ws with
  | nil => rfl
  | cons w ws ih =>
    rw [flatMap_cons, length_append, ih, length_bytes, length_cons]
    omega

end Word

namespace Utf8

variable {b : UInt8}

/-! ## Text and bytes -/

theorem encode_eq_flatMap (s : String) : encode s = s.toList.flatMap String.utf8EncodeChar := by
  conv_lhs => rw [← String.ofList_toList (s := s)]
  rw [encode, String.toUTF8_eq_toByteArray, String.toByteArray_ofList, utf8Encode, data_toByteArray, toList_toArray]

theorem length_encode (s : String) : (encode s).length = s.utf8ByteSize := by
  rfl

/-- The bytes that encode the character of code point `n`. -/
inductive Sequence : List UInt8 → Nat → Prop where
  | one {a : UInt8} {n : Nat} : a.toNat ≤ 0x7F → n = a.toNat → Sequence [a] n
  | two {a b : UInt8} {n : Nat} : 0xC2 ≤ a.toNat → a.toNat ≤ 0xDF → isTail b →
      n = a.toNat % 32 * 64 + tailBits b → Sequence [a, b] n
  | three {a b c : UInt8} {n : Nat} : 0xE0 ≤ a.toNat → a.toNat ≤ 0xEF → isSecondOfThree a b →
      isTail c → n = (a.toNat % 16 * 64 + tailBits b) * 64 + tailBits c → Sequence [a, b, c] n
  | four {a b c d : UInt8} {n : Nat} : 0xF0 ≤ a.toNat → a.toNat ≤ 0xF4 → isSecondOfFour a b → isTail c → isTail d →
      n = ((a.toNat % 8 * 64 + tailBits b) * 64 + tailBits c) * 64 + tailBits d →
      Sequence [a, b, c, d] n

theorem isTail_iff : isTail b ↔ 0x80 ≤ b.toNat ∧ b.toNat ≤ 0xBF := by
  simp [isTail, le_iff_toNat_le]

theorem isSecondOfThree_iff {a : UInt8} : isSecondOfThree a b ↔
    0x80 ≤ b.toNat ∧ b.toNat ≤ 0xBF ∧ (a.toNat = 0xE0 → 0xA0 ≤ b.toNat) ∧ (a.toNat = 0xED → b.toNat ≤ 0x9F) := by
  simp only [isSecondOfThree, isTail, ← toNat_inj, le_iff_toNat_le, UInt8.reduceToNat]
  split
  · simp; omega
  · split
    · simp; omega
    · simp; omega

theorem isSecondOfFour_iff {a : UInt8} : isSecondOfFour a b ↔
    0x80 ≤ b.toNat ∧ b.toNat ≤ 0xBF ∧ (a.toNat = 0xF0 → 0x90 ≤ b.toNat) ∧ (a.toNat = 0xF4 → b.toNat ≤ 0x8F) := by
  simp only [isSecondOfFour, isTail, ← toNat_inj, le_iff_toNat_le, UInt8.reduceToNat]
  split
  · simp; omega
  · split
    · simp; omega
    · simp; omega

namespace Sequence

variable {bytes : List UInt8} {n : Nat}

theorem encodeChar (c : Char) : Sequence (String.utf8EncodeChar c) c.toNat := by
  have hval : c.val.toNat = c.toNat := rfl
  have hvalid : c.toNat < 0xD800 ∨ 0xDFFF < c.toNat ∧ c.toNat < 0x110000 := c.valid
  simp only [String.utf8EncodeChar, hval]
  split
  · exact .one (by simp; omega) (by simp; omega)
  · split
    · exact .two (by simp; omega) (by simp; omega) (isTail_iff.2 (by simp; omega)) (by simp [tailBits]; omega)
    · split
      · exact .three (by simp; omega) (by simp; omega) (isSecondOfThree_iff.2 (by simp; omega))
          (isTail_iff.2 (by simp; omega)) (by simp [tailBits]; omega)
      · exact .four (by simp; omega) (by simp; omega) (isSecondOfFour_iff.2 (by simp; omega))
          (isTail_iff.2 (by simp; omega)) (isTail_iff.2 (by simp; omega))
          (by simp [tailBits]; omega)

theorem encodeChar_ofNat (h : Sequence bytes n) : String.utf8EncodeChar (Char.ofNat n) = bytes := by
  have hval : n.isValidChar → (Char.ofNat n).val.toNat = n := by
    intro hvalid
    rw [Char.ofNat, dif_pos hvalid]
    rfl
  cases h with
  | one ha hn =>
    simp only [String.utf8EncodeChar, hval (by omega)]
    rw [if_pos (by omega), hn, UInt8.ofNat_toNat]
  | two ha ha' hb hn =>
    rw [isTail_iff] at hb
    rw [tailBits] at hn
    simp only [String.utf8EncodeChar, hval (by omega)]
    rw [if_neg (by omega), if_pos (by omega)]
    simp only [cons.injEq, ← toNat_inj, UInt8.toNat_ofNat', and_true]
    omega
  | three ha ha' hb hc hn =>
    rw [isSecondOfThree_iff] at hb
    rw [isTail_iff] at hc
    simp only [tailBits] at hn
    simp only [String.utf8EncodeChar, hval (by omega)]
    rw [if_neg (by omega), if_neg (by omega), if_pos (by omega)]
    simp only [cons.injEq, ← toNat_inj, UInt8.toNat_ofNat', and_true]
    omega
  | four ha ha' hb hc hd hn =>
    rw [isSecondOfFour_iff] at hb
    rw [isTail_iff] at hc hd
    simp only [tailBits] at hn
    simp only [String.utf8EncodeChar, hval (by omega)]
    rw [if_neg (by omega), if_neg (by omega), if_neg (by omega)]
    simp only [cons.injEq, ← toNat_inj, UInt8.toNat_ofNat', and_true]
    omega

theorem decodeFrom_append (h : Sequence bytes n) (i : Nat) (rest : List UInt8) : decodeFrom i (bytes ++ rest) =
      (decodeFrom (i + bytes.length) rest).map (Char.ofNat n :: ·) := by
  cases h with
  | one ha hn =>
    simp only [cons_append, nil_append]
    rw [decodeFrom.eq_def, hn]
    dsimp only
    rw [if_pos (by simpa [le_iff_toNat_le] using ha)]
    rfl
  | two ha ha' hb hn =>
    simp only [cons_append, nil_append]
    rw [decodeFrom.eq_def, hn]
    dsimp only
    rw [if_neg (by simp [le_iff_toNat_le]; omega), if_pos (by simp [le_iff_toNat_le]; omega), if_neg (by simp [hb])]
    rfl
  | three ha ha' hb hc hn =>
    simp only [cons_append, nil_append]
    rw [decodeFrom.eq_def, hn]
    dsimp only
    rw [if_neg (by simp [le_iff_toNat_le]; omega), if_neg (by simp [le_iff_toNat_le]; omega),
      if_pos (by simp [le_iff_toNat_le]; omega), if_neg (by simp [hb]), if_neg (by simp [hc])]
    rfl
  | four ha ha' hb hc hd hn =>
    simp only [cons_append, nil_append]
    rw [decodeFrom.eq_def, hn]
    dsimp only
    rw [if_neg (by simp [le_iff_toNat_le]; omega), if_neg (by simp [le_iff_toNat_le]; omega),
      if_neg (by simp [le_iff_toNat_le]; omega),
      if_pos (by simp [le_iff_toNat_le]; omega), if_neg (by simp [hb]), if_neg (by simp [hc]),
      if_neg (by simp [hd])]
    rfl

theorem eq_zero_of_mem (h : Sequence bytes n) (hmem : 0 ∈ bytes) : n = 0 := by
  cases h with
  | one ha hn =>
    rw [mem_singleton] at hmem
    rw [hn, ← hmem]
    rfl
  | two ha ha' hb hn =>
    rw [isTail_iff] at hb
    simp only [mem_cons, not_mem_nil, or_false, ← toNat_inj, UInt8.toNat_zero] at hmem
    omega
  | three ha ha' hb hc hn =>
    rw [isSecondOfThree_iff] at hb
    rw [isTail_iff] at hc
    simp only [mem_cons, not_mem_nil, or_false, ← toNat_inj, UInt8.toNat_zero] at hmem
    omega
  | four ha ha' hb hc hd hn =>
    rw [isSecondOfFour_iff] at hb
    rw [isTail_iff] at hc hd
    simp only [mem_cons, not_mem_nil, or_false, ← toNat_inj, UInt8.toNat_zero] at hmem
    omega

end Sequence

theorem zero_mem_encode_iff : 0 ∈ encode s ↔ '\x00' ∈ s.toList := by
  rw [encode_eq_flatMap, mem_flatMap]
  constructor
  · rintro ⟨c, hc, h⟩
    rwa [← Char.ofNat_toNat c, (Sequence.encodeChar c).eq_zero_of_mem h] at hc
  · intro h
    exact ⟨_, h, by decide⟩

theorem decodeFrom_flatMap (cs : List Char) : ∀ i : Nat, decodeFrom i (cs.flatMap String.utf8EncodeChar) = .ok cs := by
  induction cs with
  | nil => intro i; rfl
  | cons c cs ih =>
    intro i
    rw [flatMap_cons, (Sequence.encodeChar c).decodeFrom_append, ih, Char.ofNat_toNat]
    rfl

theorem Sequence.append_eq_flatMap {bytes rest : List UInt8} {n : Nat} (h : Sequence bytes n)
    {read : Except Fault (List Char)} (hrest : ∀ {cs}, read = .ok cs → rest = cs.flatMap String.utf8EncodeChar)
    {cs : List Char} (hread : read.map (Char.ofNat n :: ·) = .ok cs) :
    bytes ++ rest = cs.flatMap String.utf8EncodeChar := by
  cases read with
  | error _ => cases hread
  | ok cs' =>
    cases hread
    rw [flatMap_cons, h.encodeChar_ofNat, hrest rfl]

theorem eq_flatMap_of_decodeFrom (i : Nat) (bytes : List UInt8) {cs : List Char}
    (h : decodeFrom i bytes = .ok cs) : bytes = cs.flatMap String.utf8EncodeChar := by
  have hle : ∀ a b : UInt8, a ≤ b → a.toNat ≤ b.toNat := fun _ _ => le_iff_toNat_le.1
  fun_induction decodeFrom i bytes generalizing cs with
  | case1 =>
    cases h
    rfl
  | case2 i a rest ha ih => exact (Sequence.one (hle a 0x7F ha) rfl).append_eq_flatMap ih h
  | case5 i a _ ha b rest hb ih =>
    rw [Bool.and_eq_true, decide_eq_true_eq, decide_eq_true_eq] at ha
    refine (Sequence.two (hle 0xC2 a ha.1) (hle a 0xDF ha.2) ?_ rfl).append_eq_flatMap ih h
    simpa using hb
  | case10 i a _ _ ha b hb c rest hc ih =>
    rw [Bool.and_eq_true, decide_eq_true_eq, decide_eq_true_eq] at ha
    refine (Sequence.three (hle 0xE0 a ha.1) (hle a 0xEF ha.2) ?_ ?_ rfl).append_eq_flatMap ih h
    · simpa using hb
    · simpa using hc
  | case17 i a _ _ _ ha b hb c hc d rest hd ih =>
    rw [Bool.and_eq_true, decide_eq_true_eq, decide_eq_true_eq] at ha
    refine (Sequence.four (hle 0xF0 a ha.1) (hle a 0xF4 ha.2) ?_ ?_ ?_ rfl).append_eq_flatMap ih h
    · simpa using hb
    · simpa using hc
    · simpa using hd
  | _ => cases h

theorem decode_eq_ok_iff {bytes : List UInt8} : decode bytes = .ok s ↔ bytes = encode s := by
  rw [encode_eq_flatMap, decode]
  constructor
  · intro h
    cases hcs : decodeFrom 0 bytes with
    | error _ =>
      rw [hcs] at h
      cases h
    | ok cs =>
      rw [hcs] at h
      cases h
      rw [String.toList_ofList]
      exact eq_flatMap_of_decodeFrom 0 bytes hcs
  · intro h
    rw [h, decodeFrom_flatMap]
    exact congrArg Except.ok String.ofList_toList

end Utf8

namespace LiteralString

/-! ## Strings in words -/

/-- Words that hold the bytes of a string, none of them zero, a zero byte, and anything after it. -/
structure Spells (s : String) (words : List Word) : Prop where
  nonzero : 0 ∉ Utf8.encode s
  bytes : ∃ padding, words.flatMap Word.bytes = Utf8.encode s ++ 0 :: padding
  length_eq : words.length = length s

theorem flatMap_bytes_packBytes (bytes : List UInt8) : ∃ k,
    (packBytes bytes).flatMap Word.bytes = bytes ++ 0 :: replicate k 0 := by
  fun_induction packBytes bytes with
  | case1 a b c d rest ih =>
    obtain ⟨k, hk⟩ := ih
    exact ⟨k, by rw [flatMap_cons, Word.bytes_ofBytes, hk]; rfl⟩
  | case2 a b c => exact ⟨0, by simp [Word.bytes_ofBytes]⟩
  | case3 a b => exact ⟨1, by simp [Word.bytes_ofBytes]⟩
  | case4 a => exact ⟨2, by simp [Word.bytes_ofBytes]⟩
  | case5 => exact ⟨3, rfl⟩

theorem length_packBytes (bytes : List UInt8) : (packBytes bytes).length = bytes.length / 4 + 1 := by
  fun_induction packBytes bytes with
  | case1 a b c d rest ih => simp only [length_cons, ih]; omega
  | _ => simp

theorem length_pack (s : String) : (pack s).length = length s := by
  rw [pack, length_packBytes, Utf8.length_encode, length]

theorem spells_pack (h : 0 ∉ Utf8.encode s) : Spells s (pack s) where
  nonzero := h
  bytes := by
    obtain ⟨k, hk⟩ := flatMap_bytes_packBytes (Utf8.encode s)
    exact ⟨_, hk⟩
  length_eq := length_pack s

theorem Spells.unpack_append (h : Spells s words) (rest : List Word) : unpack (words ++ rest) = .ok (s, length s) := by
  obtain ⟨padding, hbytes⟩ := h.bytes
  have hall : ∀ b ∈ Utf8.encode s, decide (b ≠ 0) = true := by
    intro b hb
    rw [decide_eq_true_eq]
    rintro rfl
    exact h.nonzero hb
  have hstop : (0 :: (padding ++ rest.flatMap Word.bytes)).takeWhile (· ≠ 0) = [] := takeWhile_cons_of_neg (by decide)
  have htext : ((words ++ rest).flatMap Word.bytes).takeWhile (· ≠ 0) = Utf8.encode s := by
    rw [flatMap_append, hbytes, append_assoc, takeWhile_append_of_pos hall, cons_append, hstop, append_nil]
  have hshort : (Utf8.encode s).length ≠ ((words ++ rest).flatMap Word.bytes).length := by
    rw [flatMap_append, hbytes]
    simp only [length_append, length_cons]
    omega
  simp only [unpack, htext]
  rw [if_neg hshort, Utf8.decode_eq_ok_iff.2 rfl, Utf8.length_encode]
  rfl

theorem flatMap_bytes_take (words : List Word) (n : Nat) :
    (words.take n).flatMap Word.bytes = (words.flatMap Word.bytes).take (4 * n) := by
  induction words generalizing n with
  | nil => simp
  | cons w words ih =>
    cases n with
    | zero => rfl
    | succ n =>
      have hcount : 4 * (n + 1) = w.bytes.length + 4 * n := by rw [Word.length_bytes]; omega
      rw [take_succ_cons, flatMap_cons, flatMap_cons, ih, hcount, take_length_add_append]

theorem exists_zero_after {bytes : List UInt8} (h : (bytes.takeWhile (· ≠ 0)).length ≠ bytes.length) :
    ∃ tail, bytes = bytes.takeWhile (· ≠ 0) ++ 0 :: tail := by
  induction bytes with
  | nil => exact absurd rfl h
  | cons b bytes ih =>
    by_cases hb : b = 0
    · exact ⟨bytes, by simp [hb]⟩
    · rw [takeWhile_cons_of_pos (by simpa using hb)] at h ⊢
      obtain ⟨tail, htail⟩ := ih fun hlength => h (congrArg (· + 1) hlength)
      exact ⟨tail, congrArg (b :: ·) htail⟩

/-- Words whose bytes before the first zero are those of a string hold it in as many words as it
takes. -/
theorem spells_take {tail : List UInt8} (hnonzero : 0 ∉ Utf8.encode s)
    (hsplit : words.flatMap Word.bytes = Utf8.encode s ++ 0 :: tail) : Spells s (words.take (length s)) := by
  have hcount := Word.length_flatMap_bytes words
  have hlength := Utf8.length_encode s
  rw [hsplit, length_append, length_cons] at hcount
  -- The words that are taken go on for at least the zero byte.
  obtain ⟨k, hk⟩ : ∃ k, 4 * length s = (Utf8.encode s).length + (k + 1) :=
    ⟨4 * length s - s.utf8ByteSize - 1, by rw [length]; omega⟩
  refine ⟨hnonzero, ⟨tail.take k, ?_⟩, ?_⟩
  · rw [flatMap_bytes_take, hsplit, hk, take_length_add_append, take_succ_cons]
  · rw [length_take, length]
    omega

theorem unpack_eq_ok_iff {n : Nat} : unpack words = .ok (s, n) ↔ n = length s ∧ Spells s (words.take n) := by
  constructor
  · intro h
    simp only [unpack] at h
    split at h
    case isTrue => cases h
    case isFalse hshort =>
    split at h
    case h_2 => cases h
    case h_1 s' hdecode =>
    cases h
    obtain ⟨tail, hsplit⟩ := exists_zero_after hshort
    have hnonzero : 0 ∉ (words.flatMap Word.bytes).takeWhile (· ≠ 0) := by
      intro hmem
      simpa using mem_takeWhile_imp hmem
    generalize (words.flatMap Word.bytes).takeWhile (· ≠ 0) = text at *
    obtain rfl := Utf8.decode_eq_ok_iff.1 hdecode
    rw [Utf8.length_encode]
    exact ⟨rfl, spells_take hnonzero hsplit⟩
  · rintro ⟨rfl, h⟩
    have hread := h.unpack_append (words.drop (length s))
    rwa [take_append_drop] at hread

/-- The part of a string before its first NUL. -/
def beforeNul (s : String) : String := String.ofList (s.toList.takeWhile (· ≠ '\x00'))

theorem zero_notMem_encode_beforeNul (s : String) : 0 ∉ Utf8.encode (beforeNul s) := by
  rw [Utf8.zero_mem_encode_iff, beforeNul, String.toList_ofList]
  intro hmem
  simpa using mem_takeWhile_imp hmem

/-- The bytes of a string and a zero are those of its part before the first NUL, a zero and others. -/
theorem exists_encode_eq (s : String) (tail : List UInt8) :
    ∃ tail', Utf8.encode s ++ 0 :: tail = Utf8.encode (beforeNul s) ++ 0 :: tail' := by
  have hsplit := takeWhile_append_dropWhile (p := (· ≠ '\x00')) (l := s.toList)
  rw [Utf8.encode_eq_flatMap, Utf8.encode_eq_flatMap, beforeNul, String.toList_ofList]
  cases hrest : s.toList.dropWhile (· ≠ '\x00') with
  | nil =>
    rw [hrest, append_nil] at hsplit
    exact ⟨tail, by rw [hsplit]⟩
  | cons c rest =>
    have hc := head?_dropWhile_not (· ≠ '\x00') s.toList
    rw [hrest] at hc
    obtain rfl : c = '\x00' := by simpa using hc
    refine ⟨rest.flatMap String.utf8EncodeChar ++ 0 :: tail, ?_⟩
    conv_lhs => rw [← hsplit, hrest, flatMap_append, flatMap_cons]
    rw [append_assoc, append_assoc]
    rfl

/-- A string is written in as many words as its bytes and a zero fill, and its part before the first NUL
is read back. What a string is read from is what it is written in, up to the bytes after the zero. -/
theorem unpack_pack_append (s : String) (rest : List Word) :
    ((pack s).length = length s ∧ length s = (s.utf8ByteSize + 1 + 3) / 4) ∧
      unpack (pack s ++ rest) = .ok (beforeNul s, (beforeNul s).utf8ByteSize / 4 + 1) ∧
      ∀ words n, unpack words = .ok (s, n) → '\x00' ∉ s.toList ∧ n = length s ∧ n ≤ words.length ∧
          ∃ padding, (words.take n).flatMap Word.bytes = Utf8.encode s ++ 0 :: padding ∧
            (pack s).flatMap Word.bytes = Utf8.encode s ++ 0 :: replicate padding.length 0 := by
  refine ⟨⟨length_pack s, by rw [length]; omega⟩, ?_, ?_⟩
  · obtain ⟨k, hk⟩ := flatMap_bytes_packBytes (Utf8.encode s)
    obtain ⟨tail, htail⟩ := exists_encode_eq s (replicate k 0 ++ rest.flatMap Word.bytes)
    have hbytes : (pack s ++ rest).flatMap Word.bytes = Utf8.encode (beforeNul s) ++ 0 :: tail := by
      rw [flatMap_append, pack, hk, append_assoc, cons_append, htail]
    exact unpack_eq_ok_iff.2 ⟨rfl, spells_take (zero_notMem_encode_beforeNul s) hbytes⟩
  · intro words n h
    obtain ⟨rfl, hspells⟩ := unpack_eq_ok_iff.1 h
    obtain ⟨padding, hpadding⟩ := hspells.bytes
    obtain ⟨k, hk⟩ := flatMap_bytes_packBytes (Utf8.encode s)
    have htaken := hspells.length_eq
    have hmany := Word.length_flatMap_bytes (words.take (length s))
    have hwritten := Word.length_flatMap_bytes (pack s)
    rw [hpadding, length_append, length_cons, htaken] at hmany
    rw [pack, hk, length_append, length_cons, length_replicate, ← pack, length_pack] at hwritten
    obtain rfl : k = padding.length := by omega
    refine ⟨fun hmem => hspells.nonzero (Utf8.zero_mem_encode_iff.2 hmem), rfl, ?_, padding, hpadding, hk⟩
    rw [length_take] at htaken
    omega

theorem unpack_pack_append_abcd : unpack (pack "ab\x00cd" ++ [7]) = .ok ("ab", 1) ∧
      unpack [0x64636261, 0x03020100, 7] = .ok ("abcd", 2) ∧ 2 = length "abcd" :=
  have hread : unpack [0x64636261, 0x03020100, 7] = .ok ("abcd", 2) := by decide +kernel
  ⟨(unpack_pack_append "ab\x00cd" [7]).2.1, hread, ((unpack_pack_append "abcd" []).2.2 _ _ hread).2.1⟩

end LiteralString

end Shader
