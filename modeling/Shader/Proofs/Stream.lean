import Shader.Proofs.Encoding
import Mathlib.Data.List.Forall2

/-!
# Streams of instructions

Reading instruction by instruction succeeds to the end exactly on the concatenations of encodings, and
otherwise stops at the first fault. Neither the order of bytes in the words nor reading the words from
bytes makes a difference.
-/

namespace Shader

open List

theorem wordsOfBytes_bytesOfWords (words : List Word) : wordsOfBytes (bytesOfWords words) = .ok words := by
  induction words with
  | nil => rfl
  | cons w words ih =>
    change wordsOfBytes (w.toUInt8 :: (w >>> 8).toUInt8 :: (w >>> 16).toUInt8 :: (w >>> 24).toUInt8 ::
      bytesOfWords words) = _
    rw [wordsOfBytes, ih, Word.ofBytes_bytes]
    rfl

theorem bytesOfWords_injective {v w : List Word} (h : bytesOfWords v = bytesOfWords w) : v = w := by
  have hwords := wordsOfBytes_bytesOfWords v
  rw [h, wordsOfBytes_bytesOfWords] at hwords
  exact (Except.ok.inj hwords).symm

theorem bytesOfWords_append (v w : List Word) :
    bytesOfWords (v ++ w) = bytesOfWords v ++ bytesOfWords w := flatMap_append

theorem length_bytesOfWords (words : List Word) : (bytesOfWords words).length = 4 * words.length :=
  Word.length_flatMap_bytes words

theorem exists_bytesOfWords : ∀ (n : Nat) (bytes : List UInt8), bytes.length = 4 * n →
    ∃ words, bytesOfWords words = bytes
  | 0, bytes, h => ⟨[], (eq_nil_of_length_eq_zero h).symm⟩
  | n + 1, bytes, h => by
    match bytes, h with
    | a :: b :: c :: d :: rest, h =>
      simp only [length_cons] at h
      obtain ⟨words, rfl⟩ := exists_bytesOfWords n rest (by omega)
      refine ⟨Word.ofBytes a b c d :: words, ?_⟩
      change (Word.ofBytes a b c d).bytes ++ bytesOfWords words = _
      rw [Word.bytes_ofBytes]
      rfl

/-! ## Encodings -/

section Between

variable {α : Type} {before middle middle' after : List α}

theorem getElem?_outside (hlength : middle.length = middle'.length) {p : Nat}
    (hp : p < before.length ∨ before.length + middle.length ≤ p) :
    (before ++ (middle ++ after))[p]? = (before ++ (middle' ++ after))[p]? := by
  rcases hp with hp | hp
  · rw [getElem?_append_left hp, getElem?_append_left hp]
  · rw [getElem?_append_right (by omega), getElem?_append_right (by omega),
      getElem?_append_right (by omega), getElem?_append_right (by omega), hlength]

theorem exists_between {l : List α} (hlength : l.length = (before ++ (middle ++ after)).length)
    (h : ∀ p, p < before.length ∨ before.length + middle.length ≤ p → l[p]? = (before ++ (middle ++ after))[p]?) :
    ∃ middle', middle'.length = middle.length ∧ l = before ++ (middle' ++ after) := by
  simp only [length_append] at hlength
  have hmiddle : ((l.drop before.length).take middle.length).length = middle.length := by
    rw [length_take, length_drop]
    omega
  refine ⟨(l.drop before.length).take middle.length, hmiddle, ext_getElem? fun p => ?_⟩
  by_cases hp : p < before.length
  · rw [h p (.inl hp), getElem?_append_left hp, getElem?_append_left hp]
  · by_cases hp' : before.length + middle.length ≤ p
    · rw [h p (.inr hp')]
      exact getElem?_outside hmiddle.symm (.inr hp')
    · rw [getElem?_append_right (by omega), getElem?_append_left (by omega),
        getElem?_take_of_lt (by omega), getElem?_drop]
      congr 1
      omega

end Between

namespace Inst

variable {inst : Inst} {words : List Word} {insts : List Inst}

/-- The number of words before the name. -/
def nameStart (inst : Inst) : Nat := 1 + inst.resultType.toList.length + inst.result.toList.length

/-- Whether the byte at a position stands in the last word of the name, after the zero that ends the
name. -/
def IsPadding (inst : Inst) (position : Nat) : Prop :=
  ∃ name ∈ inst.name, 4 * inst.nameStart + name.utf8ByteSize < position ∧
    position < 4 * (inst.nameStart + LiteralString.length name)

/-- The words agree with those that are written for the instruction, up to the bytes after the
name. -/
def EncodedAs (inst : Inst) (words : List Word) : Prop :=
  inst.NulFree ∧ ∃ written, inst.encode = .ok written ∧ words.length = written.length ∧
    ∀ position, ¬ inst.IsPadding position → (bytesOfWords words)[position]? = (bytesOfWords written)[position]?

def leading (inst : Inst) : List Word := inst.lead :: (inst.resultType.toList ++ inst.result.toList)

def trailing (inst : Inst) : List Word := inst.operands ++ labelWords (inst.labels.getD [])

theorem length_leading (inst : Inst) : inst.leading.length = inst.nameStart := by
  simp only [leading, nameStart, length_cons, length_append]
  omega

theorem lead_cons_body (inst : Inst) : inst.lead :: inst.body =
    inst.leading ++ ((inst.name.map LiteralString.pack).getD [] ++ inst.trailing) := by
  simp only [leading, trailing, body, labelWords, cons_append, append_assoc]

theorem encoded_iff : inst.Encoded words ↔ inst.matchShape = .ok () ∧ inst.wordCount < 2 ^ 16 ∧
    ∃ spelled, Names inst.name spelled ∧ words = inst.leading ++ (spelled ++ inst.trailing) := by
  constructor
  · rintro ⟨hfits, hshort, fields, rfl, spelled, hnames, rfl⟩
    refine ⟨hfits, hshort, spelled, hnames, ?_⟩
    simp only [leading, trailing, cons_append, append_assoc]
  · rintro ⟨hfits, hshort, spelled, hnames, rfl⟩
    exact ⟨hfits, hshort, _, rfl, spelled, hnames, append_assoc _ _ _⟩

theorem exists_padding {name : String} {spelled : List Word} (h : LiteralString.Spells name spelled)
    (before after : List Word) : ∃ padding, padding.length + (name.utf8ByteSize + 1) = 4 * LiteralString.length name ∧
      bytesOfWords (before ++ (spelled ++ after)) =
        (bytesOfWords before ++ (Utf8.encode name ++ [0])) ++ (padding ++ bytesOfWords after) := by
  obtain ⟨padding, hbytes⟩ := h.bytes
  change bytesOfWords spelled = _ at hbytes
  refine ⟨padding, ?_, ?_⟩
  · have hlength := length_bytesOfWords spelled
    rw [hbytes, h.length_eq, length_append, length_cons, Utf8.length_encode] at hlength
    omega
  · rw [bytesOfWords_append, bytesOfWords_append, hbytes]
    simp only [append_assoc, cons_append, nil_append]

theorem length_upToName (inst : Inst) (name : String) :
    (bytesOfWords inst.leading ++ (Utf8.encode name ++ [0])).length = 4 * inst.nameStart + (name.utf8ByteSize + 1) := by
  rw [length_append, length_bytesOfWords, length_leading, length_append, Utf8.length_encode, length_singleton]

theorem Names.nulFree {spelled : List Word} (h : Names inst.name spelled) : inst.NulFree := by
  intro name hname
  rw [hname] at h
  rw [← Utf8.zero_mem_encode_iff]
  exact LiteralString.Spells.nonzero h

theorem Encoded.encodedAs (h : inst.Encoded words) : inst.EncodedAs words := by
  have hlength := h.length_eq
  obtain ⟨hfits, hshort, spelled, hnames, rfl⟩ := encoded_iff.1 h
  have hnul : inst.NulFree := hnames.nulFree
  have hwritten := encode_eq_ok_iff.2 ⟨hfits, hshort, rfl⟩
  refine ⟨hnul, inst.lead :: inst.body, hwritten, ?_, fun position hposition => ?_⟩
  · rw [hlength, (hnul.encoded hwritten).length_eq]
  · have hnames' := hnul.names
    rw [lead_cons_body]
    cases hname : inst.name with
    | none =>
      rw [hname] at hnames
      obtain rfl : spelled = [] := hnames
      rfl
    | some name =>
      rw [hname] at hnames hnames'
      obtain ⟨padding, hpadding, hbytes⟩ := exists_padding hnames inst.leading inst.trailing
      obtain ⟨padding', hpadding', hbytes'⟩ := exists_padding hnames' inst.leading inst.trailing
      rw [hbytes, hbytes']
      apply getElem?_outside (by omega)
      rw [length_upToName]
      by_contra hinside
      exact hposition ⟨name, hname, by omega, by omega⟩

theorem EncodedAs.encoded (h : inst.EncodedAs words) : inst.Encoded words := by
  obtain ⟨hnul, written, hwritten, hlength, hagree⟩ := h
  obtain ⟨hfits, hshort, rfl⟩ := encode_eq_ok_iff.1 hwritten
  have hnames := hnul.names
  rw [lead_cons_body] at hlength hagree
  refine encoded_iff.2 ⟨hfits, hshort, ?_⟩
  cases hname : inst.name with
  | none =>
    refine ⟨[], rfl, bytesOfWords_injective (ext_getElem? fun position => ?_)⟩
    rw [hname] at hagree
    apply hagree
    rintro ⟨name, hname', -⟩
    rw [hname] at hname'
    cases hname'
  | some name =>
    rw [hname] at hnames hlength hagree
    obtain ⟨padding, hpadding, hbytes⟩ := exists_padding hnames inst.leading inst.trailing
    have hbetween : ∃ padding', padding'.length = padding.length ∧ bytesOfWords words =
        (bytesOfWords inst.leading ++ (Utf8.encode name ++ [0])) ++ (padding' ++ bytesOfWords inst.trailing) := by
      apply exists_between
      · rw [← hbytes, length_bytesOfWords, length_bytesOfWords]
        exact congrArg (4 * ·) hlength
      · intro position hposition
        rw [← hbytes]
        apply hagree
        rintro ⟨name', hname', hafter, hbefore⟩
        cases hname.symm.trans hname'
        rw [length_upToName] at hposition
        omega
    obtain ⟨padding', hpadding', hbytes'⟩ := hbetween
    -- The name and what follows it are whole words.
    have hwhole : (Utf8.encode name ++ 0 :: padding').length = 4 * LiteralString.length name := by
      rw [length_append, length_cons, Utf8.length_encode]
      omega
    obtain ⟨spelled, hspelled⟩ := exists_bytesOfWords _ _ hwhole
    refine ⟨spelled, ⟨?_, ⟨padding', hspelled⟩, ?_⟩, bytesOfWords_injective ?_⟩
    · rw [Utf8.zero_mem_encode_iff]
      exact hnul name hname
    · have hcount := length_bytesOfWords spelled
      rw [hspelled, length_append, length_cons, Utf8.length_encode] at hcount
      omega
    · rw [hbytes', bytesOfWords_append, bytesOfWords_append, hspelled]
      simp only [append_assoc, cons_append, nil_append]

theorem decode_eq_ok_iff_encodedAs {rest : List Word} : decode words = .ok (inst, rest) ↔
      ∃ encoded, inst.EncodedAs encoded ∧ words = encoded ++ rest := by
  rw [decode_eq_ok_iff]
  exact exists_congr fun _ => and_congr_left fun _ => ⟨Encoded.encodedAs, EncodedAs.encoded⟩

/-! ## All instructions -/

theorem decodeAll_of_decode {rest : List Word} (h : decode words = .ok (inst, rest)) :
    decodeAll words = (inst :: (decodeAll rest).1, (decodeAll rest).2) := by
  have hne : ¬ words.isEmpty := by
    intro hempty
    rw [isEmpty_iff.1 hempty] at h
    cases h
  rw [decodeAll, if_neg hne]
  split
  case h_1 e he =>
    rw [h] at he
    cases he
  case h_2 inst' rest' hdecode =>
    rw [h] at hdecode
    cases hdecode
    rfl

theorem decodeAll_flatten {encoded : List (List Word)} (h : Forall₂ EncodedAs insts encoded) :
    decodeAll encoded.flatten = (insts, none) := by
  induction h with
  | nil =>
    rw [flatten_nil, decodeAll]
    rfl
  | cons hinst _ ih => rw [decodeAll_of_decode (decode_eq_ok_iff_encodedAs.2 ⟨_, hinst, flatten_cons⟩), ih]

theorem exists_flatten_of_decodeAll (h : decodeAll words = (insts, none)) :
    ∃ encoded, Forall₂ EncodedAs insts encoded ∧ words = encoded.flatten := by
  fun_induction decodeAll words generalizing insts with
  | case1 words hempty =>
    cases h
    exact ⟨[], .nil, isEmpty_iff.1 hempty⟩
  | case2 => cases h
  | case3 words _ inst rest hdecode _ insts' fault hrest ih =>
    cases h
    obtain ⟨encoded, hinst, rfl⟩ := decode_eq_ok_iff_encodedAs.1 hdecode
    obtain ⟨encodedRest, hinsts, rfl⟩ := ih hrest
    exact ⟨encoded :: encodedRest, .cons hinst hinsts, flatten_cons.symm⟩

theorem decodeAll_encodeAll (hnames : ∀ inst ∈ insts, inst.NulFree)
    (h : encodeAll insts = .ok words) : decodeAll words = (insts, none) := by
  induction insts generalizing words with
  | nil =>
    cases h
    rw [decodeAll]
    rfl
  | cons inst insts ih =>
    obtain ⟨hinst, hinsts⟩ := forall_mem_cons.1 hnames
    obtain ⟨first, hfirst, h⟩ := bind_eq_ok_iff.1 h
    obtain ⟨rest, hrest, h⟩ := bind_eq_ok_iff.1 h
    cases h
    have hdecode : decode (first ++ rest) = .ok (inst, rest) := decode_eq_ok_iff.2 ⟨first, hinst.encoded hfirst, rfl⟩
    rw [decodeAll_of_decode hdecode, ih hinsts hrest]

/-- What reading yields, one after the other: instructions, and at last a fault if there is one. -/
def items (words : List Word) : List (Except FormatError Inst) :=
  (decodeAll words).1.map .ok ++ (decodeAll words).2.toList.map .error

theorem length_items_le (words : List Word) : (items words).length ≤ words.length := by
  unfold items
  fun_induction decodeAll words with
  | case1 => exact Nat.zero_le _
  | case2 words hne e _ =>
    have hpos : words ≠ [] := fun h => hne (isEmpty_iff.2 h)
    exact length_pos_iff.2 hpos
  | case3 words _ inst rest _ hlt insts fault hrest ih =>
    rw [hrest] at ih
    simp only [length_append, length_map, length_cons] at ih ⊢
    omega

theorem map_ok_ne (insts : List Inst) (before after : List (Except FormatError Inst))
    (e : FormatError) : insts.map .ok ≠ before ++ .error e :: after := by
  intro h
  have hmem : .error e ∈ insts.map (Except.ok (ε := FormatError)) := by
    rw [h]
    exact mem_append_right _ mem_cons_self
  simp at hmem

theorem items_eq_append_error {before after : List (Except FormatError Inst)} {e : FormatError}
    (h : items words = before ++ .error e :: after) : after = [] ∧ ∀ e', .error e' ∉ before := by
  unfold items at h
  cases hfault : (decodeAll words).2 with
  | none =>
    rw [hfault, Option.toList_none, map_nil, append_nil] at h
    exact absurd h (map_ok_ne _ before after e)
  | some e' =>
    rw [hfault, Option.toList_some, map_singleton] at h
    rcases append_eq_append_iff.1 h with ⟨rest, rfl, hlast⟩ | ⟨rest, hokay, hlast⟩
    · cases rest with
      | nil =>
        cases hlast
        exact ⟨rfl, fun _ => by simp⟩
      | cons _ _ => simp at hlast
    · cases rest with
      | nil =>
        cases hlast
        rw [append_nil] at hokay
        exact ⟨rfl, fun _ => hokay ▸ by simp⟩
      | cons _ _ =>
        cases hlast
        exact absurd hokay (map_ok_ne _ before _ e)

theorem items_eq_map_ok_iff : items words = insts.map .ok ↔
      ∃ encoded, Forall₂ EncodedAs insts encoded ∧ words = encoded.flatten := by
  constructor
  · intro h
    apply exists_flatten_of_decodeAll
    unfold items at h
    cases hfault : (decodeAll words).2 with
    | none =>
      rw [hfault, Option.toList_none, map_nil, append_nil] at h
      have hinsts := map_injective_iff.2 (fun _ _ => Except.ok.inj) h
      rw [← hinsts, ← hfault]
    | some e =>
      rw [hfault] at h
      exact absurd h.symm (map_ok_ne insts _ [] e)
  · rintro ⟨encoded, hencoded, rfl⟩
    rw [items, decodeAll_flatten hencoded]
    exact append_nil _

end Inst

/-- The header, and instructions up to the first error. -/
def parse (words : List Word) : Except FormatError (Header × List (Except FormatError Inst)) := do
  let (header, body) ← Header.read words
  return (header, Inst.items body)

/-- The same, from bytes. -/
def parseBytes (bytes : List UInt8) : Except FormatError (Header × List (Except FormatError Inst)) := do
  parse (← wordsOfBytes bytes)

theorem parse_words (header : Header) (body : List Word) :
    parse (header.words ++ body) = .ok (header, Inst.items body) := rfl

theorem parse_swapped (header : Header) (body : List Word) :
    parse ((header.words ++ body).map Word.swapBytes) = .ok (header, Inst.items body) := by
  have hbody : (body.map Word.swapBytes).map Word.swapBytes = body := by
    rw [map_map]
    exact (map_congr_left fun w _ => Word.swapBytes_swapBytes w).trans (map_id body)
  simp only [Header.words, cons_append, nil_append, map_cons, parse, Header.read, Word.swapBytes_swapBytes, hbody]
  rfl

/-- Reading yields the instructions that the words after the header encode, and at most one fault, as
the last item; and the same for words in the opposite byte order and for bytes. -/
theorem parse_yields_encoded (header : Header) (body : List Word) :
    ∃ items, parse (header.words ++ body) = .ok (header, items) ∧ items.length ≤ (header.words ++ body).length - 5 ∧
      (∀ before e after, items = before ++ .error e :: after → after = [] ∧ ∀ e', .error e' ∉ before) ∧
      (∀ insts : List Inst, items = insts.map .ok ↔
        ∃ encoded, Forall₂ Inst.EncodedAs insts encoded ∧ body = encoded.flatten) ∧
      parse ((header.words ++ body).map Word.swapBytes) = .ok (header, items) ∧
      parseBytes (bytesOfWords (header.words ++ body)) = .ok (header, items) := by
  refine ⟨Inst.items body, parse_words header body, ?_, fun _ _ _ => Inst.items_eq_append_error,
    fun _ => Inst.items_eq_map_ok_iff, parse_swapped header body, ?_⟩
  · have hlength : (header.words ++ body).length - 5 = body.length := by
      rw [length_append]
      exact Nat.add_sub_cancel_left 5 body.length
    rw [hlength]
    exact Inst.length_items_le body
  · rw [parseBytes, wordsOfBytes_bytesOfWords]
    exact parse_words header body

end Shader
