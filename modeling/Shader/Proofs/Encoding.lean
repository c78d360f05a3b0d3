import Shader.Instruction.Binary
import Shader.Proofs.LiteralString
import Mathlib.Data.List.Nodup

/-!
# Reading back instructions

An instruction is read from exactly those words that are its encoding, up to the bytes after the zero
that ends its name, whatever follows.
-/

namespace Shader

open List Option

variable {op : Op} {shape : Shape}

theorem Op.mem_all (op : Op) : op ∈ (Enumerated.all : List Op) := by
  have hall : (Enumerated.all : List Op) = (range 205).map Op.ofNat := by decide +kernel
  rw [hall, List.mem_map]
  exact ⟨op.ctorIdx, mem_range.2 (by cases op <;> decide), Op.ofNat_ctorIdx op⟩

theorem Op.number_lt (op : Op) : (Enumerated.number op).toNat < 2 ^ 16 := by
  have hall : ∀ op ∈ (Enumerated.all : List Op), (Enumerated.number op).toNat < 2 ^ 16 := by
    decide +kernel
  exact hall op op.mem_all

theorem Op.number_injective {op' : Op} (h : Enumerated.number op = Enumerated.number op') : op = op' := by
  have hascending : ((Enumerated.all : List Op).map fun op => (Enumerated.number op).toNat).IsChain
      (· < ·) := by decide +kernel
  have hnodup := (isChain_iff_pairwise.1 hascending).imp Nat.ne_of_lt
  exact inj_on_of_nodup_map hnodup op.mem_all op'.mem_all (congrArg UInt32.toNat h)

theorem Op.ofNumber?_number (op : Op) : Enumerated.ofNumber? (Enumerated.number op) = some op := by
  have hsome : (Enumerated.ofNumber? (Enumerated.number op) : Option Op).isSome :=
    find?_isSome.2 ⟨op, op.mem_all, beq_self_eq_true _⟩
  obtain ⟨op', hop'⟩ := isSome_iff_exists.1 hsome
  have hnumber := find?_some hop'
  rw [beq_iff_eq] at hnumber
  rw [hop', Op.number_injective hnumber]

theorem Op.read?_eq_some_iff {n : Word} :
    Op.read? n = some (op, shape) ↔ n = Enumerated.number op ∧ op.shape? = some shape := by
  simp only [Op.read?, Option.bind_eq_bind, Option.bind_eq_some_iff, Option.pure_def, Option.some.injEq, Prod.mk.injEq]
  constructor
  · rintro ⟨op', hop, shape', hshape, rfl, rfl⟩
    have hnumber := find?_some hop
    exact ⟨(beq_iff_eq.1 hnumber).symm, hshape⟩
  · rintro ⟨rfl, hshape⟩
    exact ⟨op, Op.ofNumber?_number op, shape, hshape, rfl, rfl⟩

namespace Inst

variable {inst : Inst} {words rest : List Word}

/-- The first word: the opcode and the number of words. -/
def lead (inst : Inst) : Word := Enumerated.number inst.op ||| (inst.wordCount.toUInt32 <<< 16)

theorem toNat_lead (h : inst.wordCount < 2 ^ 16) :
    inst.lead.toNat = (Enumerated.number inst.op).toNat + 2 ^ 16 * inst.wordCount := by
  have hcount : inst.wordCount.toUInt32.toNat = inst.wordCount := by
    rw [Nat.toUInt32, UInt32.toNat_ofNat']
    omega
  rw [lead, UInt32.toNat_or, UInt32.toNat_shiftLeft, hcount]
  simp only [UInt32.reduceToNat, Nat.reduceMod]
  rw [Nat.mod_eq_of_lt (by rw [Nat.shiftLeft_eq]; omega), Word.or_shiftLeft _ (Op.number_lt _)]

theorem eq_lead_iff (h : inst.wordCount < 2 ^ 16) {w : Word} :
    w = inst.lead ↔ w &&& 0xFFFF = Enumerated.number inst.op ∧ (w >>> 16).toNat = inst.wordCount := by
  have hnumber := Op.number_lt inst.op
  have hlow : (w &&& 0xFFFF).toNat = w.toNat % 2 ^ 16 := Nat.and_two_pow_sub_one_eq_mod w.toNat 16
  have hhigh : (w >>> 16).toNat = w.toNat / 2 ^ 16 := by
    rw [UInt32.toNat_shiftRight, Nat.shiftRight_eq_div_pow]
    rfl
  rw [← UInt32.toNat_inj, ← UInt32.toNat_inj, hlow, hhigh, toNat_lead h]
  omega

/-! ## Fields -/

/-- The words spell the name, if there is one. -/
def Names : Option String → List Word → Prop
  | none, words => words = []
  | some name, words => LiteralString.Spells name words

def labelWords (labels : List (Int32 × Id)) : List Word := labels.flatMap fun l => [l.1.toUInt32, l.2]

theorem takeId_eq_ok_iff {present : Bool} {id : Option Id} :
    takeId present words = .ok (id, rest) ↔ id.isSome = present ∧ words = id.toList ++ rest := by
  cases present with
  | false => cases id <;> simp [takeId, eq_comm]
  | true =>
    cases words with
    | nil => cases id <;> simp [takeId]
    | cons w words => cases id <;> simp [takeId, eq_comm]

theorem takeName_eq_ok_iff {present : Bool} {name : Option String} : takeName present words = .ok (name, rest) ↔
      name.isSome = present ∧ ∃ spelled, Names name spelled ∧ words = spelled ++ rest := by
  cases present with
  | false => cases name <;> simp [takeName, Names, eq_comm]
  | true =>
    simp only [takeName, Bool.not_true, Bool.false_eq_true, if_false]
    constructor
    · intro h
      split at h
      · cases h
      case h_2 s n hunpack =>
        cases h
        have hspells := LiteralString.unpack_eq_ok_iff.1 hunpack
        exact ⟨rfl, words.take n, hspells.2, (take_append_drop n words).symm⟩
    · rintro ⟨hsome, spelled, hnames, rfl⟩
      obtain ⟨s, rfl⟩ := isSome_iff_exists.1 hsome
      rw [LiteralString.Spells.unpack_append hnames rest]
      dsimp only
      rw [← hnames.length_eq, drop_left]

theorem labelWords_cons (l : Int32 × Id) (labels : List (Int32 × Id)) :
    labelWords (l :: labels) = l.1.toUInt32 :: l.2 :: labelWords labels := rfl

theorem pairs_eq_some_iff {labels : List (Int32 × Id)} : pairs words = some labels ↔ words = labelWords labels := by
  fun_induction pairs words generalizing labels with
  | case1 => cases labels <;> simp [labelWords]
  | case2 w => cases labels <;> simp [labelWords]
  | case3 literal label rest ih =>
    constructor
    · intro h
      obtain ⟨labels, hlabels, rfl⟩ := map_eq_some_iff.1 h
      rw [labelWords_cons, ← ih.1 hlabels, UInt32.toUInt32_toInt32]
    · intro h
      cases labels with
      | nil => cases h
      | cons l labels =>
        rw [labelWords_cons, cons.injEq, cons.injEq] at h
        obtain ⟨rfl, rfl, hrest⟩ := h
        rw [ih.2 hrest]
        rfl

/-- The fields of an instruction in words, up to the bytes after its string. -/
def Fields (inst : Inst) (words : List Word) : Prop :=
  ∃ spelled, Names inst.name spelled ∧ words = inst.resultType.toList ++ (inst.result.toList ++
    (spelled ++ (inst.operands ++ labelWords (inst.labels.getD []))))

theorem Names.length_eq {name : Option String} (h : Names name words) :
    words.length = (name.map LiteralString.length).getD 0 := by
  cases name with
  | none =>
    obtain rfl : words = [] := h
    rfl
  | some name => exact LiteralString.Spells.length_eq h

theorem length_labelWords (labels : List (Int32 × Id)) : (labelWords labels).length = 2 * labels.length := by
  induction labels with
  | nil => rfl
  | cons l labels ih =>
    simp only [labelWords_cons, length_cons, ih]
    omega

theorem Fields.length_eq (h : inst.Fields words) : words.length + 1 = inst.wordCount := by
  obtain ⟨spelled, hnames, rfl⟩ := h
  simp only [length_append, hnames.length_eq, length_labelWords, wordCount]
  omega

theorem matchShape_eq_ok_iff (hshape : inst.op.shape? = some shape) :
    inst.matchShape = .ok () ↔ inst.resultType.isSome = shape.resultType ∧
      inst.result.isSome = shape.result ∧ inst.name.isSome = shape.name ∧
      inst.labels.isSome = (shape.tail == .labels) ∧
      (shape.tail ≠ .operands → inst.operands = []) := by
  rw [matchShape, hshape]
  dsimp only
  split
  case isTrue h => simp_all
  split
  case isTrue h => simp_all
  split
  case isTrue h => simp_all
  split
  case isTrue h => simp_all
  split
  case isTrue h => simp_all
  case isFalse => simp_all

theorem exists_shape (h : inst.matchShape = .ok ()) : ∃ shape, inst.op.shape? = some shape := by
  cases hshape : inst.op.shape? with
  | none =>
    rw [matchShape, hshape] at h
    cases h
  | some shape => exact ⟨shape, rfl⟩

theorem bind_eq_ok_iff {ε α β : Type} {x : Except ε α} {f : α → Except ε β} {b : β} :
    (x >>= f) = .ok b ↔ ∃ a, x = .ok a ∧ f a = .ok b := by
  cases x with
  | error e => simp [bind, Except.bind]
  | ok a => simp [bind, Except.bind]

theorem decodeTail_eq_ok_iff {start : Inst} (hoperands : start.operands = []) (hlabels : start.labels = none)
    {tail : Tail} : decodeTail start tail words = .ok inst ↔
      inst.labels.isSome = (tail == .labels) ∧ (tail ≠ .operands → inst.operands = []) ∧
      inst = { start with operands := inst.operands, labels := inst.labels } ∧
      words = inst.operands ++ labelWords (inst.labels.getD []) := by
  obtain ⟨op, type, result, name, operands, labels⟩ := inst
  obtain ⟨op', type', result', name', operands', labels'⟩ := start
  obtain rfl : operands' = [] := hoperands
  obtain rfl : labels' = none := hlabels
  cases tail with
  | none =>
    simp only [decodeTail]
    constructor
    · intro h
      split at h
      case isFalse => cases h
      case isTrue hempty =>
        cases h
        exact ⟨rfl, fun _ => rfl, rfl, isEmpty_iff.1 hempty⟩
    · rintro ⟨hnone, hnil, hinst, rfl⟩
      cases hinst
      obtain rfl : labels = none := not_isSome_iff_eq_none.1 (by rw [hnone]; decide)
      obtain rfl : operands = [] := hnil (by decide)
      rfl
  | operands =>
    simp only [decodeTail]
    constructor
    · intro h
      cases h
      exact ⟨rfl, fun h => absurd rfl h, rfl, (append_nil _).symm⟩
    · rintro ⟨hnone, -, hinst, rfl⟩
      cases hinst
      obtain rfl : labels = none := not_isSome_iff_eq_none.1 (by rw [hnone]; decide)
      rw [getD_none, labelWords, flatMap_nil, append_nil]
  | labels =>
    simp only [decodeTail]
    constructor
    · intro h
      split at h
      case h_1 => cases h
      case h_2 found hfound =>
        cases h
        exact ⟨rfl, fun _ => rfl, rfl, pairs_eq_some_iff.1 hfound⟩
    · rintro ⟨hsome, hnil, hinst, rfl⟩
      cases hinst
      obtain ⟨found, rfl⟩ := isSome_iff_exists.1 (by simpa using hsome)
      obtain rfl : operands = [] := hnil (by decide)
      rw [nil_append, getD_some, pairs_eq_some_iff.2 rfl]

theorem decodeBody_eq_ok_iff (hshape : op.shape? = some shape) : decodeBody op shape words = .ok inst ↔
      inst.op = op ∧ inst.matchShape = .ok () ∧ inst.Fields words := by
  simp only [decodeBody, bind_eq_ok_iff, Prod.exists, takeId_eq_ok_iff, takeName_eq_ok_iff, decodeTail_eq_ok_iff]
  constructor
  · rintro ⟨_, _, ⟨htype, rfl⟩, _, _, ⟨hresult, rfl⟩, _, _, ⟨hname, spelled, hspelled, rfl⟩, hlabels,
      hoperands, hinst, rfl⟩
    rw [hinst]
    exact ⟨rfl, (matchShape_eq_ok_iff hshape).2 ⟨htype, hresult, hname, hlabels, hoperands⟩, spelled, hspelled, rfl⟩
  · rintro ⟨rfl, hmatch, spelled, hspelled, rfl⟩
    obtain ⟨htype, hresult, hname, hlabels, hoperands⟩ := (matchShape_eq_ok_iff hshape).1 hmatch
    exact ⟨_, _, ⟨htype, rfl⟩, _, _, ⟨hresult, rfl⟩, _, _, ⟨hname, spelled, hspelled, rfl⟩, hlabels,
      hoperands, rfl, rfl⟩

/-! ## Whole instructions -/

/-- The words of an instruction, up to the bytes after the zero that ends its name. -/
structure Encoded (inst : Inst) (words : List Word) : Prop where
  fits : inst.matchShape = .ok ()
  short : inst.wordCount < 2 ^ 16
  words : ∃ fields, words = inst.lead :: fields ∧ inst.Fields fields

theorem Encoded.length_eq (h : inst.Encoded words) : words.length = inst.wordCount := by
  obtain ⟨fields, rfl, hfields⟩ := h.words
  exact hfields.length_eq

theorem decode_eq_ok_iff :
    decode words = .ok (inst, rest) ↔ ∃ encoded, inst.Encoded encoded ∧ words = encoded ++ rest := by
  constructor
  · intro h
    cases words with
    | nil => cases h
    | cons first tail =>
      simp only [decode] at h
      split at h
      case h_1 => cases h
      case h_2 op shape hread =>
      split at h
      case isTrue => cases h
      case isFalse hpos =>
      split at h
      case isTrue => cases h
      case isFalse hlong =>
      split at h
      case h_1 => cases h
      case h_2 inst' hbody =>
      cases h
      obtain ⟨hlow, hshape⟩ := Op.read?_eq_some_iff.1 hread
      obtain ⟨rfl, hfits, hfields⟩ := (decodeBody_eq_ok_iff hshape).1 hbody
      have hcount : (first >>> 16).toNat = inst.wordCount := by
        have hlength := hfields.length_eq
        rw [length_take] at hlength
        omega
      have hshort : inst.wordCount < 2 ^ 16 := by
        rw [← hcount, UInt32.toNat_shiftRight, Nat.shiftRight_eq_div_pow]
        exact Nat.div_lt_of_lt_mul first.toNat_lt
      have hfirst := (eq_lead_iff hshort).2 ⟨hlow, hcount⟩
      refine ⟨first :: tail.take ((first >>> 16).toNat - 1), ⟨hfits, hshort, _, ?_, hfields⟩, ?_⟩
      · rw [← hfirst]
      · rw [cons_append, take_append_drop]
  · rintro ⟨encoded, h, rfl⟩
    obtain ⟨fields, rfl, hfields⟩ := h.words
    obtain ⟨hlow, hhigh⟩ := (eq_lead_iff h.short).1 rfl
    obtain ⟨shape, hshape⟩ := exists_shape h.fits
    have hread := Op.read?_eq_some_iff.2 ⟨rfl, hshape⟩
    have hbody := (decodeBody_eq_ok_iff hshape).2 ⟨rfl, h.fits, hfields⟩
    have hlength := hfields.length_eq
    have htake : inst.wordCount - 1 = fields.length := by omega
    simp only [cons_append, decode, hlow, hhigh, hread]
    rw [if_neg (by omega), if_neg (by rw [length_append]; omega), htake, take_left, hbody, drop_left]

/-! ## Writing -/

/-- No name holds the character that ends names. -/
def NulFree (inst : Inst) : Prop := ∀ name ∈ inst.name, '\x00' ∉ name.toList

instance (inst : Inst) : Decidable inst.NulFree :=
  inferInstanceAs (Decidable (∀ name ∈ inst.name, '\x00' ∉ name.toList))

theorem encode_eq_ok_iff : inst.encode = .ok words ↔
      inst.matchShape = .ok () ∧ inst.wordCount < 2 ^ 16 ∧ words = inst.lead :: inst.body := by
  rw [encode]
  cases inst.matchShape with
  | error fault => simp
  | ok _ =>
    dsimp only
    split
    case isTrue hlong =>
      constructor
      · intro h
        cases h
      · rintro ⟨-, hshort, -⟩
        exact absurd hshort (Nat.not_lt.2 hlong)
    case isFalse hshort =>
      constructor
      · intro h
        cases h
        exact ⟨rfl, Nat.not_le.1 hshort, rfl⟩
      · rintro ⟨-, -, rfl⟩
        rfl

theorem NulFree.names (h : inst.NulFree) : Names inst.name ((inst.name.map LiteralString.pack).getD []) := by
  cases hname : inst.name with
  | none => rfl
  | some name =>
    apply LiteralString.spells_pack
    rw [Utf8.zero_mem_encode_iff]
    exact h name hname

theorem NulFree.fields_body (h : inst.NulFree) : inst.Fields inst.body :=
  ⟨_, h.names, by simp only [body, labelWords, append_assoc]⟩

theorem NulFree.encoded (h : inst.NulFree) (hwords : inst.encode = .ok words) : inst.Encoded words := by
  obtain ⟨hfits, hshort, rfl⟩ := encode_eq_ok_iff.1 hwords
  exact ⟨hfits, hshort, inst.body, rfl, h.fields_body⟩

/-- Appends the words of an instruction to a buffer, or leaves the buffer as it is. -/
def writeTo (inst : Inst) (buffer : List Word) : Except FormatError Unit × List Word :=
  match inst.encode with
  | .ok words => (.ok (), buffer ++ words)
  | .error e => (.error e, buffer)

/-- Reads the instruction at a place, and tells the place after it. -/
def readAt (buffer : List Word) (place : Nat) : Except FormatError (Inst × Nat) :=
  match decode (buffer.drop place) with
  | .ok (inst, rest) => .ok (inst, buffer.length - rest.length)
  | .error e => .error e

/-- What is written is appended, is as long as its first word says, and is read back, whatever follows.
What cannot be written leaves no trace. -/
theorem readAt_writeTo (inst : Inst) (hname : inst.NulFree) (out following : List Word) :
    (∀ buffer, inst.writeTo out = (.ok (), buffer) →
      (∃ rest, buffer = out ++ ((inst.wordCount.toUInt32 <<< 16) ||| Enumerated.number inst.op) :: rest
        ∧ rest.length + 1 = inst.wordCount) ∧
      readAt (buffer ++ following) out.length = .ok (inst, out.length + inst.wordCount)) ∧
    ∀ e buffer, inst.writeTo out = (.error e, buffer) → buffer = out := by
  unfold writeTo
  cases hwords : inst.encode with
  | error e =>
    refine ⟨fun buffer h => ?_, fun e' buffer h => ?_⟩
    · cases h
    · cases h
      rfl
  | ok words =>
    refine ⟨fun buffer h => ?_, fun e buffer h => ?_⟩
    · cases h
      have hencoded := hname.encoded hwords
      obtain ⟨-, -, rfl⟩ := encode_eq_ok_iff.1 hwords
      have hlength := hencoded.length_eq
      constructor
      · exact ⟨inst.body, by rw [lead, UInt32.or_comm], hlength⟩
      · have hread : decode (inst.lead :: inst.body ++ following) = .ok (inst, following) :=
          decode_eq_ok_iff.2 ⟨_, hencoded, rfl⟩
        have hplace : (out ++ (inst.lead :: inst.body ++ following)).length - following.length =
            out.length + inst.wordCount := by
          simp only [length_append, hlength]
          omega
        rw [readAt, append_assoc, drop_left, hread]
        exact congrArg (fun place => Except.ok (inst, place)) hplace
    · cases h

def mainEntry : Inst :=
  { op := .EntryPoint, resultType := some 4, result := some 2, name := some "größe",
    operands := [7, 9] }

theorem readAt_writeTo_mainEntry : mainEntry.NulFree ∧ ∃ buffer, mainEntry.writeTo [1, 2] = (.ok (), buffer) ∧
      readAt (buffer ++ [3]) 2 = .ok (mainEntry, 9) := by
  have hname : mainEntry.NulFree := by
    intro name h
    cases h
    decide
  have hok : (mainEntry.writeTo [1, 2]).1 = .ok () := by decide +kernel
  have hbuffer : mainEntry.writeTo [1, 2] = (.ok (), (mainEntry.writeTo [1, 2]).2) := by
    rw [← hok]
  have hread := ((readAt_writeTo mainEntry hname [1, 2] [3]).1 _ hbuffer).2
  have hcount : mainEntry.wordCount = 7 := by decide +kernel
  rw [hcount] at hread
  exact ⟨hname, _, hbuffer, hread⟩

end Inst

end Shader
