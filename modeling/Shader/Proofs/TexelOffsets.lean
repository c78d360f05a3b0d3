import Shader.Lowering.Texel
import Shader.Proofs.Ledger

/-!
# Offsets of texels

An access to an image may take its texels at an offset from the coordinate. The mask of the instruction
says whether it does, and whether the offset is one constant. For an access through a sampler this can
be told from the arguments: an offset is always the last of them.
-/

namespace Shader

open List

variable {inst : Inst}

/-! ## Masks -/

theorem or_and_ne_zero_iff {a b c : Word} : (a ||| b) &&& c ≠ 0 ↔ a &&& c ≠ 0 ∨ b &&& c ≠ 0 := by
  have hdistrib : (a ||| b) &&& c = (a &&& c) ||| (b &&& c) := by
    apply UInt32.toBitVec_inj.1
    rw [UInt32.toBitVec_and, UInt32.toBitVec_or, UInt32.toBitVec_or, UInt32.toBitVec_and,
      UInt32.toBitVec_and, BitVec.and_or_distrib_right]
  rw [hdistrib, ne_eq, UInt32.or_eq_zero_iff, not_and_or]

theorem foldl_or_and_ne_zero_iff {bits : Word} : ∀ {entries : List (Word × List Id)} {mask : Word},
    entries.foldl (fun mask entry => mask ||| entry.1) mask &&& bits ≠ 0 ↔
      mask &&& bits ≠ 0 ∨ ∃ e ∈ entries, e.1 &&& bits ≠ 0
  | [], mask => by simp
  | entry :: entries, mask => by
    rw [foldl_cons, foldl_or_and_ne_zero_iff, or_and_ne_zero_iff, exists_mem_cons_iff, or_assoc]

/-- Whether a mask announces an offset that is no constant, or four offsets. -/
def announcesOffsets (mask : Word) : Bool := mask &&& 48 != 0

/-- Where the mask stands among the operands of an instruction that may have one. -/
def Op.maskPlace? : Op → Option Nat
  | .ImageSampleImplicitLod | .ImageSampleExplicitLod | .ImageSampleProjImplicitLod
  | .ImageSampleProjExplicitLod | .ImageFetch | .ImageRead => some 2
  | .ImageSampleDrefImplicitLod | .ImageSampleDrefExplicitLod | .ImageSampleProjDrefImplicitLod
  | .ImageSampleProjDrefExplicitLod | .ImageGather | .ImageDrefGather | .ImageWrite => some 3
  | _ => none

/-- The mask that announces the optional operands of an image instruction. -/
def Inst.imageMask? (inst : Inst) : Option Word := inst.op.maskPlace?.bind (inst.operands[·]?)

/-- Whether the instruction takes texels at an offset that is no constant, or at four. -/
def Inst.offsetsTexels (inst : Inst) : Bool := inst.imageMask?.any announcesOffsets

theorem Inst.offsetsTexels_of_maskPlace? (h : inst.op.maskPlace? = none) : inst.offsetsTexels = false := by
  rw [offsetsTexels, imageMask?, h]
  rfl

theorem Inst.offsetsTexels_of_operands {before after : List Word} (hplace : inst.op.maskPlace? = some before.length)
    (hoperands : inst.operands = before ++ after) : inst.offsetsTexels = after.head?.any announcesOffsets := by
  rw [offsetsTexels, imageMask?, hplace, Option.bind_some, hoperands,
    getElem?_append_right (Nat.le_refl _), Nat.sub_self, head?_eq_getElem?]

theorem announcesOffsets_sampleOperands (sample : List Id) :
    (Lower.sampleOperands sample).head?.any announcesOffsets = false := by
  cases sample with
  | nil => rfl
  | cons => exact (by decide : announcesOffsets ImageOperand.sampleBit = false)

/-! ## Announced arguments -/

theorem insertByBit_perm (entry : Word × List Id) :
    ∀ entries : List (Word × List Id), (insertByBit entry entries).Perm (entry :: entries)
  | [] => .refl _
  | other :: rest => by
    rw [insertByBit]
    split
    · exact .refl _
    · exact ((insertByBit_perm entry rest).cons other).trans (.swap entry other rest)

theorem foldl_insertByBit_perm : ∀ entries sorted : List (Word × List Id),
    (entries.foldl (fun sorted entry => insertByBit entry sorted) sorted).Perm (entries ++ sorted)
  | [], sorted => .refl _
  | entry :: entries, sorted => by
    refine (foldl_insertByBit_perm entries _).trans ?_
    exact ((insertByBit_perm entry sorted).append_left entries).trans perm_middle

theorem announcesOffsets_maskedOperands (entries : List (Word × List Id)) :
    (maskedOperands entries).head?.any announcesOffsets = (entries.map (·.1)).any announcesOffsets := by
  unfold maskedOperands
  split
  case isTrue h =>
    rw [isEmpty_iff.1 h]
    rfl
  case isFalse =>
    have hmem e := (foldl_insertByBit_perm entries []).mem_iff (a := e)
    rw [head?_cons, Option.any_some, announcesOffsets, Bool.eq_iff_iff, bne_iff_ne, foldl_or_and_ne_zero_iff]
    simp [announcesOffsets, hmem]

namespace ImageOperand

theorem totalArity_cons (operand : ImageOperand) (operands : List ImageOperand) :
    totalArity (operand :: operands) = operand.arity + totalArity operands := by
  have hshift : ∀ (operands : List ImageOperand) (m n : Nat),
      operands.foldl (fun n operand => n + operand.arity) (m + n) =
        m + operands.foldl (fun n operand => n + operand.arity) n := by
    intro operands
    induction operands with
    | nil => exact fun _ _ => rfl
    | cons operand operands ih =>
      intro m n
      rw [foldl_cons, foldl_cons, Nat.add_assoc, ih]
  rw [totalArity, foldl_cons, Nat.zero_add]
  exact hshift operands operand.arity 0

theorem totalArity_append : ∀ operands operands' : List ImageOperand,
    totalArity (operands ++ operands') = totalArity operands + totalArity operands'
  | [], operands' => by simp [totalArity]
  | operand :: operands, operands' => by
    rw [cons_append, totalArity_cons, totalArity_append, totalArity_cons, Nat.add_assoc]

/-- The bits of operands in the mask. -/
def bits (multisampled : Bool) : List ImageOperand → List Expr → List Word
  | [], _ => []
  | operand :: operands, args =>
    operand.bit multisampled (args.take operand.arity) :: bits multisampled operands (args.drop operand.arity)

theorem bits_append (multisampled : Bool) : ∀ (operands operands' : List ImageOperand)
    (args : List Expr), bits multisampled (operands ++ operands') args = bits multisampled operands args ++
        bits multisampled operands' (args.drop (totalArity operands))
  | [], operands', args => rfl
  | operand :: operands, operands', args => by
    rw [cons_append, bits, bits, bits_append, drop_drop, totalArity_cons, cons_append]

/-- Operands that move the place where texels are read. -/
def isOffset : ImageOperand → Bool
  | .offset | .offsets => true
  | .bias | .lod | .grad => false

theorem announcesOffsets_bit {operand : ImageOperand} (h : operand.isOffset = false) (multisampled : Bool)
    (args : List Expr) : announcesOffsets (operand.bit multisampled args) = false := by
  cases operand with
  | offset | offsets => cases h
  | bias => exact (by decide : announcesOffsets 1 = false)
  | grad => exact (by decide : announcesOffsets 4 = false)
  | lod =>
    cases multisampled with
    | true => exact (by decide : announcesOffsets sampleBit = false)
    | false => exact (by decide : announcesOffsets 2 = false)

theorem announcesOffsets_bits (multisampled : Bool) : ∀ {operands : List ImageOperand},
    (∀ operand ∈ operands, operand.isOffset = false) → ∀ args : List Expr,
      (bits multisampled operands args).any announcesOffsets = false
  | [], _, _ => rfl
  | operand :: operands, h, args => by
    rw [bits, any_cons, announcesOffsets_bit (h operand mem_cons_self),
      announcesOffsets_bits multisampled fun o ho => h o (mem_cons_of_mem _ ho)]
    rfl

end ImageOperand

theorem Lower.announced_bits (parts : Parts) (multisampled : Bool) :
    ∀ (operands : List ImageOperand) (args : List Expr),
      (announced parts multisampled operands args).Yields fun entries =>
        entries.map (·.1) = ImageOperand.bits multisampled operands args
  | [], args => .pure rfl
  | operand :: operands, args => by
    refine .bind fun ids => ?_
    intro s entries s' h
    obtain ⟨rest, t, hrest, h⟩ := Action.bind_ok h
    obtain ⟨rfl, -⟩ := Action.pure_ok h
    rw [map_cons, announced_bits parts multisampled operands _ _ rest _ hrest]
    rfl

/-! ## Accesses through a sampler -/

namespace TextureAccess

/-- Whether the arguments of the access are an offset that is no constant, or four. -/
def offsetsTexels (access : TextureAccess) (args : List Expr) : Bool :=
  access.hasOffset && (access = .gatherOffsets || args.getLast?.any (!·.isConstant))

/-- The operand that carries the offset of an access. -/
def offsetOperands (access : TextureAccess) : List ImageOperand :=
  if access.hasOffset then [if access = .gatherOffsets then .offsets else .offset] else []

theorem operandsFor_eq (access : TextureAccess) (dim : Dim) :
    ∃ before : List ImageOperand, (∀ operand ∈ before, operand.isOffset = false) ∧
      access.form.operandsFor dim = before ++ access.offsetOperands := by
  refine ⟨(access.form.operandsFor dim).filter (!·.isOffset), by simp, ?_⟩
  cases access <;> cases dim <;> rfl

theorem maskPlace?_form (access : TextureAccess) :
    access.form.op.maskPlace? = if access.isQuery then none else some (access.form.fixed + 1) := by
  cases access <;> rfl

theorem not_hasOffset_of_isQuery {access : TextureAccess} (h : access.isQuery) : access.hasOffset = false := by
  cases access <;> first | rfl | cases h

theorem announcesOffsets_bits (access : TextureAccess) (multisampled : Bool) (dim : Dim) (image : Expr)
    {rest : List Expr}
    (hlength : rest.length = access.form.fixed + ImageOperand.totalArity (access.form.operandsFor dim)) :
    (ImageOperand.bits multisampled (access.form.operandsFor dim)
      (rest.drop access.form.fixed)).any announcesOffsets = access.offsetsTexels (image :: rest) := by
  obtain ⟨before, hbefore, hoperands⟩ := access.operandsFor_eq dim
  rw [hoperands, ImageOperand.totalArity_append] at hlength
  rw [hoperands, ImageOperand.bits_append, any_append,
    ImageOperand.announcesOffsets_bits multisampled hbefore, Bool.false_or, drop_drop]
  unfold offsetsTexels
  cases hoffset : access.hasOffset with
  | false => simp [offsetOperands, hoffset, ImageOperand.bits]
  | true =>
    have harity : ImageOperand.totalArity access.offsetOperands = 1 := by
      rw [offsetOperands, if_pos hoffset]
      split <;> rfl
    obtain ⟨last, hlast⟩ := length_eq_one_iff.1 (show (rest.drop
        (access.form.fixed + ImageOperand.totalArity before)).length = 1 by
      rw [length_drop]
      omega)
    have hget : (image :: rest).getLast? = some last := by
      rw [← take_append_drop (access.form.fixed + ImageOperand.totalArity before) rest, hlast,
        ← cons_append, getLast?_concat]
    rw [hlast, hget, offsetOperands, if_pos hoffset]
    by_cases hfour : access = .gatherOffsets
    · have hbit : announcesOffsets 32 = true := by decide
      simp [hfour, ImageOperand.bits, ImageOperand.bit, hbit]
    · have hbit : announcesOffsets 16 = true := by decide
      have hconstantBit : announcesOffsets 8 = false := by decide
      cases hconstant : last.isConstant <;>
        simp [hfour, hconstant, ImageOperand.bits, ImageOperand.bit, ImageOperand.arity,
          Expr.allConstant, hbit, hconstantBit]

theorem offsetsTexels_inst {access : TextureAccess} {multisampled : Bool} {dim : Dim} {image : Expr}
    {rest : List Expr} {handle : Id} {ids : List Id} {entries : List (Word × List Id)}
    (hop : inst.op = access.form.op)
    (hoperands : inst.operands = handle :: ids ++ maskedOperands entries)
    (hids : ids.length = access.form.fixed)
    (hentries : entries.map (·.1) = ImageOperand.bits multisampled (access.form.operandsFor dim)
      (rest.drop access.form.fixed))
    (hlength : rest.length = access.form.fixed + ImageOperand.totalArity (access.form.operandsFor
      dim)) : inst.offsetsTexels = access.offsetsTexels (image :: rest) := by
  have hplace := access.maskPlace?_form
  cases hquery : access.isQuery with
  | true =>
    rw [hquery, if_pos rfl, ← hop] at hplace
    rw [Inst.offsetsTexels_of_maskPlace? hplace, offsetsTexels, not_hasOffset_of_isQuery hquery, Bool.false_and]
  | false =>
    rw [hquery, if_neg Bool.false_ne_true, ← hop, ← hids] at hplace
    rw [Inst.offsetsTexels_of_operands hplace hoperands, announcesOffsets_maskedOperands, hentries,
      announcesOffsets_bits access multisampled dim image hlength]

end TextureAccess

/-- Whether the expression accesses texels at an offset that is no constant, or at four. -/
def Expr.offsetsTexels (e : Expr) : Bool :=
  match e.node with
  | .texture access args => access.offsetsTexels args
  | _ => false

end Shader
