import Mathlib.Data.List.Sort
import Shader.Proofs.Arguments
import Shader.Proofs.TexelOffsets

/-!
# Image operands and their mask

The arguments that not every access through a sampler has stand behind a mask. A reader of the
instruction goes through the bits of the mask from the lowest to the highest: the bit for derivatives
announces two words, every other bit one.
-/

namespace Shader

open Action List

/-! ## Reading a mask -/

/-- Words with a single bit. -/
def maskBits : List Word := (range 32).map fun i => 1 <<< UInt32.ofNat i

/-- How many words a bit announces: two derivatives, or one of anything else. -/
def maskWidth (bit : Word) : Nat := if bit = 4 then 2 else 1

/-- Reads some bits of the mask one after the other. All words have to be announced. -/
def readBits (mask : Word) : List Word → List Id → Option (List (Word × List Id))
  | [], [] => some []
  | [], _ :: _ => none
  | bit :: bits, ids =>
    if mask &&& bit ≠ 0 then
      if maskWidth bit ≤ ids.length then
        (readBits mask bits (ids.drop (maskWidth bit))).map ((bit, ids.take (maskWidth bit)) :: ·)
      else none
    else readBits mask bits ids

/-- The words behind a mask, under the bits that announce them, the lowest first. -/
def readMasked (mask : Word) (ids : List Id) : Option (List (Word × List Id)) := readBits mask maskBits ids

theorem readBits_flatMap {mask : Word} : ∀ {bits : List Word} {entries : List (Word × List Id)},
    entries.map (·.1) = bits.filter (mask &&& · ≠ 0) → (∀ e ∈ entries, e.2.length = maskWidth e.1) →
    readBits mask bits (entries.flatMap (·.2)) = some entries
  | [], entries, hbits, _ => by
    obtain rfl := map_eq_nil_iff.1 hbits
    rfl
  | bit :: bits, entries, hbits, hwidths => by
    rw [readBits]
    split
    case isTrue hset =>
      rw [filter_cons_of_pos (by simpa using hset)] at hbits
      obtain ⟨⟨_, ids⟩, entries, rfl, rfl, hrest⟩ := map_eq_cons_iff.1 hbits
      obtain ⟨hwidth, hwidths⟩ := forall_mem_cons.1 hwidths
      rw [flatMap_cons, if_pos (by rw [length_append]; omega), ← hwidth, drop_left,
        take_left, readBits_flatMap hrest hwidths]
      rfl
    case isFalse hclear =>
      rw [filter_cons_of_neg (by simpa using hclear)] at hbits
      exact readBits_flatMap hbits hwidths

theorem maskBits_pairwise : maskBits.Pairwise (· < ·) := by decide

theorem and_ne_zero_iff {bit bit' : Word} (h : bit ∈ maskBits) (h' : bit' ∈ maskBits) :
    bit &&& bit' ≠ 0 ↔ bit = bit' := by
  -- stated with `all`, the decision goes over the bits only, not over all words
  have hall : maskBits.all fun bit => maskBits.all fun bit' => bit &&& bit' ≠ 0 ↔ bit = bit' := by decide +kernel
  exact of_decide_eq_true (all_eq_true.1 (all_eq_true.1 hall bit h) bit' h')

/-! ## Writing a mask -/

section Masked

variable {entry : Word × List Id} {entries sorted : List (Word × List Id)}

theorem pairwise_insertByBit (hsorted : sorted.Pairwise (·.1 < ·.1)) (hnew : ∀ other ∈ sorted, other.1 ≠ entry.1) :
    (insertByBit entry sorted).Pairwise (·.1 < ·.1) := by
  induction sorted with
  | nil => exact pairwise_singleton _ _
  | cons other rest ih =>
    obtain ⟨hfirst, hrest⟩ := pairwise_cons.1 hsorted
    obtain ⟨hne, hnew⟩ := forall_mem_cons.1 hnew
    rw [insertByBit]
    split
    case isTrue hlt =>
      refine pairwise_cons.2 ⟨?_, hsorted⟩
      exact forall_mem_cons.2 ⟨hlt, fun e he => UInt32.lt_trans hlt (hfirst e he)⟩
    case isFalse hle =>
      refine pairwise_cons.2 ⟨fun e he => ?_, ih hrest hnew⟩
      rcases mem_cons.1 ((insertByBit_perm _ _).mem_iff.1 he) with rfl | he
      · exact UInt32.lt_of_le_of_ne (UInt32.not_lt.1 hle) hne
      · exact hfirst e he

theorem pairwise_foldl_insertByBit (hsorted : sorted.Pairwise (·.1 < ·.1)) (hdistinct : (entries.map (·.1)).Nodup)
    (hnew : ∀ entry ∈ entries, ∀ other ∈ sorted, other.1 ≠ entry.1) :
    (entries.foldl (fun sorted entry => insertByBit entry sorted) sorted).Pairwise (·.1 < ·.1) := by
  induction entries generalizing sorted with
  | nil => exact hsorted
  | cons entry entries ih =>
    rw [map_cons, nodup_cons] at hdistinct
    obtain ⟨hfirst, hnew⟩ := forall_mem_cons.1 hnew
    refine ih (pairwise_insertByBit hsorted hfirst) hdistinct.2 fun e he other hother => ?_
    rcases mem_cons.1 ((insertByBit_perm _ _).mem_iff.1 hother) with rfl | hother
    · exact fun heq => hdistinct.1 (heq ▸ mem_map_of_mem he)
    · exact hnew e he other hother

/-- Entries for different bits are put in such an order that each bit announces its own words. -/
theorem readMasked_maskedOperands (hne : entries ≠ [])
    (hbits : ∀ e ∈ entries, e.1 ∈ maskBits ∧ e.2.length = maskWidth e.1) (hdistinct : (entries.map (·.1)).Nodup) :
    ∃ mask words order, maskedOperands entries = mask :: words ∧ readMasked mask words = some order ∧
      order.Perm entries := by
  rw [maskedOperands, if_neg (by simpa using hne)]
  generalize hsorted : entries.foldl (fun sorted entry => insertByBit entry sorted) [] = sorted
  have hperm : sorted.Perm entries := by
    have h := foldl_insertByBit_perm entries []
    rwa [hsorted, append_nil] at h
  have hascending : sorted.Pairwise (·.1 < ·.1) := by
    rw [← hsorted]
    exact pairwise_foldl_insertByBit .nil hdistinct (fun _ _ _ h => absurd h not_mem_nil)
  refine ⟨_, _, sorted, rfl, readBits_flatMap ?_ fun e he => (hbits e (hperm.mem_iff.1 he)).2, hperm⟩
  -- both sides hold the set bits in ascending order
  apply Perm.eq_of_pairwise (fun a b _ _ (hab : a < b) (hba : b < a) => absurd hba (UInt32.lt_asymm hab))
  · exact pairwise_map.2 hascending
  · exact maskBits_pairwise.filter _
  refine (perm_ext_iff_of_nodup (hperm.map _ |>.nodup_iff.2 hdistinct) ?_).2 fun bit => ?_
  · exact (maskBits_pairwise.imp fun h => UInt32.ne_of_lt h).filter _
  rw [mem_filter, decide_eq_true_iff, foldl_or_and_ne_zero_iff, mem_map]
  constructor
  · rintro ⟨e, he, rfl⟩
    have hbit := (hbits e (hperm.mem_iff.1 he)).1
    exact ⟨hbit, .inr ⟨e, he, (and_ne_zero_iff hbit hbit).2 rfl⟩⟩
  · rintro ⟨hbit, h | ⟨e, he, h⟩⟩
    · simp at h
    · exact ⟨e, he, (and_ne_zero_iff (hbits e (hperm.mem_iff.1 he)).1 hbit).1 h⟩

end Masked

/-! ## Arguments and their bits -/

/-- The bit that announces arguments. A sample index has its own in place of the level of detail. -/
inductive ImageOperand.HasBit (multisampled : Bool) (own : List Expr) : ImageOperand → Word → Prop where
  | bias : HasBit multisampled own .bias 1
  | lod : multisampled = false → HasBit multisampled own .lod 2
  | grad : HasBit multisampled own .grad 4
  | constOffset : (∀ arg ∈ own, arg.isConstant) → HasBit multisampled own .offset 8
  | offset : ¬ (∀ arg ∈ own, arg.isConstant) → HasBit multisampled own .offset 16
  | constOffsets : HasBit multisampled own .offsets 32
  | sample : multisampled = true → HasBit multisampled own .lod 64

theorem Expr.allConstant_iff : ∀ {es : List Expr}, Expr.allConstant es ↔ ∀ e ∈ es, e.isConstant
  | [] => by simp [allConstant]
  | e :: es => by rw [allConstant, Bool.and_eq_true, allConstant_iff, forall_mem_cons]

namespace ImageOperand

variable {multisampled : Bool} {own own' : List Expr} {operand operand' : ImageOperand} {bit : Word}

theorem hasBit_bit (multisampled : Bool) (own : List Expr) (operand : ImageOperand) :
    operand.HasBit multisampled own (operand.bit multisampled own) := by
  cases operand with
  | bias => exact .bias
  | grad => exact .grad
  | offsets => exact .constOffsets
  | lod =>
    cases multisampled with
    | true => exact .sample rfl
    | false => exact .lod rfl
  | offset =>
    rw [bit]
    split
    case isTrue h => exact .constOffset (Expr.allConstant_iff.1 h)
    case isFalse h => exact .offset (mt Expr.allConstant_iff.2 h)

theorem HasBit.mem_maskBits (h : operand.HasBit multisampled own bit) : bit ∈ maskBits := by
  cases h <;> decide

theorem HasBit.maskWidth_eq (h : operand.HasBit multisampled own bit) : maskWidth bit = operand.arity := by
  cases h <;> rfl

theorem HasBit.operand_eq (h : operand.HasBit multisampled own bit) (h' : operand'.HasBit multisampled own' bit) :
    operand = operand' := by
  cases h <;> cases h' <;> rfl

end ImageOperand

theorem TextureForm.operandsFor_nodup (access : TextureAccess) (dim : Dim) : (access.form.operandsFor dim).Nodup := by
  have hform : access.form.operands.Nodup := by cases access <;> decide
  exact hform.filter _

/-- An operand that is announced: its arguments, their identifiers and its bit in the mask. -/
structure Announcement where
  operand : ImageOperand
  own : List Expr
  ids : List Id
  bit : Word

/-- The arguments are as many as the operand takes, each has its word, and the bit is the operand's. -/
structure Announcement.Sound (multisampled : Bool) (a : Announcement) : Prop where
  arity : a.own.length = a.operand.arity
  length : a.ids.length = a.own.length
  hasBit : a.operand.HasBit multisampled a.own a.bit

theorem nodup_bits {multisampled : Bool} {as : List Announcement} (hsound : ∀ a ∈ as, a.Sound multisampled)
    (hdistinct : (as.map (·.operand)).Nodup) : (as.map (·.bit)).Nodup := by
  refine pairwise_map.2 ((pairwise_map.1 hdistinct).imp_of_mem fun {a b} ha hb hne hbit => ?_)
  exact hne ((hsound a ha).hasBit.operand_eq (hbit ▸ (hsound b hb).hasBit))

/-! ## Lowering arguments one after the other -/

namespace Lower

variable {parts : Parts} {s t u : Lowerer} {args args' : List Expr} {ids ids' : List Id}
  {codes codes' : List (List Inst)}

/-- The arguments are lowered one after the other, each with a word and with code of its own. -/
inductive Appends (parts : Parts) : List Expr → Lowerer → List Id → List (List Inst) → Lowerer → Prop where
  | nil (s : Lowerer) : Appends parts [] s [] [] s
  | cons {arg : Expr} {args : List Expr} {s t u : Lowerer} {id : Id} {ids : List Id} {code : List Inst}
      {codes : List (List Inst)} : parts.value arg s = (.ok id, t) →
      t.block.instructions = s.block.instructions ++ code → Appends parts args t ids codes u →
      Appends parts (arg :: args) s (id :: ids) (code :: codes) u

namespace Appends

theorem append (h : Appends parts args s ids codes t) (h' : Appends parts args' t ids' codes' u) :
    Appends parts (args ++ args') s (ids ++ ids') (codes ++ codes') u := by
  induction h with
  | nil => exact h'
  | cons hvalue hcode _ ih => exact .cons hvalue hcode (ih h')

theorem code (h : Appends parts args s ids codes t) : t.block.instructions = s.block.instructions ++ codes.flatten := by
  induction h with
  | nil => simp
  | cons _ hcode _ ih => rw [ih, hcode, flatten_cons, append_assoc]

theorem length_eq (h : Appends parts args s ids codes t) : ids.length = args.length := by
  induction h with
  | nil => rfl
  | cons _ _ _ ih => simp [ih]

end Appends

theorem value_appends (hparts : parts.Regular) {arg : Expr} {id : Id} (h : parts.value arg s = (.ok id, t)) :
    ∃ code, t.block.instructions = s.block.instructions ++ code := by
  obtain ⟨code, hcode⟩ := (extends_of_keeps [] (fun L hL => (hparts L hL).value arg.operable_any _) h).code
  exact ⟨code, hcode.symm⟩

theorem mapM_appends (hparts : parts.Regular) : ∀ {args : List Expr} {s t : Lowerer} {ids : List Id},
    args.mapM parts.value s = (.ok ids, t) → ∃ codes, Appends parts args s ids codes t
  | [], s, t, ids, h => by
    obtain ⟨rfl, rfl⟩ := pure_ok h
    exact ⟨[], .nil _⟩
  | arg :: args, s, t, ids, h => by
    rw [mapM_cons] at h
    obtain ⟨id, t₁, hvalue, h⟩ := bind_ok h
    obtain ⟨ids, hrest, rfl⟩ := bind_pure_ok h
    obtain ⟨code, hcode⟩ := value_appends hparts hvalue
    obtain ⟨codes, happends⟩ := mapM_appends hparts hrest
    exact ⟨code :: codes, .cons hvalue hcode happends⟩

theorem announced_appends (hparts : parts.Regular) {multisampled : Bool} :
    ∀ {operands : List ImageOperand} {args : List Expr} {s t : Lowerer} {entries : List (Word × List Id)},
    args.length = ImageOperand.totalArity operands →
    announced parts multisampled operands args s = (.ok entries, t) →
    ∃ (as : List Announcement) (codes : List (List Inst)), as.map (·.operand) = operands ∧
      as.flatMap (·.own) = args ∧ as.map (fun a => (a.bit, a.ids)) = entries ∧
      (∀ a ∈ as, a.Sound multisampled) ∧ Appends parts args s (as.flatMap (·.ids)) codes t
  | [], args, s, t, entries, hlength, h => by
    obtain rfl := eq_nil_of_length_eq_zero hlength
    obtain ⟨rfl, rfl⟩ := pure_ok h
    exact ⟨[], [], rfl, rfl, rfl, forall_mem_nil _, .nil _⟩
  | operand :: operands, args, s, t, entries, hlength, h => by
    rw [ImageOperand.totalArity_cons] at hlength
    obtain ⟨ids, t₁, hids, h⟩ := bind_ok h
    obtain ⟨rest, hrest, rfl⟩ := bind_pure_ok h
    obtain ⟨codes, happends⟩ := mapM_appends hparts hids
    obtain ⟨as, codes', hoperands, howns, hentries, hsound, happends'⟩ :=
      announced_appends hparts (by rw [length_drop]; omega) hrest
    refine ⟨⟨operand, args.take operand.arity, ids, operand.bit multisampled (args.take operand.arity)⟩ :: as,
      codes ++ codes', ?_, ?_, ?_, ?_, ?_⟩
    · rw [map_cons, hoperands]
    · rw [flatMap_cons, howns, take_append_drop]
    · rw [map_cons, hentries]
    · have harity : (args.take operand.arity).length = operand.arity := length_take_of_le (by omega)
      exact forall_mem_cons.2 ⟨⟨harity, happends.length_eq, ImageOperand.hasBit_bit _ _ _⟩, hsound⟩
    · have h := happends.append happends'
      rwa [take_append_drop] at h

/-- The image is taken out of a sampled image where the access asks for it alone. -/
def Handles (access : TextureAccess) (image : Expr) (m : Module) (given handle : Id) (code : List Inst) : Prop :=
  (∃ config type, access.form.handle = .image ∧ image.ty = .sampledImage config ∧
    m.Finds none none (.image config) type ∧ code = [.value .Image type handle [given]]) ∨
  (¬ (access.form.handle = .image ∧ ∃ config, image.ty = .sampledImage config) ∧ handle = given ∧ code = [])

theorem textureHandle_handles {access : TextureAccess} {image : Expr} {handle : Id}
    (h : textureHandle parts access.form image s = (.ok handle, t)) :
    ∃ given code, ∃ s₁ : Lowerer, parts.value image s = (.ok given, s₁) ∧
      t.block.instructions = s₁.block.instructions ++ code ∧ Handles access image t.module given handle code := by
  unfold textureHandle at h
  split at h
  case h_1 config hhandle hty =>
    obtain ⟨given, s₁, hvalue, h⟩ := bind_ok h
    obtain ⟨-, type, hfinds, hcode⟩ := emit_appends h
    exact ⟨given, _, s₁, hvalue, hcode, .inl ⟨config, type, hhandle, hty, hfinds, rfl⟩⟩
  case h_2 hother =>
    obtain ⟨given, s₁, hvalue, h⟩ := bind_ok h
    obtain ⟨rfl, rfl⟩ := pure_ok h
    refine ⟨given, [], s₁, hvalue, (append_nil _).symm, .inr ⟨?_, rfl, rfl⟩⟩
    rintro ⟨hhandle, config, hty⟩
    exact hother config hhandle hty

end Lower

/-- Nothing, or a mask whose bits, from the lowest, have the words of their own arguments. -/
def Announces (as : List Announcement) (words : List Word) : Prop :=
  (as = [] ∧ words = []) ∨
  (as ≠ [] ∧ ∃ mask ids order, words = mask :: ids ∧ readMasked mask ids = some order ∧
    order.Perm (as.map fun a => (a.bit, a.ids)))

theorem announces_maskedOperands {multisampled : Bool} {as : List Announcement}
    (hsound : ∀ a ∈ as, a.Sound multisampled) (hdistinct : (as.map (·.operand)).Nodup) :
    Announces as (maskedOperands (as.map fun a => (a.bit, a.ids))) := by
  by_cases hnil : as = []
  · exact .inl ⟨hnil, by rw [hnil]; rfl⟩
  · refine .inr ⟨hnil, readMasked_maskedOperands (by simpa using hnil) ?_ ?_⟩
    · rintro _ hentry
      obtain ⟨a, ha, rfl⟩ := mem_map.1 hentry
      obtain ⟨harity, hlength, hbit⟩ := hsound a ha
      exact ⟨hbit.mem_maskBits, by rw [hlength, harity, hbit.maskWidth_eq]⟩
    · rw [map_map]
      exact nodup_bits hsound hdistinct

/-- A texture access with all that its lowering makes of it. -/
structure TextureRun where
  image : Expr
  config : ImageConfig
  fixed : List Expr
  announced : List Announcement
  given : Id
  handle : Id
  fixedIds : List Id
  masked : List Word
  type : Id
  imageCode : List Inst
  handleCode : List Inst
  argCodes : List (List Inst)
  afterImage : Lowerer
  afterHandle : Lowerer
  afterArgs : Lowerer

/-- The run lowers the arguments of the access in order and ends with its instruction. -/
structure TextureRun.Performs (r : TextureRun) (parts : Parts) (access : TextureAccess) (args : List Expr) (ty : Ty)
    (s s' : Lowerer) (id : Id) : Prop where
  args : args = r.image :: (r.fixed ++ r.announced.flatMap (·.own))
  config : r.image.ty.imageConfig? = some r.config
  fixed : r.fixed.length = access.form.fixed
  operands : r.announced.map (·.operand) = access.form.operandsFor r.config.dim
  sound : ∀ a ∈ r.announced, a.Sound r.config.ms
  image : parts.value r.image s = (.ok r.given, r.afterImage)
  handle : Lower.Handles access r.image r.afterHandle.module r.given r.handle r.handleCode
  lowered : Lower.Appends parts (r.fixed ++ r.announced.flatMap (·.own)) r.afterHandle
    (r.fixedIds ++ r.announced.flatMap (·.ids)) r.argCodes r.afterArgs
  fixedIds : r.fixedIds.length = r.fixed.length
  announces : Announces r.announced r.masked
  type : s'.module.Finds none none ty r.type
  imageCode : r.afterImage.block.instructions = s.block.instructions ++ r.imageCode
  handleCode : r.afterHandle.block.instructions = r.afterImage.block.instructions ++ r.handleCode
  code : s'.block.instructions = r.afterArgs.block.instructions ++
    [.value access.form.op r.type id (r.handle :: r.fixedIds ++ r.masked)]

theorem TextureRun.Performs.instructions {r : TextureRun} {parts : Parts} {access : TextureAccess} {args : List Expr}
    {ty : Ty} {s s' : Lowerer} {id : Id} (h : r.Performs parts access args ty s s' id) :
    s'.block.instructions = s.block.instructions ++ (r.imageCode ++ r.handleCode ++ r.argCodes.flatten ++
      [.value access.form.op r.type id (r.handle :: r.fixedIds ++ r.masked)]) := by
  rw [h.code, h.lowered.code, h.handleCode, h.imageCode]
  simp only [append_assoc]

/-- An access takes the image, the words of the arguments that all such accesses have, and the others
behind a mask that tells whose they are. -/
theorem textureAccess_operands (n : Nat) {access : TextureAccess} {args : List Expr} {ty : Ty} {s s' : Lowerer}
    {id : Id} (hrun : Lower.textureAccess (Lower.partsOf (Lower.lowerWithin n)) access args ty s = (.ok id, s')) :
    ∃ r : TextureRun, r.Performs (Lower.partsOf (Lower.lowerWithin n)) access args ty s s' id ∧
      s'.block.instructions = s.block.instructions ++ (r.imageCode ++ r.handleCode ++ r.argCodes.flatten ++
        [.value access.form.op r.type id (r.handle :: r.fixedIds ++ r.masked)]) := by
  have hparts := Lower.partsOf_regular n
  unfold Lower.textureAccess at hrun
  obtain ⟨⟨image, config⟩, s₁, himage, hchecked⟩ := bind_ok hrun
  obtain ⟨_, s₂, hcount, h⟩ := bind_ok hchecked
  obtain ⟨rfl, hconfig, rest, rfl⟩ := Lower.imageArg_ok himage
  obtain ⟨rfl, hlength⟩ := Lower.checkCount_ok hcount
  rw [tail_cons, splitAt_eq] at h
  dsimp only at h
  obtain ⟨handle, s₃, hhandle, h⟩ := bind_ok h
  obtain ⟨ids, s₄, hids, h⟩ := bind_ok h
  obtain ⟨entries, s₅, hentries, h⟩ := bind_ok h
  rw [length_cons] at hlength
  obtain ⟨given, handleCode, afterImage, hvalue, hhandleCode, hhandles⟩ := Lower.textureHandle_handles hhandle
  obtain ⟨imageCode, himageCode⟩ := Lower.value_appends hparts hvalue
  obtain ⟨fixedCodes, hfixed⟩ := Lower.mapM_appends hparts hids
  obtain ⟨as, codes, hoperands, howns, hmasked, hsound, hannounced⟩ :=
    Lower.announced_appends hparts (by rw [length_drop]; omega) hentries
  obtain ⟨-, type, hfinds, hcode⟩ := Lower.emit_appends h
  have hsplit : rest.take access.form.fixed ++ as.flatMap (·.own) = rest := by
    rw [howns, take_append_drop]
  have hdistinct : (as.map (·.operand)).Nodup := hoperands ▸ TextureForm.operandsFor_nodup access config.dim
  have hannounces : Announces as (maskedOperands entries) := hmasked ▸ announces_maskedOperands hsound hdistinct
  let r : TextureRun := {
    image, config, fixed := rest.take access.form.fixed, announced := as, given, handle, fixedIds := ids
    masked := maskedOperands entries, type, imageCode, handleCode, argCodes := fixedCodes ++ codes
    afterImage, afterHandle := s₃, afterArgs := s₅ }
  have hperforms : r.Performs _ access (image :: rest) ty s₂ s' id := {
    args := by rw [hsplit]
    config := hconfig
    fixed := length_take_of_le (by omega)
    operands := hoperands
    sound := hsound
    image := hvalue
    handle := hhandles
    lowered := hfixed.append (howns ▸ hannounced)
    fixedIds := hfixed.length_eq
    announces := hannounces
    type := hfinds
    imageCode := himageCode
    handleCode := hhandleCode
    code := hcode }
  exact ⟨r, hperforms, hperforms.instructions⟩

def Expr.fetchArgs : List Expr :=
  [.ident (.root "s" (.sampledImage { ms := true }) { uniform := true }), .literal (.int 3), .literal (.int 1),
    .literal (.int 2)]

/-- The constant offset has a lower bit than the sample, and stands before it. -/
theorem fetchOffset_operands : ∃ id s' r, Lower.textureAccess (Lower.partsOf (Lower.lowerWithin 1)) .fetchOffset
      Expr.fetchArgs (.vector .float 4) .inFunction = (.ok id, s') ∧
    TextureRun.Performs r (Lower.partsOf (Lower.lowerWithin 1)) .fetchOffset Expr.fetchArgs (.vector .float 4)
      .inFunction s' id ∧
    s'.block.instructions.getLast?.map (·.operands) = some [12, 14, 72, 16, 15] ∧
    readMasked 72 [16, 15] = some [(8, [16]), (64, [15])] := by
  have hok : (Lower.textureAccess (Lower.partsOf (Lower.lowerWithin 1)) .fetchOffset Expr.fetchArgs
      (.vector .float 4) .inFunction).1.isOk := by decide +kernel
  obtain ⟨id, h⟩ := exists_ok hok
  obtain ⟨r, hr, -⟩ := textureAccess_operands 1 h
  exact ⟨id, _, r, h, hr, by decide +kernel, by decide⟩

end Shader
