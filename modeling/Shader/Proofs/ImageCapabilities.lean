import Shader.Proofs.Requirements

/-!
# Capabilities that images need

Questions about images, and texels at an offset that is no constant or at four offsets, need
capabilities of their own. A scan of an expression finds these exactly if lowering it appends an
instruction that needs them.
-/

namespace Shader

open Capability

/-! ## What asks for the capabilities -/

theorem Op.isImageQuery_of_acts {op : Op} (h : op.acts) : op.isImageQuery = false := by
  cases hquery : op.isImageQuery with
  | false => rfl
  | true =>
    unfold isImageQuery at hquery
    split at hquery
    case h_6 => cases hquery
    all_goals cases h

theorem TextureAccess.isImageQuery_form (access : TextureAccess) : access.form.op.isImageQuery = access.isQuery := by
  cases access <;> rfl

namespace Capability

variable {args : List Expr}

theorem imageQuery_mem_ofImageAccess {access : ImageAccess} :
    .ImageQuery ∈ ofImageAccess access args ↔ access = .size ∨ access = .samples := by
  have harg : .ImageQuery ∉ ofImageArg false args := fun h => absurd (ofImageArg_subset false args h) (by decide)
  unfold ofImageAccess
  split <;> simp [*]

theorem imageGatherExtended_notMem_ofImageAccess (access : ImageAccess) (args : List Expr) :
    .ImageGatherExtended ∉ ofImageAccess access args := by
  have harg : .ImageGatherExtended ∉ ofImageArg false args := fun h =>
    absurd (ofImageArg_subset false args h) (by decide)
  unfold ofImageAccess
  split <;> simp [harg]

theorem imageQuery_mem_ofTextureAccess {access : TextureAccess} :
    .ImageQuery ∈ ofTextureAccess access args ↔ access.isQuery := by
  have harg : .ImageQuery ∉ ofImageArg true args := fun h => absurd (ofImageArg_subset true args h) (by decide)
  unfold ofTextureAccess
  dsimp only
  split <;> split <;> simp [*]

theorem imageGatherExtended_mem_ofTextureAccess {access : TextureAccess} :
    .ImageGatherExtended ∈ ofTextureAccess access args ↔ access.offsetsTexels args := by
  have harg : .ImageGatherExtended ∉ ofImageArg true args := fun h => absurd (ofImageArg_subset true args h) (by decide)
  unfold ofTextureAccess TextureAccess.offsetsTexels
  dsimp only
  split <;> split <;> simp_all

end Capability

namespace Expr

variable {e : Expr}

/-- Expressions that ask for the properties of an image. -/
def isImageQuery (e : Expr) : Bool := e.engagedOp?.any Op.isImageQuery

theorem isImageQuery_of_acts (h : ∀ op, e.engagedOp? = some op → op.acts) : e.isImageQuery = false := by
  unfold isImageQuery
  cases hop : e.engagedOp? with
  | none => rfl
  | some op => exact Op.isImageQuery_of_acts (h op hop)

theorem imageQuery_mem_ownCapabilities (e : Expr) : .ImageQuery ∈ e.ownCapabilities ↔ e.isImageQuery := by
  have htype : ∀ ty, .ImageQuery ∉ ofType ty := fun ty h => absurd (eq_float64_of_mem_ofType h) (by decide)
  obtain ⟨ty, node⟩ := e
  cases node with
  | intrinsic f args =>
    have hquery : isImageQuery ⟨ty, .intrinsic f args⟩ = false := by
      refine isImageQuery_of_acts fun op hop => ?_
      cases args with
      | nil => cases hop
      | cons first rest => exact Intrinsic.acts_of_atomicOp? hop
    simp [ownCapabilities, htype, hquery]
  | image access args =>
    rw [ownCapabilities, List.mem_append, or_iff_right (htype ty)]
    refine imageQuery_mem_ofImageAccess.trans ?_
    cases hatomic : access.atomic? with
    | some f =>
      have hquery : isImageQuery ⟨ty, .image access args⟩ = false :=
        isImageQuery_of_acts fun op hop => Intrinsic.acts_of_atomicOp? (engagedOp?_of_atomic? hatomic hop)
      rw [hquery]
      cases access <;> cases hatomic <;> simp
    | none => cases access <;> cases hatomic <;> simp [isImageQuery, engagedOp?, Op.isImageQuery]
  | texture access args =>
    simp [ownCapabilities, htype, imageQuery_mem_ofTextureAccess, isImageQuery, engagedOp?,
      TextureAccess.isImageQuery_form]
  | _ => simp [ownCapabilities, htype, isImageQuery, engagedOp?, Op.isImageQuery]

theorem engages_of_isImageQuery (h : e.isImageQuery) : e.engages := by
  unfold isImageQuery at h
  cases hop : e.engagedOp? with
  | none =>
    rw [hop] at h
    cases h
  | some op => exact engages_of_engagedOp? hop

theorem engages_of_offsetsTexels (h : e.offsetsTexels) : e.engages := by
  obtain ⟨ty, node⟩ := e
  cases node with
  | texture => rfl
  | _ => cases h

theorem imageGatherExtended_mem_ownCapabilities (e : Expr) :
    .ImageGatherExtended ∈ e.ownCapabilities ↔ e.offsetsTexels := by
  have htype : ∀ ty, .ImageGatherExtended ∉ ofType ty := fun ty h => absurd (eq_float64_of_mem_ofType h) (by decide)
  obtain ⟨ty, node⟩ := e
  cases node <;>
    simp [ownCapabilities, offsetsTexels, htype, imageGatherExtended_notMem_ofImageAccess,
      imageGatherExtended_mem_ofTextureAccess]

end Expr

/-! ## What the instructions need -/

theorem Op.engages_of_isImageQuery {op : Op} (h : op.isImageQuery) : op.engages := by
  simp [engages, h]

theorem Inst.engages_of_offsetsTexels {inst : Inst} (h : inst.offsetsTexels) : inst.op.engages := by
  cases hplace : inst.op.maskPlace? with
  | none => simp [offsetsTexels_of_maskPlace? hplace] at h
  | some place =>
    unfold Op.maskPlace? at hplace
    split at hplace <;> simp_all [Op.engages, Op.readsTexels, Op.acts]

theorem Inst.Realizes.exists_iff {m : Module} {code : List Inst} {es : List Expr} {p : Inst → Bool} {q : Expr → Bool}
    (h : List.Forall₂ (Inst.Realizes m) (code.filter (·.op.engages)) (es.filter Expr.engages))
    (hp : ∀ inst, p inst → inst.op.engages) (hq : ∀ e, q e → e.engages)
    (hpq : ∀ inst e, Inst.Realizes m inst e → p inst = q e) : (∃ inst ∈ code, p inst) ↔ ∃ e ∈ es, q e := by
  rw [← List.length_filter_pos_iff, ← List.length_filter_pos_iff, (filter h hp hq hpq).length_eq]

/-- A scan finds the capability for questions about images exactly if lowering appends one, and that for
offsets exactly if a mask has an offset that is no constant, or four. -/
theorem lower_image_capabilities (e : Expr) {s s' : Lowerer} {id : Id} (h : Lower.lower e s = (.ok id, s')) :
    ∃ code, s'.block.instructions = s.block.instructions ++ code ∧
      ((({} : Requirements).scan e).requires .ImageQuery ↔ ∃ inst ∈ code, inst.op.isImageQuery) ∧
      ((({} : Requirements).scan e).requires .ImageGatherExtended ↔ ∃ inst ∈ code, inst.offsetsTexels) := by
  obtain ⟨code, hcode, hrealizes⟩ := (lower_realizes e h).code
  rw [e.filter_engages_events] at hrealizes
  refine ⟨code, hcode, ?_, ?_⟩
  · rw [Requirements.scan_requires, or_iff_right (by decide)]
    simp only [Expr.imageQuery_mem_ownCapabilities]
    refine (Inst.Realizes.exists_iff hrealizes (fun _ => Op.engages_of_isImageQuery)
      (fun _ => Expr.engages_of_isImageQuery) fun inst part hinst => ?_).symm
    rw [Expr.isImageQuery, hinst.op, Option.any_some]
  · rw [Requirements.scan_requires, or_iff_right (by decide)]
    simp only [Expr.imageGatherExtended_mem_ownCapabilities]
    exact (Inst.Realizes.exists_iff hrealizes (fun _ => Inst.engages_of_offsetsTexels)
      (fun _ => Expr.engages_of_offsetsTexels) fun _ _ hinst => hinst.offsets).symm

def Expr.sizedOffset : Expr :=
  let image : Expr := .ident (.root "s" (.sampledImage {}) { uniform := true })
  let size : Expr := ⟨.vector .int 2, .texture .sizeLod [image, .literal (.int 0)]⟩
  ⟨.vector .float 4, .texture .sampleOffset [image, .ident (.root "p" (.vector .float 2) {}), size]⟩

theorem sizedOffset_image_capabilities : ∃ id s' code, Lower.lower .sizedOffset .inFunction = (.ok id, s') ∧
      s'.block.instructions = Lowerer.inFunction.block.instructions ++ code ∧
      (({} : Requirements).scan .sizedOffset).requires .ImageQuery ∧
      (∃ inst ∈ code, inst.op.isImageQuery) ∧
      (({} : Requirements).scan .sizedOffset).requires .ImageGatherExtended ∧
      ∃ inst ∈ code, inst.offsetsTexels := by
  have hok : (Lower.lower .sizedOffset .inFunction).1.isOk := by decide +kernel
  have hquery : (({} : Requirements).scan .sizedOffset).requires .ImageQuery := by decide +kernel
  have hoffset : (({} : Requirements).scan .sizedOffset).requires .ImageGatherExtended := by
    decide +kernel
  obtain ⟨id, h⟩ := Action.exists_ok hok
  obtain ⟨code, hcode, hqueries, hoffsets⟩ := lower_image_capabilities .sizedOffset h
  exact ⟨id, _, code, h, hcode, hquery, hqueries.1 hquery, hoffset, hoffsets.1 hoffset⟩

end Shader
