import Shader.Proofs.Paths

/-!
# Values and where their types stand

A value that is computed is of a type that stands in no layout. One that is read from storage is of the
type that it has there, and so is every expression that passes it on.
-/

namespace Shader

open Action List Expr

variable {e : Expr} {Γ : Context} {s s' : Lowerer} {id : Id} {ty : Ty} {x arg : Expr}

/-! ## Types of values -/

namespace Lowerer

/-- The type is found that a value of `e` has where it is stored. -/
def FindsValue (s : Lowerer) (e : Expr) (type : Id) : Prop :=
  s.module.Finds (e.setting s).layout (e.setting s).stride e.valueTy type

/-- The identifier stands for nothing, or is that of the expression's value. -/
def Provides (Γ : Context) (s : Lowerer) (e : Expr) (id : Id) : Prop :=
  s.Hence Γ fun t => id ≠ noResult → ∃ type, t.FindsValue e type ∧ t.Types id type

/-- The entity is a value of the type of `e`, or points to one. -/
structure Carries (Γ : Context) (s : Lowerer) (e : Expr) (entity : Entity) : Prop where
  value : entity.isValue → s.Provides Γ e entity.id
  pointer : entity.isPointer → s.Hence Γ fun t => t.FindsValue e entity.type

end Lowerer

/-- The value of `e` has the same type in storage as outside. -/
def Expr.Unplaced (e : Expr) : Prop :=
  ∀ (t : Lowerer) (type : Id), t.module.Finds none none e.valueTy type → t.FindsValue e type

namespace Expr

theorem unplaced_of_setting (h : ∀ s, e.setting s = {}) : e.Unplaced := by
  intro t type hfinds
  rw [Lowerer.FindsValue, h]
  exact hfinds

theorem not_array_of_scalar? (h : e.ty.scalar?.isSome) (element : Ty) (length : Option Word) :
    e.valueTy ≠ .array element length := by
  obtain ⟨ty, node⟩ := e
  unfold valueTy
  cases ty with
  | scalar _ | vector _ _ | matrix _ _ _ => split <;> nofun
  | _ => cases h

theorem unplaced_of_scalar? (h : e.ty.scalar?.isSome) : e.Unplaced :=
  fun _ _ hfinds => hfinds.anywhere (not_array_of_scalar? h) _ _

theorem valueTy_of_not_scalar? (h : ¬ e.ty.scalar?.isSome) : e.valueTy = e.ty := by
  refine valueTy_of_component ?_
  cases hty : e.ty with
  | vector s n => exact absurd (by rw [hty]; rfl) h
  | _ => rfl

theorem Checked.scalar?_of_severalLanes (he : e.Checked) (h : e.severalLanes) : e.ty.scalar?.isSome := by
  obtain ⟨ty, node⟩ := e
  cases node with
  | swizzle outer sw =>
    obtain ⟨letters, isSwizzle⟩ : ∃ letters, outer.swizzle? letters = some _ := he
    obtain ⟨scalar, -, rfl⟩ := exists_of_swizzle? isSwizzle
    exact Ty.scalar?_of_component (Swizzle.component_typeOf sw scalar)
  | _ => cases h

theorem valueTy_of_whole (hchain : e.isChain) (h : e.severalLanes = false) : e.valueTy = e.ty := by
  obtain ⟨ty, node⟩ := e
  apply valueTy_of_not_spreads
  cases node with
  | swizzle outer sw =>
    have hsingle : sw.isSingle := by simpa [severalLanes] using h
    simp [spreads, hsingle]
  | ident v | member outer i | index array i => rfl
  | _ => cases hchain

end Expr

namespace Lowerer

variable {entity : Entity}

theorem Provides.mono (h : s.Provides Γ e id) (hs : s.Extends s') : s'.Provides Γ e id := Hence.mono h hs

theorem Provides.passedOn {e' : Expr} (h : s.Provides Γ e id) (hsetting : ∀ t, e'.setting t = e.setting t)
    (hty : e'.valueTy = e.valueTy) : s.Provides Γ e' id := by
  refine Hence.imp h fun t _ ht hid => ?_
  obtain ⟨type, hfinds, htypes⟩ := ht hid
  refine ⟨type, ?_, htypes⟩
  rw [FindsValue, hsetting, hty]
  exact hfinds

theorem Yields.provides (h : s.Yields Γ e.valueTy id) (he : e.Unplaced) : s.Provides Γ e id :=
  Hence.imp h fun t _ ht hid =>
    let ⟨type, hfinds, htypes⟩ := ht hid
    ⟨type, he t type hfinds, htypes⟩

theorem Provides.yields (h : s.Provides Γ e id) (hty : e.ty.scalar?.isSome) : s.Yields Γ e.valueTy id :=
  Hence.imp h fun _ _ ht hid =>
    let ⟨type, hfinds, htypes⟩ := ht hid
    ⟨type, hfinds.anywhere (not_array_of_scalar? hty) _ _, htypes⟩

theorem Carries.mono (h : s.Carries Γ e entity) (hs : s.Extends s') : s'.Carries Γ e entity :=
  ⟨fun he => (h.value he).mono hs, fun he => (h.pointer he).mono hs⟩

end Lowerer

/-- The lowering of parts yields values of the type of their expressions. -/
structure Parts.Carried (Γ : Context) (parts : Parts) : Prop where
  steady : ∀ L : Ledger Lowerer, Emitting L → parts.Steady .any L
  provides : ∀ {e : Expr}, e.WellTyped → e.Over Γ → (parts.value e).Ensures fun id s => s.Provides Γ e id

theorem Parts.Carried.gives {parts : Parts} (h : parts.Carried Γ) (he : e.WellTyped)
    (hover : e.Over Γ) (hty : e.ty.scalar?.isSome) : Lower.Gives Γ e.valueTy (parts.value e) :=
  fun s id s' hrun => (h.provides he hover s id s' hrun).yields hty

namespace Lower

variable {parts : Parts}

/-- Loading an entity yields the value that it carries. -/
theorem load_provides {entity : Entity} (he : s.Carries Γ e entity)
    (h : load entity s = (.ok id, s')) : s'.Provides Γ e id := by
  unfold load at h
  split at h
  case isTrue hvalue =>
    obtain ⟨rfl, rfl⟩ := pure_ok h
    by_cases hid : entity.id = noResult
    · exact fun t _ _ hne => absurd hid hne
    · exact he.value (by simpa [hid] using hvalue)
  case isFalse hpointer =>
    have hstorage : entity.isPointer := by
      cases hs : entity.storage <;> simp_all [Entity.isValue, Entity.isPointer]
    have htypes := emitAs_types _ _ _ _ _ _ h
    intro t ht hconsistent _
    exact ⟨entity.type, he.pointer hstorage ((Extending.emitAs _ _ _ h).trans ht) hconsistent, htypes.mono ht⟩

theorem carries_of_aims {p : Place} (hp : p.Aims Γ s e) (hnone : p.swizzle = none) : s.Carries Γ e p.entity := by
  have hwhole : e.severalLanes = false := by rw [← hp.lanes, hnone]; rfl
  have hfinds : s.Hence Γ fun t => t.FindsValue e p.entity.type := by
    refine (hp.whole hnone).imp fun t _ ht => ?_
    rw [Lowerer.FindsValue, valueTy_of_whole hp.isChain hwhole]
    exact ht
  exact ⟨fun he t ht hconsistent _ => ⟨p.entity.type, hfinds ht hconsistent,
    hp.value he ht hconsistent⟩, fun _ => hfinds⟩

theorem readPlace_provides {p : Place} (he : e.Checked) (hp : p.Aims Γ s e)
    (h : readPlace p s = (.ok id, s')) : s'.Provides Γ e id := by
  obtain ⟨value, t, hload, h⟩ := bind_ok h
  cases hswizzle : p.swizzle with
  | none =>
    rw [hswizzle] at h
    obtain ⟨rfl, rfl⟩ := pure_ok h
    exact load_provides (carries_of_aims hp hswizzle) hload
  | some sw =>
    have hseveral : e.severalLanes := by rw [← hp.lanes, hswizzle]; rfl
    rw [hswizzle] at h
    have hyields : s'.Yields Γ (sw.shuffled p.ty) id := emit_gives _ _ _ _ _ _ h
    rw [hp.shuffled sw hswizzle] at hyields
    exact hyields.provides (unplaced_of_scalar? (he.scalar?_of_severalLanes hseveral))

theorem carries_of_value {entity : Entity} (hid : s.Provides Γ e id)
    (h : value ty id s = (.ok entity, s')) : s'.Carries Γ e entity := by
  have hprovides := hid.mono (Extending.value ty id h)
  obtain ⟨type, -, rfl⟩ := bind_pure_ok h
  exact ⟨fun _ => hprovides, nofun⟩

theorem computed_carries {x : Lower Id} (he : e.Unplaced) (hx : Gives Γ e.valueTy x) (ty : Ty) :
    Ensures (x >>= fun id => value ty id) fun entity s => s.Carries Γ e entity := by
  intro s entity s' h
  obtain ⟨id, t, hid, h⟩ := bind_ok h
  exact carries_of_value ((hx s id t hid).provides he) h

theorem write_carries {x : Lower Id} {write : Id → Lower Unit}
    (hx : x.Ensures fun id s => s.Provides Γ e id) (hwrite : ∀ id, Extending (write id)) (ty : Ty) :
    Ensures (x >>= fun id => write id >>= fun _ => value ty id) fun entity s => s.Carries Γ e entity := by
  intro s entity s' h
  obtain ⟨id, t, hid, h⟩ := bind_ok h
  obtain ⟨_, u, hrun, h⟩ := bind_ok h
  exact carries_of_value ((hx s id t hid).mono (hwrite id hrun)) h

theorem operand_carries {f : Operand → Lower Id}
    (h : (parts.value x).Ensures (fun id s => s.Provides Γ e id) ∧ (∀ o : Operand, o.ty = x.ty → f o
      = pure o.id) ∨ e.Unplaced ∧ ∀ o : Operand, o.ty = x.ty → Gives Γ e.valueTy (f o)) :
    Ensures (operand parts x >>= fun o => f o >>= fun id => value ty id) fun entity s => s.Carries Γ e entity := by
  intro s entity s' hrun
  obtain ⟨o, t, ho, hrun⟩ := bind_ok hrun
  obtain ⟨a, t', ha, ho⟩ := bind_ok ho
  obtain ⟨rfl, rfl⟩ := pure_ok ho
  rcases h with ⟨hx, hf⟩ | ⟨he, hf⟩
  · rw [hf _ rfl] at hrun
    exact carries_of_value (hx s a t' ha) hrun
  · exact computed_carries he (hf _ rfl) ty _ entity s' hrun

/-! ## Constructors -/

theorem diagonalMatrix_gives (s : Scalar) (columns rows : Word) (diagonal : Id) (constant : Bool) :
    Gives Γ (.matrix s columns rows) (diagonalMatrix s columns rows diagonal constant) :=
  .bind fun _ => .bind fun _ => composite_gives _ _ constant

theorem joinMatrix_gives (s : Scalar) (columns rows : Word) (args : List Expr) (ids : List Id) (constant : Bool) :
    Gives Γ (.matrix s columns rows) (joinMatrix s columns rows args ids constant) := by
  unfold joinMatrix
  split
  · exact composite_gives _ ids constant
  · refine .bind fun count => ?_
    split
    · exact .bind fun _ => composite_gives _ _ constant
    · exact .refuse _

theorem assemble_gives {args : List Expr} (hty : ty.scalar?.isSome) (hargs : ∀ arg, args ≠ [arg])
    (ids : List Id) (constant : Bool) : Gives Γ ty (assemble ty args ids constant) := by
  cases ty with
  | scalar w =>
    show Gives Γ (.scalar w) (constructScalar (.scalar w) args ids)
    unfold constructScalar
    split
    · exact absurd rfl (hargs _)
    · exact .refuse _
  | vector s n =>
    show Gives Γ (.vector s n) (constructVector s n args ids constant)
    unfold constructVector
    split
    · exact absurd rfl (hargs _)
    · exact composite_gives _ ids _
  | matrix s columns rows =>
    show Gives Γ (.matrix s columns rows) (constructMatrix s columns rows args ids constant)
    unfold constructMatrix
    split
    · exact absurd rfl (hargs _)
    · exact joinMatrix_gives s columns rows args ids constant
  | _ => cases hty

/-- The type of an argument after conversion. -/
def convertedTy (arg : Expr) (wanted : Scalar) : Ty :=
  if arg.ty.scalar? = some wanted then arg.valueTy
  else match arg.ty with
    | .vector _ n => .vector wanted n
    | _ => .scalar wanted

theorem convertedTy_scalar {own : Scalar} (harg : arg.ty = .scalar own) (wanted : Scalar) :
    convertedTy arg wanted = if arg.ty = .scalar wanted then arg.valueTy else .scalar wanted := by
  simp [convertedTy, harg, Ty.scalar?]

theorem convertedTy_vector {own : Scalar} {n : Word} (harg : arg.ty = .vector own n) (wanted : Scalar) :
    convertedTy arg wanted = if arg.ty = .vector wanted n then arg.valueTy else .vector wanted n := by
  simp [convertedTy, harg, Ty.scalar?]

/-- A single argument is handed on as it is, or built into a result of the type. -/
theorem assemble_single {wanted : Scalar} (hty : ty.scalar? = some wanted) (arg : Expr) :
    (arg.ty.scalar?.isSome ∧ convertedTy arg wanted = valueTy ⟨ty, .construct [arg]⟩ ∧
      ∀ id constant, assemble ty [arg] [id] constant = pure id) ∨
    ∀ id constant, Gives Γ (valueTy ⟨ty, .construct [arg]⟩) (assemble ty [arg] [id] constant) := by
  rw [valueTy_of_conversion (x := arg) rfl]
  cases ty with
  | scalar s =>
    obtain rfl : s = wanted := Option.some.inj hty
    by_cases harg : arg.ty.isScalar
    · obtain ⟨own, hown⟩ := Ty.exists_of_isScalar harg
      exact .inl ⟨by rw [hown]; rfl, convertedTy_scalar hown s, fun id constant => if_pos harg⟩
    · rw [if_neg fun h => harg (by rw [h]; rfl)]
      refine .inr fun id constant => ?_
      show Gives Γ _ (if arg.ty.isScalar then pure id else _)
      rw [if_neg harg]
      exact emit_gives _ _ _
  | vector s n =>
    obtain rfl : s = wanted := Option.some.inj hty
    by_cases hsame : ∃ own, arg.ty = .vector own n
    · obtain ⟨own, hown⟩ := hsame
      refine .inl ⟨by rw [hown]; rfl, convertedTy_vector hown s, fun id constant => ?_⟩
      simp [assemble, constructVector, hown]
    · rw [if_neg fun h => hsame ⟨s, h⟩]
      refine .inr fun id constant => ?_
      show Gives Γ _ (constructVector s n [arg] [id] constant)
      unfold constructVector
      dsimp only
      split
      · exact splat_gives s id n constant
      case h_2 own m hown =>
        have hne : m ≠ n := by
          rintro rfl
          exact hsame ⟨own, hown⟩
        rw [if_neg hne]
        split
        · exact emit_gives _ _ _
        · exact composite_gives _ _ _
      · exact composite_gives _ _ _
  | matrix s columns rows =>
    obtain rfl : s = wanted := Option.some.inj hty
    by_cases harg : arg.ty = .matrix s columns rows
    · refine .inl ⟨by rw [harg]; rfl, ?_, fun id constant => if_pos harg⟩
      rw [if_pos harg, convertedTy, if_pos (by rw [harg]; rfl)]
    · rw [if_neg harg]
      refine .inr fun id constant => ?_
      show Gives Γ _ (if arg.ty = .matrix s columns rows then pure id else _)
      rw [if_neg harg]
      split
      · exact diagonalMatrix_gives s columns rows id constant
      · exact joinMatrix_gives s columns rows _ _ constant
  | _ => cases hty

section

variable (hparts : parts.Carried Γ)

include hparts

theorem constructArg_yields (harg : arg.WellTyped) (hover : arg.Over Γ)
    (hty : arg.ty.scalar?.isSome) (wanted : Scalar) :
    (constructArg parts (some wanted) arg).Ensures fun p s => s.Yields Γ (convertedTy arg wanted) p.1 := by
  obtain ⟨own, hown⟩ := Option.isSome_iff_exists.1 hty
  unfold constructArg
  rw [hown]
  dsimp only
  by_cases hsame : own = wanted
  · rw [if_pos hsame, convertedTy, if_pos (hown.trans (congrArg some hsame))]
    exact (hparts.gives harg hover hty).withFlag true
  · rw [if_neg hsame]
    have hne : arg.ty.scalar? ≠ some wanted := fun h => hsame (Option.some.inj (hown.symm.trans h))
    rw [convertedTy, if_neg hne]
    split
    case h_1 value hnode =>
      obtain ⟨ty, node⟩ := arg
      cases hnode
      cases harg
      have hscalar : (value.convert wanted).scalar = wanted := by cases wanted <;> rfl
      have hgives := declareLiteral_gives (Γ := Γ) (value.convert wanted)
      rw [hscalar] at hgives
      exact hgives.withFlag true
    case h_2 =>
      refine .bind fun id => (cast_gives fun h => hne ?_).withFlag false
      replace h := congrArg Ty.scalar? h
      rw [h]
      split <;> rfl

theorem construct_gives {args : List Expr} (hargs : ∀ arg ∈ args, arg.WellTyped) (hover : ∀ arg ∈ args, arg.Over Γ)
    (constant : Bool) : Gives Γ (valueTy ⟨ty, .construct args⟩) (construct parts ty args constant) := by
  by_cases hty : ty.scalar?.isSome
  case neg =>
    rw [valueTy_of_not_scalar? hty]
    refine .bind fun p => ?_
    cases ty with
    | scalar _ | vector _ _ | matrix _ _ _ => exact absurd rfl hty
    | array _ _ | struct _ _ _ => exact composite_gives _ _ _
    | _ => exact .refuse _
  obtain ⟨wanted, hwanted⟩ := Option.isSome_iff_exists.1 hty
  rcases args with _ | ⟨arg, _ | ⟨second, rest⟩⟩
  case cons.nil =>
    intro s id s' h
    obtain ⟨⟨ids, kept⟩, t, hids, h⟩ := bind_ok h
    obtain ⟨⟨first, keptFirst⟩, u, hfirst, hids⟩ := bind_ok hids
    obtain ⟨⟨none, keptNone⟩, hnone, hids⟩ := bind_pure_ok hids
    cases hnone
    cases hids
    dsimp only at h
    rcases assemble_single (Γ := Γ) hwanted arg with ⟨harg, hconverted, hsame⟩ | hnew
    · rw [hsame] at h
      obtain ⟨rfl, rfl⟩ := pure_ok h
      rw [hwanted] at hfirst
      rw [← hconverted]
      exact constructArg_yields hparts (hargs arg mem_cons_self) (hover arg mem_cons_self) harg wanted s _ _ hfirst
    · exact hnew first _ _ id s' h
  all_goals
    exact .bind fun p => assemble_gives hty (fun _ => by simp) p.1 _

theorem swizzleValue_gives {outer : Expr} {s : Swizzle} {scalar : Scalar}
    (houter : outer.WellTyped) (hover : outer.Over Γ) (hty : outer.ty.component = .scalar scalar) :
    Gives Γ (s.typeOf scalar) (swizzleValue parts (s.typeOf scalar) outer s) := by
  have hlength : s.components.length = s.length := length_map _
  refine (hparts.gives houter hover (Ty.scalar?_of_component hty)).passOn fun whole => ?_
  split
  case h_1 own lane hown hlane =>
    have hone : s.isSingle := decide_eq_true (by rw [← hlength, hlane]; rfl)
    rw [hown] at hty
    cases hty
    refine .inl ⟨rfl, ?_⟩
    rw [valueTy_of_component (by rw [hown]; rfl), hown]
    exact (if_pos hone).symm
  case h_2 _ own hown hseveral =>
    have hmany : ¬ s.isSingle := fun hone => by
      obtain ⟨lane, hlane⟩ := length_eq_one_iff.1 (hlength.trans (of_decide_eq_true hone))
      exact hseveral lane hlane
    rw [hown] at hty
    cases hty
    rw [Swizzle.typeOf, if_neg hmany, ← hlength]
    exact .inr (splat_gives _ _ _ _)
  case h_3 => exact .inr (emit_gives _ _ _)
  case h_4 => exact .inr (emit_gives _ _ _)

/-! ## Paths, assignments and steps -/

theorem chain_carries (he : e.Built) (hover : e.Over Γ) :
    (chain parts e).Ensures fun entity s => s.Carries Γ e entity := by
  intro s entity s' h
  obtain ⟨p, t, hplace, h⟩ := bind_ok h
  have hp := place_aims hparts.steady he hover s p t hplace
  unfold placeEntity at h
  cases hswizzle : p.swizzle with
  | none =>
    rw [hswizzle] at h
    obtain ⟨rfl, rfl⟩ := pure_ok h
    exact carries_of_aims hp hswizzle
  | some sw =>
    rw [hswizzle] at h
    obtain ⟨id, u, hread, h⟩ := bind_ok h
    exact carries_of_value (readPlace_provides (he e (.self e)) hp hread) h

theorem assign_carries {lhs rhs : Expr} (hrhs : rhs.WellTyped) (hover : rhs.Over Γ) (hsame : rhs.ty = lhs.ty) :
    (assign parts lhs.ty none lhs rhs .value).Ensures fun entity s => s.Carries Γ (.assign none lhs rhs) entity := by
  refine .bind fun p => ?_
  have hprovides : (parts.value rhs).Ensures fun id s => s.Provides Γ (.assign none lhs rhs) id :=
    fun s id s' h => (hparts.provides hrhs hover s id s' h).passedOn (fun _ => rfl) (valueTy_congr hsame.symm rfl)
  have hwrite : ∀ id, Extending (writePlace p id) := Extending.writePlace p
  obtain ⟨place, ty, swizzle, assignable⟩ := p
  cases swizzle <;> exact write_carries hprovides hwrite lhs.ty

theorem init_carries {v : Variable} {initial : Expr} (hinitial : initial.WellTyped) (hover : initial.Over Γ)
    (hsame : initial.ty = v.ty) : (init parts (.init v initial) v initial .value).Ensures fun entity s =>
      s.Carries Γ (.init v initial) entity := by
  refine .bind fun entity => ?_
  dsimp only
  split
  · exact .refuse_bind _ _
  · refine write_carries (fun s id s' h => ?_) (fun id => .push _) v.ty
    exact (hparts.provides hinitial hover s id s' h).passedOn (fun _ => rfl) (valueTy_congr hsame.symm rfl)

theorem unary_carries (op : UnOp) (hx : x.WellTyped) (hover : x.Over Γ) :
    (node parts (.unary op x) .value).Ensures fun entity s => s.Carries Γ (.unary op x) entity := by
  by_cases hop : op = .plus
  · subst hop
    refine operand_carries (.inl ⟨fun s id s' h => ?_, fun o _ => rfl⟩)
    exact (hparts.provides hx hover s id s' h).passedOn (fun _ => rfl) (valueTy_congr rfl rfl)
  · have hvalue : (Expr.unary op x).valueTy = x.ty ∧ (Expr.unary op x).Unplaced := by
      cases op with
      | plus => exact absurd rfl hop
      | _ => exact ⟨valueTy_of_not_spreads rfl, unplaced_of_setting fun _ => rfl⟩
    refine operand_carries (.inr ⟨hvalue.2, fun o ho => ?_⟩)
    rw [hvalue.1, ← ho]
    exact unary_gives hop o _

theorem cast_carries (hx : x.WellTyped) (hover : x.Over Γ) :
    (node parts ⟨ty, .cast x⟩ .value).Ensures fun entity s => s.Carries Γ ⟨ty, .cast x⟩ entity := by
  have hvalue : valueTy ⟨ty, .cast x⟩ = if x.ty = ty then x.valueTy else ty := valueTy_of_conversion rfl
  by_cases hsame : x.ty = ty
  · rw [if_pos hsame] at hvalue
    refine operand_carries (.inl ⟨fun s id s' h => ?_, fun o ho => ?_⟩)
    · exact (hparts.provides hx hover s id s' h).passedOn (fun _ => if_pos hsame) hvalue
    · rw [← hsame, ← ho]
      exact cast_self o
  · rw [if_neg hsame] at hvalue
    refine operand_carries (.inr ⟨unplaced_of_setting fun _ => if_neg hsame, fun o ho => ?_⟩)
    rw [hvalue]
    exact cast_gives (by rwa [ho])

theorem step_gives (op : StepOp) (hx : x.WellTyped) (hover : x.Over Γ) :
    Gives Γ (Expr.step op x).valueTy (step parts op x) := by
  intro s id s' h
  obtain ⟨p, s₁, hplace, h⟩ := bind_ok h
  obtain ⟨old, s₂, hread, h⟩ := bind_ok h
  have hp := place_aims hparts.steady hx.built hover s p s₁ (placeToAssign_ok hplace).1
  have hold := readPlace_provides (hx.built x (.self x)) hp hread
  have htail : x.ty.scalar?.isSome → ∀ (one : Id) {t : Lowerer}, s₂.Extends t → (do
      let new ← binary (if op.isIncrement then .add else .sub) { ty := x.ty, id := old }
        { ty := x.ty, id := one, constant := true } x.ty false
      writePlace p new
      return if op.yieldsNew then new else old : Lower Id) t = (.ok id, s') →
      s'.Yields Γ (Expr.step op x).valueTy id := by
    intro hty one t ht h
    obtain ⟨new, t₁, hnew, h⟩ := bind_ok h
    obtain ⟨_, hwrite, rfl⟩ := bind_pure_ok h
    have hwritten := Extending.writePlace p new hwrite
    cases hyields : op.yieldsNew with
    | true =>
      have hvalue : (Expr.step op x).valueTy = x.ty :=
        valueTy_of_not_spreads (by simp [Expr.step, Expr.spreads, hyields])
      rw [hvalue]
      exact (binary_gives _ _ _ x.ty _ t new t₁ hnew).mono hwritten
    | false =>
      have hvalue : (Expr.step op x).valueTy = x.valueTy :=
        valueTy_congr rfl (by simp [Expr.step, Expr.spreads, hyields])
      rw [hvalue]
      exact (hold.yields hty).mono (ht.trans ((Extending.binary _ _ _ _ _ hnew).trans hwritten))
  cases hone : x.ty.scalar?.bind Literal.one? with
  | none =>
    rw [hone] at h
    cases h
  | some one =>
    obtain ⟨scalar, hscalar, -⟩ := Option.bind_eq_some_iff.1 hone
    have hty : x.ty.scalar?.isSome := by rw [hscalar]; rfl
    cases hsize : x.ty.width? with
    | none =>
      rw [hone, hsize] at h
      cases h
    | some size =>
      rw [hone, hsize] at h
      obtain ⟨literal, s₃, hliteral, h⟩ := bind_ok h
      have hlater : s₂.Extends s₃ := (Extending.onModule [] fun _ hJ => Module.declareLiteral_steady hJ one) hliteral
      by_cases hseveral : 1 < size
      · rw [if_pos hseveral] at h
        obtain ⟨ones, s₄, hones, h⟩ := bind_ok h
        exact htail hty ones (hlater.trans (Extending.splat _ _ _ _ hones)) h
      · rw [if_neg hseveral] at h
        exact htail hty literal hlater h

/-! ## Whole expressions -/

/-- One node carries its expression, if its parts do. -/
theorem node_carries (he : e.WellTyped) (hover : e.Over Γ) :
    (node parts e .value).Ensures fun entity s => s.Carries Γ e entity := by
  have hchain := chain_carries hparts he.built hover
  have hoperand : ∀ o ∈ e.node.operands, o.Over Γ := fun o ho => hover.operand ho
  have hcomputed : (∀ s, e.setting s = {}) → ∀ {x : Lower Id} (ty : Ty), Gives Γ e.valueTy x →
      Action.Ensures (x >>= fun id => value ty id) fun entity s => s.Carries Γ e entity :=
    fun hsetting x ty hx => computed_carries (unplaced_of_setting hsetting) hx ty
  cases he with
  | literal l => exact hcomputed (fun _ => rfl) _ (declareLiteral_gives l)
  | ident isTyped =>
    cases isTyped with
    | root name ty roles =>
      intro s entity s' h
      have hdenotes := resolve_denotes (hover _ (.self rfl)) s entity s' h
      have hfinds : s'.Hence Γ fun t => t.FindsValue (.ident (.root name ty roles)) entity.type := by
        refine hdenotes.imp fun t _ ht => ?_
        show t.module.Finds (t.layoutOf _) none ty entity.type
        rw [ht.layoutOf]
        exact ht.finds
      exact ⟨fun hentity t ht hconsistent _ => ⟨entity.type, hfinds ht hconsistent,
        (hdenotes ht hconsistent).value hentity⟩, fun _ => hfinds⟩
    | member i name _ isStruct isMember => exact hchain
  | @assign lhs rhs _ value sameType =>
    exact assign_carries hparts value (hoperand rhs (by simp [Expr.assign, Node.operands])) sameType
  | @compound lhs rhs op _ value =>
    refine .bind fun p => .bind fun current => .bind fun r => ?_
    have hgives := binary_gives (Γ := Γ) op { ty := lhs.ty, id := current } r lhs.ty false
    have hwrite : ∀ id, Extending (writePlace p id) := Extending.writePlace p
    have hprovides : (binary op { ty := lhs.ty, id := current } r lhs.ty false).Ensures
        fun id s => s.Provides Γ (.assign (some op) lhs rhs) id := fun s id s' h =>
      (hgives s id s' h).provides (unplaced_of_setting fun _ => rfl)
    obtain ⟨place, ty, swizzle, assignable⟩ := p
    cases swizzle <;> exact write_carries hprovides hwrite lhs.ty
  | init isTyped value sameType => exact init_carries hparts value (hoperand _ mem_cons_self) sameType
  | unary op operand => exact unary_carries hparts op operand (hoperand _ mem_cons_self)
  | binary op ty _ _ => exact .bind fun _ => .bind fun _ => hcomputed (fun _ => rfl) _ (binary_gives op _ _ ty _)
  | cast ty operand => exact cast_carries hparts operand (hoperand _ mem_cons_self)
  | step op target => exact hcomputed (fun _ => rfl) _ (step_gives hparts op target (hoperand _ mem_cons_self))
  | construct ty operands => exact hcomputed (fun _ => rfl) _ (construct_gives hparts operands hoperand _)
  | call _ isCall =>
    obtain ⟨params, hfunc⟩ := exists_of_call? isCall
    exact hcomputed (fun _ => rfl) _ (call_gives hfunc _)
  | @member outer i ty whole isMember =>
    show Action.Ensures (if Expr.isChain ⟨ty, .member outer i⟩ then _ else _) _
    split
    · exact hchain
    case isFalse hvalue => exact .bind fun _ => hcomputed (fun _ => if_neg hvalue) _ (emit_gives _ _ _)
  | @index array i ty whole position isElement =>
    show Action.Ensures (if Expr.isChain ⟨ty, .index array i⟩ then _ else _) _
    split
    · exact hchain
    case isFalse hvalue => exact hcomputed (fun _ => if_neg hvalue) _ (indexValue_gives ty array i)
  | @swizzle outer sw ty _ whole isSwizzle =>
    show Action.Ensures (if Expr.isChain ⟨ty, .swizzle outer sw⟩ then _ else _) _
    split
    · exact hchain
    case isFalse hvalue =>
      obtain ⟨scalar, hcomponents, rfl⟩ := exists_of_swizzle? isSwizzle
      have houter : outer.isChain = false := by simpa [Expr.isChain] using hvalue
      refine hcomputed (fun _ => rfl) _ ?_
      rw [valueTy_of_not_spreads (by rw [Expr.spreads, houter]; rfl)]
      exact swizzleValue_gives hparts whole (hoperand outer mem_cons_self) hcomponents
  | intrinsic f ty _ => exact hcomputed (fun _ => rfl) _ (intrinsic_gives hparts.steady f _ ty)
  | image access ty _ => exact hcomputed (fun _ => rfl) _ (imageAccess_gives access _ ty)
  | texture access ty _ => exact hcomputed (fun _ => rfl) _ (textureAccess_gives access _ ty)
  | select _ _ _ => exact hcomputed (fun _ => rfl) _ (select_gives parts _ _ _ _)

end

theorem nested_carries {x : Lower Entity} (hx : x.Ensures fun entity s => s.Carries Γ e entity) :
    (nested x).Ensures fun entity s => s.Carries Γ e entity := by
  intro s entity s' h
  obtain ⟨t, hrun, rfl⟩ := eq_of_nested h
  exact (hx _ entity t hrun).mono { Lowerer.Extends.refl t with }

theorem partsOf_carried {entity : Expr → Demand → Lower Entity}
    (hsteady : ∀ L : Ledger Lowerer, Emitting L → (partsOf entity).Steady .any L)
    (h : ∀ e : Expr, e.WellTyped → e.Over Γ → (entity e .value).Ensures fun result s => s.Carries Γ e result) :
    (partsOf entity).Carried Γ where
  steady := hsteady
  provides he hover s id s' hrun := by
    obtain ⟨result, t, hresult, hrun⟩ := bind_ok hrun
    exact load_provides (h _ he hover s result t hresult) hrun

theorem lowerWithin_carried (height : Nat) : (partsOf (lowerWithin height)).Carried Γ := by
  induction height with
  | zero => exact partsOf_carried (partsOf_regular 0) fun _ _ _ => .bind fun _ => .refuse _
  | succ height ih =>
    exact partsOf_carried (partsOf_regular _) fun e he hover => nested_carries (node_carries ih he hover)

theorem lower_provides (he : e.WellTyped) (hover : e.Over Γ) : (lower e).Ensures fun id s => s.Provides Γ e id :=
  (lowerWithin_carried e.height).provides he hover

end Lower

theorem Workbench.ReachableIn.consistent {config : Config} {i : Nat} {w : Workbench} (hw : w.ReachableIn config Γ i)
    (hi : w.functions.current = some i) {f : FunctionScope} {b : Block} (hf : w.functions.get? = some f)
    (hb : w.blocks.get? = some b) (hover : e.Over Γ) {x : Lower Id} (hx : x = Lower.lower e ∨ x = Lower.lowerPointer e)
    {r : Except Fault Id} (h : x ⟨w.module, f, b, 0⟩ = (r, s')) : s'.Consistent Γ := by
  have hend : ∀ {N : Names} {L : Ledger Lowerer}, Tracing (.naming N) L → e.Meets (.naming N) →
      L.Stands [] [] ⟨w.module, f, b, 0⟩ → L.Stands [] [] s' := by
    intro N L hL he hs
    have hkeeps : Steady L [] x (fun id => Lower.gained ((Terms.naming N).passes e) [.value id]) := by
      rcases hx with rfl | rfl
      · exact Lower.lower_steady hL he rfl
      · exact Lower.lowerPointer_steady hL he rfl
    have hafter := hkeeps.after_nil (nil_subset _) hs
    rwa [h] at hafter
  have hobey : Names.Obey (fun name _ ty => Γ name = some ty) Γ True :=
    fun name _ ty ty' hty _ hty' => Option.some.inj (hty.symm.trans hty')
  have hfunction := hw.fits.function f (Rack.getElem?_of_current hi hf)
  have hmeets : e.Meets (.naming fun name _ ty => Γ name = some ty) := meets_naming fun v hv _ => hover v hv
  have hbacked := hw.reachable.backed
  exact {
    fits := ⟨hend (Module.lasting_fits hobey).building.tracing hmeets hw.fits.module,
      hend (housing_fits hobey trivial).tracing hmeets hfunction⟩
    module := (hend running_backed.emitting e.meets_any ⟨hbacked.module, trivial⟩).1
    func := hend (housing_backed _).tracing e.meets_any (hbacked.functions f (Rack.mem_of_get? hf))
    sound := (hend running_sound.emitting e.meets_any (hw.reachable.sound.lowerer hf hb)).1.1
    final := hend running_distinct.emitting e.meets_any (hw.reachable.distinct.lowerer hf hb) }

end Shader
