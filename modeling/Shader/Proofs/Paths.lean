import Shader.Proofs.Pointers

/-!
# Paths and the types they lead to

The type of an array depends on where the array is stored. A path from a variable keeps track of that
step by step, without a look at declarations, and ends with the type that they give for it.
-/

namespace Shader

open Action List Option Module

variable {s : Lowerer} {ty : Ty} {Γ : Context} {parts : Parts}

variable {s' : Lowerer} {element : Ty} {v : Variable} {path : Chain} {i : Word} {id type : Id}

/-! ## Settings -/

/-- Where a type stands: the layout around it, and the stride of its own that an array may have. -/
structure Setting where
  layout : Option MemoryLayout := none
  stride : Option Word := none
deriving DecidableEq

/-- The stride that an array of such elements has where it stands, if it has one. -/
def Setting.arrayStride (σ : Setting) (element : Ty) : Option Word :=
  if element.innermost.isOpaque then none
  else σ.stride.or (σ.layout.bind fun layout => (element.arrayStride layout).toOption)

/-- The strides of nested arrays. -/
def Ty.strides (σ : Setting) : Ty → List (Option Word)
  | .array element _ => σ.arrayStride element :: element.strides ⟨σ.layout, none⟩
  | _ => []

@[elab_as_elim]
theorem Ty.arrayInduction {P : Ty → Prop} (array : ∀ element length, P element → P (.array element length))
    (other : ∀ ty, (∀ element length, ty ≠ .array element length) → P ty) : ∀ ty, P ty
  | .array element length => array element length (arrayInduction array other element)
  | .void | .scalar _ | .vector .. | .matrix .. | .struct .. | .image _ | .sampledImage _
  | .sampler _ | .function .. => other _ (by simp)

/-- The types are the same, and arrays have the same strides at both places. -/
def Setting.Alike (σ : Setting) (ty : Ty) (σ' : Setting) (ty' : Ty) : Prop := ty = ty' ∧ ty.strides σ = ty.strides σ'

instance (σ : Setting) (ty : Ty) (σ' : Setting) (ty' : Ty) : Decidable (σ.Alike ty σ' ty') :=
  inferInstanceAs (Decidable (_ ∧ _))

namespace Setting

variable {m : Module} {σ σ' : Setting} {ty' : Ty}

theorem Alike.symm (h : σ.Alike ty σ' ty') : σ'.Alike ty' σ ty := by
  obtain ⟨rfl, hstrides⟩ := h
  exact ⟨rfl, hstrides.symm⟩

theorem alike_of_scalar? (hty : ty.scalar?.isSome) (σ σ' : Setting) : σ.Alike ty σ' ty := by
  refine ⟨rfl, ?_⟩
  cases ty with
  | array => cases hty
  | _ => rfl

theorem strideIn_eq {stride : Option Word} {m' : Module}
    (h : strideIn σ.layout σ.stride element m = (.ok stride, m')) : stride = σ.arrayStride element := by
  obtain ⟨layout, explicit⟩ := σ
  unfold strideIn at h
  unfold arrayStride
  split at h
  case isTrue hopaque =>
    cases h
    rw [if_pos hopaque]
  case isFalse hopaque =>
    rw [if_neg hopaque]
    cases explicit with
    | some stride =>
      cases h
      rfl
    | none =>
      cases layout with
      | none =>
        cases h
        rfl
      | some layout =>
        obtain ⟨value, m₁, hvalue, h⟩ := bind_ok h
        cases h
        cases hstride : element.arrayStride layout with
        | error o =>
          rw [hstride] at hvalue
          cases hvalue
        | ok value =>
          rw [hstride] at hvalue
          cases hvalue
          simp [hstride, Except.toOption]

theorem finds_array {length : Option Word} (h : m.Finds σ.layout σ.stride (.array element length) id) :
    ∃ type, m.Finds σ.layout none element type ∧
      m.types.get? (.array type length (σ.arrayStride element)) = some id := by
  obtain ⟨type, stride, hstride, hfinds, htype⟩ := h.array
  exact ⟨type, hfinds, strideIn_eq hstride ▸ htype⟩

theorem eq_of_strides {type' : Id} (hstrides : ty.strides σ = ty.strides σ')
    (h : m.Finds σ.layout σ.stride ty type) (h' : m.Finds σ'.layout σ'.stride ty type') : type = type' := by
  induction ty using Ty.arrayInduction generalizing σ σ' type type' with
  | array element length ih =>
    obtain ⟨part, hpart, htype⟩ := finds_array h
    obtain ⟨part', hpart', htype'⟩ := finds_array h'
    obtain ⟨hstride, hrest⟩ := cons.inj hstrides
    have hparts : part = part' := ih hrest hpart hpart'
    rw [hstride, hparts] at htype
    exact some.inj (htype.symm.trans htype')
  | other ty hty => exact h.unique (h'.anywhere hty _ _)

theorem Alike.finds_unique {type' : Id} (halike : σ.Alike ty σ' ty')
    (h : m.Finds σ.layout σ.stride ty type) (h' : m.Finds σ'.layout σ'.stride ty' type') : type = type' := by
  obtain ⟨rfl, hstrides⟩ := halike
  exact eq_of_strides hstrides h h'

end Setting

/-- Where the part stands that a step leads to: a struct brings its layout along. -/
def Step.setting : Step → Ty → Setting → Setting
  | .member i _, .struct _ layout members, _ => ⟨some layout, members[i.toNat]?.bind (·.arrayStride)⟩
  | .index _, _, σ => ⟨σ.layout, none⟩
  | _, _, σ => σ

/-- The layout and stride at the end of steps. -/
def Step.settings : List Step → Ty → Setting → Setting
  | [], _, σ => σ
  | step :: steps, ty, σ => settings steps ((step.into? ty).getD ty) (step.setting ty σ)

theorem Step.settings_snoc {steps : List Step} {ty' : Ty} (h : through? steps ty = some ty')
    (step : Step) (σ : Setting) : settings (steps ++ [step]) ty σ = step.setting ty' (settings steps ty σ) := by
  induction steps generalizing ty σ with
  | nil =>
    cases h
    rfl
  | cons first steps ih =>
    obtain ⟨between, hinto, hthrough⟩ := bind_eq_some_iff.1 h
    replace hinto : first.into? ty = some between := hinto
    rw [cons_append, settings, settings, hinto]
    exact ih hthrough _

/-- Where a variable's type stands, if the outermost one is in that layout. -/
def Variable.setting (layout : Option MemoryLayout) : Variable → Setting
  | .root .. => ⟨layout, none⟩
  | .member outer i name _ => (Step.member i (some name)).setting outer.ty (outer.setting layout)

/-- The layout in which the variable is stored. -/
def Lowerer.layoutOf (s : Lowerer) (v : Variable) : Option MemoryLayout :=
  (s.module.lookup (some s.func.locals) v.outermost.name).bind Entity.layout?

/-- Where the type of a value stands: in no layout, if the value is computed. -/
def Expr.setting (s : Lowerer) : Expr → Setting
  | ⟨_, .ident v⟩ => v.setting (s.layoutOf v)
  | ⟨_, .member outer i⟩ =>
    if outer.isChain then (Step.member i none).setting outer.ty (outer.setting s) else {}
  | ⟨ty, .index array i⟩ =>
    if isChain ⟨ty, .index array i⟩ then (Step.index i).setting array.ty (array.setting s) else {}
  | ⟨_, .assign none _ x⟩ | ⟨_, .init _ x⟩ | ⟨_, .unary .plus x⟩ => x.setting s
  | ⟨ty, .cast x⟩ => if x.ty = ty then x.setting s else {}
  | _ => {}

/-- The type is found that a pointer to `e` points to. -/
def Lowerer.FindsFor (s : Lowerer) (e : Expr) (type : Id) : Prop :=
  s.module.Finds (e.setting s).layout (e.setting s).stride e.ty type

/-- Swizzles that take more than one lane. -/
def Expr.severalLanes (e : Expr) : Bool :=
  match e.node with
  | .swizzle _ s => !s.isSingle
  | _ => false

namespace Chain

open Step

theorem ofVariable_settings (hv : v.WellTyped) (layout : Option MemoryLayout) :
    settings (ofVariable v).steps v.outermost.ty ⟨layout, none⟩ = v.setting layout := by
  induction hv with
  | root => rfl
  | @member outer _ _ _ _ i name outerTyped _ _ ih =>
    refine (settings_snoc (ofVariable_through outerTyped) _ _).trans ?_
    rw [Variable.setting, ← ih]

theorem settings_push {path' : Chain} {outer : Expr} {step : Step} (hpath : path.Reaches outer)
    (hpush : path.push step = .ok path') (hthrough : through? path'.steps path'.head.ty = some ty) (σ : Setting) :
    through? path.steps path.head.ty = some outer.ty ∧ step.into? outer.ty = some ty ∧
      settings path'.steps path'.head.ty σ = step.setting outer.ty (settings path.steps path.head.ty σ) := by
  cases hpath with
  | whole leads =>
    rw [push_of_through leads] at hpush
    cases hpush
    rw [through?_snoc, leads] at hthrough
    exact ⟨leads, hthrough, settings_snoc leads step σ⟩
  | lanes steps sw scalar ends =>
    obtain ⟨composed, -, rfl⟩ := eq_of_push_swizzle ends hpush
    rw [through?_snoc] at hthrough
    obtain ⟨between, -, hinto⟩ := bind_eq_some_iff.1 hthrough
    cases hinto

theorem ofExpr_settings {e : Expr} (he : e.Built) (hchain : e.isChain) (h : ofExpr e = .ok path)
    (hthrough : through? path.steps path.head.ty = some ty) (s : Lowerer) :
    settings path.steps path.head.ty ⟨s.layoutOf path.head, none⟩ = e.setting s := by
  fun_induction ofExpr e generalizing path ty with
  | case1 ty v =>
    cases h
    obtain ⟨isTyped, -⟩ : v.WellTyped ∧ _ := he _ (.self _)
    have hlayout : s.layoutOf v.outermost = s.layoutOf v := by
      rw [Lowerer.layoutOf, Variable.outermost_outermost, Lowerer.layoutOf]
    rw [head_ofVariable, hlayout]
    exact ofVariable_settings isTyped _
  | case2 ty outer i ih =>
    obtain ⟨inner, hinner, hpush⟩ := exists_push h
    have houter := he.operand (o := outer) (by simp [Node.operands])
    obtain ⟨leads, -, hsettings⟩ :=
      settings_push (ofExpr_reaches houter hchain hinner) hpush hthrough ⟨s.layoutOf path.head, none⟩
    rw [Expr.setting, if_pos (show outer.isChain from hchain), hsettings, head_push hpush,
      ih houter hchain hinner leads]
  | case3 ty array i ih =>
    obtain ⟨inner, hinner, hpush⟩ := exists_push h
    have harray := he.operand (o := array) (by simp [Node.operands])
    have hinside := (Bool.and_eq_true_iff.1 hchain).2
    obtain ⟨leads, -, hsettings⟩ :=
      settings_push (ofExpr_reaches harray hinside hinner) hpush hthrough ⟨s.layoutOf path.head, none⟩
    rw [Expr.setting, if_pos hchain, hsettings, head_push hpush, ih harray hinside hinner leads]
  | case4 ty outer sw ih =>
    obtain ⟨inner, hinner, hpush⟩ := exists_push h
    have houter := he.operand (o := outer) (by simp [Node.operands])
    obtain ⟨-, hinto, -⟩ := settings_push (ofExpr_reaches houter hchain hinner) hpush hthrough {}
    cases hinto
  | case5 => cases h

end Chain

/-! ## Variables -/

namespace Lowerer

/-- If the entity is a pointer, it is one into its storage, to something of its type. -/
def PointsTo (Γ : Context) (s : Lowerer) (e : Entity) : Prop :=
  ∀ storage, e.storage = some storage → s.Hence Γ fun t => t.Points e.id storage e.type

/-- What the name of `v` stands for: its type, its value or its storage. -/
structure Denotes (t : Lowerer) (v : Variable) (e : Entity) : Prop where
  name : t.module.lookup (some t.func.locals) v.outermost.name = some e
  finds : t.module.Finds e.layout? none v.outermost.ty e.type
  value : e.isValue → t.Types e.id e.type
  pointer : ∀ storage, e.storage = some storage → t.Points e.id storage e.type

variable {t : Lowerer} {e : Entity}

theorem PointsTo.mono (h : s.PointsTo Γ e) (hs : s.Extends t) : t.PointsTo Γ e :=
  fun storage hstorage => (h storage hstorage).mono hs

theorem pointsTo_value : s.PointsTo Γ ⟨id, none, type⟩ := nofun

theorem Denotes.layoutOf (h : t.Denotes v e) : t.layoutOf v = e.layout? := by
  rw [Lowerer.layoutOf, h.name, bind_some]

end Lowerer

namespace Lower

theorem resolve_denotes (hv : Γ v.outermost.name = some v.outermost.ty) :
    (resolve v).Ensures fun e s => s.Hence Γ fun t => t.Denotes v e := by
  intro s e s' h t ht hconsistent
  have hlookup := ht.names _ e (resolve_lookup v s e s' h)
  rcases or_eq_some_iff.1 hlookup with hlocal | ⟨-, hglobal⟩
  · obtain ⟨hfinds, hvalue⟩ := hconsistent.fits.func _ e _ hlocal hv
    have hpointer := fun storage => hconsistent.func _ e storage hlocal
    have hlayout : e.layout? = none := by
      cases hstorage : e.storage with
      | none => rw [Entity.layout?, hstorage, bind_none]
      | some storage =>
        obtain ⟨rfl, -⟩ := hpointer storage hstorage
        rw [Entity.layout?, hstorage]
        rfl
    refine ⟨hlookup, hlayout ▸ hfinds, fun he => .inl (hvalue he), fun storage hstorage => ?_⟩
    obtain ⟨rfl, pointer, hregistered, hdefined⟩ := hpointer storage hstorage
    refine ⟨pointer, ?_, hregistered⟩
    rcases hdefined with hparam | hqueued
    · exact .inl (.inl hparam)
    · exact .inr ⟨_, hqueued, rfl, rfl⟩
  · obtain ⟨hfinds, hvalue⟩ := hconsistent.fits.module.globals _ e _ hglobal hv
    refine ⟨hlookup, hfinds, fun he => Lowerer.types_of_module (hvalue he), fun storage hstorage => ?_⟩
    obtain ⟨pointer, hmem, hregistered⟩ := hconsistent.module.globals _ e storage hglobal hstorage
    exact ⟨pointer, .inl (Lowerer.types_of_module ⟨_, hmem, rfl, rfl⟩), hregistered⟩

theorem temp_ok (h : temp ty s = (.ok id, s')) :
    ∃ type pointer, s'.module.Finds none none ty type ∧ s'.module.pointers.get? (type, .Function) = some pointer ∧
      s'.func = s.func.queue (.localVariable pointer id) ∧ s'.block = s.block ∧ s.module.bound ≤ id := by
  obtain ⟨⟨id', inst⟩, t, hdeclare, h⟩ := bind_ok h
  obtain ⟨_, hqueue, rfl⟩ := bind_pure_ok h
  cases hqueue
  obtain ⟨hrun, hframe⟩ := onModule_ok hdeclare
  obtain ⟨type, m₁, htype, hrun⟩ := bind_ok hrun
  obtain ⟨pointer, m₂, hpointer, hrun⟩ := bind_ok hrun
  obtain ⟨fresh, hfresh, hpair⟩ := bind_pure_ok hrun
  cases hpair
  have hdeclared : s.module.Grown m₁ := .of_keeps [] (fun J hJ => Module.declareType_steady hJ.toDeclaring ty) htype
  have hpointed : m₁.Grown m₂ := .of_keeps [] (fun J hJ => Module.declarePointer_steady hJ.toDeclaring _ nofun) hpointer
  have hfreshed : m₂.Retains t.module := .of_declaring [] (fun J hJ => Module.freshId_keeps hJ) hfresh
  refine ⟨type, pointer, finds_later htype (hpointed.toRetains.trans hfreshed),
    hfreshed.pointers _ _ (declarePointer_ok hpointer), ?_, ?_, ?_⟩
  · rw [hframe]
    rfl
  · rw [hframe]
  · rw [(eq_of_freshId hfresh).1]
    exact (hdeclared.trans hpointed).bound

theorem temp_points (ty : Ty) : (temp ty).Ensures fun id s =>
    ∃ type, s.module.Finds none none ty type ∧ s.Points id .Function type := by
  intro s id s' h
  obtain ⟨type, pointer, hfinds, hpointer, hfunc, -⟩ := temp_ok h
  refine ⟨type, hfinds, pointer, .inr ⟨.localVariable pointer id, ?_, rfl, rfl⟩, hpointer⟩
  rw [hfunc]
  exact mem_append_right _ mem_cons_self

theorem spill_points (ty : Ty) (value : Id) : (spill ty value).Ensures fun id s =>
    ∃ type, s.module.Finds none none ty type ∧ s.Points id .Function type := by
  intro s id s' h
  obtain ⟨copy, t, htemp, h⟩ := bind_ok h
  obtain ⟨_, u, hstore, h⟩ := bind_ok h
  obtain ⟨rfl, rfl⟩ := pure_ok h
  obtain ⟨type, hfinds, hpoints⟩ := temp_points ty s copy t htemp
  have hlater : t.Extends u := Extending.push _ hstore
  exact ⟨type, hfinds.mono hlater.module.toRetains, hpoints.mono hlater⟩

theorem pathBase_leads {root base : Entity} (hroot : s.Hence Γ fun t => t.Denotes v root) (hv : v.outermost = v)
    (h : pathBase v root s = (.ok base, s')) : ∃ storage, base.storage = some storage ∧ storage.layout? = root.layout? ∧
      s'.Hence Γ fun t => t.Points base.id storage base.type ∧ t.module.Finds root.layout? none v.ty base.type := by
  unfold pathBase at h
  by_cases hpointer : root.isPointer
  · rw [if_pos hpointer] at h
    obtain ⟨rfl, rfl⟩ := pure_ok h
    obtain ⟨storage, hstorage⟩ := isSome_iff_exists.1 hpointer
    refine ⟨storage, hstorage, by rw [Entity.layout?, hstorage]; rfl, hroot.imp fun t _ ht => ?_⟩
    exact ⟨ht.pointer storage hstorage, hv ▸ ht.finds⟩
  · have hnone : root.storage = none := by simpa [Entity.isPointer] using hpointer
    have hlayout : root.layout? = none := by rw [Entity.layout?, hnone, bind_none]
    rw [if_neg hpointer] at h
    obtain ⟨copy, s₁, hspill, h⟩ := bind_ok h
    obtain ⟨type, s₂, htype, h⟩ := bind_ok h
    obtain ⟨rfl, rfl⟩ := pure_ok h
    obtain ⟨pointee, hpointee, hcopy⟩ := spill_points v.ty root.id s copy s₁ hspill
    have hdeclared : s₁.Extends s₂ := (Extending.onModule [] fun _ hJ => Module.declareType_steady hJ v.ty) htype
    have hfinds := finds_of_ok (onModule_ok htype).1
    obtain rfl : pointee = type := (hpointee.mono hdeclared.module.toRetains).unique hfinds
    refine ⟨.Function, rfl, hlayout.symm, fun t ht _ => ?_⟩
    exact ⟨hcopy.mono (hdeclared.trans ht), hlayout ▸ hfinds.mono ht.module.toRetains⟩

end Lower

/-! ## Paths -/

theorem Ty.exists_vector {scalar : Scalar} (hty : ty.component = .scalar scalar)
    (h : ty.part? i = some element) : ∃ n, ty = .vector scalar n := by
  cases ty with
  | vector own n =>
    cases hty
    exact ⟨n, rfl⟩
  | scalar own => cases h
  | _ => cases hty

/-- The indices lead to the type of the part that the path has come to, in its layout. -/
def Walk.Leads (Γ : Context) (s : Lowerer) (start : Id) (w : Walk) : Prop :=
  s.Hence Γ fun t => ∃ type, t.module.reach? start w.indices = some type ∧ t.module.Finds w.layout w.stride w.ty type

def Walk.setting (w : Walk) : Setting := ⟨w.layout, w.stride⟩

/-- The path has come to something of that type, which stands there, and no lanes were taken. -/
structure Walk.Enters (w : Walk) (ty : Ty) (σ : Setting) (w' : Walk) : Prop where
  ty : w'.ty = ty
  setting : w'.setting = σ
  swizzle : w'.swizzle = w.swizzle

theorem Walk.Leads.snoc {start index : Id} {w w' : Walk}
    (hw : w.Leads Γ s start) (hindices : w'.indices = w.indices ++ [index])
    (hpart : s.Hence Γ fun t => ∀ type, t.module.Finds w.layout w.stride w.ty type →
      ∃ part, t.module.partAt? type index = some part ∧
        t.module.Finds w'.layout w'.stride w'.ty part) : w'.Leads Γ s start := by
  intro t ht hconsistent
  obtain ⟨type, hreach, hfinds⟩ := hw ht hconsistent
  obtain ⟨part, hpart, hfinds⟩ := hpart ht hconsistent type hfinds
  refine ⟨part, ?_, hfinds⟩
  rw [hindices, reach?_snoc, hreach]
  exact hpart

namespace Lower

variable {start : Id} {w : Walk}

theorem part_into {ty' : Ty} {position : Word} {i : Expr} (hpart : ty.part? position = some element)
    (h : (Step.index i).into? ty = some ty') : element = ty' := by
  cases ty with
  | vector s n =>
    cases h
    rw [Ty.part?, ite_none_right_eq_some] at hpart
    exact (some.inj hpart.2).symm
  | matrix s columns rows =>
    cases h
    rw [Ty.part?, ite_none_right_eq_some] at hpart
    exact (some.inj hpart.2).symm
  | array ty length => exact some.inj (hpart.symm.trans h)
  | _ => cases h

theorem walkSwizzle_several {s : Swizzle} (hs : s.isSingle = false) (w : Walk) :
    walkSwizzle w s = pure { w with swizzle := some s } := by
  unfold walkSwizzle
  split
  case h_1 lane hlane =>
    have hlength : s.length = 1 := by
      simpa [Swizzle.components, Swizzle.length] using congrArg length hlane
    simp [Swizzle.isSingle, hlength] at hs
  case h_2 => rfl

theorem walkMember_indexes {struct : String} {layout : MemoryLayout} {members : List Member} {member : Member}
    (hty : w.ty = .struct struct layout members) (hmember : members[i.toNat]? = some member) (name : Option String) :
    (walkMember w i name).Ensures fun w' s => ∃ index,
      s.module.literals.get? (.uint i) = some index ∧ w'.indices = w.indices ++ [index] ∧
      w'.ty = member.ty ∧ w'.layout = some layout ∧ w'.stride = member.arrayStride ∧
      w'.swizzle = w.swizzle := by
  have hindex : ∀ anchor, Ensures (do
      let i ← onModule (declareLiteral (.uint i))
      return { w with
        ty := member.ty, layout := some layout, stride := member.arrayStride,
        indices := w.indices ++ [i], anchor } : Lower Walk) fun w' s => ∃ index,
      s.module.literals.get? (.uint i) = some index ∧ w'.indices = w.indices ++ [index] ∧
      w'.ty = member.ty ∧ w'.layout = some layout ∧ w'.stride = member.arrayStride ∧
      w'.swizzle = w.swizzle := by
    intro anchor s w' s' h
    obtain ⟨index, hliteral, rfl⟩ := bind_pure_ok h
    exact ⟨index, declareLiteral_ok (onModule_ok hliteral).1, rfl, rfl, rfl, rfl, rfl⟩
  unfold walkMember
  simp only [hty, hmember]
  cases name with
  | none => exact .bind hindex
  | some name => exact .bind fun _ => .bind hindex

theorem walkMember_leads {name : Option String} (hinto : (Step.member i name).into? w.ty = some ty) :
    (walkMember w i name).Ensures fun w' s =>
      w.Enters ty ((Step.member i name).setting w.ty w.setting) w' ∧ (w.Leads Γ s start → w'.Leads Γ s start) := by
  cases hty : w.ty with
  | struct struct layout members =>
    rw [hty] at hinto
    obtain ⟨member, hmember, rfl⟩ := map_eq_some_iff.1 hinto
    intro s₀ w' s h
    obtain ⟨index, hindex, hindices, hty', hlayout, hstride, hswizzle⟩ := walkMember_indexes hty hmember name s₀ w' s h
    refine ⟨⟨hty', ?_, hswizzle⟩, fun hw => ?_⟩
    · rw [Walk.setting, hlayout, hstride, Step.setting, hmember]
      rfl
    · refine hw.snoc hindices fun t ht hconsistent type hfinds => ?_
      have hnodup := hconsistent.final.nodup_declarations
      have hnumber := number?_of_literal hconsistent.sound hnodup (ht.module.literals _ _ hindex)
      rw [hty] at hfinds
      rw [hty', hlayout, hstride]
      exact part_of_member hconsistent.module hnodup hfinds hmember hnumber
  | _ =>
    rw [hty] at hinto
    cases hinto

theorem walkIndex_leads {i : Expr} (hinto : (Step.index i).into? w.ty = some ty) :
    (walkIndex parts w i).Ensures fun w' s =>
      w.Enters ty ((Step.index i).setting w.ty w.setting) w' ∧ (w.Leads Γ s start → w'.Leads Γ s start) := by
  unfold walkIndex
  split
  · exact .refuse _
  case h_2 element hpart =>
    obtain rfl := part_into hpart hinto
    refine .bind fun index => .pure fun s => ⟨⟨rfl, rfl, rfl⟩, fun hw => ?_⟩
    refine hw.snoc rfl fun t ht hconsistent type hfinds => ?_
    exact part_of_element hconsistent.module hconsistent.final.nodup_declarations hfinds hinto index

theorem walkSwizzle_leads {sw : Swizzle} {scalar : Scalar} (hs : sw.isSingle) (hty : w.ty.component = .scalar scalar) :
    (walkSwizzle w sw).Ensures fun w' s => w'.ty = .scalar scalar ∧ w'.swizzle = w.swizzle ∧
      (w.Leads Γ s start → w'.Leads Γ s start) := by
  obtain ⟨lane, hlane⟩ := length_eq_one_iff.1 (of_decide_eq_true hs)
  unfold walkSwizzle
  rw [Swizzle.components, hlane, map_singleton]
  dsimp only
  split
  case isTrue hscalar =>
    refine .pure fun _ => ⟨?_, rfl, fun hw => hw⟩
    rw [← Ty.component_of_isScalar (Bool.and_eq_true_iff.1 hscalar).2, hty]
  case isFalse =>
    split
    · exact .refuse _
    case h_2 element hpart =>
      obtain rfl := Ty.eq_of_part? hty hpart
      obtain ⟨n, hvector⟩ := Ty.exists_vector hty hpart
      refine .bind fun index => .pure fun s => ⟨rfl, rfl, fun hw => ?_⟩
      refine hw.snoc rfl fun t ht hconsistent type hfinds => ?_
      rw [hvector] at hfinds
      obtain ⟨part, hpart, hfinds⟩ := part_of_element (i := .literal (.uint 0)) hconsistent.module
        hconsistent.final.nodup_declarations hfinds rfl index
      exact ⟨part, hpart, hfinds.anywhere (by simp) _ _⟩

theorem walk_leads {step : Step} (hinto : step.into? w.ty = some ty) :
    (walk parts w step).Ensures fun w' s => w.Enters ty (step.setting w.ty w.setting) w' ∧
      (w.Leads Γ s start → w'.Leads Γ s start) := by
  cases step with
  | member i name => exact walkMember_leads hinto
  | index i => exact walkIndex_leads hinto
  | swizzle sw => cases hinto

section

variable (hparts : parts.Regular)

include hparts

theorem Extending.walk (w : Walk) (step : Step) : Extending (walk parts w step) :=
  .of_keeps w.known fun L hL => walk_steady hL (hparts L hL) (fun _ hk => hk) fun i _ => i.operable_any

/-- A walk without lanes, by induction on its steps: each leads from where the one before has come. -/
theorem walkAll_leads : ∀ {steps : List Step} {w w' : Walk} {ty : Ty} {s s' : Lowerer},
    Step.through? steps w.ty = some ty → steps.foldlM (walk parts) w s = (.ok w', s') → w.Leads Γ s start →
    w.Enters ty (Step.settings steps w.ty w.setting) w' ∧ w'.Leads Γ s' start
  | [], w, w', ty, s, s', hthrough, h, hw => by
    obtain ⟨rfl, rfl⟩ := pure_ok h
    exact ⟨⟨some.inj hthrough, rfl, rfl⟩, hw⟩
  | step :: steps, w, w', ty, s, s', hthrough, h, hw => by
    obtain ⟨between, hinto, hthrough⟩ := bind_eq_some_iff.1 hthrough
    replace hinto : step.into? w.ty = some between := hinto
    obtain ⟨w₁, s₁, hstep, h⟩ := bind_ok h
    obtain ⟨hfirst, hleads⟩ := walk_leads hinto s w₁ s₁ hstep
    obtain ⟨hrest, hw'⟩ := walkAll_leads (hfirst.ty ▸ hthrough) h
      (hleads (hw.mono (Extending.walk hparts w step hstep)))
    refine ⟨⟨hrest.ty, ?_, hrest.swizzle.trans hfirst.swizzle⟩, hw'⟩
    rw [hrest.setting, hfirst.setting, Step.settings, hinto, hfirst.ty]
    rfl

end

end Lower

/-! ## Places -/

theorem Expr.Checked.severalLanes {e : Expr} (he : e.Checked) :
    e.severalLanes = (e.swizzleLength?.isSome && !e.ty.isScalar) := by
  obtain ⟨ty, node⟩ := e
  cases node with
  | swizzle outer sw =>
    obtain ⟨letters, isSwizzle⟩ : ∃ letters, outer.swizzle? letters = some _ := he
    obtain ⟨scalar, -, rfl⟩ := Expr.exists_of_swizzle? isSwizzle
    cases hsingle : sw.isSingle <;>
      simp [Expr.severalLanes, swizzleLength?, Swizzle.typeOf, hsingle, Ty.isScalar]
  | _ => rfl

/-- The pointer of the place is one to what the expression stands for, or to what several lanes are
taken of. -/
structure Place.Aims (Γ : Context) (s : Lowerer) (p : Place) (e : Expr) : Prop where
  isChain : e.isChain
  points : s.PointsTo Γ p.entity
  value : p.entity.isValue → s.Hence Γ fun t => t.Types p.entity.id p.entity.type
  whole : p.swizzle = none → s.Hence Γ fun t => t.FindsFor e p.entity.type
  lanes : p.swizzle.isSome = e.severalLanes
  shuffled : ∀ sw, p.swizzle = some sw → sw.shuffled p.ty = e.valueTy
  assignable : p.assignable → p.entity.isPointer

namespace Lower

variable {e : Expr}

section

variable (hparts : parts.Regular)

include hparts

theorem walkPath_leads (he : e.Built) (hchain : e.isChain) (hpath : Chain.ofExpr e = .ok path) {start : Id}
    {w₀ w : Walk} (hty : w₀.ty = path.head.ty) (hnone : w₀.swizzle = none) (hw₀ : w₀.Leads Γ s start)
    (h : path.steps.foldlM (walk parts) w₀ s = (.ok w, s')) : w.Leads Γ s' start ∧ w.swizzle.isSome = e.severalLanes ∧
      (∀ sw, w.swizzle = some sw → sw.shuffled w.ty = e.valueTy) ∧
      (w.swizzle = none → ∀ t : Lowerer, w₀.setting = ⟨t.layoutOf path.head, none⟩ →
        ∀ type, t.module.Finds w.layout w.stride w.ty type → t.FindsFor e type) := by
  have hseveral := (he e (.self e)).severalLanes
  cases Chain.ofExpr_reaches he hchain hpath with
  | whole leads _ isWhole _ =>
    obtain ⟨hend, hw⟩ := walkAll_leads hparts (hty ▸ leads) h hw₀
    have hswizzle := hend.swizzle.trans hnone
    refine ⟨hw, ?_, by simp [hswizzle], fun _ t ht type hfinds => ?_⟩
    · rw [hswizzle, hseveral, isWhole]
      rfl
    · have hsetting := hend.setting
      rw [hty, ht, Chain.ofExpr_settings he hchain hpath leads t] at hsetting
      show t.module.Finds (e.setting t).layout (e.setting t).stride e.ty type
      rw [← hsetting, ← hend.ty]
      exact hfinds
  | lanes steps sw scalar ends leads components hlanes isSwizzle spreads =>
    rw [ends, foldlM_append] at h
    obtain ⟨w₁, s₁, hsteps, h⟩ := bind_ok h
    obtain ⟨hend, hw₁⟩ := walkAll_leads hparts (hty ▸ leads) hsteps hw₀
    obtain ⟨w₂, s₂, hlast, h⟩ := bind_ok h
    obtain ⟨rfl, rfl⟩ := pure_ok h
    cases hs : sw.isSingle with
    | true =>
      have hscalar : e.ty = .scalar scalar := hlanes.trans (if_pos hs)
      have hw₂ := hw₁.mono (Extending.walk hparts w₁ (.swizzle sw) hlast)
      obtain ⟨hty₂, hswizzle, hleads⟩ := walkSwizzle_leads hs (hend.ty ▸ components) s₁ w₂ s₂ hlast
      rw [hend.swizzle, hnone] at hswizzle
      refine ⟨hleads hw₂, ?_, by simp [hswizzle], fun _ t ht type hfinds => ?_⟩
      · rw [hswizzle, hseveral, hscalar]
        simp [Ty.isScalar]
      · show t.module.Finds (e.setting t).layout (e.setting t).stride e.ty type
        rw [hscalar]
        exact (hty₂ ▸ hfinds).anywhere (by simp) _ _
    | false =>
      rw [walk, walkSwizzle_several hs] at hlast
      obtain ⟨rfl, rfl⟩ := pure_ok hlast
      refine ⟨hw₁, ?_, fun sw' hsw => ?_, by simp⟩
      · rw [hseveral, isSwizzle hs, hlanes, Swizzle.typeOf, hs]
        rfl
      · cases hsw
        rw [hend.ty]
        exact Expr.shuffled_selected hs components hlanes spreads

theorem follow_aims (he : e.Built) (hchain : e.isChain) (hpath : Chain.ofExpr e = .ok path)
    {root base : Entity} {storage : StorageClass} {p : Place}
    (hroot : s.Hence Γ fun t => t.Denotes path.head root) (hstorage : base.storage = some storage)
    (hlayout : storage.layout? = root.layout?)
    (hbase : s.Hence Γ fun t => t.Points base.id storage base.type ∧ t.module.Finds root.layout?
      none path.head.ty base.type) (h : follow parts path root base s = (.ok p, s')) : p.Aims Γ s' e := by
  unfold follow at h
  rw [hstorage] at h
  obtain ⟨w, t, hwalk, h⟩ := bind_ok h
  have hextends : s.Extends t := extends_of_keeps [] (fun L hL => walkAll_steady hL (hparts L hL) _
    (fun i _ => i.operable_any) _ _ (nil_subset _)) hwalk
  have hstart : Walk.Leads Γ s base.type { ty := path.head.ty, layout := storage.layout?, anchor := root.id } :=
    hbase.imp fun u _ hu => ⟨base.type, rfl, hlayout ▸ hu.2⟩
  obtain ⟨hw, hlanes, hshuffled, hfor⟩ := walkPath_leads hparts he hchain hpath rfl rfl hstart hwalk
  have hwhole : w.swizzle = none → ∀ {u : Lowerer}, t.Extends u → u.Consistent Γ → ∀ type,
      u.module.Finds w.layout w.stride w.ty type → u.FindsFor e type := fun hnone u hu hconsistent =>
    hfor hnone u (by
      rw [(hroot (hextends.trans hu) hconsistent).layoutOf, ← hlayout]
      rfl)
  by_cases hempty : w.indices.isEmpty
  · rw [if_pos hempty] at h
    obtain ⟨rfl, rfl⟩ := pure_ok h
    refine ⟨hchain, fun storage' hstorage' => ?_, fun hvalue => ?_, fun hnone u hu hconsistent => ?_, hlanes,
      hshuffled, fun _ => by rw [Entity.isPointer, hstorage]; rfl⟩
    · cases hstorage.symm.trans hstorage'
      exact (hbase.mono hextends).imp fun _ _ hu => hu.1
    · simp [Entity.isValue, hstorage] at hvalue
    · obtain ⟨type, hreach, hfinds⟩ := hw hu hconsistent
      rw [isEmpty_iff.1 hempty] at hreach
      cases hreach
      exact hwhole hnone hu hconsistent _ hfinds
  · rw [if_neg hempty] at h
    obtain ⟨type, s₁, htype, h⟩ := bind_ok h
    obtain ⟨pointer, s₂, hpointer, h⟩ := bind_ok h
    obtain ⟨id, s₃, hid, h⟩ := bind_ok h
    obtain ⟨_, s₄, hpush, h⟩ := bind_ok h
    obtain ⟨rfl, rfl⟩ := pure_ok h
    have htaken : s₂.Extends s₄ :=
      ((Extending.onModule [] fun _ hJ => takeIntermediate_keeps hJ) hid).trans (Extending.push _ hpush)
    have hdeclared : s₁.Extends s₄ :=
      ((Extending.onModule [] fun _ hJ => Module.declarePointer_steady hJ _ False.elim) hpointer).trans htaken
    have hlater : t.Extends s₄ := ((Extending.onModule [] fun _ hJ =>
      declareTypeWith_steady hJ _ _ _ _) htype).trans hdeclared
    have hregistered := declarePointer_ok (onModule_ok hpointer).1
    refine ⟨hchain, fun storage' hstorage' => ?_, by simp [Entity.isValue], fun hnone u hu hconsistent => ?_,
      hlanes, hshuffled, fun _ => rfl⟩
    · cases hstorage'
      refine fun u hu _ => ⟨pointer, ?_, (htaken.trans hu).module.toRetains.pointers _ _ hregistered⟩
      refine (Lowerer.Typed.mono (.inl (.inr ⟨.value .AccessChain pointer id (base.id :: w.indices), ?_, rfl, rfl⟩)) hu)
      cases hpush
      exact mem_append_right _ (mem_append_right _ mem_cons_self)
    · refine hwhole hnone (hlater.trans hu) hconsistent type ?_
      exact (finds_of_ok (onModule_ok htype).1).mono (hdeclared.trans hu).module.toRetains

theorem place_aims (he : e.Built) (hover : e.Over Γ) : (place parts e).Ensures fun p s => p.Aims Γ s e := by
  intro s p s' h
  rcases place_ok h with ⟨name, ty, roles, entity, hnode, hresolve, rfl⟩ |
    ⟨path, root, s₁, base, s₂, -, hchain, hpath, hresolve, hbase, hfollow⟩
  · obtain ⟨eTy, node⟩ := e
    cases hnode
    have hdenotes := resolve_denotes (hover _ (.self rfl)) s entity s' hresolve
    obtain ⟨-, rfl⟩ : (Variable.root name ty roles).WellTyped ∧ eTy = ty := he _ (.self _)
    refine ⟨rfl, fun storage hstorage => hdenotes.imp fun t _ ht => ht.pointer storage hstorage,
      fun hvalue => hdenotes.imp fun t _ ht => ht.value hvalue,
      fun _ => hdenotes.imp fun t _ ht => ?_, rfl, nofun, fun h => h⟩
    show t.module.Finds (t.layoutOf _) none eTy entity.type
    rw [ht.layoutOf]
    exact ht.finds
  · obtain ⟨houtermost, hcontext⟩ := hover.head hpath
    have hroot := resolve_denotes hcontext s root s₁ hresolve
    obtain ⟨storage, hstorage, hlayout, hleads⟩ := pathBase_leads hroot houtermost hbase
    have hextends : s₁.Extends s₂ := extends_of_keeps root.known (fun L hL =>
      pathBase_steady hL path.head (fun _ hk => hk)) hbase
    exact follow_aims hparts he hchain hpath (hroot.mono hextends) hstorage hlayout hleads hfollow

end

theorem placeToAssign_ok {p : Place} (h : placeToAssign parts e s = (.ok p, s')) :
    place parts e s = (.ok p, s') ∧ p.assignable := by
  obtain ⟨q, t, hplace, h⟩ := bind_ok h
  cases hassignable : q.assignable with
  | false =>
    rw [hassignable] at h
    cases h
  | true =>
    rw [hassignable] at h
    obtain ⟨rfl, rfl⟩ := pure_ok h
    exact ⟨hplace, hassignable⟩

end Lower

end Shader
