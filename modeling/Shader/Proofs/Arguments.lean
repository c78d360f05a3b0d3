import Shader.Proofs.Effects
import Shader.Proofs.Stores

/-!
# The types of arguments

Parameters are declared outside of any layout, as values or as pointers to local storage. Values and
local storage are passed as they are, even where a struct around them brings a layout along. Everything
else is copied into a variable of the parameter's type before.
-/

namespace Shader

open Action List Option Module

variable {Γ : Context} {parts : Parts} {param : Variable} {arg : Expr} {s : Lowerer} {id : Id} {e : Expr}
  {params : List Variable} {s' t : Lowerer} {ret : Ty} {p : Place}

/-! ## Local storage -/

/-- Where the variable is stored, if it is known and stored anywhere. -/
def Lowerer.storageOf (s : Lowerer) (v : Variable) : Option StorageClass :=
  (s.module.lookup (some s.func.locals) v.outermost.name).bind Entity.storage

/-- The storage class of what a path leads to, if it is in any. A path into a value goes through a
local copy. -/
def Chain.storage? (s : Lowerer) (path : Chain) : Option StorageClass :=
  (s.storageOf path.head).or (if path.steps.isEmpty then none else some .Function)

/-- Chains that name local storage as a whole or one lane of it. -/
def Expr.isLocal (s : Lowerer) (e : Expr) : Bool :=
  e.isChain && !e.severalLanes &&
    match Chain.ofExpr e with
    | .ok path => path.storage? s = some .Function
    | .error _ => false

theorem Lowerer.Denotes.storageOf {v : Variable} {e : Entity} (h : t.Denotes v e) : t.storageOf v = e.storage := by
  rw [Lowerer.storageOf, h.name, bind_some]

theorem Chain.steps_ne_nil {path : Chain} (h : ofExpr e = .ok path)
    (he : ∀ name ty roles, e.node ≠ .ident (.root name ty roles)) : path.steps ≠ [] := by
  have hpush : ∀ {inner : Chain} {step : Step}, inner.push step = .ok path → path.steps ≠ [] := by
    intro inner step h
    unfold push at h
    split at h
    · split at h
      · cases h
        simp
      · cases h
    · cases h
      simp
  obtain ⟨ty, node⟩ := e
  cases node with
  | ident v =>
    cases v with
    | root name ty roles => exact absurd rfl (he name ty roles)
    | member outer index name ty =>
      cases h
      simp [ofVariable]
  | member outer index | index outer index | swizzle outer sw =>
    obtain ⟨inner, -, h⟩ := exists_push h
    exact hpush h
  | _ => cases h

namespace Lower

theorem follow_storage {path : Chain} {root base : Entity} {storage : StorageClass}
    (hbase : base.storage = some storage) :
    (follow parts path root base).Yields fun p => p.entity.storage = some storage := by
  unfold follow
  rw [hbase]
  refine .bind fun w => ?_
  split
  · exact .pure hbase
  · exact .bind fun type => .bind fun pointer => .bind fun id => .bind fun _ => .pure rfl

theorem pathBase_storage (v : Variable) (root : Entity) :
    (pathBase v root).Yields fun base => base.storage = some (root.storage.getD .Function) := by
  unfold pathBase
  split
  case isTrue hpointer =>
    obtain ⟨storage, hstorage⟩ := isSome_iff_exists.1 hpointer
    exact .pure (by rw [hstorage, getD_some])
  case isFalse hvalue =>
    have hnone : root.storage = none := by simpa [Entity.isPointer] using hvalue
    exact .bind fun copy => .bind fun type => .pure (by rw [hnone, getD_none])

theorem place_storage (hsteady : parts.Regular) (hover : e.Over Γ) {fin : Lowerer}
    (h : place parts e s = (.ok p, t)) (hlater : t.Extends fin) (hfin : fin.Consistent Γ) :
    ∃ path, Chain.ofExpr e = .ok path ∧ p.entity.storage = path.storage? fin := by
  rcases place_ok h with ⟨name, ty, roles, root, hnode, hresolve, rfl⟩ |
    ⟨path, root, t₁, base, t₂, hnode, -, hpath, hresolve, hbase, hfollow⟩
  · obtain ⟨ty', node⟩ := e
    cases hnode
    have hroot := resolve_denotes (hover _ (.self rfl)) s root t hresolve hlater hfin
    refine ⟨Chain.ofVariable (.root name ty roles), rfl, ?_⟩
    rw [Chain.storage?, Chain.ofVariable, hroot.storageOf]
    exact (or_none).symm
  · obtain ⟨-, hcontext⟩ := hover.head hpath
    have hpathed : t₁.Extends t₂ := extends_of_keeps root.known (fun L hL =>
      pathBase_steady hL path.head (fun _ hk => hk)) hbase
    have hfollowed : t₂.Extends t := extends_of_keeps base.known (fun L hL =>
      follow_steady hL (hsteady L hL) ⟨fun i _ => i.operable_any, fun _ => trivial, inferInstance, inferInstance⟩ root
        (fun _ hk => hk)) hfollow
    have hroot := resolve_denotes hcontext s root t₁ hresolve ((hpathed.trans hfollowed).trans hlater) hfin
    refine ⟨path, hpath, ?_⟩
    rw [follow_storage (pathBase_storage _ _ t₁ base t₂ hbase) t₂ p t hfollow, Chain.storage?,
      hroot.storageOf, if_neg (by simpa using Chain.steps_ne_nil hpath hnode)]
    cases root.storage <;> rfl

theorem place_isLocal (hsteady : parts.Regular) (he : e.Built) (hover : e.Over Γ)
    (h : place parts e s = (.ok p, t)) : t.Hence Γ fun u => e.isLocal u = p.isInFunction := by
  intro u hu hconsistent
  have hp := place_aims hsteady he hover s p t h
  obtain ⟨path, hpath, hstorage⟩ := place_storage hsteady hover h hu hconsistent
  rw [Place.isInFunction, Expr.isLocal, hpath, hstorage, ← hp.lanes, not_isSome, hp.isChain, Bool.true_and]

end Lower

/-! ## Arguments -/

namespace Expr

/-- Where the type stands of what is passed: what is neither a value nor in local storage is copied. -/
def passedAt (s : Lowerer) (param : Variable) (arg : Expr) : Setting :=
  if param.isByReference && !arg.isLocal s then {} else arg.setting s

/-- The type with which an argument is passed. -/
def passedTy (param : Variable) (arg : Expr) : Ty :=
  if param.isByReference then arg.ty else arg.valueTy

/-- What is passed for the parameter is of the parameter's type. -/
def Suits (s : Lowerer) (param : Variable) (arg : Expr) : Prop :=
  (arg.passedAt s param).Alike (arg.passedTy param) {} param.ty

instance (s : Lowerer) (param : Variable) (arg : Expr) : Decidable (arg.Suits s param) :=
  inferInstanceAs (Decidable (Setting.Alike ..))

end Expr

/-- The identifier is of the parameter's type, or points to it where it is passed by reference. -/
def Lowerer.Passed (Γ : Context) (s : Lowerer) (param : Variable) (arg : Expr) (id : Id) : Prop :=
  s.Hence Γ fun t => id ≠ noResult → ∃ own,
    t.module.Finds (arg.passedAt t param).layout (arg.passedAt t param).stride (arg.passedTy param) own ∧
      if param.isByReference then t.Points id .Function own else t.Types id own

namespace Lower

theorem passed_of_value (hparam : param.isByReference = false) (h : s.Provides Γ arg id) : s.Passed Γ param arg id := by
  refine Lowerer.Hence.imp h fun t _ ht hid => ?_
  obtain ⟨own, hfinds, htypes⟩ := ht hid
  refine ⟨own, ?_, ?_⟩
  · rw [Expr.passedAt, Expr.passedTy, hparam]
    exact hfinds
  · rwa [hparam]

theorem passed_of_copy (hparam : param.isByReference) (hlocal : s.Hence Γ fun t => arg.isLocal t = false)
    (h : ∃ type, s.module.Finds none none arg.ty type ∧ s.Points id .Function type) : s.Passed Γ param arg id := by
  obtain ⟨type, hfinds, hpoints⟩ := h
  intro t ht hconsistent _
  refine ⟨type, ?_, ?_⟩
  · rw [Expr.passedAt, Expr.passedTy, hparam, hlocal ht hconsistent]
    exact hfinds.mono ht.module.toRetains
  · rw [if_pos hparam]
    exact hpoints.mono ht

theorem passed_of_place (hparam : param.isByReference) (hlocal : s.Hence Γ fun t => arg.isLocal t)
    (hp : p.Aims Γ s arg) (hin : p.isInFunction) : s.Passed Γ param arg p.entity.id := by
  obtain ⟨hnone, hstorage⟩ : p.swizzle = none ∧ p.entity.storage = some .Function := by
    simpa [Place.isInFunction] using hin
  intro t ht hconsistent _
  refine ⟨p.entity.type, ?_, ?_⟩
  · rw [Expr.passedAt, Expr.passedTy, hparam, hlocal ht hconsistent]
    exact hp.whole hnone ht hconsistent
  · rw [if_pos hparam]
    exact hp.points _ hstorage ht hconsistent

section

variable (hparts : parts.Lawful Γ fun _ => False)

include hparts

theorem referenceArg_passed (harg : arg.WellTyped) (hover : arg.Over Γ) (hparam : param.isByReference) :
    (referenceArg parts arg).Ensures fun id s => s.Passed Γ param arg id := by
  unfold referenceArg
  split
  case isTrue hchain =>
    intro s id s' h
    obtain ⟨p, t, hplace, h⟩ := bind_ok h
    have hp := place_aims hparts.steady harg.built hover s p t hplace
    have hlocal := place_isLocal hparts.steady harg.built hover hplace
    cases hin : p.isInFunction with
    | true =>
      rw [hin] at h hlocal
      obtain ⟨rfl, rfl⟩ := pure_ok h
      exact passed_of_place hparam hlocal hp hin
    | false =>
      rw [hin] at h hlocal
      obtain ⟨value, u, hread, h⟩ := bind_ok h
      have hextends := (readPlace_obeysAt (Q := fun _ => False) hp.points hread).later
      refine passed_of_copy hparam (hlocal.mono (hextends.trans ?_)) (spill_points _ _ u id s' h)
      exact extends_of_keeps [.value value] (fun L hL => spill_steady hL _ mem_cons_self) h
  case isFalse hchain =>
    refine .bind fun value => ?_
    intro s id s' h
    refine passed_of_copy hparam (fun t _ _ => ?_) (spill_points _ _ s id s' h)
    simp [Expr.isLocal, hchain]

theorem outputArg_passed (harg : arg.WellTyped) (hover : arg.Over Γ) (hparam : param.isByReference) (copyIn : Bool) :
    (outputArg parts arg copyIn).Ensures fun r s => s.Passed Γ param arg r.1 := by
  intro s r s' h
  obtain ⟨p, t, hplace, h⟩ := bind_ok h
  obtain ⟨hplace, -⟩ := placeToAssign_ok hplace
  have hp := place_aims hparts.steady harg.built hover s p t hplace
  have hlocal := place_isLocal hparts.steady harg.built hover hplace
  cases hin : p.isInFunction with
  | true =>
    rw [hin] at h hlocal
    obtain ⟨rfl, rfl⟩ := pure_ok h
    exact passed_of_place hparam hlocal hp hin
  | false =>
    rw [hin] at h hlocal
    obtain ⟨copy, t₁, htemp, h⟩ := bind_ok h
    have htaken := (temp_obeys (W := .access Γ fun _ => False) arg.ty t htemp).later
    have hpassed : t₁.Passed Γ param arg copy :=
      passed_of_copy hparam (hlocal.mono htaken) (temp_points _ t copy t₁ htemp)
    obtain ⟨copyType, t₂, htype, h⟩ := bind_ok h
    have hlater := (declareType_obeys (W := .access Γ fun _ => False) arg.ty t₁ htype).later
    cases copyIn with
    | true =>
      obtain ⟨value, t₃, hread, h⟩ := bind_ok h
      obtain ⟨_, hstore, rfl⟩ := bind_pure_ok h
      have hextends := (readPlace_obeysAt (Q := fun _ => False) (hp.points.mono (htaken.trans hlater)) hread).later
      exact Lowerer.Hence.mono hpassed ((hlater.trans hextends).trans (Extending.push _ hstore))
    | false =>
      obtain ⟨rfl, rfl⟩ := pure_ok h
      exact Lowerer.Hence.mono hpassed hlater

theorem callArg_passed (param : Variable) (harg : arg.WellTyped) (hover : arg.Over Γ) :
    (callArg parts param arg).Ensures fun r s => s.Passed Γ param arg r.1 := by
  unfold callArg
  split
  case isTrue hout => exact outputArg_passed hparts harg hover (by simp [Variable.isByReference, hout]) _
  · split
    case isTrue hreference =>
      intro s r s' h
      obtain ⟨id, t, hrun, h⟩ := bind_ok h
      obtain ⟨rfl, rfl⟩ := pure_ok h
      exact referenceArg_passed hparts harg hover hreference s id t hrun
    case isFalse hvalue =>
      intro s r s' h
      obtain ⟨id, t, hrun, h⟩ := bind_ok h
      obtain ⟨rfl, rfl⟩ := pure_ok h
      exact passed_of_value (Bool.eq_false_iff.2 hvalue) (hparts.provides harg hover s id t hrun)

theorem callArgs_passed : ∀ {params : List Variable} {args : List Expr}, (∀ arg ∈ args, arg.WellTyped ∧ arg.Over Γ) →
    (callArgs parts params args).Ensures fun r s => Forall₂ (fun p id => s.Passed Γ p.1 p.2 id) (params.zip args) r.1
  | param :: params, arg :: args, hargs => by
    obtain ⟨⟨harg, hover⟩, hrest⟩ := forall_mem_cons.1 hargs
    intro s r s' h
    obtain ⟨⟨id, back⟩, t, hfirst, h⟩ := bind_ok h
    obtain ⟨⟨ids, backs⟩, u, hothers, h⟩ := bind_ok h
    obtain ⟨rfl, rfl⟩ := pure_ok h
    have hpassed := callArg_passed hparts param harg hover s _ t hfirst
    have hlater : t.Extends u := extends_of_keeps [] (fun L hL =>
      callArgs_steady hL (hparts.steady L hL) params args (fun a _ => a.operable_any) _) hothers
    exact .cons (Lowerer.Hence.mono hpassed hlater) (callArgs_passed hrest t _ u hothers)
  | [], _, _ => .pure fun _ => .nil
  | _ :: _, [], _ => .pure fun _ => .nil

end

theorem emitAs_appends {op : Op} {type : Id} {operands : List Word} (h : emitAs op type operands s = (.ok id, s')) :
    s.Extends s' ∧ s'.func = s.func ∧ s'.block.instructions = s.block.instructions ++ [.value op type id operands] := by
  refine ⟨Extending.emitAs _ _ _ h, ?_⟩
  obtain ⟨fresh, s₁, hfresh, h⟩ := bind_ok h
  obtain ⟨_, hpush, rfl⟩ := bind_pure_ok h
  obtain ⟨-, hs₁⟩ := onModule_ok hfresh
  cases hpush
  rw [hs₁]
  exact ⟨rfl, rfl⟩

theorem emit_appends {op : Op} {ty : Ty} {operands : List Word}
    (h : emit op ty operands s = (.ok id, s')) : s.Extends s' ∧ ∃ type, s'.module.Finds none none ty type ∧
        s'.block.instructions = s.block.instructions ++ [.value op type id operands] := by
  obtain ⟨type, t, htype, h⟩ := bind_ok h
  have hdeclared := Extending.onModule [] (fun _ hJ => Module.declareType_steady hJ ty) htype
  obtain ⟨hdeclare, ht⟩ := onModule_ok htype
  obtain ⟨hlater, -, hcode⟩ := emitAs_appends h
  refine ⟨hdeclared.trans hlater, type, (finds_of_ok hdeclare).mono hlater.module.toRetains, ?_⟩
  rw [hcode, ht]

theorem call_appends (hparts : parts.Lawful Γ fun _ => False) {func : Variable} {args : List Expr}
    (hfunc : func.ty = .function ret params) (hargs : ∀ arg ∈ args, arg.WellTyped ∧ arg.Over Γ)
    (h : call parts func args s = (.ok id, s')) : ∃ before after type function ids,
      s'.block.instructions = s.block.instructions ++ before ++
        .value .FunctionCall type id (function :: ids) :: after ∧
      (∀ inst ∈ after, inst.op.engages = false) ∧
      s'.module.functionIds.get? func.name = some function ∧ s'.module.Finds none none ret type ∧
      args.length = params.length ∧
      Forall₂ (fun p id => s'.Passed Γ p.1 p.2 id) (params.zip args) ids := by
  obtain ⟨_, _, hfunc', hlength, function, s₁, ids, backs, s₂, s₃, hfunction, hfound, hrun, hemit, hbacks⟩ := call_ok h
  obtain ⟨rfl, rfl⟩ := Ty.function.inj (hfunc.symm.trans hfunc')
  have hnamed := (functionNamed_obeys (W := .idle) func.name s hfunction).later
  have hlowered : s₁.Extends s₂ := extends_of_keeps [] (fun L hL =>
    callArgs_steady hL (hparts.steady L hL) params args (fun a _ => a.operable_any) _) hrun
  have hpassed := callArgs_passed hparts hargs s₁ _ s₂ hrun
  obtain ⟨hcalled, type, hfinds, hcall⟩ := emit_appends hemit
  obtain ⟨hafter, -, after, hcode, hidle⟩ := copyOuts_idle backs s₃ hbacks
  obtain ⟨before, hbefore⟩ := (hnamed.trans hlowered).code
  refine ⟨before, after, type, function, ids, ?_, hidle, ?_, hfinds.mono hafter.module.toRetains,
    hlength, hpassed.imp fun _ _ hp => Lowerer.Hence.mono hp (hcalled.trans hafter)⟩
  · rw [hcode, hcall, ← hbefore, append_assoc, singleton_append]
  · exact ((hlowered.trans hcalled).trans hafter).module.functionIds _ _ hfound

end Lower

namespace Lowerer

variable {type : Id}

theorem Passed.typeOf?_iff (h : s.Passed Γ param arg id) (hs : s.Consistent Γ) (hid : id ≠ noResult)
    {m : Module} (hm : m.Exact) (hretains : s.module.Retains m) (htype : m.Passes param type)
    (hty : arg.ty = param.ty) : s.typeOf? id = some type ↔ arg.Suits s param := by
  obtain ⟨own, hfinds, hown⟩ := h (.refl s) hs hid
  obtain ⟨valueType, hparam, htype⟩ := htype
  have hpassed : arg.passedTy param = param.ty ∨ (∃ s n, param.ty = .vector s n) ∨
      ∃ name layout members, param.ty = .struct name layout members := by
    unfold Expr.passedTy
    split
    · exact .inl hty
    · exact hty ▸ arg.valueTy_eq_or_vector.imp_right .inl
  refine Iff.trans ?_ (Setting.eq_iff_alike hm hpassed (hfinds.mono hretains) hparam)
  split at hown
  case isTrue hreference =>
    rw [if_pos hreference] at htype
    obtain ⟨pointer, htyped, hpointer⟩ := hown
    replace hpointer := hretains.pointers _ _ hpointer
    rw [htyped.typeOf? hs.final, some_inj]
    refine ⟨fun heq => ?_, fun heq => ?_⟩
    · have hpointee := pointee?_of_pointer hm.backed hm.nodup hpointer
      rw [heq, pointee?_of_pointer hm.backed hm.nodup htype] at hpointee
      cases hpointee
      rfl
    · rw [heq] at hpointer
      exact some.inj (hpointer.symm.trans htype)
  case isFalse hvalue =>
    rw [if_neg hvalue] at htype
    rw [Typed.typeOf? (.inl hown) hs.final, some_inj, htype]

end Lowerer

theorem rel_getElem? {α β : Type} {R : α → β → Prop} {xs : List α} {ys : List β} (h : Forall₂ R xs ys) {k : Nat}
    {x : α} {y : β} (hx : xs[k]? = some x) (hy : ys[k]? = some y) : R x y :=
  (forall₂_iff_zip.1 h).2 (mem_of_getElem? (getElem?_zip_eq_some.2 ⟨hx, hy⟩))

theorem mem_values_of_call {function : Id} {args : List Id} {v : Id} (hv : v ∈ args) :
    v ∈ Op.values .FunctionCall (function :: args) := by
  obtain ⟨i, hi⟩ := mem_iff_getElem?.1 hv
  exact Op.mem_values.2 ⟨i + 1, hi, rfl⟩

theorem Workbench.ReachableIn.call_passes {config : Config} {i : Nat} {w : Workbench} (hw : w.ReachableIn config Γ i)
    {f : FunctionScope} {b : Block} (hf : w.functions.get? = some f) (hb : w.blocks.get? = some b) {ty : Ty}
    {func : Variable} {args : List Expr} (hfunc : func.ty = .function ret params)
    (he : Expr.WellTyped ⟨ty, .call func args⟩) (hover : Expr.Over Γ ⟨ty, .call func args⟩)
    (hoperands : ∀ part : Expr, part.Within ⟨ty, .call func args⟩ → ∀ o ∈ part.node.operands, o.yields)
    (h : Lower.lower ⟨ty, .call func args⟩ ⟨w.module, f, b, 0⟩ = (.ok id, s')) (hfin : s'.Final) :
    ∃ before after type function ids,
      s'.block.instructions = b.instructions ++ before ++ .value .FunctionCall type id (function :: ids) :: after ∧
      (∀ inst ∈ after, inst.op.engages = false) ∧
      s'.module.functionIds.get? func.name = some function ∧ s'.module.Finds none none ret type ∧
      args.length = params.length ∧ (∀ passed ∈ ids, passed ≠ noResult) ∧
      Forall₂ (fun p id => s'.Passed Γ p.1 p.2 id) (params.zip args) ids := by
  have hargs : ∀ arg ∈ args, arg.WellTyped ∧ arg.Over Γ := by
    cases he with
    | call operands isCall => exact fun arg harg => ⟨operands arg harg, hover.operand harg⟩
  obtain ⟨code, hcode, hvalues⟩ := hw.code_values hf hb hoperands h hfin
  obtain ⟨rest, t, u, entity, -, hrun, hvalue, rfl⟩ := Lower.valueWithin_value
    (x := fun parts => Lower.call parts func args) (fun parts => rfl) h
  obtain ⟨before, after, type, function, ids, hcall, hafter, hcallee, hret, hlength, hpassed⟩ :=
    Lower.call_appends (Lower.lowerWithin_lawful rest) hfunc hargs hrun
  obtain ⟨hlater, -, after', hcode', hafter'⟩ := Lower.value_obeys (W := .idle) ty id t hvalue
  have hlast : t.Extends { u with depth := 0 } := { hlater with }
  have hinstructions : u.block.instructions = b.instructions ++ before ++
      .value .FunctionCall type id (function :: ids) :: (after ++ after') := by
    rw [hcode', hcall]
    simp
  refine ⟨before, after ++ after', type, function, ids, hinstructions,
    forall_mem_append.2 ⟨hafter, hafter'⟩, hlast.module.functionIds _ _ hcallee,
    hret.mono hlast.module.toRetains, hlength, fun passed hmem => ?_,
    hpassed.imp fun _ _ hp => Lowerer.Hence.mono hp hlast⟩
  have hsplit : code = before ++ .value .FunctionCall type id (function :: ids) :: (after ++ after') := by
    rw [append_assoc] at hinstructions
    exact append_cancel_left (hcode.symm.trans hinstructions)
  exact hvalues (.value .FunctionCall type id (function :: ids)) (by simp [hsplit]) passed (mem_values_of_call hmem)

/-- A call is of the result of its function, and what is passed for a parameter has the type that the
function's own type is declared with exactly if the argument suits the parameter. -/
theorem lower_arguments_typed_iff {config : Config} {Γ : Context} {i : Nat} {w : Workbench}
    (hw : w.ReachableIn config Γ i) (hi : w.functions.current = some i) {f : FunctionScope} {b : Block}
    (hf : w.functions.get? = some f) (hb : w.blocks.get? = some b) {ty ret : Ty} {func : Variable}
    {params : List Variable} {args : List Expr} (hfunc : func.ty = .function ret params)
    (htypes : args.map (·.ty) = params.map (·.ty)) (he : Expr.WellTyped ⟨ty, .call func args⟩)
    (hover : Expr.Over Γ ⟨ty, .call func args⟩)
    (hoperands : ∀ part : Expr, part.Within ⟨ty, .call func args⟩ → ∀ o ∈ part.node.operands, o.yields) {id : Id}
    {s' : Lowerer} (h : Lower.lower ⟨ty, .call func args⟩ ⟨w.module, f, b, 0⟩ = (.ok id, s'))
    {name : String} {m m' : Module} {g : FunctionScope} (hopen : openFunction name ret params m = (.ok g, m'))
    {w' : Workbench} (hw' : w'.Reachable config) (hcalled : s'.module.Retains w'.module)
    (hopened : m'.Retains w'.module) : ∃ before after function ids, s'.block.instructions = b.instructions ++ before ++
        .value .FunctionCall g.function.returnType id (function :: ids) :: after ∧
      (∀ inst ∈ after, inst.op ≠ .FunctionCall) ∧
      s'.module.functionIds.get? func.name = some function ∧
      .defining .TypeFunction g.function.functionType
        (g.function.returnType :: g.function.params.map (·.1)) ∈ w'.module.declarations ∧
      ids.length = params.length ∧ g.function.params.length = params.length ∧
      ∀ (k : Nat) (param : Variable) (arg : Expr) (passed : Id) (expected : Id × Id),
        params[k]? = some param → args[k]? = some arg → ids[k]? = some passed →
        g.function.params[k]? = some expected →
        (s'.typeOf? passed = some expected.1 ↔ arg.Suits s' param) := by
  have hfin := hw.consistent hi hf hb hover (.inl rfl) h
  have hexact : w'.module.Exact := hw'.backed.module.exact hw'.apart.ledger
  obtain ⟨before, after, type, function, ids, hcode, hafter, hcallee, hret, hlength, hvalues, hpassed⟩ :=
    hw.call_passes hf hb hfunc he hover hoperands h hfin.final
  have hbegins := openFunction_begins hopen
  have hparams := hbegins.opens.passes
  obtain rfl : type = g.function.returnType := (hret.mono hcalled).unique (hbegins.returns.mono hopened)
  have hids : (params.zip args).length = ids.length := hpassed.length_eq
  have hexpected : params.length = g.function.params.length := by
    simpa using hparams.length_eq
  refine ⟨before, after, function, ids, hcode, fun inst hinst hop => ?_, hcallee,
    hexact.backed.functionTypes _ _ (hopened.functionTypes _ _ hbegins.signature), ?_, hexpected.symm, ?_⟩
  · have hidle := hafter inst hinst
    rw [hop] at hidle
    cases hidle
  · rw [← hids, length_zip, hlength, Nat.min_self]
  · intro k param arg passed expected hparam harg hid htype
    have hpair : (params.zip args)[k]? = some (param, arg) := getElem?_zip_eq_some.2 ⟨hparam, harg⟩
    have htaken := rel_getElem? hpassed hpair hid
    have hpasses : m'.Passes param expected.1 := rel_getElem? hparams hparam (by simp [htype])
    have hsame : arg.ty = param.ty := by
      have hkth := congrArg (·[k]?) htypes
      simpa [hparam, harg] using hkth
    exact htaken.typeOf?_iff hfin (hvalues passed (mem_of_getElem? hid)) hexact hcalled (hpasses.mono hopened) hsame

/-! ## Arrays as arguments -/

/-- A function may be opened after a call, and what either has declared is found from then on. -/
theorem Workbench.Reachable.openFunction_after {config : Config} {w : Workbench} (hw : w.Reachable config)
    {f : FunctionScope} {b : Block} (hf : w.functions.get? = some f) (hb : w.blocks.get? = some b) {r : Except Fault Id}
    (h : Lower.lower e ⟨w.module, f, b, 0⟩ = (r, s')) {name : String} {g : FunctionScope}
    {m' : Module} (hopen : openFunction name ret params s'.module = (.ok g, m')) :
    ∃ w' : Workbench, w'.Reachable config ∧ s'.module.Retains w'.module ∧ m'.Retains w'.module := by
  obtain ⟨w₁, hw₁⟩ : ∃ w₁, w₁ = (w.perform (.lower e)).2 := ⟨_, rfl⟩
  have hreachable : w₁.Reachable config := hw₁ ▸ hw.perform rfl (forall_mem_nil _)
  have hlowered : w₁.module = s'.module := by
    rw [hw₁]
    show ((Work.lowering (Lower.lower e) >>= fun id => pure (.id id) : Work Answer) w).2.module = _
    rw [Work.bind_pure_snd, Work.lowering_apply hf hb h]
  have hopened : (w₁.perform (.openFunction name ret params)).2.module = m' := by
    unfold Workbench.perform
    rw [Operation.perform, Work.bind_apply, Work.onModule_apply, hlowered, hopen]
    rfl
  have hretains : w₁.module.Retains (w₁.perform (.openFunction name ret params)).2.module :=
    (perform_change rfl).retains
  refine ⟨(w₁.perform (.openFunction name ret params)).2,
    hreachable.perform rfl (forall_mem_nil _), hlowered ▸ hretains, ?_⟩
  rw [hopened]
  exact .refl m'

def Ty.pair : Ty := .array (.scalar .float) (some 2)

def Context.copying : Context := fun name => some (if name = "n" then .scalar .int else .pair)

/-- `(int n, float from[2], out float to[2])` -/
def Variable.copyParams : List Variable :=
  [.root "n" (.scalar .int) { parameter := true }, .root "from" .pair { parameter := true },
    .root "to" .pair { parameter := true, outParameter := true }]

/-- `(n, u, a)`, where `u` is in a uniform buffer. -/
def Expr.copyArgs : List Expr :=
  [.number, .ident (.root "u" .pair { uniform := true }), .ident (.root "a" .pair { functionLocal := true })]

def Expr.callsCopy : Expr := ⟨.void, .call (.root "copy" (.function .void Variable.copyParams) {}) copyArgs⟩

theorem Expr.wellTyped_callsCopy : callsCopy.WellTyped :=
  .call (forall_mem_cons.2 ⟨.ident (.root _ _ _), forall_mem_cons.2 ⟨.ident (.root _ _ _),
    forall_mem_singleton.2 (.ident (.root _ _ _))⟩⟩) rfl

theorem Expr.over_callsCopy : callsCopy.Over .copying :=
  .of_operands rfl (forall_mem_cons.2 ⟨.ident rfl, forall_mem_cons.2 ⟨.ident rfl, forall_mem_singleton.2 (.ident rfl)⟩⟩)

/-- The array in the uniform buffer is copied into local storage, and the other one is passed as it
is. -/
theorem lower_callsCopy_arguments_typed : Workbench.inFunction.ReachableIn {} .copying 0 ∧
      Workbench.inFunction.functions.get? = some Lowerer.inFunction.func ∧
      Workbench.inFunction.blocks.get? = some Lowerer.inFunction.block ∧
      Expr.copyArgs.map (·.ty) = Variable.copyParams.map (·.ty) ∧
      Expr.callsCopy.WellTyped ∧ Expr.callsCopy.Over .copying ∧
      (∀ part : Expr, part.Within .callsCopy → ∀ o ∈ part.node.operands, o.yields) ∧
      ∃ id s' g m', Lower.lower .callsCopy .inFunction = (.ok id, s') ∧
        Module.openFunction "copy" .void Variable.copyParams s'.module = (.ok g, m') ∧
        s'.block.instructions.map (·.op) = [.Load, .Load, .Store, .FunctionCall] ∧
        (∀ p ∈ Variable.copyParams.zip Expr.copyArgs, p.2.Suits s' p.1) ∧
        ∃ function ids, .value .FunctionCall g.function.returnType id (function :: ids) ∈
            s'.block.instructions ∧ ids.length = 3 ∧ g.function.params.length = 3 ∧
          ∀ (k : Nat) (passed : Id) (expected : Id × Id), ids[k]? = some passed →
            g.function.params[k]? = some expected → s'.typeOf? passed = some expected.1 := by
  have hok : (Lower.lower .callsCopy .inFunction).1.isOk := by decide +kernel
  have hops : (Lower.lower .callsCopy .inFunction).2.block.instructions.map (·.op) =
      [.Load, .Load, .Store, .FunctionCall] := by decide +kernel
  have hsuits : ∀ p ∈ Variable.copyParams.zip Expr.copyArgs,
      p.2.Suits (Lower.lower .callsCopy .inFunction).2 p.1 := by decide +kernel
  have hopens : (Module.openFunction "copy" .void Variable.copyParams
      (Lower.lower .callsCopy .inFunction).2.module).1.isOk := by decide +kernel
  have hw := Workbench.inFunction_reachableIn .copying
  have hyields : ∀ part : Expr, part.Within .callsCopy → ∀ o ∈ part.node.operands, o.yields := by
    refine Expr.operands_yield (List.forall_mem_cons.2 ⟨⟨rfl, ?_⟩, List.forall_mem_cons.2
      ⟨⟨rfl, ?_⟩, List.forall_mem_singleton.2 ⟨rfl, ?_⟩⟩⟩) <;> exact Expr.operands_yield nofun
  obtain ⟨id, h⟩ := exists_ok hok
  obtain ⟨g, hopen⟩ := exists_ok hopens
  obtain ⟨w', hw', hcalled, hopened⟩ := hw.reachable.openFunction_after rfl rfl h hopen
  obtain ⟨before, after, function, ids, hcode, -, -, -, hids, hparams, htyped⟩ :=
    lower_arguments_typed_iff hw rfl rfl rfl rfl rfl Expr.wellTyped_callsCopy Expr.over_callsCopy
      hyields h hopen hw' hcalled hopened
  refine ⟨hw, rfl, rfl, rfl, Expr.wellTyped_callsCopy, Expr.over_callsCopy, hyields, id, _, g, _, h,
    hopen, hops, hsuits, function, ids, ?_, hids, hparams, fun k passed expected hid htype => ?_⟩
  · have hmem : .value .FunctionCall g.function.returnType id (function :: ids) ∈
        Lowerer.inFunction.block.instructions ++ before ++
          .value .FunctionCall g.function.returnType id (function :: ids) :: after := by simp
    exact hcode ▸ hmem
  · obtain ⟨hk, -⟩ := List.getElem?_eq_some_iff.1 hid
    have hzip : k < (Variable.copyParams.zip Expr.copyArgs).length := hids ▸ hk
    obtain ⟨hparam, harg⟩ := List.getElem?_zip_eq_some.1 (List.getElem?_eq_getElem hzip)
    exact (htyped k _ _ passed expected hparam harg hid htype).2 (hsuits _ (List.getElem_mem hzip))

def Ty.holder : Ty := .struct "S" .std430 [⟨"a", .pair, 0, none⟩]

/-- `f(s.a)`, where `s` is a local variable. -/
def Expr.passesMember : Expr :=
  ⟨.void, .call (.root "f" (.function .void [.root "p" .pair { parameter := true }]) {})
    [⟨.pair, .member (.ident (.root "s" .holder { functionLocal := true })) 0⟩]⟩

/-- The array is passed out of a struct that gives it a stride, and the parameter has none. -/
theorem lower_passesMember_arguments_mistyped : Workbench.inFunction.ReachableIn {} (fun _ => some .holder) 0 ∧
      Workbench.inFunction.functions.get? = some Lowerer.inFunction.func ∧
      Workbench.inFunction.blocks.get? = some Lowerer.inFunction.block ∧
      Expr.passesMember.WellTyped ∧ Expr.passesMember.Over (fun _ => some .holder) ∧
      (∀ part : Expr, part.Within .passesMember → ∀ o ∈ part.node.operands, o.yields) ∧
      ∃ id s' g m', Lower.lower .passesMember .inFunction = (.ok id, s') ∧
        openFunction "f" .void [.root "p" .pair { parameter := true }] s'.module = (.ok g, m') ∧
        ∃ function passed expected, s'.block.instructions.getLast? =
            some (.value .FunctionCall g.function.returnType id [function, passed]) ∧
          g.function.params = [expected] ∧ s'.typeOf? passed ≠ some expected.1 := by
  have hok : (Lower.lower .passesMember .inFunction).1.isOk := by decide +kernel
  have hid : (Lower.lower .passesMember .inFunction).1.toOption = some 17 := by decide +kernel
  have hlast : (Lower.lower .passesMember .inFunction).2.block.instructions.getLast? =
      some (.value .FunctionCall 3 17 [6, 16]) := by decide +kernel
  have htype : (Lower.lower .passesMember .inFunction).2.typeOf? 16 = some 15 := by decide +kernel
  have hopens : (openFunction "f" .void [.root "p" .pair { parameter := true }]
      (Lower.lower .passesMember .inFunction).2.module).1.isOk := by decide +kernel
  have hheader : (openFunction "f" .void [.root "p" .pair { parameter := true }]
      (Lower.lower .passesMember .inFunction).2.module).1.toOption.map
        (fun g => (g.function.returnType, g.function.params)) = some (3, [(19, 20)]) := by
    decide +kernel
  obtain ⟨id, h⟩ := exists_ok hok
  obtain ⟨g, hopen⟩ := exists_ok hopens
  rw [hopen] at hheader
  obtain ⟨hreturn, hparams⟩ := Prod.mk.inj (some.inj hheader)
  obtain rfl : id = 17 := by
    rw [h] at hid
    exact some.inj hid
  refine ⟨Workbench.inFunction_reachableIn _, rfl, rfl,
    .call (forall_mem_singleton.2 (.member (.ident (.root _ _ _)) rfl)) rfl,
    .of_operand rfl rfl (.of_operand rfl rfl (.ident rfl)), ?_, 17, _, g, _, h, hopen, 6, 16, (19, 20),
    hreturn ▸ hlast, hparams, ?_⟩
  · refine Expr.operands_yield (forall_mem_singleton.2 ⟨rfl, ?_⟩)
    exact Expr.operands_yield (forall_mem_singleton.2 ⟨rfl, Expr.operands_yield nofun⟩)
  · rw [htype]
    decide

end Shader
