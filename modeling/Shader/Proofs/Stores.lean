import Shader.Proofs.Access
import Shader.Proofs.Defined
import Shader.Proofs.Identity
import Shader.Proofs.Settled

/-!
# The types of what is stored

A value is of the type that it has in its own storage, and the type of an array depends on where it is
stored. So an assignment between equal types stores a value of another type where the two sides stand in
different layouts, or one has a stride of its own. All else that an assignment stores on its way is of
the right type if its operands see to that.
-/

namespace Shader

open Action List Lower

variable {s s' : Lowerer} {Γ : Context} {ty : Ty} {x : Expr} {v : Variable} {code : List Inst}

/-! ## Values that there are -/

theorem Workbench.Reachable.attainable {config : Config} {w : Workbench} (h : w.Reachable config) :
    w.Attainable config := by
  induction h with
  | start => exact .start
  | @perform w op _ builds _ ih =>
    refine ih.perform fun hreplaces => ?_
    cases op with
    | reload | load _ => cases builds
    | _ => cases hreplaces

namespace Lowerer

variable {Calls : String → Prop} {t : Lowerer} {id : Id}

theorem Step.defines (h : Step Calls s t) (hid : s.Defines id) : t.Defines id := by
  cases h with
  | build module params queued block =>
    refine hid.imp (fun hhas => ?_) (Or.imp (fun himport => ?_) fun hdeclared => ?_)
    · rw [Has, params, block]
      exact hhas.imp_right (Or.imp_left fun hqueued => (queued.filterMap _).subset hqueued)
    · exact (module.imports.filterMap _).subset himport
    · exact (module.declarations.filterMap _).subset hdeclared
  | emit | effect => exact hid.imp_left fun hhas => hhas.push _ _

theorem code_of_steps (h : Relation.ReflTransGen (Step Calls) s t) :
    ∃ code, t.block.instructions = s.block.instructions ++ code ∧
      ∀ inst ∈ code, ∀ id ∈ inst.op.values inst.operands, t.Defines id := by
  induction h with
  | refl => exact ⟨[], by simp, forall_mem_nil _⟩
  | @tail t u _ hstep ih =>
    obtain ⟨code, hcode, hdefines⟩ := ih
    have hlater : ∀ inst ∈ code, ∀ id ∈ inst.op.values inst.operands, u.Defines id :=
      fun inst hi id hid => hstep.defines (hdefines inst hi id hid)
    have hpushed : ∀ inst : Inst, inst.DefinedAt Calls t →
        ∀ inst' ∈ code ++ [inst], ∀ id ∈ inst'.op.values inst'.operands, u.Defines id :=
      fun inst hdefined => forall_mem_append.2 ⟨hlater, forall_mem_singleton.2
        fun id hid => hstep.defines (hdefined.values id hid)⟩
    cases hstep with
    | build module params queued block => exact ⟨code, by rw [block, hcode], hlater⟩
    | @emit inst _ defined | @effect inst defined =>
      refine ⟨code ++ [inst], ?_, hpushed inst defined⟩
      rw [← append_assoc, ← hcode]
      rfl

theorem Final.inRange (hs : s.Final) (hid : s.Defines id) : 0 < id ∧ id < s.module.bound := by
  refine hs.1.inRange id ?_
  rcases hid with (hparam | hqueued | hcode) | himport | hdeclared <;>
    simp_all [Function.ids, Block.ids, Module.ids]

theorem Final.ne_noResult (hs : s.Final) (hid : s.Defines id) : id ≠ noResult := by
  rintro rfl
  exact UInt32.lt_irrefl _ (hs.inRange hid).1

end Lowerer

/-! ## Stores -/

/-- A stored value is of the type that the pointer points to. -/
def Inst.StoreTyped (s : Lowerer) (inst : Inst) : Prop :=
  inst.op = .Store → ∃ pointer value storage pointee, inst.operands = [pointer, value] ∧
    s.pointeeOf? pointer = some (storage, pointee) ∧ s.typeOf? value = some pointee

theorem Inst.StoreFits.storeTyped {inst : Inst} (h : inst.StoreFits s)
    (hvalues : ∀ id ∈ inst.op.values inst.operands, id ≠ noResult) : inst.StoreTyped s := by
  intro hop
  obtain ⟨pointer, value, storage, pointee, hoperands, hpointee, htype⟩ := h hop
  refine ⟨pointer, value, storage, pointee, hoperands, hpointee, htype (hvalues value ?_)⟩
  rw [hop, hoperands]
  exact mem_cons_of_mem _ mem_cons_self

theorem Lowerer.Consistent.eq_of_storeTyped (hs : s.Consistent Γ)
    {pointer value type type' : Id} {storage : StorageClass} (hpointer : s.Points pointer storage type)
    (hvalue : s.Types value type') (h : (Inst.effect .Store [pointer, value]).StoreTyped s) : type' = type := by
  obtain ⟨pointer', value', storage', pointee, hoperands, hpointee, htype⟩ := h rfl
  cases hoperands
  rw [hs.pointeeOf? hpointer] at hpointee
  cases hpointee
  exact Option.some.inj (((Lowerer.Typed.typeOf? (.inl hvalue) hs.final)).symm.trans htype)

/-- In between, a value of the first type is stored in something of the second. -/
def Lowerer.Stored (s fin : Lowerer) (σ : Setting) (ty : Ty) (σ' : Setting) (ty' : Ty) : Prop :=
  ∃ before pointer value storage type,
    s.block.instructions ++ before ++ [.effect .Store [pointer, value]] <+: fin.block.instructions ∧
    fin.module.Finds σ'.layout σ'.stride ty' type ∧ fin.Points pointer storage type ∧
    (value ≠ noResult → ∃ own, fin.module.Finds σ.layout σ.stride ty own ∧ fin.Types value own)

theorem Lowerer.Stored.of_store {t u fin : Lowerer} {entity : Entity} {value : Id} {storage : StorageClass}
    {σ : Setting} (hbefore : s.Extends t) (hstore : store entity.id value t = (.ok (), u)) (hafter : u.Extends fin)
    (hfin : fin.Consistent Γ) (hvalue : t.Provides Γ x value) (hpoints : fin.Points entity.id storage entity.type)
    (hfinds : fin.module.Finds σ.layout σ.stride ty entity.type) : s.Stored fin (x.setting fin) x.valueTy σ ty := by
  have hlater := (Extending.push _ hstore).trans hafter
  obtain ⟨before, hcode⟩ := hbefore.code
  cases hstore
  refine ⟨before, entity.id, value, storage, entity.type, ?_, hfinds, hpoints, hvalue hlater hfin⟩
  rw [hcode]
  exact hafter.code

namespace Lower

variable {parts : Parts} {fin : Lowerer} {entity : Entity}

theorem regular_of_built {e : Expr} (he : e.Built) (hover : e.Over Γ) :
    e.Regular Γ fun _ => False := ⟨he, hover, fun _ hs => hs.elim⟩

theorem assign_stored {lhs rhs : Expr} (hparts : parts.Lawful Γ fun _ => False) (hlhs : lhs.Built) (hoverL : lhs.Over Γ)
    (hrhs : rhs.WellTyped) (hoverR : rhs.Over Γ) (hwhole : lhs.severalLanes = false)
    (h : assign parts ty none lhs rhs .value s = (.ok entity, s')) (hlater : s'.Extends fin) (hfin : fin.Consistent Γ) :
    s.Stored fin (rhs.setting fin) rhs.valueTy (lhs.setting fin) lhs.ty := by
  obtain ⟨p, t, hplace, h⟩ := bind_ok h
  obtain ⟨value, u, hvalue, h⟩ := bind_ok h
  obtain ⟨_, v, hwrite, h⟩ := bind_ok h
  have hregular := regular_of_built hlhs hoverL
  have hplaced := (placeToAssign_obeys hparts hregular s hplace).later
  have hvalued := (hparts.obeys (regular_of_built hrhs.built hoverR) t hvalue).later
  obtain ⟨hplace, hassignable⟩ := placeToAssign_ok hplace
  have haims := place_aims hparts.steady hlhs hoverL s p t hplace
  obtain ⟨storage, hstorage⟩ := Option.isSome_iff_exists.1 (haims.assignable hassignable)
  have hnone : p.swizzle = none := by
    cases hswizzle : p.swizzle with
    | none => rfl
    | some sw =>
      have hlanes := haims.lanes
      rw [hswizzle, hwhole] at hlanes
      cases hlanes
  unfold writePlace at hwrite
  rw [hnone] at hwrite h
  have hwritten := Extending.push _ hwrite
  have hsince := hwritten.trans ((Extending.value ty value h).trans hlater)
  exact .of_store (hplaced.trans hvalued) hwrite ((Extending.value ty value h).trans hlater) hfin
    (hparts.provides hrhs hoverR t value u hvalue)
    (haims.points storage hstorage (hvalued.trans hsince) hfin)
    (haims.whole hnone (hvalued.trans hsince) hfin)

theorem init_stored (hparts : parts.Lawful Γ fun _ => False) (hv : Γ v.outermost.name = some v.outermost.ty)
    (hx : x.WellTyped) (hover : x.Over Γ) (h : init parts (.init v x) v x .value s = (.ok entity, s'))
    (hlater : s'.Extends fin) (hfin : fin.Consistent Γ) :
    s.Stored fin (x.setting fin) x.valueTy ⟨fin.layoutOf v, none⟩ v.outermost.ty := by
  obtain ⟨root, t, hresolve, h⟩ := bind_ok h
  have hdenotes := resolve_denotes hv s root t hresolve
  have hresolved := (resolve_obeys (W := .access Γ fun _ => False) v s hresolve).later
  cases hpointer : root.isPointer with
  | false =>
    rw [hpointer] at h
    cases h
  | true =>
    rw [hpointer] at h
    obtain ⟨storage, hstorage⟩ := Option.isSome_iff_exists.1 hpointer
    obtain ⟨value, u, hvalue, h⟩ := bind_ok h
    obtain ⟨_, u', hstore, h⟩ := bind_ok h
    have hvalued := (hparts.obeys (regular_of_built hx.built hover) t hvalue).later
    have hafter := (Extending.value _ value h).trans hlater
    have hroot := hdenotes (hvalued.trans ((Extending.push _ hstore).trans hafter)) hfin
    have hfinds := hroot.finds
    rw [← hroot.layoutOf] at hfinds
    exact .of_store (hresolved.trans hvalued) hstore hafter hfin
      (hparts.provides hx hover t value u hvalue) (hroot.pointer storage hstorage) hfinds

end Lower

namespace Expr

theorem valueTy_eq_or_vector (e : Expr) : e.valueTy = e.ty ∨ ∃ s n, e.ty = .vector s n := by
  cases hty : e.ty with
  | vector s n => exact .inr ⟨s, n, rfl⟩
  | _ => exact .inl (hty ▸ valueTy_of_component (by rw [hty]; rfl))

theorem WellTyped.of_assign {lhs rhs : Expr} (h : WellTyped ⟨ty, .assign none lhs rhs⟩) :
    lhs.WellTyped ∧ rhs.WellTyped ∧ rhs.ty = lhs.ty := by
  cases h with
  | assign target value sameType => exact ⟨target, value, sameType⟩

theorem WellTyped.of_init (h : WellTyped ⟨ty, .init v x⟩) : v.WellTyped ∧ x.WellTyped ∧ x.ty = v.ty ∧ ty = v.ty := by
  cases h with
  | init isTyped value sameType => exact ⟨isTyped, value, sameType, rfl⟩

end Expr

theorem Variable.WellTyped.outermost_eq_or_struct (hv : v.WellTyped) :
    v.outermost = v ∨ ∃ name layout members, v.outermost.ty = .struct name layout members := by
  induction hv with
  | root => exact .inl rfl
  | member index name outerTyped isStruct isMember ih =>
    refine .inr ?_
    rcases ih with houter | hstruct
    · exact ⟨_, _, _, houter ▸ isStruct⟩
    · exact hstruct

theorem Lowerer.Stored.alike {fin : Lowerer} {σ σ' : Setting} {ty' : Ty}
    (h : s.Stored fin σ ty σ' ty') (hfin : fin.Consistent Γ) (hexact : fin.module.Exact)
    (hty : ty = ty' ∨ (∃ s n, ty' = .vector s n) ∨ ∃ name layout members, ty' = .struct name layout
      members) (hcode : fin.block.instructions = s.block.instructions ++ code)
    (hvalues : ∀ inst ∈ code, ∀ id ∈ inst.op.values inst.operands, id ≠ noResult)
    (htyped : ∀ inst ∈ code, inst.StoreTyped fin) : σ.Alike ty σ' ty' := by
  obtain ⟨before, pointer, value, storage, type, hbefore, hfinds, hpoints, hown⟩ := h
  rw [hcode, append_assoc, prefix_append_right_inj] at hbefore
  have hmem : .effect .Store [pointer, value] ∈ code := hbefore.subset (by simp)
  have hvalue := hvalues _ hmem value (mem_cons_of_mem _ mem_cons_self)
  obtain ⟨own, hownFinds, htypes⟩ := hown hvalue
  have hsame := hfin.eq_of_storeTyped hpoints htypes (htyped _ hmem)
  exact (Setting.eq_iff_alike hexact hty hownFinds hfinds).1 hsame

namespace Workbench.ReachableIn

variable {config : Config} {i : Nat} {w : Workbench} {f : FunctionScope} {b : Block} {e : Expr} {r : Except Fault Id}

theorem code_values (hw : w.ReachableIn config Γ i) (hf : w.functions.get? = some f) (hb : w.blocks.get? = some b)
    (hoperands : ∀ part : Expr, part.Within e → ∀ o ∈ part.node.operands, o.yields)
    (h : lower e ⟨w.module, f, b, 0⟩ = (r, s')) (hfin : s'.Final) :
    ∃ code, s'.block.instructions = b.instructions ++ code ∧
      ∀ inst ∈ code, ∀ id ∈ inst.op.values inst.operands, id ≠ noResult := by
  have hstart := hw.reachable.attainable.traced.stepping hf hb e.Calls
  have hmeets := Expr.meets_calling hoperands
  have hsteps := ((lower_steady (tracing_stepping e.Calls _) hmeets rfl).after_nil (nil_subset _) hstart).2
  rw [h] at hsteps
  obtain ⟨code, hcode, hdefines⟩ := Lowerer.code_of_steps hsteps
  exact ⟨code, hcode, fun inst hinst id hid => hfin.ne_noResult (hdefines inst hinst id hid)⟩

theorem apart_after (hw : w.ReachableIn config Γ i) (hf : w.functions.get? = some f) (hb : w.blocks.get? = some b)
    (h : lower e ⟨w.module, f, b, 0⟩ = (r, s')) : Ledger.apart.Stands [] [] s'.module := by
  have hafter := (lower_steady running_apart.emitting e.meets_any rfl).after_nil
    (nil_subset _) (hw.reachable.apart.lowerer hf hb)
  rw [h] at hafter
  exact Ledger.apart.drop hafter.1 nil_subperm (nil_subset _)

/-- If the stores of an assignment or a first value are typed, both sides are alike. -/
theorem alike_of_typed (hw : w.ReachableIn config Γ i) (hi : w.functions.current = some i)
    (hf : w.functions.get? = some f) (hb : w.blocks.get? = some b)
    (hsets : (∃ lhs rhs, e.node = .assign none lhs rhs) ∨ ∃ v x, e.node = .init v x) (he : e.WellTyped)
    (hover : e.Over Γ) {id : Id} (h : lower e ⟨w.module, f, b, 0⟩ = (.ok id, s'))
    (hcode : s'.block.instructions = b.instructions ++ code)
    (hvalues : ∀ inst ∈ code, ∀ id ∈ inst.op.values inst.operands, id ≠ noResult)
    (htyped : ∀ inst ∈ code, inst.StoreTyped s') : e.StoresAlike s' := by
  have hfin := hw.consistent hi hf hb hover (.inl rfl) h
  have hexact := hfin.module.exact (hw.apart_after hf hb h)
  obtain ⟨rest, entity, t, -, hrun, hload⟩ := valueWithin_ok h
  have hlater : t.Extends s' := { Extending.load entity hload with }
  have hparts : (partsOf (lowerWithin rest)).Lawful Γ fun _ => False := lowerWithin_lawful rest
  obtain ⟨ty, node⟩ := e
  rcases hsets with ⟨lhs, rhs, rfl⟩ | ⟨v, x, rfl⟩
  · obtain ⟨hlhs, hrhs, hsame⟩ := he.of_assign
    cases hlanes : lhs.severalLanes with
    | true => exact .inl hlanes
    | false =>
      have hstored := assign_stored hparts hlhs.built (hover.operand mem_cons_self) hrhs
        (hover.operand (mem_cons_of_mem _ mem_cons_self)) hlanes hrun hlater hfin
      exact .inr (hstored.alike hfin hexact (hsame ▸ rhs.valueTy_eq_or_vector.imp_right .inl) hcode hvalues htyped)
  · obtain ⟨hv, hx, hsame, rfl⟩ := he.of_init
    have hstored := init_stored hparts (hover v (.self rfl)) hx (hover.operand mem_cons_self) hrun hlater hfin
    refine hstored.alike hfin hexact ?_ hcode hvalues htyped
    rcases hv.outermost_eq_or_struct with houtermost | hstruct
    · rw [houtermost, ← hsame]
      exact x.valueTy_eq_or_vector.imp_right .inl
    · exact .inr (.inr hstruct)

/-- If all parts of an expression store what fits, all its stores are typed. -/
theorem typed_of_alike (hw : w.ReachableIn config Γ i) (hi : w.functions.current = some i)
    (hf : w.functions.get? = some f) (hb : w.blocks.get? = some b) (he : e.WellTyped) (hover : e.Over Γ)
    (h : lower e ⟨w.module, f, b, 0⟩ = (r, s')) (hcode : s'.block.instructions = b.instructions ++ code)
    (hvalues : ∀ inst ∈ code, ∀ id ∈ inst.op.values inst.operands, id ≠ noResult)
    (halike : ∀ part : Expr, part.Within e → part.StoresAlike s') : ∀ inst ∈ code, inst.StoreTyped s' := by
  have hregular : e.Regular Γ (· = s') := by
    refine ⟨he.built, hover, fun s hs => ?_⟩
    subst hs
    exact ⟨he, halike⟩
  obtain ⟨-, -, code', hcode', hlaw⟩ := lower_obeys hregular _ h
  obtain rfl : code = code' := append_cancel_left (hcode.symm.trans hcode')
  intro inst hinst
  obtain ⟨-, hfits⟩ := hlaw inst hinst (.refl s') (hw.consistent hi hf hb hover (.inl rfl) h)
  exact (hfits rfl).storeTyped (hvalues inst hinst)

end Workbench.ReachableIn

/-- If all stores are typed, both sides have arrays of the same strides where they stand, and the value
is of the type of the expression; and if all parts that store are so, all stores are typed. -/
theorem lower_stores_typed {config : Config} {Γ : Context} {i : Nat} {w : Workbench} (hw : w.ReachableIn config Γ i)
    (hi : w.functions.current = some i) {f : FunctionScope} {b : Block} (hf : w.functions.get? = some f)
    (hb : w.blocks.get? = some b) {e : Expr}
    (hsets : (∃ lhs rhs, e.node = .assign none lhs rhs) ∨ ∃ v x, e.node = .init v x) (he : e.WellTyped)
    (hover : e.Over Γ) (hoperands : ∀ part : Expr, part.Within e → ∀ o ∈ part.node.operands, o.yields) {id : Id}
    {s' : Lowerer} (h : lower e ⟨w.module, f, b, 0⟩ = (.ok id, s')) :
    ∃ code, s'.block.instructions = b.instructions ++ code ∧ ((∀ inst ∈ code, inst.StoreTyped s') → e.StoresAlike s') ∧
      ((∀ part : Expr, part.Within e → part.StoresAlike s') → ∀ inst ∈ code, inst.StoreTyped s') := by
  have hfin := hw.consistent hi hf hb hover (.inl rfl) h
  obtain ⟨code, hcode, hvalues⟩ := hw.code_values hf hb hoperands h hfin.final
  exact ⟨code, hcode, hw.alike_of_typed hi hf hb hsets he hover h hcode hvalues,
    hw.typed_of_alike hi hf hb he hover h hcode hvalues⟩

/-! ## Assignments between storage classes -/

def Context.withRow : Context := fun name => some (if name = "x" then .row else
  if name = "t" then .table else .scalar .int)

/-- `x.weights = t.rows[n].weights`, where `x` is a local variable. -/
def Expr.copiesWeights : Expr :=
  .assign none ⟨.array (.scalar .float) (some 3),
    .member (.ident (.root "x" .row { functionLocal := true })) 1⟩ .weights

theorem Expr.wellTyped_copiesWeights : copiesWeights.WellTyped :=
  .assign (.member (.ident (.root _ _ _)) rfl) wellTyped_weights rfl

theorem Expr.over_copiesWeights : copiesWeights.Over .withRow :=
  .of_pair rfl rfl (.of_operand rfl rfl (.ident rfl)) (over_weights rfl rfl)

theorem lower_copiesWeights_stores_typed : Workbench.inFunction.ReachableIn {} .withRow 0 ∧
      Workbench.inFunction.functions.get? = some Lowerer.inFunction.func ∧
      Workbench.inFunction.blocks.get? = some Lowerer.inFunction.block ∧
      Expr.copiesWeights.WellTyped ∧ Expr.copiesWeights.Over .withRow ∧
      (∀ part : Expr, part.Within .copiesWeights → ∀ o ∈ part.node.operands, o.yields) ∧
      ∃ id s' code, lower .copiesWeights .inFunction = (.ok id, s') ∧ s'.block.instructions = code ∧
        code.map (·.op) = [.AccessChain, .Load, .AccessChain, .Load, .Store] ∧
        (∀ part : Expr, part.Within .copiesWeights → part.StoresAlike s') ∧
        ∀ inst ∈ code, inst.StoreTyped s' := by
  have hok : (lower .copiesWeights .inFunction).1.isOk := by decide +kernel
  have hops : (lower .copiesWeights .inFunction).2.block.instructions.map (·.op) =
      [.AccessChain, .Load, .AccessChain, .Load, .Store] := by decide +kernel
  have hw := Workbench.inFunction_reachableIn .withRow
  obtain ⟨id, h⟩ := exists_ok hok
  have hleaf : ∀ {P : Expr → Prop} {e : Expr}, P e → e.node.operands = [] →
      ∀ part : Expr, part.Within e → P part := fun hP he =>
    Expr.forall_within hP fun o ho => nomatch (he ▸ ho : o ∈ [])
  have hparts : ∀ part : Expr, part.Within .copiesWeights → (∀ o ∈ part.node.operands, o.yields) ∧
      part.StoresAlike (lower .copiesWeights .inFunction).2 := by
    refine Expr.forall_within ⟨by decide, .inr (by decide +kernel)⟩ (forall_mem_cons.2 ⟨?_, forall_mem_singleton.2 ?_⟩)
    · exact Expr.forall_within ⟨by decide, trivial⟩ (forall_mem_singleton.2 (hleaf ⟨nofun, trivial⟩ rfl))
    · refine Expr.forall_within ⟨by decide, trivial⟩ (forall_mem_singleton.2
        (Expr.forall_within ⟨by decide, .inl rfl⟩ (forall_mem_cons.2
          ⟨?_, forall_mem_singleton.2 (hleaf ⟨nofun, trivial⟩ rfl)⟩)))
      exact Expr.forall_within ⟨by decide, trivial⟩ (forall_mem_singleton.2 (hleaf ⟨nofun, trivial⟩ rfl))
  obtain ⟨code, hcode, -, htyped⟩ := lower_stores_typed hw rfl rfl rfl (.inl ⟨_, _, rfl⟩)
    Expr.wellTyped_copiesWeights Expr.over_copiesWeights (fun part hpart => (hparts part hpart).1) h
  replace hcode : (lower .copiesWeights .inFunction).2.block.instructions = code := hcode
  exact ⟨hw, rfl, rfl, Expr.wellTyped_copiesWeights, Expr.over_copiesWeights,
    fun part hpart => (hparts part hpart).1, id, _, code, h, hcode, hcode ▸ hops,
    fun part hpart => (hparts part hpart).2, htyped fun part hpart => (hparts part hpart).2⟩

def Context.pairs : Context := fun _ => some (.array (.scalar .float) (some 2))

/-- `a = u`, where `a` is a local variable and `u` is in a uniform buffer. -/
def Expr.copiesUniform : Expr :=
  let pair : Ty := .array (.scalar .float) (some 2)
  .assign none (.ident (.root "a" pair { functionLocal := true })) (.ident (.root "u" pair { uniform := true }))

/-- Arrays in a uniform buffer have a stride of 16, and local ones have none. -/
theorem lower_copiesUniform_stores_mistyped : Workbench.inFunction.ReachableIn {} .pairs 0 ∧
      Workbench.inFunction.functions.get? = some Lowerer.inFunction.func ∧
      Workbench.inFunction.blocks.get? = some Lowerer.inFunction.block ∧
      Expr.copiesUniform.WellTyped ∧ Expr.copiesUniform.Over .pairs ∧
      (∀ part : Expr, part.Within .copiesUniform → ∀ o ∈ part.node.operands, o.yields) ∧
      ∃ id s', lower .copiesUniform .inFunction = (.ok id, s') ∧
        ∃ inst ∈ s'.block.instructions, ¬ inst.StoreTyped s' := by
  have hok : (lower .copiesUniform .inFunction).1.isOk := by decide +kernel
  have hpointee : (lower .copiesUniform .inFunction).2.pointeeOf? 6 = some (7, 10) := by
    decide +kernel
  have htype : (lower .copiesUniform .inFunction).2.typeOf? 15 = some 13 := by decide +kernel
  have hmem : .effect .Store [6, 15] ∈ (lower .copiesUniform .inFunction).2.block.instructions := by decide +kernel
  obtain ⟨id, h⟩ := exists_ok hok
  refine ⟨Workbench.inFunction_reachableIn .pairs, rfl, rfl, .assign (.ident (.root _ _ _)) (.ident (.root _ _ _)) rfl,
    .of_pair rfl rfl (.ident rfl) (.ident rfl), ?_, id, _, h, _, hmem, fun htyped => ?_⟩
  · refine Expr.operands_yield (forall_mem_cons.2 ⟨⟨rfl, ?_⟩, forall_mem_singleton.2
      ⟨rfl, ?_⟩⟩) <;> exact Expr.operands_yield nofun
  · obtain ⟨pointer, value, storage, pointee, hoperands, hpoints, hvalue⟩ := htyped rfl
    cases hoperands
    rw [hpointee] at hpoints
    rw [htype] at hvalue
    cases hpoints
    cases hvalue

end Shader
