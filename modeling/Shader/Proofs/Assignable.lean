import Shader.Proofs.Copies
import Shader.Proofs.Nesting
import Shader.Proofs.Recursion

/-!
# Pointers, and what can be assigned to

A pointer to a member, an element or a lane of a variable points into the storage of the variable, if
that has any. Parameters that are passed by value and specialization constants have none: a pointer into
a copy is given out, although nothing can be assigned to it.
-/

namespace Shader

open Action List

variable {parts : Parts} {e : Expr} {s t : Lowerer} {p : Place}

/-- The pointer is the same as the other, or goes down a path from it. -/
def Lowerer.PointsInto (s : Lowerer) (base id : Id) : Prop :=
  id = base ∨ ∃ type indices, Inst.value .AccessChain type id (base :: indices) ∈ s.block.instructions

/-- A local variable that is new since the earlier state, to which the value was written. -/
structure Lowerer.Copied (s t : Lowerer) (value copy : Id) : Prop where
  isNew : s.module.bound ≤ copy
  queued : ∃ pointer, .localVariable pointer copy ∈ t.func.function.queued
  written : .effect .Store [copy, value] ∈ t.block.instructions

theorem Lowerer.Copied.mono {r u : Lowerer} {value copy : Id} (h : s.Copied t value copy)
    (hearlier : r.Extends s) (hlater : t.Extends u) : r.Copied u value copy :=
  let ⟨pointer, hqueued⟩ := h.queued
  ⟨Nat.le_trans hearlier.module.bound h.isNew, ⟨pointer, hlater.queued.subset hqueued⟩, hlater.code.subset h.written⟩

namespace Lower

/-! ## Places and pointers -/

theorem resolve_depth (v : Variable) (s : Lowerer) (depth : Nat) :
    resolve v { s with depth } = ((resolve v s).1, { (resolve v s).2 with depth }) := by
  unfold resolve
  rw [get_bind, get_bind, bind_apply, bind_apply]
  simp only [onModule]
  rcases Module.declareByRole (some s.func.locals) v s.module with ⟨_ | d, m⟩ <;> rfl

theorem follow_pointsInto {path : Chain} {root base : Entity}
    (h : follow parts path root base s = (.ok p, t)) : t.PointsInto base.id p.entity.id := by
  obtain ⟨w, s₁, -, h⟩ := bind_ok h
  split at h
  · obtain ⟨rfl, -⟩ := pure_ok h
    exact .inl rfl
  · obtain ⟨type, s₂, -, h⟩ := bind_ok h
    obtain ⟨pointer, s₃, -, h⟩ := bind_ok h
    obtain ⟨id, s₄, -, h⟩ := bind_ok h
    obtain ⟨_, hpush, rfl⟩ := bind_pure_ok h
    cases hpush
    exact .inr ⟨pointer, w.indices, mem_append_right _ mem_cons_self⟩

theorem pathBase_copied {v : Variable} {root base : Entity} (hroot : root.isPointer = false)
    (h : pathBase v root s = (.ok base, t)) : s.Copied t root.id base.id := by
  rw [pathBase, if_neg (by simp [hroot])] at h
  obtain ⟨copy, s₁, hspill, h⟩ := bind_ok h
  obtain ⟨type, htype, rfl⟩ := bind_pure_ok h
  obtain ⟨copy', s₀, htemp, h⟩ := bind_ok hspill
  obtain ⟨_, hstore, rfl⟩ := bind_pure_ok h
  cases hstore
  obtain ⟨_, pointer, -, -, hfunc, -, hbound⟩ := temp_ok htemp
  refine Lowerer.Copied.mono ⟨hbound, ⟨pointer, ?_⟩, mem_append_right _ mem_cons_self⟩
    (.refl s) (extends_of_keeps [] (fun L hL =>
      onModule_keeps fun s => Module.declareType_steady (hL.building s).toDeclaring _) htype)
  rw [hfunc]
  exact mem_append_right _ mem_cons_self

theorem node_chain (he : e.isChain) (demand : Demand) : node parts e demand = chain parts e := by
  obtain ⟨ty, node⟩ := e
  cases node with
  | ident v =>
    cases v with
    | root name vTy roles => simp [node, chain, place, placeEntity, Variable.isMember, Variable.outer?]
    | member => rfl
  | member | index | swizzle => exact if_pos he
  | _ => cases he

/-- A place is in the storage of its variable and can be assigned to, or is in a new copy of its value. -/
theorem place_root (hparts : parts.Regular) (h : place parts e s = (.ok p, t)) :
    ∃ path root s₁, Chain.ofExpr e = .ok path ∧ resolve path.head s = (.ok root, s₁) ∧
      p.assignable = root.isPointer ∧ (root.isPointer → t.PointsInto root.id p.entity.id) ∧
      (root.isPointer = false → p.entity.isPointer →
        ∃ copy, s.Copied t root.id copy ∧ t.PointsInto copy p.entity.id) := by
  rcases place_ok h with ⟨name, ty, roles, root, hnode, hroot, rfl⟩ |
    ⟨path, root, s₁, base, s₂, -, -, hpath, hroot, hbase, hfollow⟩
  · refine ⟨⟨.root name ty roles, []⟩, root, t, ?_, hroot, rfl, fun _ => .inl rfl, fun hvalue hp => ?_⟩
    · obtain ⟨_, node⟩ := e
      cases hnode
      rfl
    · exact absurd (hvalue.symm.trans hp) Bool.false_ne_true
  · have hinto := follow_pointsInto hfollow
    refine ⟨path, root, s₁, hpath, hroot, follow_assignable hfollow, fun hp => ?_, fun hvalue _ => ⟨base.id, ?_, hinto⟩⟩
    · rw [pathBase, if_pos hp] at hbase
      obtain ⟨rfl, -⟩ := pure_ok hbase
      exact hinto
    · have hoperable := Chain.ofExpr_operable e.meets_any hpath
      refine (pathBase_copied hvalue hbase).mono ?_ ?_
      · exact extends_of_keeps [] (fun L hL => resolve_steady hL hoperable.named) hroot
      · exact extends_of_keeps base.known
          (fun L hL => follow_steady hL (hparts L hL) hoperable root fun _ hk => hk) hfollow

theorem lowerPointer_place {id : Id} (he : e.isChain) (h : lowerPointer e s = (.ok id, t)) :
    ∃ p u, s.depth < s.module.config.nestingLimit ∧
      place (partsOf visit) e { s with depth := s.depth + 1 } = (.ok p, u) ∧
      p.entity.isPointer ∧ p.entity.id = id ∧ t = { u with depth := u.depth - 1 } := by
  obtain ⟨entity, s₁, hentity, hpointer⟩ := bind_ok h
  rw [visit_eq, node_chain he] at hentity
  rcases nested_cases hentity with ⟨hrefused, -⟩ | ⟨hdepth, u, hrun, rfl⟩
  · cases hrefused
  obtain ⟨p, u₁, hplace, hp⟩ := bind_ok hrun
  unfold placeEntity at hp
  unfold pointerOf at hpointer
  cases hswizzle : p.swizzle with
  | none =>
    rw [hswizzle] at hp
    obtain ⟨rfl, rfl⟩ := pure_ok hp
    cases hp : p.entity.isPointer with
    | false =>
      rw [hp] at hpointer
      cases hpointer
    | true =>
      rw [hp] at hpointer
      obtain ⟨rfl, rfl⟩ := pure_ok hpointer
      exact ⟨p, u₁, hdepth, hplace, hp, rfl, rfl⟩
  | some lanes =>
    rw [hswizzle] at hp
    obtain ⟨_, _, -, hp⟩ := bind_ok hp
    obtain ⟨_, _, -, hp⟩ := bind_ok hp
    obtain ⟨rfl, -⟩ := pure_ok hp
    cases hpointer

end Lower

/-! ## Assignments -/

/-- Terms that no expression meets. -/
def Terms.noPlaces : Terms := { Terms.any with places := False }

instance (ty : Ty) : ty.Allowed Terms.noPlaces.doubles := inferInstanceAs (ty.Allowed true)

/-- No fault says that something cannot be assigned to. -/
def Ledger.assigning : Ledger Lowerer :=
  .ending (fun f => ∀ kind, f ≠ .refused (.notAssignable kind)) fun f h kind => by
    rintro rfl
    cases h

theorem tracing_assigning : Tracing .noPlaces .assigning where
  building _ := .trivial fun _ _ _ => trivial
  emit h _ _ _ := h
  take _ h _ _ _ _ _ _ := h
  deep _ _ _ := nofun
  unassignable := nofun

namespace Lower

theorem assign_faults {ty : Ty} {op : Option BinOp} {rhs : Expr} {demand : Demand} {kind : Kind}
    (hplace : place parts e s = (.ok p, t)) (hp : p.assignable)
    (h : (assign parts ty op e rhs demand s).1 = .error (.refused (.notAssignable kind))) :
    ∃ u, t.Extends u ∧ u.depth = t.depth ∧ (parts.value rhs u).1 = .error (.refused (.notAssignable kind)) := by
  have hassign : placeToAssign parts e s = (.ok p, t) := by
    unfold placeToAssign
    rw [bind_apply, hplace]
    simp only [hp]
    rfl
  have hwrite : ∀ id, (writePlace p id).Faults Ledger.assigning.Ends := fun id =>
    (writePlace_steady tracing_assigning (subset_append_left p.entity.known [.value id])
      (mem_append_right _ mem_cons_self)).faults
  have hvalue : ∀ id, (value ty id : Lower Entity).Faults Ledger.assigning.Ends := fun id =>
    (value_steady tracing_assigning ty (mem_singleton_self (Known.value id))).faults
  unfold assign at h
  rw [bind_apply_ok hassign] at h
  cases op with
  | none =>
    refine ⟨t, .refl t, rfl, Faults.of_bind (fun id => (hwrite id).bind fun _ => ?_) h fun hends => hends kind rfl⟩
    split
    · exact .pure _
    · exact hvalue id
  | some op =>
    dsimp only at h
    rcases hread : readPlace p t with ⟨f | current, u⟩
    · rw [bind_apply_error hread] at h
      cases h
      have hfaults := (readPlace_steady tracing_assigning (fun _ hk => hk)).faults t _ (congrArg Prod.fst hread)
      exact absurd rfl (hfaults kind)
    · rw [bind_apply_ok hread] at h
      have hbinary : ∀ r : Operand, (binary op { ty := e.ty, id := current } r e.ty false).Faults
          Ledger.assigning.Ends := fun r =>
        (binary_steady tracing_assigning op (mem_cons_self (l := [.value r.id])) (by simp) e.ty false).faults
      have hsteady : ∀ L : Ledger Lowerer, Emitting L → Steady L p.entity.known (readPlace p) _ :=
        fun L hL => readPlace_steady hL fun _ hk => hk
      refine ⟨u, extends_of_keeps _ hsteady hread, depth_of_keeps _ hsteady hread, ?_⟩
      refine Faults.of_bind (P := Ledger.assigning.Ends) (fun _ => .pure _) (Faults.of_bind
        (fun r => (hbinary r).bind fun id => (hwrite id).bind fun _ => ?_) h fun hends => hends kind rfl)
        fun hends => hends kind rfl
      split
      · exact .pure _
      · exact hvalue id

theorem assign_refused {ty : Ty} {op : Option BinOp} {rhs : Expr} {demand : Demand}
    (hplace : place parts e s = (.ok p, t)) (hp : p.assignable = false) :
    (assign parts ty op e rhs demand s).1 = .error (.refused (.notAssignable e.kind)) := by
  unfold assign placeToAssign
  rw [bind_apply, bind_apply, hplace]
  simp only [hp]
  rfl

theorem lower_assign {ty : Ty} {op : Option BinOp} {rhs : Expr} : lower ⟨ty, .assign op e rhs⟩ =
    nested (assign (partsOf visit) ty op e rhs .value) >>= load := by
  show visit _ .value >>= load = _
  rw [visit_eq]
  rfl

section

variable (hdepth : s.depth < s.module.config.nestingLimit)
  (hplace : place (partsOf visit) e { s with depth := s.depth + 1 } = (.ok p, t)) {ty : Ty}
  {op : Option BinOp} {rhs : Expr}

include hdepth hplace

theorem lower_assign_faults {kind : Kind} (hp : p.assignable)
    (h : (lower ⟨ty, .assign op e rhs⟩ s).1 = .error (.refused (.notAssignable kind))) :
    ∃ u, s.Extends u ∧ u.depth = s.depth + 1 ∧ (lower rhs u).1 = .error (.refused (.notAssignable kind)) := by
  rw [lower_assign] at h
  have hassign := Faults.of_bind (fun entity : Entity =>
    (load_steady tracing_assigning (fun _ (hk : _ ∈ entity.known) => hk)).faults) h
    fun hends => hends kind rfl
  rw [nested_eq hdepth] at hassign
  obtain ⟨u, hlater, hlevel, hvalue⟩ := assign_faults hplace hp hassign
  have hsteady : ∀ L : Ledger Lowerer, Emitting L → Steady L [] (place (partsOf visit) e) _ :=
    fun L hL => place_steady hL (partsOf_visit_regular L hL) e.meets_any
  have hextends := extends_of_keeps [] hsteady hplace
  exact ⟨u, { hextends.trans hlater with }, hlevel.trans (depth_of_keeps [] hsteady hplace), hvalue⟩

theorem lower_assign_refused (hp : p.assignable = false) :
    (lower ⟨ty, .assign op e rhs⟩ s).1 = .error (.refused (.notAssignable e.kind)) := by
  have hassign : (nested (assign (partsOf visit) ty op e rhs .value) s).1 =
      .error (.refused (.notAssignable e.kind)) := by
    rw [nested_eq hdepth]
    exact assign_refused hplace hp
  rw [lower_assign, bind_apply_error (Prod.ext hassign rfl)]

end

end Lower

/-- A pointer for a path points into the storage of its variable, and an assignment to the path is
refused only if its value is; or the variable has none, the pointer points into a new copy and every
assignment is refused. -/
theorem lowerPointer_assignable {e : Expr} {s t : Lowerer} {id : Id} (he : e.isChain)
    (h : Lower.lowerPointer e s = (.ok id, t)) :
    ∃ path root, Chain.ofExpr e = .ok path ∧ (Lower.resolve path.head s).1 = .ok root ∧
      (root.isPointer → t.PointsInto root.id id ∧ ∀ ty op rhs kind,
        (Lower.lower ⟨ty, .assign op e rhs⟩ s).1 = .error (.refused (.notAssignable kind)) →
        ∃ u, s.Extends u ∧ u.depth = s.depth + 1 ∧ (Lower.lower rhs u).1 = .error (.refused (.notAssignable kind))) ∧
      (root.isPointer = false → (∃ copy, s.Copied t root.id copy ∧ t.PointsInto copy id) ∧
        ∀ ty op rhs, (Lower.lower ⟨ty, .assign op e rhs⟩ s).1 = .error (.refused (.notAssignable e.kind))) := by
  obtain ⟨p, u, hdepth, hplace, hpointer, rfl, rfl⟩ := Lower.lowerPointer_place he h
  obtain ⟨path, root, s₁, hpath, hroot, hassignable, hstorage, hcopy⟩ :=
    Lower.place_root Lower.partsOf_visit_regular hplace
  refine ⟨path, root, hpath, ?_, fun hp => ⟨hstorage hp, fun ty op rhs kind hrun => ?_⟩,
    fun hvalue => ⟨?_, fun ty op rhs => ?_⟩⟩
  · rw [Lower.resolve_depth] at hroot
    exact congrArg Prod.fst hroot
  · exact Lower.lower_assign_faults hdepth hplace (hassignable.trans hp) hrun
  · obtain ⟨copy, hcopied, hinto⟩ := hcopy hvalue hpointer
    exact ⟨copy, { hcopied with }, hinto⟩
  · exact Lower.lower_assign_refused hdepth hplace (hassignable.trans hvalue)

/-- The pointer for `v.x`, where `v` is a local variable, points into `v`. -/
theorem lowerPointer_assignable_lane :
    let e : Expr := (Expr.ident (.root "v" (typeOfName "v") { functionLocal := true })).lanes "x"
    e.isChain ∧ ∃ id t path root, Lower.lowerPointer e .inFunction = (.ok id, t) ∧
      Chain.ofExpr e = .ok path ∧ (Lower.resolve path.head .inFunction).1 = .ok root ∧
      root.isPointer ∧ t.PointsInto root.id id := by
  intro e
  have he : e.isChain := by decide +kernel
  have hok : (Lower.lowerPointer e .inFunction).1.isOk := by decide +kernel
  obtain ⟨id, h⟩ := exists_ok hok
  obtain ⟨path, root, hpath, hroot, hstorage, -⟩ := lowerPointer_assignable he h
  have hpointer : (Lower.resolve path.head .inFunction).1.toOption.map Entity.isPointer = some true := by
    cases hpath
    decide +kernel
  rw [hroot] at hpointer
  replace hpointer : root.isPointer := Option.some.inj hpointer
  exact ⟨he, id, _, path, root, h, hpath, hroot, hpointer, (hstorage hpointer).1⟩

def Variable.passed : Variable := .root "p" (.vector .float 2) { parameter := true }

def Workbench.withParam : Workbench :=
  (((Workbench.start {}).perform (.openFunction "main" .void [.passed])).2.perform .freshBlock).2

def Lowerer.withParam : Lowerer where
  module := Workbench.withParam.module
  func := Workbench.withParam.functions.get?.getD Lowerer.inFunction.func
  block := Workbench.withParam.blocks.get?.getD Lowerer.inFunction.block

/-- There is a pointer for `p.x`, to which nothing can be assigned. -/
theorem lowerPointer_not_assignable :
    let e : Expr := (Expr.ident .passed).lanes "x"
    Workbench.withParam.functions.get?.isSome ∧ Workbench.withParam.blocks.get?.isSome ∧ e.isChain ∧
      (Lower.lowerPointer e .withParam).1.isOk ∧
      ∀ ty op rhs, (Lower.lower ⟨ty, .assign op e rhs⟩ .withParam).1 = .error (.refused (.notAssignable e.kind)) := by
  intro e
  have hok : (Lower.lowerPointer e .withParam).1.isOk := by decide +kernel
  obtain ⟨id, h⟩ := exists_ok hok
  have he : e.isChain := by decide +kernel
  obtain ⟨p, u, hdepth, hplace, -⟩ := Lower.lowerPointer_place he h
  have hparam : (Lower.resolve .passed { Lowerer.withParam with depth := 1 }).1.toOption.map
      Entity.isPointer = some false := by decide +kernel
  obtain ⟨path, root, s₁, hpath, hroot, hassignable, -⟩ := Lower.place_root Lower.partsOf_visit_regular hplace
  cases hpath
  rw [show Lower.resolve .passed { Lowerer.withParam with depth := 1 } = _ from hroot] at hparam
  exact ⟨by decide +kernel, by decide +kernel, he, hok, fun ty op rhs =>
    Lower.lower_assign_refused hdepth hplace (hassignable.trans (Option.some.inj hparam))⟩

end Shader
