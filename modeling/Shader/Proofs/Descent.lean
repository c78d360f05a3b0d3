import Shader.Proofs.Emission
import Shader.Proofs.TexelOffsets

/-!
# Ledgers through whole expressions

Each kind of expression keeps a ledger if the lowering of its parts does, and whole expressions do by
induction on their height.
-/

namespace Shader

open Action List Module

variable {ids : List Id}

/-- The lowering of parts keeps the ledger and tells the identifier of the value. -/
structure Parts.Steady (T : Terms) (L : Ledger Lowerer) (parts : Parts) : Prop where
  value : ∀ {e : Expr}, e.Operable T → ∀ need, Supplies L need (parts.value e)
  pointer : ∀ {e : Expr}, e.Operable T → ∀ need, Supplies L need (parts.pointer e)

/-- Parts keep every ledger that lowering keeps. -/
def Parts.Regular (parts : Parts) : Prop := ∀ L : Ledger Lowerer, Emitting L → parts.Steady .any L

/-- What a walk along a path has found. -/
def Walk.known (w : Walk) : List Known := w.indices.map .value

/-- What is known of a copy that is written back. -/
def CopyOut.known (w : CopyOut) : List Known := [.value w.copy, .type w.copyType] ++ w.place.entity.known

namespace Lower

variable {T : Terms} {L : Ledger Lowerer} {need : List Known} {parts : Parts} {e arg : Expr}
  {args : List Expr} {w : Walk} {l r o : Operand} {path : Chain} {p : Place} {α : Type}
  {passes : Bool}

variable (hL : Tracing T L)

include hL

/-! ## Places -/

omit hL in
theorem addIndex_steady {w' : Walk} (hw : w.known ⊆ need) {i : Id} (hw' : w'.indices = w.indices ++ [i])
    (hi : .value i ∈ need) : Steady L need (pure w' : Lower Walk) Walk.known := by
  refine .pure _ fun k hk => ?_
  rw [Walk.known, hw', map_append, mem_append] at hk
  rcases hk with hk | hk
  · exact hw hk
  · cases mem_singleton.1 hk
    exact hi

theorem walkMember_steady (hw : w.known ⊆ need) (index : Word) (name : Option String) :
    Steady L need (walkMember w index name) Walk.known := by
  have hindex : ∀ (need : List Known) (w' : Id → Walk), w.known ⊆ need → (∀ i, (w' i).indices = w.indices ++ [i]) →
      Steady L need (do
        let i ← onModule (declareLiteral (.uint index))
        pure (w' i)) Walk.known := by
    intro need w' hw hw'
    refine (declareLiteral_steady hL _).bind fun i => ?_
    exact addIndex_steady (fun _ hk => by simp [hw hk]) (hw' i) (by simp)
  unfold walkMember
  split
  · split
    · exact .refuse rfl
    · cases name with
      | none => exact (Steady.done _).bind fun _ => hindex _ _ (by simpa using hw) fun _ => rfl
      | some name =>
        refine .get_bind fun s => ?_
        refine keepsAt_of_locals hL (((onModule_keeps fun t => nameMember_steady (hL.building t)
          (fun scope h => Option.some.inj h ▸ subset_append_left _ _) _ _ _).bind fun _ => ?_) s)
        exact hindex _ _ (fun _ hk => by simp [hw hk]) fun _ => rfl
  · exact .refuse rfl

omit hL in
theorem walkIndex_steady (hparts : parts.Steady T L) (hw : w.known ⊆ need) {index : Expr}
    (hindex : index.Operable T) : Steady L need (walkIndex parts w index) Walk.known := by
  unfold walkIndex
  split
  · exact .refuse rfl
  · refine (hparts.value hindex _).bind fun i => ?_
    exact addIndex_steady (fun _ hk => by simp [hw hk]) rfl (by simp)

theorem walkSwizzle_steady (hw : w.known ⊆ need) (s : Swizzle) : Steady L need (walkSwizzle w s) Walk.known := by
  unfold walkSwizzle
  split
  · split
    · exact .pure _ hw
    · split
      · exact .refuse rfl
      · refine (declareLiteral_steady hL _).bind fun i => ?_
        exact addIndex_steady (fun _ hk => by simp [hw hk]) rfl (by simp)
  · exact .pure _ hw

/-- One step of a walk keeps the indices known. -/
theorem walk_steady (hparts : parts.Steady T L) (hw : w.known ⊆ need) {step : Step}
    (hstep : ∀ i, step = .index i → i.Operable T) : Steady L need (walk parts w step) Walk.known := by
  cases step with
  | member index name => exact walkMember_steady hL hw index name
  | index index => exact walkIndex_steady hparts hw (hstep index rfl)
  | swizzle s => exact walkSwizzle_steady hL hw s

theorem walkAll_steady (hparts : parts.Steady T L) :
    ∀ (steps : List Step), (∀ i, .index i ∈ steps → i.Operable T) → ∀ (w : Walk) (need : List Known),
      w.known ⊆ need → Steady L need (steps.foldlM (walk parts) w) Walk.known
  | [], _, _, _, hw => .pure _ hw
  | step :: steps, hsteps, w, need, hw => by
    refine (walk_steady hL hparts hw ?_).bind fun w' => ?_
    · rintro i rfl
      exact hsteps i mem_cons_self
    · exact walkAll_steady hparts steps (fun i hi => hsteps i (mem_cons_of_mem _ hi)) w' _ (subset_append_left _ _)

omit hL in
theorem walk_allowed [hw : w.ty.Allowed T.doubles] (step : Step) :
    (walk parts w step).Yields (·.ty.Allowed T.doubles) := by
  cases step with
  | member index name =>
    show (walkMember w index name).Yields _
    unfold walkMember
    split
    case h_1 hty =>
      split
      · exact Ensures.refuse _
      case h_2 m hm =>
        have hpart : m.ty.Allowed T.doubles := .part w.ty index (by rw [hty, Ty.part?, hm]; rfl)
        cases name with
        | none => exact .bind fun _ => .bind fun _ => .pure hpart
        | some name => exact .bind fun _ => .bind fun _ => .bind fun _ => .pure hpart
    case h_2 => exact Ensures.refuse _
  | index index =>
    show (walkIndex parts w index).Yields _
    unfold walkIndex
    split
    · exact Ensures.refuse _
    case h_2 hpart => exact .bind fun _ => .pure (.part w.ty 0 hpart)
  | swizzle s =>
    show (walkSwizzle w s).Yields _
    unfold walkSwizzle
    split
    case h_1 lane _ =>
      split
      · exact .pure hw
      · split
        · exact Ensures.refuse _
        case h_2 hpart => exact .bind fun _ => .pure (.part w.ty lane hpart)
    case h_2 => exact .pure hw

omit hL in
theorem walkAll_allowed : ∀ {steps : List Step} {w : Walk}, w.ty.Allowed T.doubles →
    (steps.foldlM (walk parts) w).Yields (·.ty.Allowed T.doubles)
  | [], _, hw => .pure hw
  | step :: steps, w, hw => by
    intro s w' s' h
    obtain ⟨w₁, s₁, hstep, h⟩ := bind_ok h
    exact walkAll_allowed (walk_allowed step s w₁ s₁ hstep) s₁ w' s' h

theorem pathBase_steady (head : Variable) [head.ty.Allowed T.doubles] {root : Entity}
    (h : root.known ⊆ need) : Steady L need (pathBase head root) Entity.known := by
  unfold pathBase
  split
  · exact .pure _ h
  · refine (spill_steady hL _ (h (by simp [Entity.known]))).bind fun copy => ?_
    exact (declareType_steady hL _).bind fun type => Steady.pure _ (by simp [Entity.known])

theorem follow_steady (hparts : parts.Steady T L) (hpath : path.Operable T) (root : Entity) {base : Entity}
    (h : base.known ⊆ need) : Steady L need (follow parts path root base) (·.entity.known) := by
  refine (walkAll_steady hL hparts _ hpath.index _ _ (nil_subset _)).bind_yields
    (walkAll_allowed hpath.head) fun w _ => ?_
  split
  · exact Steady.pure _ (fun _ hk => by simp [h hk])
  · refine (onModule_keeps fun s => declareTypeWith_steady (hL.building s).toDeclaring _ _ _ _).bind fun type => ?_
    refine (declarePointer_steady hL _ _).bind fun pointer => ?_
    refine accessChain_steady hL (by simp) (fun v hv => ?_) fun id => .pure _ (by simp [Entity.known])
    rcases mem_cons.1 hv with rfl | hv
    · simp [h (by simp [Entity.known] : Known.value base.id ∈ base.known)]
    · simp [Walk.known, hv]

omit hL in
theorem follow_allowed (hpath : path.Operable T) (root base : Entity) :
    (follow parts path root base).Yields (·.ty.Allowed T.doubles) := by
  intro s p s' h
  obtain ⟨w, s₁, hw, h⟩ := bind_ok h
  have hty : w.ty.Allowed T.doubles := walkAll_allowed hpath.head s w s₁ hw
  split at h
  · obtain ⟨rfl, -⟩ := pure_ok h
    exact hty
  · obtain ⟨type, s₂, -, h⟩ := bind_ok h
    obtain ⟨pointer, s₃, -, h⟩ := bind_ok h
    obtain ⟨id, s₄, -, h⟩ := bind_ok h
    obtain ⟨rfl, -⟩ := pure_ok h
    exact hty

theorem placeOfChain_steady (hparts : parts.Steady T L) (hpath : path.Operable T) :
    Steady L need (placeOfChain parts path) (·.entity.known) := by
  have := hpath.outermost
  have := hpath.head
  refine (resolve_steady hL hpath.named).bind fun root => ?_
  refine (pathBase_steady hL _ (subset_append_left _ _)).bind fun base => ?_
  exact follow_steady hL hparts hpath root (subset_append_left _ _)

/-- The place of an expression is an entity that is known. -/
theorem place_steady (hparts : parts.Steady T L) (he : e.Meets T) : Steady L need (place parts e) (·.entity.known) := by
  unfold place
  split
  case h_1 hnode =>
    have hv := Expr.Uses.self (by rw [hnode]; rfl)
    have := he.outermost hv
    exact (resolve_steady hL (he.names _ hv)).bind fun _ => Steady.pure _ (subset_append_left _ _)
  case h_2 =>
    split
    · split
      case h_1 error herror => exact .throw (L.ends (Chain.ofExpr_error herror))
      case h_2 path hpath => exact placeOfChain_steady hL hparts (Chain.ofExpr_operable he hpath)
    · exact .throw (hL.unassignable he.places _)

omit hL in
/-- A place is a variable on its own, or a path was followed from one. -/
theorem place_ok {s s' : Lowerer} (h : place parts e s = (.ok p, s')) :
    (∃ name ty roles entity, e.node = .ident (.root name ty roles) ∧
        resolve (.root name ty roles) s = (.ok entity, s') ∧
        p = { entity, ty, assignable := entity.isPointer }) ∨
      ∃ path root s₁ base s₂, (∀ name ty roles, e.node ≠ .ident (.root name ty roles)) ∧ e.isChain ∧
        Chain.ofExpr e = .ok path ∧ resolve path.head s = (.ok root, s₁) ∧
        pathBase path.head root s₁ = (.ok base, s₂) ∧
        follow parts path root base s₂ = (.ok p, s') := by
  generalize hx : place parts e = x at h
  unfold place at hx
  split at hx
  case h_1 name ty roles hnode =>
    subst hx
    obtain ⟨entity, s₁, hresolve, hpure⟩ := bind_ok h
    obtain ⟨rfl, rfl⟩ := pure_ok hpure
    exact .inl ⟨name, ty, roles, entity, hnode, hresolve, rfl⟩
  case h_2 hnode =>
    split at hx
    case isFalse =>
      subst hx
      cases h
    case isTrue hchain =>
      split at hx <;> subst hx
      case h_1 => cases h
      case h_2 path hpath =>
        obtain ⟨root, s₁, hresolve, h⟩ := bind_ok h
        obtain ⟨base, s₂, hbase, hfollow⟩ := bind_ok h
        exact .inr ⟨path, root, s₁, base, s₂, hnode, hchain, hpath, hresolve, hbase, hfollow⟩

omit hL in
theorem place_allowed (he : e.Meets T) : (place parts e).Yields (·.ty.Allowed T.doubles) := by
  unfold place
  split
  case h_1 name ty roles hnode =>
    refine .bind fun _ => .pure (he.outermost (v := .root name ty roles) (.self ?_))
    rw [hnode]
    rfl
  case h_2 =>
    split
    · split
      · exact Ensures.refuse _
      case h_2 path hpath =>
        exact .bind fun root => .bind fun base => follow_allowed (Chain.ofExpr_operable he hpath) root base
    · exact Ensures.refuse _

theorem placeToAssign_steady (hparts : parts.Steady T L) (he : e.Meets T) :
    Steady L need (placeToAssign parts e) (·.entity.known) := by
  refine (place_steady hL hparts he).bind fun p => ?_
  split
  · exact .throw (hL.unassignable he.places _)
  · exact Steady.pure _ (subset_append_left _ _)

omit hL in
theorem placeToAssign_allowed (he : e.Meets T) : (placeToAssign parts e).Yields (·.ty.Allowed T.doubles) := by
  intro s p s' h
  obtain ⟨p', s₁, hplace, h⟩ := bind_ok h
  split at h
  · cases h
  · obtain ⟨rfl, -⟩ := pure_ok h
    exact place_allowed he s p' s₁ hplace

theorem readPlace_steady [hty : p.ty.Allowed T.doubles] (hp : p.entity.known ⊆ need) :
    Supplies L need (readPlace p) := by
  refine (load_steady hL hp).bind fun value => ?_
  split
  · exact Steady.pure _ (by simp)
  · split
    case h_1 hvector =>
      have := Ty.Allowed.scalar (d := T.doubles) p.ty (by rw [hvector]; rfl)
      exact emitShuffle_steady hL _ (by simp) (by simp) _
    case h_2 => exact emitShuffle_steady hL _ (by simp) (by simp) _

theorem writePlace_steady (hp : p.entity.known ⊆ need) {value : Id} (hvalue : .value value ∈ need) :
    Upholds L need (writePlace p value) := by
  have hid : .value p.entity.id ∈ need := hp (by simp [Entity.known])
  have htype : .type p.entity.type ∈ need := hp (by simp [Entity.known])
  unfold writePlace
  split
  · exact store_steady hL hid hvalue
  · refine (load_steady hL hp).bind fun vector => ?_
    refine (Steady.checked _).bind fun mask => ?_
    refine (emitAs_steady hL rfl (by simp [htype]) fun v hv => ?_).bind fun merged =>
      store_steady hL (by simp [hid]) (by simp)
    have hv := Op.mem_values_shuffle hv
    simp only [mem_cons, not_mem_nil, or_false] at hv
    rcases hv with rfl | rfl
    · simp
    · simp [hvalue]

/-! ## Calls -/

theorem referenceArg_steady (hparts : parts.Steady T L) (harg : arg.Operable T) :
    Supplies L need (referenceArg parts arg) := by
  have := harg.meets.ty
  unfold referenceArg
  split
  · refine (place_steady hL hparts harg.meets).bind_yields (place_allowed harg.meets) fun p _ => ?_
    split
    · exact Steady.pure _ (by simp [Entity.known])
    · exact (readPlace_steady hL (subset_append_left _ _)).bind fun _ => spill_steady hL _ (by simp)
  · exact (hparts.value harg _).bind fun _ => spill_steady hL _ (by simp)

theorem outputArg_steady (hparts : parts.Steady T L) (harg : arg.Meets T) (copyIn : Bool) :
    Steady L need (outputArg parts arg copyIn) (fun r => .value r.1 :: r.2.toList.flatMap CopyOut.known) := by
  have := harg.ty
  refine (placeToAssign_steady hL hparts harg).bind_yields (placeToAssign_allowed harg) fun p _ => ?_
  split
  · exact Steady.pure _ (by simp [Entity.known])
  · refine (temp_steady hL _).bind fun copy => ?_
    refine (declareType_steady hL _).bind fun copyType => ?_
    have hcopy : ∀ need : List Known, [.value copy, .type copyType] ++ p.entity.known ⊆ need →
        Steady L need (pure (copy, some ⟨copy, copyType, p⟩) : Lower (Id × Option CopyOut))
          (fun r => .value r.1 :: r.2.toList.flatMap CopyOut.known) := by
      intro need h
      refine .pure _ (cons_subset.2 ⟨h (by simp), ?_⟩)
      simpa [CopyOut.known] using h
    have hgained : ∀ k ∈ [.value copy, .type copyType] ++ p.entity.known,
        k ∈ [.type copyType] ++ ([.value copy] ++ (p.entity.known ++ need)) := by
      intro k hk
      grind
    split
    · refine (readPlace_steady hL fun k hk => hgained k (by simp [hk])).bind fun value => ?_
      refine (store_steady hL (by simp) (by simp)).bind fun _ => hcopy _ fun k hk => ?_
      exact mem_append_right _ (mem_append_right _ (hgained k hk))
    · exact hcopy _ hgained

theorem copyOut_steady {w : CopyOut} (hw : w.known ⊆ need) : Upholds L need (copyOut w) := by
  refine Steady.bind (load_steady hL fun k hk => hw (mem_append_left _ hk)) fun value => ?_
  exact writePlace_steady hL (fun k hk => by simp [hw (mem_append_right _ hk)]) (by simp)

theorem copyOuts_steady : ∀ (backs : List CopyOut) (need : List Known), backs.flatMap CopyOut.known ⊆ need →
      Upholds L need (backs.forM copyOut)
  | [], _, _ => .done _
  | w :: backs, need, h => by
    obtain ⟨hw, hbacks⟩ := append_subset.1 h
    exact (copyOut_steady hL hw).bind fun _ => copyOuts_steady backs _ hbacks

theorem callArg_steady (hparts : parts.Steady T L) (param : Variable) (harg : arg.Operable T) :
    Steady L need (callArg parts param arg) (fun r => .value r.1 :: r.2.toList.flatMap CopyOut.known) := by
  unfold callArg
  split
  · exact outputArg_steady hL hparts harg.meets _
  · split
    · exact (referenceArg_steady hL hparts harg).bind fun _ => Steady.pure _ (by simp)
    · exact (hparts.value harg _).bind fun _ => Steady.pure _ (by simp)

theorem callArgs_steady (hparts : parts.Steady T L) :
    ∀ (params : List Variable) (args : List Expr), (∀ a ∈ args, a.Operable T) →
      ∀ need, Steady L need (callArgs parts params args) (fun r => r.1.map .value ++ r.2.flatMap CopyOut.known)
  | [], _, _, _ => .pure _ (by simp)
  | _ :: _, [], _, _ => .pure _ (by simp)
  | param :: params, arg :: args, hargs, need => by
    obtain ⟨harg, hargs⟩ := forall_mem_cons.1 hargs
    refine (callArg_steady hL hparts param harg).bind fun r => ?_
    refine (callArgs_steady hparts params args hargs _).bind fun rs => ?_
    refine Steady.pure _ fun k hk => ?_
    simp only [map_cons, flatMap_append, mem_append, mem_cons] at hk ⊢
    tauto

theorem emitCall_steady {name : String} (hcalls : T.Calls name) {function : Id}
    (hfunction : .function name function ∈ need) (ret : Ty) [ret.Allowed T.doubles] {args : List Id}
    (hargs : ∀ v ∈ args, .value v ∈ need) : Supplies L need (emit .FunctionCall ret (function :: args)) := by
  refine (declareType_steady hL ret).bind fun type => emitGrounded_steady hL fun id => ?_
  refine ⟨⟨rfl, nofun, rfl⟩, ?_, fun v hv => ?_, ?_⟩
  · rintro _ ⟨⟩
    simp
  · exact mem_append_right _ (hargs v (Op.mem_of_mem_values_around [] rfl hv))
  · rintro _ ⟨⟩
    exact ⟨name, hcalls, by simp [hfunction]⟩

/-- A call supplies its result, with all arguments known before. -/
theorem call_steady (hparts : parts.Steady T L) {func : Variable} (hcalls : T.Calls func.name)
    (hret : ∀ ret, func.ty.result? = some ret → ret.Allowed T.doubles) (hargs : ∀ a ∈ args, a.Operable T) :
    Supplies L need (call parts func args) := by
  unfold call
  split
  case h_1 ret _ hty =>
    have := hret ret (by rw [hty]; rfl)
    split
    · exact .refuse_bind _ rfl
    · refine (onModule_keeps fun s => functionNamed_steady (hL.building s) _).bind fun function => ?_
      refine (callArgs_steady hL hparts _ args hargs _).bind fun r => ?_
      refine (emitCall_steady hL hcalls (by simp) _ fun v hv => ?_).bind fun id => ?_
      · exact mem_append_left _ (mem_append_left _ (mem_map_of_mem hv))
      · refine (copyOuts_steady hL r.2 _ fun k hk => ?_).bind fun _ => Steady.pure _ (by simp)
        exact mem_append_right _ (mem_append_left _ (mem_append_right _ hk))
  case h_2 => exact .refuse rfl

/-! ## Operators and conversions -/

theorem broadcast_steady [hlt : l.ty.Allowed T.doubles] [hrt : r.ty.Allowed T.doubles] (hl : .value l.id ∈ need)
    (hr : .value r.id ∈ need) : Steady L need (broadcast l r) (fun p => [.value p.1, .value p.2.1]) := by
  unfold broadcast
  split
  case h_1 hscalar =>
    rw [hscalar] at hrt
    exact (splat_steady hL _ hr _ _).bind fun _ => Steady.pure _ (by simp [hl])
  case h_2 hscalar _ =>
    rw [hscalar] at hlt
    exact (splat_steady hL _ hl _ _).bind fun _ => Steady.pure _ (by simp [hr])
  case h_3 => exact .pure _ (by simp [hl, hr])

theorem componentWise_steady (op : BinOp) (family : Family) [l.ty.Allowed T.doubles] [r.ty.Allowed T.doubles]
    (hl : .value l.id ∈ need) (hr : .value r.id ∈ need) (ty : Ty) [ty.Allowed T.doubles] (fold : Bool) :
    Supplies L need (componentWise op family l r ty fold) := by
  refine (broadcast_steady hL hl hr).bind fun p => ?_
  dsimp only
  split
  · exact .refuse rfl
  case h_2 opcode hopcode =>
    have hplain := PerFamily.of_get? op.opcodes_isPlain hopcode
    split
    · refine (emit_steady hL hplain _ (by simp)).bind fun _ => ?_
      refine emit_steady hL ?_ _ (by simp)
      split <;> rfl
    · exact emitOrDeclare_steady hL _ hplain _ (by simp)

theorem product_steady {op : BinOp} {family : Family} (hl : .value l.id ∈ need) (hr : .value r.id ∈ need) {opcode : Op}
    {a b : Id} (h : productOf? op family l r = some (opcode, a, b)) (ty : Ty) [ty.Allowed T.doubles] :
    Supplies L need (emit opcode ty [a, b]) := by
  unfold productOf? at h
  split at h
  case isTrue =>
    obtain ⟨hplain, hids⟩ := product?_isPlain h
    refine emit_steady hL hplain ty fun v hv => ?_
    rcases hids v hv with rfl | rfl
    · exact hl
    · exact hr
  case isFalse => cases h

theorem vectorBinary_steady (op : BinOp) [l.ty.Allowed T.doubles] [r.ty.Allowed T.doubles]
    (hl : .value l.id ∈ need) (hr : .value r.id ∈ need) (ty : Ty) [ty.Allowed T.doubles]
    (fold : Bool) : Supplies L need (vectorBinary op l r ty fold) := by
  unfold vectorBinary
  split
  · exact .refuse rfl
  · split
    case h_1 hproduct => exact product_steady hL hl hr hproduct _
    case h_2 => exact componentWise_steady hL _ _ hl hr _ _

theorem columnWise_steady (ty : Ty) [hty : ty.Allowed T.doubles] {column : Ty → Word → Lower Id}
    (hcolumn : ∀ columnTy, columnTy.Allowed T.doubles → ∀ c need', need ⊆ need' → Supplies L need'
      (column columnTy c)) :
    Supplies L need (columnWise ty column) := by
  unfold columnWise
  split
  · refine (Steady.mapM_mem ?_).bind fun ids => emit_steady hL rfl _ fun v hv => ?_
    · exact fun c _ need' h => hcolumn (.vector _ _) ⟨hty.allowed⟩ _ need' h
    · exact mem_append_left _ (mem_map_of_mem hv)
  · exact Keeps.refuse rfl

theorem columnOf_steady (ho : .value o.id ∈ need) (columnTy : Ty) [columnTy.Allowed T.doubles]
    (c : Word) : Steady L need (columnOf o columnTy c) (fun o => [.value o.id]) := by
  unfold columnOf
  split
  · exact (emitExtract_steady hL _ ho _).bind fun _ => Steady.pure _ (by simp)
  · exact .pure _ (by simpa using ho)

omit hL in
theorem columnOf_allowed (o : Operand) [ho : o.ty.Allowed T.doubles] (columnTy : Ty)
    [hcolumn : columnTy.Allowed T.doubles] (c : Word) : (columnOf o columnTy c).Yields (·.ty.Allowed T.doubles) := by
  unfold columnOf
  split
  · exact .bind fun _ => .pure hcolumn
  · exact .pure ho

theorem binaryColumn_steady (op : BinOp) [l.ty.Allowed T.doubles] [r.ty.Allowed T.doubles] (hl : .value l.id ∈ need)
    (hr : .value r.id ∈ need) (columnTy : Ty) [columnTy.Allowed T.doubles] (c : Word) : Supplies L need (do
      let lc ← columnOf l columnTy c
      let rc ← columnOf r columnTy c
      vectorBinary op lc rc columnTy false) := by
  refine (columnOf_steady hL hl _ _).bind_yields (columnOf_allowed (T := T) l _ _) fun lc _ => ?_
  refine (columnOf_steady hL (by simp [hr]) _ _).bind_yields (columnOf_allowed (T := T) r _ _) fun rc _ => ?_
  exact vectorBinary_steady hL _ (by simp) (by simp) _ _

/-- A binary operator supplies its result from known operands. -/
theorem binary_steady (op : BinOp) [l.ty.Allowed T.doubles] [r.ty.Allowed T.doubles]
    (hl : .value l.id ∈ need) (hr : .value r.id ∈ need) (ty : Ty) [ty.Allowed T.doubles]
    (fold : Bool) : Supplies L need (binary op l r ty fold) := by
  unfold binary
  split
  · split
    · exact .refuse rfl
    · split
      case h_1 hproduct => exact product_steady hL hl hr hproduct _
      case h_2 =>
        exact columnWise_steady hL ty fun columnTy hcolumn c need' h =>
          binaryColumn_steady hL op (h hl) (h hr) columnTy c
  · exact vectorBinary_steady hL _ hl hr _ _

theorem vectorUnary_steady (op : UnOp) [o.ty.Allowed T.doubles] (ho : .value o.id ∈ need)
    (fold : Bool) : Supplies L need (vectorUnary op o fold) := by
  unfold vectorUnary
  split
  · exact .refuse rfl
  case h_2 opcode hopcode =>
    obtain ⟨s, -, hget⟩ := Option.bind_eq_some_iff.1 hopcode
    exact emitOrDeclare_steady hL _ (PerFamily.of_get? op.opcodes_isPlain hget) _ (by simpa using ho)

theorem unaryColumn_steady (op : UnOp) [o.ty.Allowed T.doubles] (ho : .value o.id ∈ need) (columnTy : Ty)
    [columnTy.Allowed T.doubles] (c : Word) : Supplies L need (do vectorUnary op (← columnOf o columnTy c) false) :=
  (columnOf_steady hL ho _ _).bind_yields (columnOf_allowed (T := T) o _ _) fun _ _ =>
    vectorUnary_steady hL _ (by simp) _

theorem unary_steady (op : UnOp) [o.ty.Allowed T.doubles] (ho : .value o.id ∈ need) (fold : Bool) :
    Supplies L need (unary op o fold) := by
  unfold unary
  split
  · exact .pure _ (by simpa using ho)
  · split
    · exact columnWise_steady hL _ fun columnTy _ c need' h => unaryColumn_steady hL op (h ho) columnTy c
    · exact vectorUnary_steady hL _ ho _

theorem replicated_steady (value : Literal) [(Ty.scalar value.scalar).Allowed T.doubles]
    (size : Word) : Supplies L need (replicated value size) := by
  refine (declareLiteral_steady hL _).bind fun id => ?_
  split
  · exact splat_steady hL _ (by simp) _ _
  · exact Steady.pure _ (by simp)

omit hL in
theorem castShape?_scalars {ty target : Ty} {a b : Scalar} {size : Word}
    (h : castShape? ty target = some (a, b, size)) :
    ty.scalar? = some a ∧ target.scalar? = some b := by
  unfold castShape? at h
  split at h
  · cases h
    exact ⟨rfl, rfl⟩
  · split at h
    · cases h
      exact ⟨rfl, rfl⟩
    · cases h
  · cases h

theorem cast_steady [o.ty.Allowed T.doubles] (ho : .value o.id ∈ need) (target : Ty)
    [target.Allowed T.doubles] : Supplies L need (cast o target) := by
  unfold cast
  split
  · exact .pure _ (by simpa using ho)
  · split
    · exact .refuse rfl
    case h_2 a b size hshape =>
      obtain ⟨ha, hb⟩ := castShape?_scalars hshape
      have ha := Ty.Allowed.scalar (d := T.doubles) o.ty ha
      have hb := Ty.Allowed.scalar (d := T.doubles) target hb
      split
      case h_1 => exact .pure _ (by simpa using ho)
      case h_2 op hop => exact emit_steady hL (conversion_isPlain hop) _ (by simpa using ho)
      case h_3 =>
        split
        · exact .refuse rfl
        case h_2 one hone =>
          have : (Ty.scalar one.scalar).Allowed T.doubles := Literal.scalar_of_one? hone ▸ hb
          refine (replicated_steady hL _ _).bind fun _ => ?_
          exact (replicated_steady hL _ _).bind fun _ => emit_steady hL rfl _ (by simp [ho])
      case h_4 =>
        refine (replicated_steady hL _ _).bind fun _ => emit_steady hL ?_ _ (by simp [ho])
        split <;> rfl

/-! ## Constructors -/

theorem constructArg_steady (hparts : parts.Steady T L) {target : Option Scalar}
    (htarget : ∀ s, target = some s → (Ty.scalar s).Allowed T.doubles) (harg : arg.Operable T) :
    Steady L need (constructArg parts target arg) (fun p => [.value p.1]) := by
  have := harg.meets.ty
  unfold constructArg
  split
  case h_1 wanted own _ =>
    have hwanted := htarget wanted rfl
    split
    · exact (hparts.value harg _).bind fun _ => Steady.pure _ (by simp)
    · split
      · exact (declareLiteral_steady hL _).bind fun _ => Steady.pure _ (by simp)
      · refine (hparts.value harg _).bind fun id => ?_
        split <;>
          exact (cast_steady hL (by simp) _).bind fun _ => Steady.pure _ (by simp)
  case h_2 => exact (hparts.value harg _).bind fun _ => Steady.pure _ (by simp)

theorem constructArgs_steady (hparts : parts.Steady T L) {target : Option Scalar}
    (htarget : ∀ s, target = some s → (Ty.scalar s).Allowed T.doubles) :
    ∀ (args : List Expr), (∀ a ∈ args, a.Operable T) → ∀ need,
      Steady L need (constructArgs parts target args) (fun p => p.1.map .value)
  | [], _, _ => .pure _ (by simp)
  | arg :: args, hargs, need => by
    obtain ⟨harg, hargs⟩ := forall_mem_cons.1 hargs
    refine (constructArg_steady hL hparts htarget harg).bind fun p => ?_
    refine (constructArgs_steady hparts htarget args hargs _).bind fun ps => ?_
    refine Steady.pure _ fun k hk => ?_
    simp only [map_cons, mem_append, mem_cons] at hk ⊢
    tauto

section

variable (hids : ∀ v ∈ ids, .value v ∈ need)

include hids

theorem constructScalar_steady (ty : Ty) [ty.Allowed T.doubles] (args : List Expr) :
    Supplies L need (constructScalar ty args ids) := by
  unfold constructScalar
  split
  · have hid := forall_mem_singleton.1 hids
    split
    · exact .known hid
    · exact emitExtract_steady hL _ hid _
  · exact .refuse rfl

theorem constructVector_steady (s : Scalar) [(Ty.scalar s).Allowed T.doubles] (n : Word) (args : List Expr)
    (constant : Bool) : Supplies L need (constructVector s n args ids constant) := by
  unfold constructVector
  split
  · have hid := forall_mem_singleton.1 hids
    split
    · exact splat_steady hL _ hid _ _
    · split
      · exact .known hid
      · split
        · exact emitShuffle_steady hL _ hid hid _
        · exact composite_steady hL _ hids _
    · exact composite_steady hL _ hids _
  · exact composite_steady hL _ hids _

end

theorem diagonalMatrix_steady (s : Scalar) [(Ty.scalar s).Allowed T.doubles] (columns rows : Word)
    {diagonal : Id} (h : .value diagonal ∈ need) (constant : Bool) :
    Supplies L need (diagonalMatrix s columns rows diagonal constant) := by
  refine (declareLiteral_steady hL _).bind fun zero => ?_
  refine (Steady.mapM_mem fun c _ need' hneed => ?_).bind fun ids =>
    composite_steady hL _ (fun v hv => mem_append_left _ (mem_map_of_mem hv)) _
  refine composite_steady hL _ (fun v hv => ?_) _
  obtain ⟨r, -, rfl⟩ := mem_map.1 hv
  split
  · exact hneed (by simp [h])
  · exact hneed (by simp)

omit hL in
theorem mem_of_mem_groups {n : Nat} : ∀ {count : Nat} {ids group : List α}, group ∈ groups n count ids → group ⊆ ids
  | 0, _, _, h => nomatch h
  | _ + 1, [], _, h => nomatch h
  | count + 1, id :: ids, group, h => by
    rcases mem_cons.1 h with rfl | h
    · exact take_subset _ _
    · exact Subset.trans (mem_of_mem_groups h) (drop_subset _ _)

section

variable (hids : ∀ v ∈ ids, .value v ∈ need)

include hids

theorem joinMatrix_steady (s : Scalar) [(Ty.scalar s).Allowed T.doubles] (columns rows : Word) (args : List Expr)
    (constant : Bool) : Supplies L need (joinMatrix s columns rows args ids constant) := by
  unfold joinMatrix
  split
  · exact composite_steady hL _ hids _
  · refine (Steady.checked _).bind fun count => ?_
    split
    · refine (Steady.mapM_mem fun group hgroup need' h => ?_).bind fun columnIds =>
        composite_steady hL _ (fun v hv => mem_append_left _ (mem_map_of_mem hv)) _
      exact composite_steady hL _ (fun v hv => h (hids v (mem_of_mem_groups hgroup hv))) _
    · exact Keeps.refuse rfl

theorem constructMatrix_steady (s : Scalar) [(Ty.scalar s).Allowed T.doubles] (columns rows : Word) (args : List Expr)
    (constant : Bool) : Supplies L need (constructMatrix s columns rows args ids constant) := by
  unfold constructMatrix
  split
  · have hid := forall_mem_singleton.1 hids
    split
    · exact .known hid
    · split
      · exact diagonalMatrix_steady hL _ _ _ hid _
      · exact joinMatrix_steady hL hids _ _ _ _ _
  · exact joinMatrix_steady hL hids _ _ _ _ _

theorem assemble_steady (ty : Ty) [hty : ty.Allowed T.doubles] (args : List Expr) (constant : Bool) :
    Supplies L need (assemble ty args ids constant) := by
  unfold assemble
  split
  · exact constructScalar_steady hL hids _ _
  · have := hty.scalar _ rfl
    exact constructVector_steady hL hids _ _ _ _
  · have := hty.scalar _ rfl
    exact constructMatrix_steady hL hids _ _ _ _ _
  · exact composite_steady hL _ hids _
  · exact composite_steady hL _ hids _
  · exact .refuse rfl

end

theorem construct_steady (hparts : parts.Steady T L) (ty : Ty) [ty.Allowed T.doubles] (hargs : ∀ a ∈ args, a.Operable T)
    (constant : Bool) : Supplies L need (construct parts ty args constant) :=
  (constructArgs_steady hL hparts (fun _ => .scalar ty) args hargs _).bind fun _ =>
    assemble_steady hL (fun _ hv => mem_append_left _ (mem_map_of_mem hv)) ty args _

/-! ## Intrinsic functions -/

omit hL in
theorem mapValues_steady (hparts : parts.Steady T L) (hargs : ∀ a ∈ args, a.Operable T) :
    Steady L need (args.mapM parts.value) (fun ids => ids.map .value) :=
  .mapM_mem fun e he need' _ => hparts.value (hargs e he) need'

theorem emitExtended_steady (op : GlslOp) (ty : Ty) [ty.Allowed T.doubles] {operands : List Id}
    (hknown : ∀ v ∈ operands, .value v ∈ need) : Supplies L need (emitExtended op ty operands) := by
  refine (onModule_keeps fun s => importGlslStd450_steady (hL.building s) id).bind
    fun set => emitTaking_steady hL rfl ty fun v hv => ?_
  rcases mem_cons.1 (Op.mem_values_extended hv) with rfl | hv
  · simp
  · simp [hknown v hv]

theorem emitPair_steady {op : Op} (hop : op.isPlain) (ty : Ty) [ty.Allowed T.doubles] {x y : Id} (hx : .value x ∈ need)
    (hy : .value y ∈ need) : Steady L need (emitPair op ty x y) (fun p => [.value p.1, .value p.2]) := by
  refine (declareType_steady hL ty).bind fun field => ?_
  refine (onModule_keeps fun s => declareTuple_steady (hL.building s).toDeclaring nofun).bind fun tuple => ?_
  refine (emitAs_steady hL hop (by simp) fun v hv => ?_).bind fun pair => ?_
  · have hv := Op.values_subset _ hv
    simp only [mem_cons, not_mem_nil, or_false] at hv
    rcases hv with rfl | rfl
    · simp [hx]
    · simp [hy]
  refine (emitAs_steady hL rfl (by simp) fun v hv => ?_).bind fun first => ?_
  · cases Op.mem_values_extract hv
    simp
  refine (emitAs_steady hL rfl (by simp) fun v hv => ?_).bind fun second => Steady.pure _ (by simp)
  cases Op.mem_values_extract hv
  simp

theorem assignTo_steady (hparts : parts.Steady T L) {target : Expr} (htarget : target.Meets T) {value : Id}
    (hvalue : .value value ∈ need) : Upholds L need (assignTo parts target value) :=
  (placeToAssign_steady hL hparts htarget).bind fun _ =>
    writePlace_steady hL (subset_append_left _ _) (by simp [hvalue])

theorem atomic_steady (f : Intrinsic) {ops : PerFamily Op} (hops : ops.all Op.isPlain) (semantics : MemorySemantics)
    (s : Option Scalar) {pointer : Id} (hpointer : .value pointer ∈ need) {values : List Id}
    (hvalues : ∀ v ∈ values, .value v ∈ need) (ty : Ty) [ty.Allowed T.doubles] :
    Supplies L need (atomic f ops semantics s pointer values ty) := by
  unfold atomic
  split
  · exact .refuse rfl
  case h_2 op hop =>
    obtain ⟨scalar, -, hget⟩ := Option.bind_eq_some_iff.1 hop
    have hplain := PerFamily.of_get? hops hget
    refine (declareLiteral_steady hL _).bind fun scope => ?_
    refine (declareLiteral_steady hL _).bind fun equal => ?_
    split
    · refine (declareLiteral_steady hL _).bind fun unequal => emit_steady hL rfl _ ?_
      have hboth := forall_mem_cons.1 hvalues
      simp [hpointer, hboth.1, forall_mem_singleton.1 hboth.2]
    · exact .refuse rfl
    · refine emit_steady hL hplain _ fun v hv => ?_
      rcases mem_append.1 hv with hv | hv
      · simp only [mem_cons, not_mem_nil, or_false] at hv
        rcases hv with rfl | rfl | rfl <;> simp [hpointer]
      · simp [hvalues v hv]

theorem mixSelect_steady (hparts : parts.Steady T L) (ty : Ty) [ty.Allowed T.doubles]
    {x y choice : Expr} (hx : x.Operable T) (hy : y.Operable T) (hchoice : choice.Operable T) :
    Supplies L need (mixSelect parts ty x y choice) := by
  refine (hparts.value hx _).bind fun _ => ?_
  refine (hparts.value hy _).bind fun _ => ?_
  exact (hparts.value hchoice _).bind fun _ => emit_steady hL rfl _ (by simp)

theorem intrinsicOfForm_steady (hparts : parts.Steady T L) (f : Intrinsic) (ty : Ty) [ty.Allowed T.doubles]
    {first : Expr} {rest : List Expr} (hfirst : first.Operable T) (hrest : ∀ a ∈ rest, a.Operable T)
    (hpasses : ∀ op, f.form = .wideProduct op → passes → T.lenient) :
    Steady L need (intrinsicOfForm parts f ty first rest) (fun id => gained passes [.value id]) := by
  have hargs : ∀ a ∈ first :: rest, a.Operable T := forall_mem_cons.2 ⟨hfirst, hrest⟩
  have hemit : ∀ op, op.isPlain → ∀ need, Supplies L need (do
      emit op ty (← (first :: rest).mapM parts.value)) := by
    intro op hop need
    refine (mapValues_steady hparts hargs).bind fun ids => ?_
    exact emit_steady hL hop _ fun v hv => mem_append_left _ (mem_map_of_mem hv)
  have hplain := f.form_isPlain
  unfold intrinsicOfForm
  split
  case h_1 ops hform =>
    rw [hform] at hplain
    split
    · exact .refuse rfl
    case h_2 op hop =>
      obtain ⟨scalar, -, hget⟩ := Option.bind_eq_some_iff.1 hop
      have hop := PerFamily.of_get? hplain hget
      split
      · exact (onModule_keeps fun s =>
          addCapability_steady (hL.building s).toDeclaring _).bind fun _ => gained_steady passes (hemit op hop _)
      · exact gained_steady passes (hemit op hop _)
  case h_2 =>
    split
    · exact .refuse rfl
    · refine gained_steady passes ((mapValues_steady hparts hargs).bind fun ids => ?_)
      exact emitExtended_steady hL _ _ fun v hv => mem_append_left _ (mem_map_of_mem hv)
  case h_3 output hform =>
    have houtput := forall_mem_singleton.1 hrest
    refine gained_steady passes ((hparts.value hfirst _).bind fun x => ?_)
    refine (outputArg_steady hL hparts houtput.meets _).bind fun r => ?_
    refine (emitExtended_steady hL _ _ (by simp)).bind fun id => ?_
    obtain ⟨pointer, back⟩ := r
    cases back with
    | none => exact (Steady.done _).bind fun _ => Steady.pure _ (by simp)
    | some w =>
      refine (copyOut_steady hL fun k hk => ?_).bind fun _ => Steady.pure _ (by simp)
      simp [hk]
  case h_4 ops hform =>
    rw [hform] at hplain
    refine gained_steady passes ((hparts.pointer hfirst _).bind fun pointer => ?_)
    refine (mapValues_steady hparts hrest).bind fun values => ?_
    exact atomic_steady hL _ hplain _ _ (by simp) (fun v hv => mem_append_left _ (mem_map_of_mem hv)) _
  case h_5 op second output hform =>
    rw [hform] at hplain
    obtain ⟨hsecond, houtput⟩ := forall_mem_cons.1 hrest
    refine gained_steady passes ((hparts.value hfirst _).bind fun x => ?_)
    refine (hparts.value hsecond _).bind fun y => ?_
    refine (emitPair_steady hL hplain _ (by simp) (by simp)).bind fun p => ?_
    exact (assignTo_steady hL hparts (forall_mem_singleton.1 houtput).meets
      (by simp)).bind fun _ => Steady.pure _ (by simp)
  case h_6 op second high low hform =>
    rw [hform] at hplain
    obtain ⟨hsecond, houtputs⟩ := forall_mem_cons.1 hrest
    obtain ⟨hhigh, hlow⟩ := forall_mem_cons.1 houtputs
    have := hfirst.meets.ty
    refine (hparts.value hfirst _).bind fun x => ?_
    refine (hparts.value hsecond _).bind fun y => ?_
    refine (emitPair_steady hL hplain _ (by simp) (by simp)).bind fun p => ?_
    refine (assignTo_steady hL hparts hhigh.meets (by simp)).bind fun _ => ?_
    exact (assignTo_steady hL hparts (forall_mem_singleton.1 hlow).meets
      (by simp)).bind fun _ => noResult_steady hL (hpasses op hform)
  case h_7 => exact .refuse rfl

/-- An intrinsic function supplies its result, whichever form it has. -/
theorem intrinsic_steady (hparts : parts.Steady T L) (f : Intrinsic) (hargs : ∀ a ∈ args, a.Operable T) (ty : Ty)
    [ty.Allowed T.doubles] (hpasses : ∀ op, f.form = .wideProduct op → passes → T.lenient) :
    Steady L need (intrinsic parts f args ty) (fun id => gained passes [.value id]) := by
  unfold intrinsic
  dsimp only
  split
  · exact .refuse_bind _ rfl
  · split
    · exact .refuse rfl
    · obtain ⟨hx, hrest⟩ := forall_mem_cons.1 hargs
      obtain ⟨hy, hchoice⟩ := forall_mem_cons.1 hrest
      split
      · exact gained_steady passes (mixSelect_steady hL hparts _ hx hy (forall_mem_singleton.1 hchoice))
      · exact intrinsicOfForm_steady hL hparts _ _ hx hrest hpasses
    · obtain ⟨hfirst, hrest⟩ := forall_mem_cons.1 hargs
      exact intrinsicOfForm_steady hL hparts _ _ hfirst hrest hpasses

/-! ## Texels -/

omit hL in
theorem checkCount_bind_steady {callee : Callee} {expected : Nat} {k : Unit → Lower α}
    {gains : α → List Known} (h : args.length = expected → Steady L need (k ()) gains) :
    Steady L need (checkCount callee args expected >>= k) gains := by
  unfold checkCount
  by_cases hcount : args.length = expected
  · rw [if_neg (not_not.2 hcount)]
    exact h hcount
  · rw [if_pos hcount]
    exact .refuse_bind _ rfl

omit hL in
theorem imageArg_steady (callee : Callee) (args : List Expr) : Upholds L need (imageArg callee args) := by
  unfold imageArg
  split
  · exact .refuse rfl
  · split
    · exact .refuse rfl
    · exact .done _

omit hL in
theorem imageArg_mem (callee : Callee) (args : List Expr) :
    (imageArg callee args).Yields fun p => p.1 ∈ args ∧ p.1.ty.imageConfig? = some p.2 := by
  intro s p s' h
  cases args with
  | nil => cases h
  | cons image rest =>
    unfold imageArg at h
    cases hconfig : image.ty.imageConfig? with
    | none => simp only [hconfig] at h; cases h
    | some config =>
      simp only [hconfig] at h
      obtain ⟨rfl, -⟩ := pure_ok h
      exact ⟨mem_cons_self, hconfig⟩

theorem atomicTexel_steady (hparts : parts.Steady T L) (f : Intrinsic) {ops : PerFamily Op} (hops : ops.all Op.isPlain)
    (config : ImageConfig) [(Ty.scalar config.sampled).Allowed T.doubles] {image : Expr} (himage : image.Operable T)
    {address values : List Expr} (haddress : ∀ a ∈ address, a.Operable T) (hvalues : ∀ a ∈ values, a.Operable T)
    (ty : Ty) [ty.Allowed T.doubles] : Supplies L need (atomicTexel parts f ops config image address values ty) := by
  refine (declareType_steady hL _).bind fun texel => ?_
  refine (declarePointer_steady hL _ _).bind fun pointerType => ?_
  refine (hparts.pointer himage _).bind fun base => ?_
  refine (mapValues_steady hparts haddress).bind fun ids => ?_
  have hrest : ∀ (need : List Known) (sample : List Id), .type pointerType ∈ need →
      (∀ v ∈ base :: ids ++ sample, .value v ∈ need) → Supplies L need (do
        let pointer ← emitAs .ImageTexelPointer pointerType (base :: ids ++ sample)
        let values ← values.mapM parts.value
        atomic f ops .image (some config.sampled) pointer values ty) := by
    intro need sample htype hknown
    refine (emitAs_steady hL rfl htype fun v hv => hknown v (Op.values_subset _ hv)).bind fun pointer => ?_
    refine (mapValues_steady hparts hvalues).bind fun ids => ?_
    exact atomic_steady hL _ hops _ _ (by simp) (fun v hv => mem_append_left _ (mem_map_of_mem hv)) _
  split
  · refine hrest _ [] (by simp) fun v hv => ?_
    rw [append_nil, mem_cons] at hv
    rcases hv with rfl | hv
    · simp
    · simp [hv]
  · refine (declareLiteral_steady hL _).bind fun zero => ?_
    refine hrest _ [zero] (by simp) fun v hv => ?_
    simp only [cons_append, mem_cons, mem_append, not_mem_nil, or_false] at hv
    rcases hv with rfl | hv | rfl
    · simp
    · simp [hv]
    · simp

omit hL in
theorem mem_values_sampled {op : Op} {base : Id} (texel : List Id)
    (h : op.takesValue (texel.length + 2) = false) {v : Id}
    (hv : v ∈ op.values (base :: ids.take 1 ++ texel ++ sampleOperands (ids.drop 1))) : v ∈ base :: ids ++ texel := by
  cases ids with
  | nil =>
    have hv : v ∈ op.values (base :: texel) := by simpa [sampleOperands] using hv
    exact Op.values_subset _ hv
  | cons i rest =>
    cases rest with
    | nil =>
      have hv : v ∈ op.values (base :: i :: texel) := by simpa [sampleOperands] using hv
      exact Op.values_subset _ hv
    | cons j rest =>
      have hv := Op.mem_of_mem_values_around (base :: i :: texel) h hv
      simp only [cons_append, drop_succ_cons, drop_zero, mem_cons, mem_append] at hv ⊢
      tauto

theorem imageAccess_steady (hparts : parts.Steady T L) (access : ImageAccess) (hargs : ∀ a ∈ args, a.Operable T)
    (ty : Ty) [ty.Allowed T.doubles] (hpasses : access = .store → passes → T.lenient) :
    Steady L need (imageAccess parts access args ty) (fun id => gained passes [.value id]) := by
  refine (imageArg_steady _ _).bind_yields (imageArg_mem _ _) fun p hp => ?_
  obtain ⟨image, config⟩ := p
  have himage : image.Operable T := hargs image hp.1
  have := himage.meets.ty
  have := Ty.Allowed.texel (d := T.doubles) image.ty hp.2
  refine checkCount_bind_steady fun hcount => ?_
  rw [splitAt_eq]
  dsimp only
  obtain ⟨haddress, hvalues⟩ := forall_mem_split (fun a ha => hargs a (mem_of_mem_tail ha)) config.addressLength
  split
  case h_1 f hf =>
    have hplain := f.form_isPlain
    split
    case h_1 ops hform =>
      rw [hform] at hplain
      exact gained_steady passes (atomicTexel_steady hL hparts _ hplain _ himage haddress hvalues _)
    · exact .refuse rfl
  case h_2 =>
    refine (hparts.value himage _).bind fun base => ?_
    refine (mapValues_steady hparts haddress).bind fun ids => ?_
    refine (mapValues_steady hparts hvalues).bind_yields (Yields.mapM_length _ _) fun texel htexel => ?_
    rw [splitAt_eq]
    have hknown : ∀ v ∈ base :: ids ++ texel, .value v ∈
        texel.map Known.value ++ (ids.map Known.value ++ ([Known.value base] ++ need)) := by
      intro v hv
      simp only [cons_append, mem_cons, mem_append] at hv
      rcases hv with rfl | hv | hv <;> simp [*]
    split
    case h_1 => exact gained_steady passes (emit_steady hL rfl _ (by simp))
    case h_2 =>
      refine gained_steady passes (emitTaking_steady hL rfl _ fun v hv => ?_)
      rw [← append_nil (base :: ids.take 1)] at hv
      have hmem := mem_values_sampled [] rfl hv
      rw [append_nil] at hmem
      exact hknown v (mem_append_left _ hmem)
    case h_3 =>
      refine (emitEffect_steady hL rfl fun v hv => hknown v ?_).bind fun _ => noResult_steady hL (hpasses rfl)
      have harity : ImageAccess.arity .store config.addressLength = 2 + config.addressLength := rfl
      have hone : texel.length = 1 := by
        rw [htexel, length_drop, length_tail, hcount, harity]
        omega
      refine mem_values_sampled texel ?_ hv
      rw [hone]
      rfl
    case h_4 => exact gained_steady passes (emit_steady hL rfl _ (by simp))

omit hL in
theorem announced_steady (hparts : parts.Steady T L) (multisampled : Bool) :
    ∀ (operands : List ImageOperand) (args : List Expr), (∀ a ∈ args, a.Operable T) →
      ∀ need, Steady L need (announced parts multisampled operands args)
        (fun entries => entries.flatMap (·.2.map .value))
  | [], _, _, _ => Steady.pure _ (by simp)
  | operand :: operands, args, hargs, _ => by
    obtain ⟨hown, hrest⟩ := forall_mem_split hargs operand.arity
    refine (mapValues_steady hparts hown).bind fun ids => ?_
    refine (announced_steady hparts multisampled operands _ hrest _).bind fun rest => Steady.pure _ fun k hk => ?_
    simp only [flatMap_cons, mem_append] at hk ⊢
    tauto

omit hL in
theorem announced_length (multisampled : Bool) : ∀ (operands : List ImageOperand) (args : List Expr),
      (announced parts multisampled operands args).Yields (·.length = operands.length)
  | [], _ => .pure rfl
  | operand :: operands, args => by
    refine .bind fun ids => ?_
    intro s entries s' h
    obtain ⟨rest, t, hrest, h⟩ := bind_ok h
    obtain ⟨rfl, -⟩ := pure_ok h
    exact congrArg (· + 1) (announced_length multisampled operands _ _ _ _ hrest)

omit hL in
theorem maskedOperands_cases (entries : List (Word × List Id)) :
    maskedOperands entries = [] ∨ entries ≠ [] ∧ ∃ mask ids, maskedOperands entries = mask :: ids ∧
      ∀ v ∈ ids, .value v ∈ entries.flatMap (·.2.map Known.value) := by
  unfold maskedOperands
  split
  · exact .inl rfl
  case isFalse hempty =>
    refine .inr ⟨by simpa using hempty, _, _, rfl, fun v hv => ?_⟩
    obtain ⟨entry, hentry, hv⟩ := mem_flatMap.1 hv
    rw [(foldl_insertByBit_perm entries []).mem_iff, append_nil] at hentry
    exact mem_flatMap.2 ⟨entry, hentry, mem_map_of_mem hv⟩

theorem textureHandle_steady (hparts : parts.Steady T L) (form : TextureForm) {image : Expr}
    (himage : image.Operable T) :
    Supplies L need (textureHandle parts form image) := by
  refine (hparts.value himage _).bind fun id => ?_
  split
  case h_1 config _ hty =>
    have : (Ty.image config).Allowed T.doubles := ⟨(hty ▸ himage.meets.ty).allowed⟩
    exact emit_steady hL rfl _ (by simp)
  case h_2 => exact Steady.pure _ (by simp)

theorem textureAccess_steady (hparts : parts.Steady T L) (access : TextureAccess) (hargs : ∀ a ∈ args, a.Operable T)
    (ty : Ty) [ty.Allowed T.doubles] : Supplies L need (textureAccess parts access args ty) := by
  refine (imageArg_steady _ _).bind_yields (imageArg_mem _ _) fun p hp => ?_
  obtain ⟨image, config⟩ := p
  refine checkCount_bind_steady fun hcount => ?_
  refine (textureHandle_steady hL hparts _ (hargs image hp.1)).bind fun handle => ?_
  rw [splitAt_eq]
  obtain ⟨hfixed, hoptional⟩ := forall_mem_split (fun a ha => hargs a (mem_of_mem_tail ha)) access.form.fixed
  refine (mapValues_steady hparts hfixed).bind_yields (Yields.mapM_length _ _) fun ids hids => ?_
  have hlength : ids.length = access.form.fixed := by
    rw [hids, length_take, length_tail, hcount]
    omega
  refine (announced_steady hparts _ _ _ hoptional _).bind_yields (announced_length _ _ _) fun entries hentries => ?_
  refine emitTaking_steady hL access.form_isPlain _ fun v hv => ?_
  have hmem : ∀ v ∈ handle :: ids, .value v ∈ entries.flatMap (·.2.map Known.value) ++
      (ids.map Known.value ++ ([Known.value handle] ++ ([] ++ need))) := by
    intro v hv
    rcases mem_cons.1 hv with rfl | hv <;> simp [*]
  rcases maskedOperands_cases entries with hnone | ⟨hsome, mask, announced, hmask, hannounced⟩
  · rw [hnone, append_nil] at hv
    exact hmem v (Op.values_subset _ hv)
  · rcases access.form_mask with hform | hform
    · -- Without operands there are no entries, so that nothing is announced.
      rw [TextureForm.operandsFor, hform] at hentries
      exact absurd (length_eq_zero_iff.1 hentries) hsome
    · rw [hmask] at hv
      have hplace : access.form.op.takesValue (handle :: ids).length = false := by
        rw [length_cons, hlength, Nat.add_comm]
        exact hform
      rcases mem_append.1 (Op.mem_of_mem_values_around _ hplace hv) with hv | hv
      · exact hmem v hv
      · exact mem_append_left _ (hannounced v hv)

theorem placeEntity_steady (ty : Ty) [ty.Allowed T.doubles] [p.ty.Allowed T.doubles]
    (hp : p.entity.known ⊆ need) : Steady L need (placeEntity ty p) Entity.known := by
  unfold placeEntity
  split
  · exact .pure _ hp
  · exact bind_value_steady hL _ (readPlace_steady hL hp)

theorem chain_steady (hparts : parts.Steady T L) (he : e.Meets T) : Steady L need (chain parts e) Entity.known :=
  have := he.ty
  (place_steady hL hparts he).bind_yields (place_allowed he) fun _ _ => placeEntity_steady hL _ (subset_append_left _ _)

theorem swizzleValue_steady (hparts : parts.Steady T L) (ty : Ty) [ty.Allowed T.doubles] {outer : Expr}
    (houter : outer.Operable T) (s : Swizzle) : Supplies L need (swizzleValue parts ty outer s) := by
  refine (hparts.value houter _).bind fun vector => ?_
  split
  · exact Steady.pure _ (by simp)
  case h_2 hscalar _ =>
    have := houter.meets.ty
    rw [hscalar] at this
    exact splat_steady hL _ (by simp) _ _
  · exact emitExtract_steady hL _ (by simp) _
  · exact emitShuffle_steady hL _ (by simp) (by simp) _

theorem indexValue_steady (hparts : parts.Steady T L) (ty : Ty) [ty.Allowed T.doubles] {array index : Expr}
    (harray : array.Operable T) (hindex : index.Operable T) : Supplies L need (indexValue parts ty array index) := by
  have := harray.meets.ty
  refine (hparts.value harray _).bind fun whole => ?_
  split
  · exact emitExtract_steady hL _ (by simp) _
  · refine (hparts.value hindex _).bind fun i => ?_
    split
    · exact emit_steady hL rfl _ (by simp)
    · refine (spill_steady hL _ (by simp)).bind fun copy => ?_
      refine (declareType_steady hL _).bind fun element => ?_
      refine (declarePointer_steady hL _ _).bind fun pointerType => ?_
      refine accessChain_steady hL (by simp) (by simp) fun pointer => ?_
      refine (load_steady hL (by simp [Entity.known])).bind fun id => ?_
      refine (onModule_keeps fun s => releaseIntermediate_steady (hL.building s).toDeclaring _).bind fun _ => ?_
      exact Steady.pure _ (by simp)

/-! ## Operators -/

omit hL in
theorem operand_steady (hparts : parts.Steady T L) (he : e.Operable T) :
    Steady L need (operand parts e) (fun o => [.value o.id]) :=
  (hparts.value he _).bind fun _ => Steady.pure _ (by simp)

omit hL in
theorem operand_allowed (he : e.Operable T) : (operand parts e).Yields (·.ty.Allowed T.doubles) :=
  .bind fun _ => .pure he.meets.ty

theorem assign_steady (hparts : parts.Steady T L) (ty : Ty) [ty.Allowed T.doubles]
    (op : Option BinOp) {lhs rhs : Expr} (hlhs : lhs.Meets T) (hrhs : rhs.Operable T)
    (demand : Demand) : Steady L need (assign parts ty op lhs rhs demand) Entity.known := by
  have := hlhs.ty
  refine (placeToAssign_steady hL hparts hlhs).bind_yields (placeToAssign_allowed hlhs) fun p _ => ?_
  -- What is written is the result, unless a pointer to all of it is wanted.
  have hwrite : ∀ (need : List Known) (id : Id) (result : Lower Entity), p.entity.known ⊆ need →
      .value id ∈ need → result = pure p.entity ∨ result = value ty id →
      Steady L need (writePlace p id >>= fun _ => result) Entity.known := by
    rintro need id _ hp hid (rfl | rfl)
    · exact (writePlace_steady hL hp hid).bind fun _ => Steady.pure _ (by simpa using hp)
    · exact (writePlace_steady hL hp hid).bind fun _ => value_steady hL _ (by simpa using hid)
  cases op with
  | none =>
    refine (hparts.value hrhs _).bind fun id => hwrite _ id _ (fun k hk => ?_) (by simp) ?_
    · simp [hk]
    · split <;> simp
  | some op =>
    refine (readPlace_steady hL (subset_append_left _ _)).bind fun current => ?_
    refine (operand_steady hparts hrhs).bind_yields (operand_allowed hrhs) fun r _ => ?_
    refine (binary_steady hL _ (by simp) (by simp) _ _).bind fun id => hwrite _ id _ (fun k hk => ?_) (by simp) ?_
    · simp [hk]
    · split <;> simp

theorem init_steady (hparts : parts.Steady T L) (e : Expr) [e.ty.Allowed T.doubles] {v : Variable}
    [v.outermost.ty.Allowed T.doubles] (hv : v.NamedIn T.names) {initial : Expr} (hinitial : initial.Operable T)
    (demand : Demand) : Steady L need (init parts e v initial demand) Entity.known := by
  refine (resolve_steady hL hv).bind fun entity => ?_
  dsimp only
  split
  · exact .throw (hL.unassignable hinitial.meets.places _)
  · refine (hparts.value hinitial _).bind fun id => ?_
    refine (store_steady hL (by simp [Entity.known]) (by simp)).bind fun _ => ?_
    split
    · exact Steady.pure _ fun k hk => by simp [hk]
    · exact value_steady hL _ (by simp)

theorem step_steady (hparts : parts.Steady T L) (op : StepOp) {target : Expr}
    (htarget : target.Meets T) : Supplies L need (step parts op target) := by
  have := htarget.ty
  refine (placeToAssign_steady hL hparts htarget).bind_yields (placeToAssign_allowed htarget) fun p _ => ?_
  refine (readPlace_steady hL (subset_append_left _ _)).bind fun old => ?_
  split
  case h_1 one size hone _ =>
    obtain ⟨s, hs, hone⟩ := Option.bind_eq_some_iff.1 hone
    have : (Ty.scalar one.scalar).Allowed T.doubles := Literal.scalar_of_one? hone ▸ Ty.Allowed.scalar target.ty hs
    refine (declareLiteral_steady hL _).bind fun literal => ?_
    have hrest : ∀ (need : List Known) (one : Id), .value one ∈ need → .value old ∈ need →
        p.entity.known ⊆ need → Supplies L need (do
          let new ← binary (if op.isIncrement then .add else .sub) { ty := target.ty, id := old }
            { ty := target.ty, id := one, constant := true } target.ty false
          writePlace p new
          return if op.yieldsNew then new else old : Lower Id) := by
      intro need one hone hold hp
      refine (binary_steady hL _ hold hone _ _).bind fun new => ?_
      refine (writePlace_steady hL (fun k hk => by simp [hp hk]) (by simp)).bind fun _ => Steady.pure _ ?_
      split <;> simp [hold]
    dsimp only
    split
    · refine (splat_steady hL _ (by simp) _ _).bind fun one => hrest _ one (by simp) (by simp) fun k hk => ?_
      simp [hk]
    · refine (Steady.known (by simp)).bind fun one => hrest _ one (by simp) (by simp) fun k hk => ?_
      simp [hk]
  case h_2 => exact Keeps.refuse rfl

theorem choose_steady (ty : Ty) [ty.Allowed T.doubles] {c : Operand} (hc : .value c.id ∈ need)
    {onTrue onFalse : Id} (htrue : .value onTrue ∈ need) (hfalse : .value onFalse ∈ need)
    (fold : Bool) : Supplies L need (choose ty c onTrue onFalse fold) := by
  refine .get_bind fun s => ?_
  dsimp only
  split
  · exact (splat_steady hL _ hc _ _).bind (fun _ => emitOrDeclare_steady hL _ rfl _ (by simp [htrue, hfalse])) s
  · exact (Steady.known hc).bind (fun _ => emitOrDeclare_steady hL _ rfl _ (by simp [htrue, hfalse])) s

theorem select_steady (hparts : parts.Steady T L) (e : Expr) [e.ty.Allowed T.doubles] {c t f : Expr} (hc : c.Operable T)
    (ht : t.Operable T) (hf : f.Operable T) : Supplies L need (select parts e c t f) := by
  refine (operand_steady hparts hc).bind fun condition => ?_
  refine (hparts.value ht _).bind fun onTrue => ?_
  refine (hparts.value hf _).bind fun onFalse => ?_
  exact choose_steady hL e.ty (by simp) (by simp) (by simp) _

/-! ## Whole expressions -/

/-- One node keeps the ledger, if its parts do. -/
theorem node_steady (hparts : parts.Steady T L) (he : e.Meets T) (demand : Demand) :
    Steady L need (node parts e demand) (fun entity => gained (T.passes e) entity.known) := by
  have hoperand : ∀ o, o ∈ e.node.operands → o.Operable T := fun o ho => he.operand ho
  have := he.ty
  unfold node
  split
  case h_1 hnode =>
    have := he.node (by rw [hnode]; exact mem_cons_self)
    exact gained_steady _ (bind_value_steady hL _ (declareLiteral_steady hL _))
  case h_2 v hnode =>
    split
    · exact gained_steady _ (chain_steady hL hparts he)
    · have hv := Expr.Uses.self (by rw [hnode]; rfl)
      have := he.outermost hv
      exact gained_steady _ (resolve_steady hL (he.names v hv))
  case h_3 outer index hnode =>
    split
    · exact gained_steady _ (chain_steady hL hparts he)
    · have houter := hoperand outer (by simp [hnode, Node.operands])
      refine gained_steady _ ((hparts.value houter _).bind fun _ => ?_)
      exact bind_value_steady hL _ (emitExtract_steady hL _ (by simp) _)
  case h_4 array index hnode =>
    split
    · exact gained_steady _ (chain_steady hL hparts he)
    · refine gained_steady _ (bind_value_steady hL _ (indexValue_steady hL hparts _ (hoperand _ ?_) (hoperand _ ?_)))
      all_goals simp [hnode, Node.operands]
  case h_5 outer s hnode =>
    split
    · exact gained_steady _ (chain_steady hL hparts he)
    · have houter := hoperand outer (by simp [hnode, Node.operands])
      exact gained_steady _ (bind_value_steady hL _ (swizzleValue_steady hL hparts _ houter _))
  case h_6 op lhs rhs hnode =>
    have hlhs := hoperand lhs (by simp [hnode, Node.operands])
    have hrhs := hoperand rhs (by simp [hnode, Node.operands])
    exact gained_steady _ (assign_steady hL hparts _ _ hlhs.meets hrhs _)
  case h_7 v initial hnode =>
    have hinitial := hoperand initial (by simp [hnode, Node.operands])
    have hv := Expr.Uses.self (v := v) (by rw [hnode]; rfl)
    have := he.outermost hv
    exact gained_steady _ (init_steady hL hparts _ (he.names v hv) hinitial _)
  case h_8 op x hnode =>
    have hx := hoperand x (by simp [hnode, Node.operands])
    refine gained_steady _ ((operand_steady hparts hx).bind_yields (operand_allowed hx) fun _ _ => ?_)
    exact bind_value_steady hL _ (unary_steady hL _ (by simp) _)
  case h_9 op l r hnode =>
    have hl := hoperand l (by simp [hnode, Node.operands])
    have hr := hoperand r (by simp [hnode, Node.operands])
    refine gained_steady _ ((operand_steady hparts hl).bind_yields (operand_allowed hl) fun _ _ => ?_)
    refine (operand_steady hparts hr).bind_yields (operand_allowed hr) fun _ _ => ?_
    exact bind_value_steady hL _ (binary_steady hL _ (by simp) (by simp) _ _)
  case h_10 x hnode =>
    have hx := hoperand x (by simp [hnode, Node.operands])
    refine gained_steady _ ((operand_steady hparts hx).bind_yields (operand_allowed hx) fun _ _ => ?_)
    exact bind_value_steady hL _ (cast_steady hL (by simp) _)
  case h_11 op x hnode =>
    have hx := hoperand x (by simp [hnode, Node.operands])
    exact gained_steady _ (bind_value_steady hL _ (step_steady hL hparts _ hx.meets))
  case h_12 args hnode =>
    rw [hnode] at hoperand
    exact gained_steady _ (bind_value_steady hL _ (construct_steady hL hparts _ hoperand _))
  case h_13 func args hnode =>
    rw [hnode] at hoperand
    exact gained_steady _ (bind_value_steady hL _
      (call_steady hL hparts (he.calls e (.self e) func args hnode) (fun ret hret => he.node (by
        rw [hnode]; exact Option.mem_toList.2 hret)) hoperand))
  case h_14 f args hnode =>
    rw [hnode] at hoperand
    refine bind_gained_steady hL _ (intrinsic_steady hL hparts _ hoperand _ fun op hform h => ?_)
    simpa [Terms.passes, Expr.yields, hnode, Node.yields, hform] using h
  case h_15 access args hnode =>
    rw [hnode] at hoperand
    refine bind_gained_steady hL _ (imageAccess_steady hL hparts _ hoperand _ fun haccess h => ?_)
    simpa [Terms.passes, Expr.yields, hnode, Node.yields, haccess] using h
  case h_16 access args hnode =>
    rw [hnode] at hoperand
    exact gained_steady _ (bind_value_steady hL _ (textureAccess_steady hL hparts _ hoperand _))
  case h_17 c t f hnode =>
    refine gained_steady _ (bind_value_steady hL _ (select_steady hL hparts _ (hoperand c ?_)
      (hoperand t ?_) (hoperand f ?_)))
    all_goals simp [hnode, Node.operands]

omit hL in
theorem node_isValue (parts : Parts) (he : e.yields = false) (demand : Demand) :
    (node parts e demand).Yields (·.isValue) := by
  have hvalue : ∀ id, (value e.ty id).Yields (·.isValue) := fun _ => .bind fun _ => .pure rfl
  unfold node
  split
  case h_14 => exact .bind fun id => hvalue id
  case h_15 => exact .bind fun id => hvalue id
  all_goals
    rename_i hnode
    rw [Expr.yields, hnode] at he
    cases he

theorem partsOf_steady {entity : Expr → Demand → Lower Entity}
    (h : ∀ e demand need, e.Meets T → T.Reaches e → Steady L need (entity e demand)
      (fun entity => gained (T.passes e) entity.known)) : (partsOf entity).Steady T L where
  value {e} he need := by
    have hentity := h e .value need he.meets he.reaches
    rw [he.passes] at hentity
    exact Steady.bind hentity fun _ => load_steady hL (subset_append_left _ _)
  pointer {e} he need := by
    have hentity := h e .pointer need he.meets he.reaches
    rw [he.passes] at hentity
    refine Steady.bind hentity fun entity => ?_
    unfold pointerOf
    split
    · exact .throw (hL.unassignable he.meets.places _)
    · exact Steady.pure _ (by simp [gained, Entity.known])

omit hL in
theorem load_depth (e : Entity) (s : Lowerer) (depth : Nat) :
    load e { s with depth } = ((load e s).1, { (load e s).2 with depth }) := by
  unfold load
  split
  · rfl
  · unfold emitAs
    simp only [bind_apply, onModule]
    rcases freshId s.module with ⟨_ | id, m⟩ <;> rfl

section

variable {x : Lower α} {s : Lowerer}

omit hL

theorem nested_deep (h : s.module.config.nestingLimit ≤ s.depth) :
    nested x s = (.error (.refused (.tooDeep s.module.config.nestingLimit)), s) := if_pos h

theorem nested_eq (h : s.depth < s.module.config.nestingLimit) : nested x s = ((x { s with depth := s.depth + 1 }).1,
    { (x { s with depth := s.depth + 1 }).2 with depth := (x { s with depth := s.depth + 1 }).2.depth - 1 }) :=
  if_neg (Nat.not_le_of_lt h)

/-- At the limit nothing runs; below it, one level is counted in and out again. -/
theorem nested_cases {s' : Lowerer} {r : Except Fault α} (h : nested x s = (r, s')) :
    r = .error (.refused (.tooDeep s.module.config.nestingLimit)) ∧ s' = s ∨ s.depth < s.module.config.nestingLimit ∧
        ∃ t, x { s with depth := s.depth + 1 } = (r, t) ∧ s' = { t with depth := t.depth - 1 } := by
  rcases Nat.lt_or_ge s.depth s.module.config.nestingLimit with hlt | hge
  · rw [nested_eq hlt] at h
    obtain ⟨hresult, rfl⟩ := Prod.mk.inj h
    exact .inr ⟨hlt, _, Prod.ext hresult rfl, rfl⟩
  · rw [nested_deep hge] at h
    cases h
    exact .inl ⟨rfl, rfl⟩

theorem eq_of_nested {s' : Lowerer} {a : α} (h : nested x s = (.ok a, s')) :
    ∃ t, x { s with depth := s.depth + 1 } = (.ok a, t) ∧ s' = { t with depth := t.depth - 1 } := by
  rcases nested_cases h with ⟨hrefused, -⟩ | ⟨-, hrun⟩
  · cases hrefused
  · exact hrun

end

/-- What stands within an expression: the ledger, as it is when the expression is left. -/
def inner (L : Ledger Lowerer) : Ledger Lowerer where
  Stands held known s := L.Stands held known { s with depth := s.depth - 1 }
  Ends := L.Ends
  drop := L.drop
  ends := L.ends

omit hL in
/-- What stands one level deeper stands outside, if the refusal does too. -/
theorem nested_steady {x : Lower α} {gains : α → List Known} (h : Steady (inner L) need x gains)
    (hdeep : ∀ {held known} {s : Lowerer}, L.Stands held known s → s.module.config.nestingLimit ≤ s.depth →
      L.Ends (.refused (.tooDeep s.module.config.nestingLimit))) : Steady L need (nested x) gains := by
  intro s held known hneed hs
  rcases Nat.lt_or_ge s.depth s.module.config.nestingLimit with hlt | hge
  · have hx := h { s with depth := s.depth + 1 } held known hneed hs
    rw [nested_eq hlt]
    rcases hrun : x { s with depth := s.depth + 1 } with ⟨_ | a, t⟩ <;> rw [hrun] at hx <;> exact hx
  · rw [nested_deep hge]
    exact ⟨hdeep hs hge, hs⟩

theorem tracing_inner (hpos : ∀ n ∈ T.height, 0 < n) : Tracing T.below (inner L) where
  building s := hL.building { s with depth := s.depth - 1 }
  noResult hlenient hs := hL.noResult hlenient hs
  locals hs := hL.locals hs
  emit hs hnext hresult hinst := hL.emit hs hnext hresult { hinst with }
  effect hs hresult hinst := hL.effect hs hresult { hinst with }
  queue pointer hs := hL.queue pointer hs
  take pointer hs := hL.take pointer hs
  deep {_ _ s} hs hlimit := hL.deep (s := { s with depth := s.depth - 1 }) hs fun n hn => by
    have hlt : s.module.config.nestingLimit < s.depth + (n - 1) := hlimit _ (Option.mem_map_of_mem _ hn)
    have hn := hpos n hn
    show s.module.config.nestingLimit < s.depth - 1 + n
    omega
  unassignable := hL.unassignable

omit hL in
/-- By induction on the height, for all ledgers at once: within an expression it is another one. -/
theorem lowerWithin_steady {height : Nat} {demand : Demand} (hL : Tracing T L)
    (hheight : ∀ n ∈ T.height, n ≤ height) (he : e.Meets T) (hreaches : T.Reaches e) :
    Steady L need (lowerWithin height e demand) (fun entity => gained (T.passes e) entity.known) := by
  have hpos : ∀ n ∈ T.height, 0 < n := fun n hn => Nat.lt_of_lt_of_le e.height_pos (hreaches n hn)
  induction height generalizing T L e demand need with
  | zero =>
    refine fun s held known _ hs => ⟨hL.deep hs fun n hn => ?_, hs⟩
    exact absurd (hpos n hn) (Nat.not_lt_of_le (hheight n hn))
  | succ height ih =>
    have hinner := tracing_inner hL hpos
    refine nested_steady (node_steady hinner (partsOf_steady hinner fun o _ _ ho hreaches' => ih hinner ?_ ho
      hreaches' fun n hn => Nat.lt_of_lt_of_le o.height_pos (hreaches' n hn)) (he.below hreaches) demand) ?_
    · intro n hn
      obtain ⟨k, hk, rfl⟩ := Option.map_eq_some_iff.1 hn
      exact Nat.sub_le_of_le_add (hheight k hk)
    · exact fun hs hlimit => hL.deep hs fun n hn => Nat.lt_of_le_of_lt hlimit (Nat.lt_add_of_pos_right (hpos n hn))

omit hL in
theorem partsOf_lowerWithin_steady (hL : Tracing T L) {height : Nat}
    (hheight : ∀ n ∈ T.height, n ≤ height) : (partsOf (lowerWithin height)).Steady T L :=
  partsOf_steady hL fun _ _ _ => lowerWithin_steady hL hheight

omit hL in
/-- The parts of every height keep every ledger of lowering. -/
theorem partsOf_regular (height : Nat) : (partsOf (lowerWithin height)).Regular :=
  fun _ hL => partsOf_lowerWithin_steady hL nofun

omit hL in
theorem partsOf_visit_regular : (partsOf visit).Regular :=
  fun _ hL => partsOf_steady hL fun _ _ _ => lowerWithin_steady hL nofun

omit hL in
theorem lowerWithin_isValue (he : e.yields = false) (height : Nat) (demand : Demand) :
    (lowerWithin height e demand).Yields (·.isValue) := by
  intro s entity s' h
  cases height with
  | zero => cases h
  | succ height =>
    obtain ⟨t, hrun, -⟩ := eq_of_nested h
    exact node_isValue _ he demand _ _ _ hrun

theorem visit_steady (he : e.Meets T) (hheight : T.height = none) (demand : Demand) :
    Steady L need (visit e demand) (fun entity => gained (T.passes e) entity.known) :=
  lowerWithin_steady hL (by simp [hheight]) he (by simp [Terms.Reaches, hheight])

/-- Lowering to a value keeps each ledger whose steps lowering is made of. -/
theorem lower_steady (he : e.Meets T) (hheight : T.height = none) :
    Steady L need (lower e) (fun id => gained (T.passes e) [.value id]) := by
  have hvisit : Steady L need _ _ := visit_steady hL he hheight .value
  cases hpasses : T.passes e with
  | true =>
    rw [hpasses] at hvisit
    exact hvisit.bind fun _ => load_steady hL (subset_append_left _ _)
  | false =>
    refine hvisit.bind_yields (lowerWithin_isValue (Bool.or_eq_false_iff.1 hpasses).2 _ .value) fun entity hentity => ?_
    unfold load
    rw [if_pos (by simp [hentity])]
    exact Steady.pure _ (nil_subset _)

theorem lowerPointer_steady (he : e.Meets T) (hheight : T.height = none) :
    Steady L need (lowerPointer e) (fun id => gained (T.passes e) [.value id]) := by
  refine (visit_steady hL he hheight .pointer).bind fun entity => ?_
  unfold pointerOf
  split
  · exact Keeps.throw (hL.unassignable he.places _)
  · cases T.passes e <;> exact Steady.pure _ (by simp [gained, Entity.known])

end Lower

end Shader
