import Shader.Proofs.Appended
import Shader.Proofs.Values

/-!
# The law of access

Loads are of the type that their pointer points to, and paths lead to the type that declarations give
for them. Stores are another matter, since a value keeps the type that it had in its own storage; they
are asked about where an expression makes them itself.
-/

namespace Shader

open Action List

variable {Γ : Context} {Q : Lowerer → Prop} {e : Expr} {s : Lowerer} {parts : Parts} {p : Place} {path : Chain}

/-! ## What expressions store -/

namespace Lowerer

/-- A copy of the value of `e` has the same type as what `e` names. -/
def Copies (s : Lowerer) (e : Expr) : Prop := (e.setting s).Alike e.valueTy {} e.ty

/-- A computed value of the type can be written to what the expression names. -/
def Accepts (s : Lowerer) (e : Expr) (ty : Ty) : Prop := e.severalLanes ∨ Setting.Alike {} ty (e.setting s) e.ty

theorem Copies.accepts (h : s.Copies e) (hchain : e.isChain) : s.Accepts e e.ty := by
  cases hseveral : e.severalLanes with
  | true => exact .inl hseveral
  | false =>
    rw [Copies, Expr.valueTy_of_whole hchain hseveral] at h
    exact .inr h.symm

end Lowerer

/-- What the expression itself stores, apart from its operands, is of the type of what it is stored
in. -/
def Expr.StoresAlike (s : Lowerer) (e : Expr) : Prop :=
  match e.node with
  | .assign none lhs rhs => lhs.severalLanes ∨ (rhs.setting s).Alike rhs.valueTy (lhs.setting s) lhs.ty
  | .init v x => (x.setting s).Alike x.valueTy ⟨s.layoutOf v, none⟩ v.outermost.ty
  | .index array _ => e.isChain ∨ s.Copies array
  | .call func args =>
    match func.ty with
    | .function _ params => ∀ p ∈ params.zip args, p.1.isByReference → s.Copies p.2
    | _ => True
  | .intrinsic f args =>
    match f.form, args with
    | .extendedOutput _, [_, output] => s.Copies output
    | .carry _, [_, _, output] => s.Accepts output e.ty
    | .wideProduct _, [first, _, high, low] => s.Accepts high first.ty ∧ s.Accepts low first.ty
    | _, _ => True
  | _ => True

namespace Expr

theorem WellTyped.operand {o : Expr} (he : e.WellTyped) (ho : o ∈ e.node.operands) : o.WellTyped := by
  cases he with
  | literal | ident => cases ho
  | assign left right | compound _ left right | binary _ _ left right | index left right =>
    rcases mem_cons.1 ho with rfl | ho
    · exact left
    · exact mem_singleton.1 ho ▸ right
  | init _ operand | unary _ operand | cast _ operand | step _ operand | member operand
  | swizzle _ operand => exact mem_singleton.1 ho ▸ operand
  | construct _ operands | call operands | intrinsic _ _ operands | image _ _ operands
  | texture _ _ operands => exact operands o ho
  | select condition onTrue onFalse =>
    rcases mem_cons.1 ho with rfl | ho
    · exact condition
    · rcases mem_cons.1 ho with rfl | ho
      · exact onTrue
      · exact mem_singleton.1 ho ▸ onFalse

/-- All parts were checked and are on the context; where stores matter, they are well-typed and store
what fits. -/
structure Regular (Γ : Context) (Q : Lowerer → Prop) (e : Expr) : Prop where
  built : e.Built
  context : e.Over Γ
  stores : ∀ s, Q s → e.WellTyped ∧ ∀ part : Expr, part.Within e → part.StoresAlike s

theorem Regular.operand (h : e.Regular Γ Q) {o : Expr} (ho : o ∈ e.node.operands) : o.Regular Γ Q where
  built := h.built.operand ho
  context := h.context.operand ho
  stores s hs := ⟨(h.stores s hs).1.operand ho, fun part hpart => (h.stores s hs).2 part (.operand ho hpart)⟩

theorem Regular.within {part : Expr} (hpart : part.Within e) (h : e.Regular Γ Q) : part.Regular Γ Q := by
  induction hpart with
  | self => exact h
  | operand mem _ ih => exact ih (h.operand mem)

theorem Regular.storesAlike (h : e.Regular Γ Q) (hs : Q s) : e.StoresAlike s := (h.stores s hs).2 e (.self e)

end Expr

/-! ## The law of access -/

/-- What is stored is of the type that the pointer points to, if anything is. -/
def Inst.StoreFits (s : Lowerer) (inst : Inst) : Prop :=
  inst.op = .Store → ∃ pointer value storage pointee, inst.operands = [pointer, value] ∧
    s.pointeeOf? pointer = some (storage, pointee) ∧
    (value ≠ noResult → s.typeOf? value = some pointee)

/-- Later on, loads and paths are of the types of their pointers, and stores are where they matter. -/
def Law.access (Γ : Context) (Q : Lowerer → Prop) : Law where
  Holds s inst := s.Hence Γ fun t => inst.PointerTyped t ∧ (Q t → inst.StoreFits t)
  mono hs h := h.mono hs

theorem Law.access_allows {op : Op} (h : op ∉ [Op.Load, .AccessChain, .Store]) : (Law.access Γ Q).Allows op := by
  simp only [mem_cons, not_mem_nil, or_false, not_or] at h
  intro s inst hop t _ _
  refine ⟨⟨fun hload => absurd (hop.symm.trans hload) h.1, fun hchain => ?_⟩, fun _ hstore => ?_⟩
  · exact absurd (hop.symm.trans hchain) h.2.1
  · exact absurd (hop.symm.trans hstore) h.2.2

theorem Law.access_spares : (Law.access Γ Q).Spares := by
  intro op hop
  refine access_allows fun hmem => ?_
  simp only [mem_cons, not_mem_nil, or_false] at hmem
  rcases hmem with rfl | rfl | rfl <;> cases hop

theorem Law.access_allows_engaging {op : Op} (h : op.engages) : (Law.access Γ Q).Allows op := by
  refine access_allows fun hmem => ?_
  simp only [mem_cons, not_mem_nil, or_false] at hmem
  rcases hmem with rfl | rfl | rfl <;> cases h

/-- If it is anything, the value is of the type of what the expression names, so long as stores
matter. -/
def Lowerer.Suits (Γ : Context) (Q : Lowerer → Prop) (s : Lowerer) (value : Id) (e : Expr) : Prop :=
  s.Hence Γ fun t => Q t → value ≠ noResult → e.severalLanes ∨ ∀ type, t.FindsFor e type → t.Types value type

/-- If it is anything, the value is of the type that stands in no layout, so long as stores matter. -/
def Lowerer.SuitsCopy (Γ : Context) (Q : Lowerer → Prop) (s : Lowerer) (value : Id) (ty : Ty) :
    Prop :=
  s.Hence Γ fun t => Q t → value ≠ noResult → ∀ type, t.module.Finds none none ty type → t.Types value type

namespace Lowerer

variable {s' : Lowerer} {value : Id}

theorem Provides.suits {x : Expr} (h : s.Provides Γ x value)
    (halike : ∀ t, Q t → e.severalLanes ∨ (x.setting t).Alike x.valueTy (e.setting t) e.ty) : s.Suits Γ Q value e := by
  refine Hence.imp h fun t _ ht hQ hvalue => (halike t hQ).imp_right fun halike type hfinds => ?_
  obtain ⟨own, hown, htypes⟩ := ht hvalue
  exact halike.finds_unique hown hfinds ▸ htypes

theorem Yields.suits {ty : Ty} (h : s.Yields Γ ty value) (haccepts : ∀ t, Q t → t.Accepts e ty) :
    s.Suits Γ Q value e := by
  intro t ht hconsistent hQ hvalue
  refine (haccepts t hQ).imp_right fun halike type hfinds => ?_
  obtain ⟨own, hown, htypes⟩ := h ht hconsistent hvalue
  exact halike.finds_unique hown hfinds ▸ htypes

theorem Provides.suitsCopy (h : s.Provides Γ e value) (hcopies : ∀ t, Q t → t.Copies e) :
    s.SuitsCopy Γ Q value e.ty := by
  refine Hence.imp h fun t _ ht hQ hvalue type hfinds => ?_
  obtain ⟨own, hown, htypes⟩ := ht hvalue
  exact (hcopies t hQ).finds_unique hown hfinds ▸ htypes

end Lowerer

namespace Lower

theorem load_obeysAt {e : Entity} (he : s.PointsTo Γ e) : ObeysAt (.access Γ Q) (load e) s := by
  unfold load
  split
  · exact Obeys.pure _ s
  case isFalse hpointer =>
    obtain ⟨storage, hstorage⟩ : ∃ storage, e.storage = some storage := by
      cases hs : e.storage with
      | none => simp [Entity.isValue, hs] at hpointer
      | some storage => exact ⟨storage, rfl⟩
    refine emitAs_obeysAt fun t id ht u hu hconsistent => ⟨?_, fun _ hop => by cases hop⟩
    exact hconsistent.load_typed (he storage hstorage (ht.trans hu) hconsistent) id

theorem store_obeysAt {pointer value type : Id} {storage : StorageClass}
    (hpointer : s.Hence Γ fun t => t.Points pointer storage type)
    (hvalue : s.Hence Γ fun t => Q t → value ≠ noResult → t.Types value type) :
    ObeysAt (.access Γ Q) (store pointer value) s := by
  refine push_obeysAt fun t ht hconsistent => ?_
  have hlater := (Extending.push (.effect .Store [pointer, value]) rfl).trans ht
  refine ⟨⟨nofun, nofun⟩, fun hQ _ => ⟨pointer, value, Enumerated.number storage, type, rfl, ?_, fun hne => ?_⟩⟩
  · exact hconsistent.pointeeOf? (hpointer hlater hconsistent)
  · exact Lowerer.Typed.typeOf? (.inl (hvalue hlater hconsistent hQ hne)) hconsistent.final

theorem spill_obeysAt {ty : Ty} {value : Id} (hvalue : s.SuitsCopy Γ Q value ty) :
    ObeysAt (.access Γ Q) (spill ty value) s := by
  refine (temp_obeys ty s).bind fun copy t htemp => ?_
  obtain ⟨type, hfinds, hpoints⟩ := temp_points ty s copy t htemp
  have hlater := (temp_obeys (W := .access Γ Q) ty s htemp).later
  refine (store_obeysAt (fun u hu _ => hpoints.mono hu) fun u hu hconsistent hQ hne => ?_).bind
    fun _ u _ => Obeys.pure _ u
  exact hvalue (hlater.trans hu) hconsistent hQ hne type (hfinds.mono hu.module.toRetains)

/-! ## Paths and places -/

theorem pathBase_obeysAt {v : Variable} {root : Entity} (hroot : s.Hence Γ fun t => t.Denotes v root)
    (hv : v.outermost = v) : ObeysAt (.access Γ Q) (pathBase v root) s := by
  unfold pathBase
  split
  · exact Obeys.pure _ s
  case isFalse hpointer =>
    have hnone : root.storage = none := by simpa [Entity.isPointer] using hpointer
    have hlayout : root.layout? = none := by rw [Entity.layout?, hnone, Option.bind_none]
    refine (spill_obeysAt fun t ht hconsistent _ _ type hfinds => ?_).bind fun copy t _ =>
      ((declareType_obeys v.ty).bind fun _ => .pure _) t
    have hdenotes := hroot ht hconsistent
    have hown := hdenotes.finds
    rw [hv, hlayout] at hown
    rw [hfinds.unique hown]
    exact hdenotes.value (by simp [Entity.isValue, hnone])

end Lower

theorem Chain.push_index {path' : Chain} {step : Step} {i : Expr} (h : path.push step = .ok path')
    (hi : .index i ∈ path'.steps) : .index i ∈ path.steps ∨ step = .index i := by
  unfold push at h
  split at h
  · split at h
    · cases h
      rcases mem_append.1 hi with hi | hi
      · exact .inl (dropLast_subset _ hi)
      · simp at hi
    · cases h
  · cases h
    rcases mem_append.1 hi with hi | hi
    · exact .inl hi
    · exact .inr (mem_singleton.1 hi).symm

theorem Chain.ofExpr_index {i : Expr} (h : ofExpr e = .ok path) (hi : .index i ∈ path.steps) : i.Within e := by
  fun_induction ofExpr e generalizing path with
  | case1 ty v =>
    cases h
    exact absurd hi (ofVariable_index i v)
  | case2 ty outer index ih | case4 ty outer swizzle ih =>
    obtain ⟨inner, hinner, hpush⟩ := exists_push h
    rcases push_index hpush hi with hi | hi
    · exact .operand (by simp [Node.operands]) (ih hinner hi)
    · cases hi
  | case3 ty array index ih =>
    obtain ⟨inner, hinner, hpush⟩ := exists_push h
    rcases push_index hpush hi with hi | hi
    · exact .operand (by simp [Node.operands]) (ih hinner hi)
    · cases hi
      exact .operand (by simp [Node.operands]) (.self _)
  | case5 => cases h

theorem Place.Aims.mono {t : Lowerer} (h : p.Aims Γ s e) (hs : s.Extends t) : p.Aims Γ t e where
  isChain := h.isChain
  points := h.points.mono hs
  value he := (h.value he).mono hs
  whole hnone := (h.whole hnone).mono hs
  lanes := h.lanes
  shuffled := h.shuffled
  assignable := h.assignable

/-- Parts that carry values and keep to the law of access on expressions that are regular. -/
structure Parts.Lawful (Γ : Context) (Q : Lowerer → Prop) (parts : Parts) : Prop extends parts.Carried Γ where
  obeys : ∀ {e : Expr}, e.Regular Γ Q → Lower.Obeys (.access Γ Q) (parts.value e)
  pointer_obeys : ∀ {e : Expr}, e.Regular Γ Q → Lower.Obeys (.access Γ Q) (parts.pointer e)

namespace Lower

section

variable (hparts : parts.Lawful Γ Q)

include hparts

theorem walk_obeys {step : Step} (hstep : ∀ i, step = .index i → i.Regular Γ Q) (w : Walk) :
    Obeys (.access Γ Q) (walk parts w step) := by
  cases step with
  | member index name => exact walkMember_obeys w index name
  | swizzle sw => exact walkSwizzle_obeys w sw
  | index i =>
    show Obeys _ (walkIndex parts w i)
    unfold walkIndex
    split
    · exact .refuse _
    · exact (hparts.obeys (hstep i rfl)).bind fun _ => .pure _

theorem walkAll_obeys : ∀ {steps : List Step} (_ : ∀ i, .index i ∈ steps → i.Regular Γ Q) (w : Walk),
    Obeys (.access Γ Q) (steps.foldlM (walk parts) w)
  | [], _, w => .pure w
  | _ :: _, h, w =>
    (walk_obeys hparts (fun i hi => h i (hi ▸ mem_cons_self)) w).bind fun w' =>
      walkAll_obeys (fun i hi => h i (mem_cons_of_mem _ hi)) w'

theorem follow_obeysAt (he : e.Regular Γ Q) (hchain : e.isChain) (hpath : Chain.ofExpr e = .ok path)
    {root base : Entity} {storage : StorageClass} (hstorage : base.storage = some storage)
    (hlayout : storage.layout? = root.layout?)
    (hbase : s.Hence Γ fun t => t.Points base.id storage base.type ∧ t.module.Finds root.layout?
      none path.head.ty base.type) : ObeysAt (.access Γ Q) (follow parts path root base) s := by
  have hindices : ∀ i, .index i ∈ path.steps → i.Regular Γ Q := fun i hi => he.within (Chain.ofExpr_index hpath hi)
  unfold follow
  rw [hstorage]
  refine (walkAll_obeys hparts hindices _ s).bind fun w t hwalk => ?_
  have hextends := (walkAll_obeys hparts hindices _ s hwalk).later
  have hstart : Walk.Leads Γ s base.type { ty := path.head.ty, layout := storage.layout?, anchor := root.id } :=
    hbase.imp fun u _ hu => ⟨base.type, rfl, hlayout ▸ hu.2⟩
  obtain ⟨hw, -, -⟩ := walkPath_leads hparts.steady he.built hchain hpath rfl rfl hstart hwalk
  split
  · exact Obeys.pure _ t
  · have hwith : Obeys (.access Γ Q) (onModule (Module.declareTypeWith w.layout w.stride w.ty)) :=
      .declaring [] fun _ hJ => Module.declareTypeWith_steady hJ _ _ _ _
    refine (hwith t).bind fun type t₁ htype => ?_
    refine (declarePointer_obeys type storage t₁).bind fun pointer t₂ hpointer => ?_
    refine (takeIntermediate_obeys t₂).bind fun id t₃ hid => ?_
    refine (push_obeysAt fun u hu hconsistent => ⟨?_, fun _ hop => by cases hop⟩).bind fun _ t₄ _ => Obeys.pure _ t₄
    have hpushed := (takeIntermediate_obeys (W := .access Γ Q) t₂ hid).later.trans
      ((Extending.push (.value .AccessChain pointer id (base.id :: w.indices)) rfl).trans hu)
    have hdeclared := (declarePointer_obeys (W := .access Γ Q) type storage t₁ hpointer).later.trans hpushed
    have hlater := (hwith t htype).later.trans hdeclared
    obtain ⟨reached, hreach, hfinds⟩ := hw hlater hconsistent
    obtain rfl : reached = type := hfinds.unique
      ((Module.finds_of_ok (onModule_ok htype).1).mono hdeclared.module.toRetains)
    exact hconsistent.accessChain_typed (hbase (hextends.trans hlater) hconsistent).1 hreach
      (hpushed.module.toRetains.pointers _ _ (Module.declarePointer_ok (onModule_ok hpointer).1)) id

theorem place_obeys (he : e.Regular Γ Q) : Obeys (.access Γ Q) (place parts e) := by
  unfold place
  split
  · exact (resolve_obeys _).bind fun _ => .pure _
  · split
    case isTrue hchain =>
      split
      · exact .refuse _
      case h_2 path hpath =>
        obtain ⟨houtermost, hcontext⟩ := he.context.head hpath
        intro s
        refine (resolve_obeys path.head s).bind fun root s₁ hresolve => ?_
        have hroot := resolve_denotes hcontext s root s₁ hresolve
        refine (pathBase_obeysAt hroot houtermost).bind fun base s₂ hbase => ?_
        obtain ⟨storage, hstorage, hlayout, hleads⟩ := pathBase_leads hroot houtermost hbase
        exact follow_obeysAt hparts he hchain hpath hstorage hlayout hleads
    case isFalse => exact .refuse _

theorem placeToAssign_obeys (he : e.Regular Γ Q) : Obeys (.access Γ Q) (placeToAssign parts e) := by
  refine (place_obeys hparts he).bind fun p => ?_
  split
  · exact .refuse_bind _ _
  · exact .pure _

end

theorem place_provides (hparts : parts.Carried Γ) (he : e.Built) (hover : e.Over Γ)
    {t u v : Lowerer} {id : Id} (hplace : place parts e s = (.ok p, t)) (hlater : t.Extends u)
    (hread : readPlace p u = (.ok id, v)) : v.Provides Γ e id :=
  readPlace_provides (he e (.self e)) ((place_aims hparts.steady he hover s p t hplace).mono hlater) hread

/-! ## Reading and writing -/

theorem readPlace_obeysAt (hp : s.PointsTo Γ p.entity) : ObeysAt (.access Γ Q) (readPlace p) s := by
  refine (load_obeysAt hp).bind fun value t _ => ?_
  split
  · exact Obeys.pure _ t
  · exact emit_obeys (Law.access_spares _ rfl) _ _ t

theorem value_points (ty : Ty) (id : Id) : (value ty id).Ensures fun entity s => s.PointsTo Γ entity :=
  .bind fun _ => .pure fun _ => Lowerer.pointsTo_value

theorem writePlace_obeysAt {value : Id} (hp : p.Aims Γ s e) (hpointer : p.entity.isPointer)
    (hvalue : s.Suits Γ Q value e) : ObeysAt (.access Γ Q) (writePlace p value) s := by
  obtain ⟨storage, hstorage⟩ := Option.isSome_iff_exists.1 hpointer
  have hpoints := hp.points storage hstorage
  have hlanes := hp.lanes
  unfold writePlace
  split
  case h_1 hnone =>
    rw [hnone] at hlanes
    refine store_obeysAt hpoints fun t ht hconsistent hQ hne => ?_
    rcases hvalue ht hconsistent hQ hne with hseveral | hsuits
    · rw [hseveral] at hlanes
      cases hlanes
    · exact hsuits _ (hp.whole hnone ht hconsistent)
  case h_2 sw hsome =>
    -- all of the vector is written back, with the type that it was read with
    refine (load_obeysAt hp.points).bind fun vector t hload => ?_
    refine (Obeys.checked _ t).bind fun mask t₁ hmask => ?_
    have hshuffle : Obeys (.access Γ Q) (emitAs .VectorShuffle p.entity.type ([vector, value] ++ mask)) :=
      emitAs_obeys (Law.access_spares _ rfl) _ _
    refine (hshuffle t₁).bind fun merged t₂ hmerged => ?_
    have hlater := ((load_obeysAt (Q := Q) hp.points hload).later.trans
      (Obeys.checked (W := .access Γ Q) _ t hmask).later).trans (hshuffle t₁ hmerged).later
    refine store_obeysAt (hpoints.mono hlater) fun u hu _ _ _ => ?_
    exact (emitAs_types _ _ _ t₁ merged t₂ hmerged).mono hu

theorem chain_obeys (hparts : parts.Lawful Γ Q) (he : e.Regular Γ Q) : Obeys (.access Γ Q) (chain parts e) := by
  intro s
  refine (place_obeys hparts he s).bind fun p t hplace => ?_
  unfold placeEntity
  split
  · exact Obeys.pure _ t
  · have hp := place_aims hparts.steady he.built he.context s p t hplace
    exact (readPlace_obeysAt hp.points).bind fun id u _ => value_obeys _ id u

theorem chain_points (hsteady : parts.Regular) (he : e.Built) (hover : e.Over Γ) :
    (chain parts e).Ensures fun entity s => s.PointsTo Γ entity := by
  intro s entity s' h
  obtain ⟨p, t, hplace, h⟩ := bind_ok h
  unfold placeEntity at h
  cases hswizzle : p.swizzle with
  | none =>
    rw [hswizzle] at h
    obtain ⟨rfl, rfl⟩ := pure_ok h
    exact (place_aims hsteady he hover s p _ hplace).points
  | some sw =>
    rw [hswizzle] at h
    obtain ⟨id, u, -, h⟩ := bind_ok h
    exact value_points _ _ u entity s' h

end Lower

end Shader
