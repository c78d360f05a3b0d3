import Mathlib.Algebra.Group.Nat.Defs
import Shader.Proofs.Operators

/-!
# What places mean

A target is a local variable, one lane of it or several. One lane has a pointer of its own; several are
read and written by shuffling the whole vector.
-/

namespace Shader

open List Module Swizzle
open Literal (atom)

variable {s : Swizzle} {part : Components}

/-! ## Shuffles -/

/-- Picks atoms from two vectors in a row. -/
def shuffle? (both : List Atom) (mask : List Word) : Option (List Atom) := mask.mapM fun lane => both[lane.toNat]?

theorem mapM_set {α β : Type} {f : α → Option β} {l : List α} {l' : List β} {a : α} {b : β} (h : l.mapM f = some l')
    (ha : f a = some b) (i : Nat) : (l.set i a).mapM f = some (l'.set i b) := by
  induction l generalizing l' i with
  | nil =>
    cases h
    rfl
  | cons x l ih =>
    rw [mapM_cons] at h
    obtain ⟨y, hy, h⟩ := Option.bind_eq_some_iff.1 h
    obtain ⟨l'', hl, h⟩ := Option.bind_eq_some_iff.1 h
    cases h
    cases i with
    | zero =>
      rw [set_cons_zero, mapM_cons, ha, hl]
      rfl
    | succ i =>
      rw [set_cons_succ, mapM_cons, hy, ih hl]
      rfl

namespace Swizzle

variable {whole : List Atom}

theorem shuffle_writeLanes {part : List Atom} {size : Word} (hsize : size.toNat = whole.length) :
    ∀ (lanes : List (Fin 4)) {i : Word} {mask mask' : List Word} {w : List Atom},
      shuffle? (whole ++ part) mask = some w → i.toNat + lanes.length < 2 ^ 32 →
      i.toNat + lanes.length ≤ part.length → (∀ lane ∈ lanes, lane.val < mask.length) →
      writeLanes size i lanes mask = .ok mask' →
      shuffle? (whole ++ part) mask' = some ((lanes.zip (part.drop i.toNat)).foldl (fun w p => w.set p.1.val p.2) w)
  | [], i, mask, mask', w, hw, _, _, _, h => by
    cases h
    exact hw
  | lane :: lanes, i, mask, mask', w, hw, hbound, hlength, hlanes, h => by
    rw [length_cons] at hbound hlength
    rw [writeLanes, if_pos (hlanes lane mem_cons_self)] at h
    cases hadd : Word.add size i with
    | error o =>
      rw [hadd] at h
      cases h
    | ok k =>
      rw [hadd] at h
      have hk : k.toNat = whole.length + i.toNat := hsize ▸ Word.add_ok hadd
      have hi : i.toNat < part.length := by omega
      have hnext : (i + 1).toNat = i.toNat + 1 := by
        rw [UInt32.toNat_add, UInt32.toNat_one, Nat.mod_eq_of_lt (by omega)]
      have hat : (whole ++ part)[k.toNat]? = some part[i.toNat] := by
        rw [hk, getElem?_append_right (Nat.le_add_right _ _), Nat.add_sub_cancel_left, getElem?_eq_getElem hi]
      rw [← getElem_cons_drop hi, ← hnext]
      refine shuffle_writeLanes hsize lanes (mapM_set hw hat lane.val) (by omega) (by omega) ?_ h
      rw [length_set]
      exact fun lane hlane => hlanes lane (mem_cons_of_mem _ hlane)

theorem shuffle_range (part : List Atom) (h : whole.length ≤ 4) :
    shuffle? (whole ++ part) ((range whole.length).map (·.toUInt32)) = some whole := by
  match whole, h with
  | [], _ | [_], _ | [_, _], _ | [_, _, _], _ | [_, _, _, _], _ => rfl

theorem shuffle_writeMask {part : List Atom} {size : Word} {mask : List Word}
    (hsize : size.toNat = whole.length) (hfour : whole.length ≤ 4) (hpart : part.length = s.length)
    (hlanes : ∀ lane ∈ s.lanes, lane.val < whole.length) (h : s.writeMask size = .ok mask) :
    shuffle? (whole ++ part) mask = some ((s.lanes.zip part).foldl (fun w p => w.set p.1.val p.2) whole) := by
  have hmask : (range (min size.toNat 4)).map (·.toUInt32) = (range whole.length).map (·.toUInt32) := by
    rw [hsize, Nat.min_eq_left hfour]
  rw [writeMask, hmask] at h
  have hlength : s.lanes.length ≤ 4 := s.atMostFour
  refine shuffle_writeLanes hsize s.lanes (shuffle_range part hfour) ?_ ?_ ?_ h
  · simp only [UInt32.toNat_zero]
    omega
  · rw [UInt32.toNat_zero, Nat.zero_add]
    exact Nat.le_of_eq hpart.symm
  · simpa using hlanes

theorem map_write (s : Swizzle) (whole part : Components) : (s.write whole part).map atom =
      (s.lanes.zip (part.map atom)).foldl (fun w p => w.set p.1.val p.2) (whole.map atom) := by
  have hzip : s.lanes.zip (part.map atom) = (s.lanes.zip part).map fun p => (p.1, p.2.atom) := by
    rw [zip_map_right]
    rfl
  rw [write, hzip]
  generalize s.lanes.zip part = ps
  induction ps generalizing whole with
  | nil => rfl
  | cons p ps ih => rw [map_cons, foldl_cons, foldl_cons, ih, map_set]

end Swizzle

/-! ## Places of targets -/

/-- The place of a target: a pointer to a variable or a lane, or to a variable of which several lanes
are meant. -/
inductive PlaceOf (Γ : String → Ty) (p : Place) : Expr → String → Option Word → Prop where
  | whole {name : String} {roles : Roles} (swizzle : p.swizzle = none) :
      PlaceOf Γ p ⟨Γ name, .ident (.root name (Γ name) roles)⟩ name none
  | lane {name : String} {roles : Roles} {scalar : Scalar} {s : Swizzle} {lane : Fin 4}
      (swizzle : p.swizzle = none) (lanes : s.lanes = [lane]) :
      PlaceOf Γ p ⟨s.typeOf scalar, .swizzle ⟨Γ name, .ident (.root name (Γ name) roles)⟩ s⟩ name
        (some lane.val.toUInt32)
  | lanes {name : String} {roles : Roles} {scalar : Scalar} {n : Word} {s : Swizzle}
      (swizzle : p.swizzle = some s) (ty : p.ty = Γ name) (isVector : Γ name = .vector scalar n)
      (isDiscrete : (Γ name).isDiscrete) (lanes : ∀ lane ∈ s.lanes, lane.val < n.toNat) :
      PlaceOf Γ p ⟨s.typeOf scalar, .swizzle ⟨Γ name, .ident (.root name (Γ name) roles)⟩ s⟩ name none

theorem toNat_lane (lane : Fin 4) : lane.val.toUInt32.toNat = lane.val :=
  UInt32.toNat_ofNat_of_lt' (Nat.lt_trans lane.isLt (by decide))

theorem Swizzle.shuffle_read? {whole : Components} (h : s.read? whole = some part) (more : List Atom) :
    shuffle? (whole.map atom ++ more) s.components = some (part.map atom) := by
  refine mapM_map h fun lane _ l hl => ?_
  have hat : (whole.map atom)[lane.val]? = some l.atom := by
    rw [getElem?_map, hl]
    rfl
  rw [toNat_lane, List.getElem?_append_left (List.getElem?_eq_some_iff.1 hat).1]
  exact hat

theorem Swizzle.read?_single {lane : Fin 4} {whole : Components} (hlanes : s.lanes = [lane])
    (h : s.read? whole = some part) : ∃ l, whole[lane.val]? = some l ∧ part = [l] := by
  rw [read?, hlanes, mapM_cons] at h
  obtain ⟨l, hl, h⟩ := Option.bind_eq_some_iff.1 h
  cases h
  exact ⟨l, hl, rfl⟩

theorem Expr.read?_of_evaluate? {device : Device} {ty ty' : Ty} {v : Variable} {st st' : Store}
    (h : Expr.evaluate? device ⟨ty, .swizzle ⟨ty', .ident v⟩ s⟩ st = some (part, st')) :
    s.read? (st v.name) = some part := by
  obtain ⟨part', hpart, h⟩ := Option.bind_eq_some_iff.1 (show (s.read? (st v.name)).bind _ = _ from h)
  cases h
  exact hpart

namespace Lower

variable {names : List String} {device : Device} {known : List Fact} {st st' : Store}
  {Γ : String → Ty} {p : Place} {e : Expr} {name : String} {lane : Option Word}

/-- Reading a place yields the value of the expression that it is the place of. -/
theorem readPlace_means (h : PlaceOf Γ p e name lane) (hstorage : p.entity.storage = some .Function)
    (hpoints : .points p.entity.id name lane ∈ known) {v : Components} (hv : e.evaluate? device st = some (v, st)) :
    Computes names device known st (readPlace p) v st := by
  cases h with
  | whole swizzle =>
    cases hv
    refine (load_means hstorage hpoints rfl).bind fun id _ => ?_
    rw [swizzle]
    exact .pure _ trivial (cons_subset.2 ⟨mem_cons_self, nil_subset _⟩)
  | @lane name roles scalar s lane swizzle lanes =>
    obtain ⟨l, hl, rfl⟩ := read?_single lanes (Expr.read?_of_evaluate? hv)
    have hpick : pick? (some lane.val.toUInt32) (st name) = some [l] := by
      rw [pick?, toNat_lane]
      exact congrArg (Option.map ([·])) hl
    refine (load_means hstorage hpoints hpick).bind fun id _ => ?_
    rw [swizzle]
    exact .pure _ trivial (cons_subset.2 ⟨mem_cons_self, nil_subset _⟩)
  | @lanes name roles scalar n s swizzle ty isVector isDiscrete lanes =>
    have hread : s.read? (st name) = some v := Expr.read?_of_evaluate? hv
    refine (load_means hstorage hpoints rfl).bind fun id _ => ?_
    rw [swizzle]
    refine emit_means fun fin σ _ hfacts => ?_
    have hdata := data?_of_holds (hfacts _ mem_cons_self)
    have hshuffle := shuffle_read? hread ((st name).map atom)
    show σ.compute? device .VectorShuffle (id :: id :: s.components) = _
    rw [Machine.compute?, hdata]
    exact congrArg (·.bind fun atoms => some (Register.data atoms)) hshuffle

/-- Writing to a place changes the store as the assignment does. -/
theorem writePlace_means (h : PlaceOf Γ p e name lane) (hstorage : p.entity.storage = some .Function)
    (hpoints : .points p.entity.id name lane ∈ known) (hst : Typed Γ st) {v : Components} (hv : HasType v e.ty)
    {value : Id} (hvalue : .holds value (v.map atom) ∈ known) (hassign : e.assign? v st = some st') :
    Means names device known st (writePlace p value) (fun _ => True) (fun _ => []) st' := by
  unfold writePlace
  cases h with
  | whole swizzle =>
    cases hassign
    rw [swizzle]
    exact store_means hpoints hvalue rfl
  | @lane name roles scalar s lane swizzle lanes =>
    cases hassign
    rw [swizzle]
    have hlength : v.length = 1 := (scalar_of_typeOf hv).1.trans (congrArg List.length lanes)
    obtain ⟨l, rfl⟩ := length_eq_one_iff.1 hlength
    refine store_means hpoints hvalue ?_
    rw [put?, toNat_lane, Swizzle.write, lanes]
    rfl
  | @lanes name roles scalar n s swizzle ty isVector isDiscrete lanes =>
    cases hassign
    rw [swizzle]
    obtain ⟨hlength, -⟩ := hasType_vector.1 (isVector ▸ hst name isDiscrete)
    have hfour : n.toNat ≤ 4 := (Ty.isDiscrete_vector.1 (isVector ▸ isDiscrete)).2.2
    have hsize : p.ty.width?.getD 1 = n := by rw [ty, isVector]; rfl
    refine (load_means hstorage hpoints rfl).bind fun vector _ => ?_
    rw [hsize]
    refine (Means.checked (s.writeMask n)).bind fun mask hmask => ?_
    have hshuffle : shuffle? ((st name).map atom ++ v.map atom) mask = some ((s.write (st name) v).map atom) := by
      rw [map_write]
      refine shuffle_writeMask ?_ ?_ ?_ ?_ hmask
      · rw [length_map, hlength]
      · rwa [length_map, hlength]
      · rw [length_map]
        exact (scalar_of_typeOf hv).1
      · rwa [length_map, hlength]
    refine (emitAs_means fun fin σ _ hfacts => ?_).bind fun merged _ =>
      store_means (mem_cons_of_mem _ (mem_cons_of_mem _ hpoints)) mem_cons_self rfl
    have hwhole := data?_of_holds (hfacts _ mem_cons_self)
    have hpart := data?_of_holds (hfacts _ (mem_cons_of_mem _ hvalue))
    show σ.compute? device .VectorShuffle (vector :: value :: mask) = _
    rw [Machine.compute?, hwhole, hpart]
    exact congrArg (·.bind fun atoms => some (Register.data atoms)) hshuffle

/-! ## Finding places -/

theorem accessChain_means {α : Type} {base i type : Id} {lane : Fin 4} {k : Id → α} {P : α → Prop}
    {gains : α → List Fact} (hbase : .points base name none ∈ known) (hi : .holds i [.word lane.val.toUInt32] ∈ known)
    (hP : ∀ id, P (k id)) (hgains : ∀ id, gains (k id) = [.points id name (some lane.val.toUInt32)]) :
    Means names device known st (onModule takeIntermediate >>= fun id =>
        push (.value .AccessChain type id [base, i]) >>= fun _ => pure (k id)) P gains st := by
  refine emitNew_means (fun _ hJ => takeIntermediate_keeps hJ) (fun m id m' h => ?_) hP hgains
    (fun _ => rfl) fun fin σ id hpos hσ hfacts => ?_
  · obtain ⟨id', m₁, hfresh, h⟩ := Action.bind_ok h
    obtain ⟨rfl, -⟩ := Action.pure_ok h
    exact (eq_of_freshId hfresh).1 ▸ UInt32.le_refl _
  · obtain ⟨-, e, he, hqueued, hregister⟩ := hfacts _ hbase
    refine ⟨.pointer e.id (some lane.val.toUInt32), ?_, hpos, e, he, hqueued, Function.update_self _ _ _⟩
    rw [Machine.compute?, hregister, data?_of_holds (hfacts _ hi)]
    rfl

theorem walkSwizzle_means {w : Walk} {scalar : Scalar} {n : Word} {lane : Fin 4}
    (hvector : w.ty = .vector scalar n) (hindices : w.indices = []) (hlanes : s.lanes = [lane]) :
    Means names device known st (walkSwizzle w s) (fun w' => w'.swizzle = w.swizzle ∧ ∃ i, w'.indices = [i])
      (fun w' => w'.indices.map fun i => .holds i [.word lane.val.toUInt32]) st := by
  have hcomponents : s.components = [lane.val.toUInt32] := by rw [components, hlanes]; rfl
  unfold walkSwizzle
  rw [hcomponents]
  dsimp only
  rw [if_neg (by simp [hvector, Ty.isScalar])]
  cases w.ty.part? lane.val.toUInt32 with
  | none => exact .refuse _
  | some element =>
    refine (declareLiteral_means rfl).bind fun i _ => ?_
    rw [hindices]
    exact .pure _ ⟨rfl, i, rfl⟩ (by simp [atom])

theorem follow_lane_means {parts : Parts} {roles : Roles} {scalar : Scalar} {n : Word} {lane : Fin 4} {root : Entity}
    (hroot : root.storage = some .Function) (hpoints : .points root.id name none ∈ known)
    (hvector : Γ name = .vector scalar n) (hlanes : s.lanes = [lane]) : Means names device known st
      (follow parts ⟨.root name (Γ name) roles, [.swizzle s]⟩ root root)
      (fun p => p.assignable ∧ p.entity.storage = some .Function ∧ p.swizzle = none)
      (fun p => [.points p.entity.id name (some lane.val.toUInt32)]) st := by
  unfold follow
  simp only [foldlM_cons, foldlM_nil, bind_pure, walk]
  refine (walkSwizzle_means hvector rfl hlanes).bind fun w ⟨hswizzle, i, hi⟩ => ?_
  rw [hi, hswizzle]
  refine (onModule_means fun _ hJ => declareTypeWith_steady hJ _ _ _ _).bind fun type _ => ?_
  refine (onModule_means fun _ hJ => Module.declarePointer_steady hJ _ nofun).bind fun pointer _ => ?_
  refine accessChain_means (by simp [hpoints]) (by simp) (fun id => ⟨?_, ?_, rfl⟩) fun id => rfl
  · simp [Entity.isPointer, hroot]
  · simp [hroot]

theorem follow_lanes_means {parts : Parts} {roles : Roles} {root : Entity} (hroot : root.storage = some .Function)
    (hpoints : .points root.id name none ∈ known) (hlanes : ∀ lane, s.lanes ≠ [lane]) : Means names device known st
      (follow parts ⟨.root name (Γ name) roles, [.swizzle s]⟩ root root)
      (fun p => p.assignable ∧ p.entity.storage = some .Function ∧ p.swizzle = some s ∧ p.ty = Γ name)
      (fun p => [.points p.entity.id name none]) st := by
  have hwalk : ∀ w : Walk, walkSwizzle w s = pure { w with swizzle := some s } := by
    intro w
    unfold walkSwizzle
    split
    case h_1 lane hlane =>
      obtain ⟨lane', hlane', -⟩ := map_eq_singleton_iff.1 hlane
      exact absurd hlane' (hlanes lane')
    case h_2 => rfl
  unfold follow
  simp only [foldlM_cons, foldlM_nil, bind_pure, walk, hwalk, pure_bind]
  refine .pure _ ⟨?_, hroot, rfl, rfl⟩ (by simpa using hpoints)
  simp [Entity.isPointer, hroot]

/-- The place of a target points to its variable, or to one lane of it. -/
theorem place_means (parts : Parts) (h : Target Γ e) (hnames : ∀ v ∈ e.mentions, v.name ∈ names) :
    ∃ name lane, Means names device known st (place parts e)
      (fun p => p.assignable ∧ p.entity.storage = some .Function ∧ PlaceOf Γ p e name lane)
      (fun p => [.points p.entity.id name lane]) st := by
  cases h with
  | @ident name roles isLocal isDiscrete =>
    refine ⟨name, none, ?_⟩
    have hname : name ∈ names := hnames (.root name (Γ name) roles) (by simp [Expr.mentions])
    refine (resolve_means hname isLocal).bind fun entity hentity => ?_
    refine .pure _ ⟨?_, hentity, .whole rfl⟩ (cons_subset.2 ⟨mem_cons_self, nil_subset _⟩)
    simp [Entity.isPointer, hentity]
  | @swizzle name roles scalar n s isLocal isDiscrete isVector lanes =>
    have hname : name ∈ names := hnames (.root name (Γ name) roles) (by simp [Expr.mentions])
    have hplace : place parts ⟨s.typeOf scalar, .swizzle ⟨Γ name, .ident (.root name (Γ name) roles)⟩ s⟩ =
        placeOfChain parts ⟨.root name (Γ name) roles, [.swizzle s]⟩ := rfl
    have hbase : ∀ root : Entity, root.storage = some .Function →
        pathBase (.root name (Γ name) roles) root = pure root := fun root hroot => by
      rw [pathBase, if_pos (by simp [Entity.isPointer, hroot])]
    rw [hplace]
    by_cases hsingle : ∃ lane, s.lanes = [lane]
    · obtain ⟨lane, hlane⟩ := hsingle
      refine ⟨name, some lane.val.toUInt32, ?_⟩
      refine (resolve_means hname isLocal).bind fun root hroot => ?_
      rw [hbase root hroot, pure_bind]
      refine (follow_lane_means hroot mem_cons_self isVector hlane).weaken
        (Subset.refl _) ?_ fun _ _ => subset_append_left _ _
      exact fun p ⟨hassignable, hstorage, hswizzle⟩ => ⟨hassignable, hstorage, .lane hswizzle hlane⟩
    · refine ⟨name, none, ?_⟩
      refine (resolve_means hname isLocal).bind fun root hroot => ?_
      rw [hbase root hroot, pure_bind]
      refine (follow_lanes_means hroot mem_cons_self fun lane hlane =>
        hsingle ⟨lane, hlane⟩).weaken (Subset.refl _) ?_ fun _ _ => subset_append_left _ _
      exact fun p ⟨hassignable, hstorage, hswizzle, hty⟩ =>
        ⟨hassignable, hstorage, .lanes hswizzle hty isVector isDiscrete lanes⟩

theorem placeToAssign_means (parts : Parts) (h : Target Γ e) (hnames : ∀ v ∈ e.mentions, v.name ∈ names) :
    ∃ name lane, Means names device known st (placeToAssign parts e)
      (fun p => p.entity.storage = some .Function ∧ PlaceOf Γ p e name lane)
      (fun p => [.points p.entity.id name lane]) st := by
  obtain ⟨name, lane, hplace⟩ := place_means parts h hnames
  refine ⟨name, lane, hplace.bind fun p ⟨hassignable, hp⟩ => ?_⟩
  rw [if_neg (by simp [hassignable])]
  exact .pure _ hp (cons_subset.2 ⟨mem_cons_self, nil_subset _⟩)

end Lower

end Shader
