import Shader.Proofs.Places

/-!
# What expressions mean

The instructions for an expression compute its value and leave in the variables what evaluation leaves
in them.
-/

namespace Shader

open List
open Literal (atom)
open Option (bind_eq_some_iff)

variable {Γ : String → Ty} {device : Device} {e : Expr} {st st' : Store} {v : Components}

/-! ## Well-typed expressions -/

/-- Evaluation yields a value of the type, and stores stay typed. -/
theorem Discrete.hasType (h : Discrete Γ e) (hst : Typed Γ st)
    (hv : e.evaluate? device st = some (v, st')) : HasType v e.ty ∧ Typed Γ st' := by
  obtain ⟨v', st'', hv', htype, hst'⟩ := h.evaluates device hst
  rw [hv] at hv'
  cases hv'
  exact ⟨htype, hst'⟩

theorem Target.hasType (h : Target Γ e) (hst : Typed Γ st)
    (hv : e.evaluate? device st = some (v, st')) : HasType v e.ty ∧ st' = st := by
  obtain ⟨v', hv', htype⟩ := h.evaluates device hst
  rw [hv] at hv'
  cases hv'
  exact ⟨htype, rfl⟩

theorem Discrete.specialized?_ne (h : Discrete Γ e) : e.specialized? ≠ some true := by
  induction h with
  | literal => simp [Expr.specialized?]
  | read target =>
    cases target with
    | ident isLocal =>
      simp only [Roles.isLocal, Bool.and_eq_true, Bool.not_eq_true', Bool.or_eq_false_iff] at isLocal
      simp [Expr.specialized?, Variable.roles, isLocal.2.2]
    | swizzle => simp [Expr.specialized?]
  | unary _ _ _ ih => exact ih
  | binary _ _ _ ihl ihr =>
    intro h
    obtain ⟨a, ha, h⟩ := bind_eq_some_iff.1 h
    obtain ⟨b, hb, h⟩ := bind_eq_some_iff.1 h
    simp only [ha, hb, ne_eq, Option.some.injEq, Bool.not_eq_true] at ihl ihr
    cases ihl
    cases ihr
    cases h
  | select _ _ _ _ _ ihc iht ihf =>
    intro h
    obtain ⟨a, ha, h⟩ := bind_eq_some_iff.1 h
    obtain ⟨b, hb, h⟩ := bind_eq_some_iff.1 h
    obtain ⟨c, hc, h⟩ := bind_eq_some_iff.1 h
    simp only [ha, hb, hc, ne_eq, Option.some.injEq, Bool.not_eq_true] at ihc iht ihf
    cases ihc
    cases iht
    cases ihf
    cases h
  | _ => simp [Expr.specialized?]

/-- Nothing discrete is folded to a specialization constant. -/
theorem Discrete.folds_eq_false (h : Discrete Γ e) (operands : List Expr) : e.folds operands = false := by
  simp [Expr.folds, Expr.isSpecialization, h.specialized?_ne]

/-- What is known of an identifier for the value `v` of `e`. -/
def Expr.facts (e : Expr) (v : Components) (id : Id) : List Fact :=
  .holds id (v.map atom) :: if e.isConstant then v.map (.constant id ·.atom) else []

namespace Lower

variable {names : List String} {known : List Fact} {parts : Parts} {st₁ : Store} {p : Place} {name : String}
  {old : Components} {s : Scalar}

theorem nested_load (x : Lower Entity) : (nested x >>= load) = nested (x >>= load) := by
  funext s
  rcases Nat.lt_or_ge s.depth s.module.config.nestingLimit with hlt | hge
  · rw [Action.bind_apply, nested_eq hlt, nested_eq hlt, Action.bind_apply]
    rcases x { s with depth := s.depth + 1 } with ⟨_ | e, t⟩
    · rfl
    · have hdepth : (load e t).2.depth = t.depth := congrArg (·.2.depth) (load_depth e t t.depth)
      show load e { t with depth := t.depth - 1 } = _
      rw [load_depth, ← hdepth]
  · rw [Action.bind_apply, nested_deep hge, nested_deep hge]

theorem nested_means {α : Type} {x : Lower α} {P : α → Prop} {gains : α → List Fact}
    (h : Means names device known st x P gains st') : Means names device known st (nested x) P gains st' := by
  intro s s' a hs hknown hrun
  obtain ⟨t, hx, rfl⟩ := eq_of_nested hrun
  have hdeeper : Lowerer.Ready names { s with depth := s.depth + 1 } := ⟨hs.sound, hs.inRange, hs.globals, hs.placed⟩
  obtain ⟨hext, ht, hP, hrange, hmeans⟩ := h hdeeper hknown hx
  refine ⟨{ hext with },
    ⟨ht.sound, ht.inRange, ht.globals, ht.placed⟩, hP, hrange, fun fin σ hfin hlast hσ hfacts => ?_⟩
  obtain ⟨σ', hruns, hσ', hgained⟩ := hmeans hfin { hlast with } hσ hfacts
  exact ⟨σ', ⟨hruns.code, hruns.kept⟩, hσ', hgained⟩

theorem valued_means {x : Lower Id} {gains : Id → List Fact} (ty : Ty)
    (h : Means names device known st x (fun _ => True) gains st') :
    Means names device known st ((x >>= fun id => value ty id) >>= load) (fun _ => True) gains st' := by
  rw [bind_assoc]
  refine h.bind fun id _ => (value_means ty id).bind fun entity hentity => ?_
  rw [hentity]
  exact .pure _ trivial (subset_append_left _ _)

theorem placeEntity_means {gains : Id → List Fact} (ty : Ty)
    (h : Means names device known st (readPlace p) (fun _ => True) gains st') :
    Means names device known st (placeEntity ty p >>= load) (fun _ => True) gains st' := by
  unfold placeEntity
  cases hswizzle : p.swizzle with
  | none =>
    have hread : readPlace p = load p.entity := by
      unfold readPlace
      rw [hswizzle]
      exact bind_pure _
    rw [hread] at h
    exact h
  | some s => exact valued_means ty h

/-- Parts whose instructions compute the values of expressions and change variables as evaluating them
does. -/
def Simulates (names : List String) (device : Device) (Γ : String → Ty) (parts : Parts) : Prop :=
  ∀ ⦃e : Expr⦄, Discrete Γ e → (∀ w ∈ e.mentions, w.name ∈ names) →
    ∀ ⦃st v st'⦄, Typed Γ st → e.evaluate? device st = some (v, st') →
    ∀ known, Means names device known st (parts.value e) (fun _ => True) (e.facts v) st'

/-! ## Reading and writing -/

theorem read_means (h : Target Γ e) (hnames : ∀ w ∈ e.mentions, w.name ∈ names) (hst : Typed Γ st)
    (hv : e.evaluate? device st = some (v, st')) :
    Computes names device known st (node parts e .value >>= load) v st' := by
  obtain ⟨-, rfl⟩ := h.hasType hst hv
  obtain ⟨name, lane, hplace⟩ := place_means parts h hnames
  have hchain : Computes names device known st' (chain parts e >>= load) v st' := by
    unfold chain
    rw [bind_assoc]
    exact hplace.bind fun p ⟨_, hstorage, hp⟩ => placeEntity_means e.ty (readPlace_means hp hstorage mem_cons_self hv)
  cases h with
  | @ident name roles isLocal isDiscrete =>
    cases hv
    have hname : name ∈ names := hnames (.root name (Γ name) roles) (by simp [Expr.mentions])
    exact (resolve_means hname isLocal).bind fun entity hentity => load_means hentity mem_cons_self rfl
  | swizzle => exact hchain

theorem written_means {lane : Option Word} (hp : PlaceOf Γ p e name lane) (hstorage : p.entity.storage = some .Function)
    (hpoints : .points p.entity.id name lane ∈ known) (hst : Typed Γ st) (hv : HasType v e.ty) {id : Id}
    (hvalue : .holds id (v.map atom) ∈ known) (hassign : e.assign? v st = some st') (ty : Ty) :
    Computes names device known st ((do
        writePlace p id
        match p.swizzle, Demand.value with
        | none, .pointer => return p.entity
        | _, _ => value ty id) >>= load) v st' := by
  rw [bind_assoc]
  refine (writePlace_means hp hstorage hpoints hst hv hvalue hassign).bind fun _ _ => ?_
  cases p.swizzle <;> exact valued_means ty (.pure id trivial (by simpa using hvalue))

theorem stepped_means {op : StepOp} {target : Expr} {lane : Option Word} (htarget : Target Γ target)
    (hs : target.ty.scalar? = some s) (hinteger : s.isInteger) (hp : PlaceOf Γ p target name lane)
    (hstorage : p.entity.storage = some .Function) (hpoints : .points p.entity.id name lane ∈ known) (hst : Typed Γ st)
    {ones new : Components} {current : Id} {o : Operand} (hcurrent : .holds current (old.map atom) ∈ known)
    (hold : HasType old target.ty) (ho : o.Known known ones) (hty : o.ty = target.ty)
    (hnew : (if op.isIncrement then BinOp.add else .sub).combine? device target.ty old ones = some new)
    (hassign : target.assign? new st = some st') : Computes names device known st (do
        let new ← binary (if op.isIncrement then .add else .sub) { ty := target.ty, id := current } o target.ty false
        writePlace p new
        return if op.yieldsNew then new else current) (if op.yieldsNew then new else old) st' := by
  have hfits : (if op.isIncrement then BinOp.add else .sub).Fits target.ty o.ty target.ty :=
    hty.symm ▸ (BinOp.fits_step op htarget.isDiscrete hs hinteger).2
  have hnewType : HasType new target.ty := by
    obtain ⟨v, hv, htype⟩ := BinOp.combine?_of_fits device hfits htarget.isDiscrete ho.isDiscrete hold ho.hasType
    rw [hnew] at hv
    cases hv
    exact htype
  have hl : Operand.Known known { ty := target.ty, id := current } old := ⟨hold, htarget.isDiscrete, hcurrent, nofun⟩
  refine (binary_means hfits hl ho hnew).bind fun id _ => ?_
  refine (writePlace_means hp hstorage (mem_cons_of_mem _ hpoints) hst hnewType
    mem_cons_self hassign).bind fun _ _ => ?_
  refine .pure _ trivial ?_
  split
  · simp
  · simp [hcurrent]

theorem step_means {op : StepOp} {target : Expr} (htarget : Target Γ target) (hs : target.ty.scalar? = some s)
    (hinteger : s.isInteger) (hnames : ∀ w ∈ target.mentions, w.name ∈ names) (hst : Typed Γ st) {new : Components}
    {one : Literal} (hold : target.evaluate? device st = some (old, st)) (hone : Literal.one? s = some one)
    (hnew : (if op.isIncrement then BinOp.add else .sub).combine? device target.ty old [one] = some new)
    (hassign : target.assign? new st = some st') : Computes names device known st (step parts op target) (if op.yieldsNew then new else old) st' := by
  obtain ⟨holdType, -⟩ := htarget.hasType hst hold
  obtain ⟨name, lane, hplace⟩ := placeToAssign_means parts htarget hnames
  obtain ⟨size, hsize, hlength⟩ := Option.map_eq_some_iff.1 holdType.width
  have hpos : 0 < old.length := holdType.length_pos htarget.isDiscrete
  have honeScalar : one.scalar = s := by
    obtain ⟨one', hone', hscalar⟩ := Literal.exists_one hinteger
    rw [hone] at hone'
    cases hone'
    exact hscalar
  have hones : HasType (replicate size.toNat one) target.ty := by
    rw [← Ty.withScalar_of_scalar? hs]
    refine holdType.of_length (by rw [length_replicate, hlength]) fun l hl => ?_
    exact eq_of_mem_replicate hl ▸ honeScalar
  rw [← BinOp.combine?_replicate device _ _ hpos, ← hlength] at hnew
  refine hplace.bind fun p ⟨hstorage, hp⟩ => ?_
  refine (readPlace_means hp hstorage (by simp) hold).bind fun current _ => ?_
  rw [hs, hsize, Option.bind_some, hone]
  dsimp only
  refine (declareLiteral_means (honeScalar ▸ Scalar.isDiscrete_of_isInteger hinteger)).bind fun literal _ => ?_
  split
  case isTrue hlong =>
    refine (splat_means (a := one.atom) one.scalar size (by simp) (fun _ => by simp)).bind fun id _ => ?_
    refine stepped_means htarget hs hinteger hp hstorage (by simp) hst (by simp) holdType
      ⟨hones, htarget.isDiscrete, by simp, fun _ hscalar => ?_⟩ rfl hnew hassign
    rw [Ty.width?_of_isScalar hscalar] at hsize
    cases hsize
    exact absurd hlong (by decide)
  case isFalse hshort =>
    have hsingle : replicate size.toNat one = [one] := by
      have hone : size.toNat = 1 := Nat.le_antisymm (Nat.le_of_not_lt hshort) (hlength ▸ hpos)
      rw [hone]
      rfl
    rw [hsingle] at hones hnew
    exact stepped_means htarget hs hinteger hp hstorage (by simp) hst (by simp) holdType
      ⟨hones, htarget.isDiscrete, by simp, fun _ _ => by simp⟩ rfl hnew hassign

variable (hparts : Simulates names device Γ parts)

include hparts

theorem operand_means (he : Discrete Γ e) (hnames : ∀ w ∈ e.mentions, w.name ∈ names) (hst : Typed Γ st)
    (hv : e.evaluate? device st = some (v, st')) : Means names device known st (operand parts e)
      (fun o => o.ty = e.ty ∧ ∀ known', e.facts v o.id ⊆ known' → o.Known known' v)
      (fun o => e.facts v o.id) st' := by
  refine (hparts he hnames hst hv known).bind fun id _ => ?_
  refine .pure _ ⟨rfl, fun known' hknown => ?_⟩ (subset_append_left _ _)
  refine ⟨(he.hasType hst hv).1, he.isDiscrete, hknown mem_cons_self, fun hc _ l hl => ?_⟩
  refine hknown (mem_cons_of_mem _ ?_)
  rw [if_pos hc]
  exact mem_map_of_mem hl

theorem assign_means {lhs rhs : Expr} (htarget : Target Γ lhs) (hvalue : Discrete Γ rhs) (hty : rhs.ty = lhs.ty)
    (hnames : ∀ w ∈ lhs.mentions ++ rhs.mentions, w.name ∈ names) (hst : Typed Γ st)
    (hv : rhs.evaluate? device st = some (v, st₁)) (hassign : lhs.assign? v st₁ = some st') (ty : Ty) :
    Computes names device known st (assign parts ty none lhs rhs .value >>= load) v st' := by
  obtain ⟨htype, hst₁⟩ := hvalue.hasType hst hv
  obtain ⟨hl, hr⟩ := forall_mem_append.1 hnames
  obtain ⟨name, lane, hplace⟩ := placeToAssign_means parts htarget hl
  unfold assign
  rw [bind_assoc]
  refine hplace.bind fun p ⟨hstorage, hp⟩ => ?_
  rw [bind_assoc]
  refine (hparts hvalue hr hst hv _).bind fun id _ => ?_
  exact written_means hp hstorage (by simp) hst₁ (hty ▸ htype) (mem_append_left _ mem_cons_self) hassign ty

theorem compound_means {op : BinOp} {lhs rhs : Expr} (htarget : Target Γ lhs)
    (hvalue : Discrete Γ rhs) (hfits : op.Fits lhs.ty rhs.ty lhs.ty)
    (hnames : ∀ w ∈ lhs.mentions ++ rhs.mentions, w.name ∈ names) (hst : Typed Γ st) {r : Components}
    (hold : lhs.evaluate? device st = some (old, st)) (hr : rhs.evaluate? device st = some (r, st₁))
    (hv : op.combine? device lhs.ty old r = some v) (hassign : lhs.assign? v st₁ = some st') (ty : Ty) :
    Computes names device known st (assign parts ty (some op) lhs rhs .value >>= load) v st' := by
  obtain ⟨hrType, hst₁⟩ := hvalue.hasType hst hr
  obtain ⟨holdType, -⟩ := htarget.hasType hst hold
  have hvType : HasType v lhs.ty := by
    obtain ⟨v', hv', htype⟩ := BinOp.combine?_of_fits device hfits htarget.isDiscrete hvalue.isDiscrete holdType hrType
    rw [hv] at hv'
    cases hv'
    exact htype
  obtain ⟨hln, hrn⟩ := forall_mem_append.1 hnames
  obtain ⟨name, lane, hplace⟩ := placeToAssign_means parts htarget hln
  unfold assign
  rw [bind_assoc]
  refine hplace.bind fun p ⟨hstorage, hp⟩ => ?_
  rw [bind_assoc]
  refine (readPlace_means hp hstorage (by simp) hold).bind fun current _ => ?_
  rw [bind_assoc]
  refine (operand_means hparts hvalue hrn hst hr).bind fun o ⟨hty, ho⟩ => ?_
  rw [bind_assoc]
  have hcurrent : Operand.Known (rhs.facts r o.id ++ ([.holds current (old.map atom)] ++
      ([.points p.entity.id name lane] ++ known))) { ty := lhs.ty, id := current } old :=
    ⟨holdType, htarget.isDiscrete, mem_append_right _ mem_cons_self, nofun⟩
  refine (binary_means (hty ▸ hfits) hcurrent (ho _ (subset_append_left _ _)) hv).bind fun id _ => ?_
  exact written_means hp hstorage (by simp) hst₁ hvType mem_cons_self hassign ty

theorem init_means {roles : Roles} {initial : Expr} (hlocal : roles.isLocal)
    (hvalue : Discrete Γ initial) (hname : name ∈ names) (hnames : ∀ w ∈ initial.mentions, w.name ∈ names)
    (hst : Typed Γ st) (hv : initial.evaluate? device st = some (v, st₁)) (ty : Ty) :
    Computes names device known st (init parts e (.root name ty roles) initial .value >>= load) v (Function.update st₁ name v) := by
  unfold init
  rw [bind_assoc]
  refine (resolve_means hname hlocal).bind fun entity hentity => ?_
  rw [if_neg (by simp [Entity.isPointer, hentity])]
  rw [bind_assoc]
  refine (hparts hvalue hnames hst hv _).bind fun id _ => ?_
  have hholds : .holds id (v.map atom) ∈ initial.facts v id ++ ([.points entity.id name none] ++ known) :=
    mem_append_left _ mem_cons_self
  rw [bind_assoc]
  refine (store_means (mem_append_right _ mem_cons_self) hholds rfl).bind fun _ _ => ?_
  exact valued_means e.ty (.pure id trivial (by simpa using hholds))

/-! ## Operators -/

theorem unaryNode_means {op : UnOp} {x : Expr} (h : Discrete Γ ⟨x.ty, .unary op x⟩) (hx : Discrete Γ x)
    (hnames : ∀ w ∈ x.mentions, w.name ∈ names) (hst : Typed Γ st) {vx : Components}
    (hvx : x.evaluate? device st = some (vx, st')) (hv : vx.mapM op.onLiteral? = some v) :
    Computes names device known st (node parts ⟨x.ty, .unary op x⟩ .value >>= load) v st' := by
  unfold node
  rw [bind_assoc, h.folds_eq_false]
  refine (operand_means hparts hx hnames hst hvx).bind fun o ⟨_, ho⟩ => ?_
  exact valued_means _ (unary_means (ho _ (subset_append_left _ _)) hv)

theorem binaryNode_means {op : BinOp} {l r : Expr} {ty : Ty} (h : Discrete Γ ⟨ty, .binary op l r⟩) (hl : Discrete Γ l)
    (hr : Discrete Γ r) (hfits : op.Fits l.ty r.ty ty) (hnames : ∀ w ∈ l.mentions ++ r.mentions, w.name ∈ names)
    (hst : Typed Γ st) {vl vr : Components} (hvl : l.evaluate? device st = some (vl, st₁))
    (hvr : r.evaluate? device st₁ = some (vr, st')) (hv : op.combine? device ty vl vr = some v) :
    Computes names device known st (node parts ⟨ty, .binary op l r⟩ .value >>= load) v st' := by
  obtain ⟨hln, hrn⟩ := forall_mem_append.1 hnames
  have hst₁ := (hl.hasType hst hvl).2
  unfold node
  rw [bind_assoc, h.folds_eq_false]
  refine (operand_means hparts hl hln hst hvl).bind fun lhs ⟨hlty, hlhs⟩ => ?_
  rw [bind_assoc]
  refine (operand_means hparts hr hrn hst₁ hvr).bind fun rhs ⟨hrty, hrhs⟩ => ?_
  refine valued_means _ (binary_means (hlty ▸ hrty ▸ hfits) (hlhs _ ?_) (hrhs _ ?_) hv)
  · exact subset_append_of_subset_right _ (subset_append_left _ _)
  · exact subset_append_left _ _

theorem castNode_means {x : Expr} (hx : Discrete Γ x) (hs : s.isDiscrete)
    (hnames : ∀ w ∈ x.mentions, w.name ∈ names) (hst : Typed Γ st) {vx : Components}
    (hvx : x.evaluate? device st = some (vx, st')) (hv : vx.mapM (Literal.cast? s) = some v) :
    Computes names device known st (node parts ⟨x.ty.withScalar s, .cast x⟩ .value >>= load) v st' := by
  unfold node
  rw [bind_assoc]
  refine (operand_means hparts hx hnames hst hvx).bind fun o ⟨hty, ho⟩ => ?_
  rw [← hty]
  exact valued_means _ (cast_means (ho _ (subset_append_left _ _)) hs hv)

theorem selectNode_means {c t f : Expr} (h : Discrete Γ ⟨t.ty, .select c t f⟩)
    (hc : Discrete Γ c) (ht : Discrete Γ t) (hf : Discrete Γ f) (hty : f.ty = t.ty) (hchooses : c.ty.Chooses t.ty)
    (hnames : ∀ w ∈ c.mentions ++ t.mentions ++ f.mentions, w.name ∈ names) (hst : Typed Γ st) {st₂ : Store}
    {vc vt vf : Components} (hvc : c.evaluate? device st = some (vc, st₁))
    (hvt : t.evaluate? device st₁ = some (vt, st₂)) (hvf : f.evaluate? device st₂ = some (vf, st'))
    (hv : select? vc vt vf = some v) :
    Computes names device known st (node parts ⟨t.ty, .select c t f⟩ .value >>= load) v st' := by
  obtain ⟨hnames, hfn⟩ := forall_mem_append.1 hnames
  obtain ⟨hcn, htn⟩ := forall_mem_append.1 hnames
  have hst₁ := (hc.hasType hst hvc).2
  obtain ⟨htType, hst₂⟩ := ht.hasType hst₁ hvt
  have hfType : HasType vf t.ty := hty ▸ (hf.hasType hst₂ hvf).1
  refine valued_means _ ?_
  unfold select
  rw [h.folds_eq_false]
  refine (operand_means hparts hc hcn hst hvc).bind fun o ⟨hoty, ho⟩ => ?_
  refine (hparts ht htn hst₁ hvt _).bind fun onTrue _ => ?_
  refine (hparts hf hfn hst₂ hvf _).bind fun onFalse _ => ?_
  exact choose_means (hoty ▸ hchooses) (ho _ fun x hx => by simp [hx]) (by simp [Expr.facts])
    (by simp [Expr.facts]) htType hfType hv

/-! ## Whole expressions -/

/-- One node means its value, if its parts mean theirs. -/
theorem node_means (h : Discrete Γ e)
    (hnames : ∀ w ∈ e.mentions, w.name ∈ names) (hst : Typed Γ st) (hv : e.evaluate? device st = some (v, st')) :
    Means names device known st (node parts e .value >>= load) (fun _ => True) (e.facts v) st' := by
  cases h with
  | @literal l isDiscrete =>
    cases hv
    refine valued_means _ ((declareLiteral_means isDiscrete).weaken (Subset.refl _) (fun _ h => h) fun id _ => ?_)
    simp [Expr.facts, Expr.isConstant]
  | read target =>
    have hfacts : e.facts v = fun id => [.holds id (v.map atom)] := by
      cases target <;> rfl
    rw [hfacts]
    exact read_means target hnames hst hv
  | assign target value sameType =>
    obtain ⟨⟨r, st₁⟩, hr, hv⟩ := bind_eq_some_iff.1 hv
    obtain ⟨st₂, hassign, hv⟩ := bind_eq_some_iff.1 hv
    cases hv
    exact assign_means hparts target value sameType (by rwa [Expr.mentions] at hnames) hst hr hassign _
  | compound target value fits =>
    obtain ⟨⟨old, st₀⟩, hold, hv⟩ := bind_eq_some_iff.1 hv
    obtain ⟨⟨r, st₁⟩, hr, hv⟩ := bind_eq_some_iff.1 hv
    obtain ⟨v', hv', hv⟩ := bind_eq_some_iff.1 hv
    obtain ⟨st₂, hassign, hv⟩ := bind_eq_some_iff.1 hv
    cases hv
    obtain ⟨-, rfl⟩ := target.hasType hst hold
    exact compound_means hparts target value fits (by rwa [Expr.mentions] at hnames) hst hold hr hv' hassign _
  | @init name roles initial isLocal value sameType =>
    obtain ⟨⟨r, st₁⟩, hr, hv⟩ := bind_eq_some_iff.1 hv
    cases hv
    obtain ⟨hname, hnames⟩ := forall_mem_cons.1 hnames
    exact init_means hparts isLocal value hname hnames hst hr _
  | step isTarget components isInteger =>
    obtain ⟨⟨old, st₁⟩, hold, hv⟩ := bind_eq_some_iff.1 hv
    obtain ⟨one, hone, hv⟩ := bind_eq_some_iff.1 hv
    obtain ⟨new, hnew, hv⟩ := bind_eq_some_iff.1 hv
    obtain ⟨st₂, hassign, hv⟩ := bind_eq_some_iff.1 hv
    cases hv
    obtain ⟨-, rfl⟩ := isTarget.hasType hst hold
    rw [components] at hone
    exact valued_means _ (step_means isTarget components isInteger (by rwa [Expr.mentions] at hnames)
      hst hold hone hnew hassign)
  | unary operand components works =>
    obtain ⟨⟨vx, st₁⟩, hvx, hv⟩ := bind_eq_some_iff.1 hv
    obtain ⟨v', hv', hv⟩ := bind_eq_some_iff.1 hv
    cases hv
    exact unaryNode_means hparts (.unary operand components works) operand
      (by rwa [Expr.mentions] at hnames) hst hvx hv'
  | binary left right fits =>
    obtain ⟨⟨vl, st₁⟩, hvl, hv⟩ := bind_eq_some_iff.1 hv
    obtain ⟨⟨vr, st₂⟩, hvr, hv⟩ := bind_eq_some_iff.1 hv
    obtain ⟨v', hv', hv⟩ := bind_eq_some_iff.1 hv
    cases hv
    exact binaryNode_means hparts (.binary left right fits) left right fits
      (by rwa [Expr.mentions] at hnames) hst hvl hvr hv'
  | cast operand isDiscrete =>
    obtain ⟨⟨vx, st₁⟩, hvx, hv⟩ := bind_eq_some_iff.1 hv
    obtain ⟨s, hs, hv⟩ := bind_eq_some_iff.1 hv
    obtain ⟨v', hv', hv⟩ := bind_eq_some_iff.1 hv
    cases hv
    rw [Ty.scalar?_withScalar operand.isDiscrete] at hs
    cases hs
    exact castNode_means hparts operand isDiscrete (by rwa [Expr.mentions] at hnames) hst hvx hv'
  | select condition onTrue onFalse sameType chooses =>
    obtain ⟨⟨vc, st₁⟩, hvc, hv⟩ := bind_eq_some_iff.1 hv
    obtain ⟨⟨vt, st₂⟩, hvt, hv⟩ := bind_eq_some_iff.1 hv
    obtain ⟨⟨vf, st₃⟩, hvf, hv⟩ := bind_eq_some_iff.1 hv
    obtain ⟨v', hv', hv⟩ := bind_eq_some_iff.1 hv
    cases hv
    exact selectNode_means hparts (.select condition onTrue onFalse sameType chooses) condition
      onTrue onFalse sameType chooses (by rwa [Expr.mentions] at hnames) hst hvc hvt hvf hv'

omit hparts

theorem simulates_lowerWithin (names : List String) (device : Device) (Γ : String → Ty) :
    ∀ height : Nat, Simulates names device Γ (partsOf (lowerWithin height))
  | 0 => fun e _ _ st _ st' _ _ known => by
    have hrefused : Means names device known st (lowerWithin 0 e .value) (fun _ => False)
        (fun _ => []) st' := .get_bind fun _ => .refuse _
    exact hrefused.bind fun _ h => h.elim
  | height + 1 => fun e h hnames st v st' hst hv known => by
    show Means names device known st (nested (node _ e .value) >>= load) _ _ _
    rw [nested_load]
    exact nested_means (node_means (simulates_lowerWithin names device Γ height) h hnames hst hv)

/-- The code of an expression computes the value that evaluation gives. -/
theorem lower_means (h : Discrete Γ e) (hnames : ∀ w ∈ e.mentions, w.name ∈ names)
    (hst : Typed Γ st) (hv : e.evaluate? device st = some (v, st')) :
    Means names device known st (lower e) (fun _ => True) (e.facts v) st' := by
  exact simulates_lowerWithin names device Γ _ h hnames hst hv known

end Lower

end Shader
