import Shader.Proofs.Execution

/-!
# What operators mean

The instructions of an operator compute, at every component, what the operator does. A scalar beside a
vector is replicated first, and a comparison of whole vectors is joined afterwards.
-/

namespace Shader

open List
open Literal (atom)

variable {device : Device}

variable {op : BinOp} {opcode : Op} {c a : Literal}

/-! ## Components -/

theorem toUInt32_inj {a b : Int32} : a.toUInt32 = b.toUInt32 ↔ a = b :=
  ⟨congrArg UInt32.toInt32, congrArg Int32.toUInt32⟩

theorem BinOp.onInt_atom {a b : Int32} (hop : op.opcodes.sint = some opcode)
    (hshift : op.isShift = false) (hc : op.onInt device a b = some c) :
    opcode.binary? device (.word a.toUInt32) (.word b.toUInt32) = some c.atom := by
  cases op <;> cases hshift <;> cases hop <;> cases hc
  case div | mod =>
    rw [atom, apply_ite Int32.toUInt32]
    rfl
  case eq | ne => simp [Op.binary?, Op.onWords, Op.onWordsToBool, atom, toUInt32_inj]
  all_goals rfl

theorem BinOp.onUInt_atom {a b : UInt32} (hop : op.opcodes.uint = some opcode) (hshift : op.isShift = false)
    (hc : op.onUInt device a b = some c) : opcode.binary? device (.word a) (.word b) = some c.atom := by
  cases op <;> cases hshift <;> cases hop <;> cases hc <;> rfl

theorem BinOp.onBool_atom {a b : Bool} (hop : op.opcodes.bool = some opcode)
    (hc : op.onBool a b = some c) : opcode.binary? device (.bool a) (.bool b) = some c.atom := by
  cases op <;> cases hop <;> cases hc <;> rfl

theorem BinOp.shift_atom {b : Word} (hop : op.opcodes.get? a.scalar.family = some opcode)
    (hc : op.shift device a b = some c) : opcode.binary? device a.atom (.word b) = some c.atom := by
  cases a <;> cases op <;> cases hop <;> cases hc
  case int.shl | int.shr =>
    simp only [atom]
    rw [apply_ite Int32.toUInt32]
    rfl
  all_goals rfl

/-- The opcode of a binary operator computes what the operator does on literals. -/
theorem BinOp.opcode_atom {b : Literal} (hop : op.opcodes.get? a.scalar.family = some opcode)
    (hc : op.onLiterals? device a b = some c) : opcode.binary? device a.atom b.atom = some c.atom := by
  unfold onLiterals? at hc
  split at hc
  case isTrue =>
    cases b with
    | int n => exact shift_atom hop hc
    | uint n => exact shift_atom hop hc
    | _ => cases hc
  case isFalse hshift =>
    rw [Bool.not_eq_true] at hshift
    match a, b, hc with
    | .int a, .int b, hc => exact onInt_atom hop hshift hc
    | .uint a, .uint b, hc => exact onUInt_atom hop hshift hc
    | .bool a, .bool b, hc => exact onBool_atom hop hc
/-- The opcode of a unary operator computes what the operator does on a literal. -/
theorem UnOp.opcode_atom {op : UnOp} (hop : op.opcodes.get? a.scalar.family = some opcode)
    (hc : op.onLiteral? a = some c) : opcode.unary? a.atom = some c.atom := by
  cases a <;> cases op <;> cases hop <;> cases hc <;> rfl

namespace Machine

variable {σ : Machine}

theorem compute?_binary {family : Family} (hop : op.opcodes.get? family = some opcode) (a b : Id) :
    σ.compute? device opcode [a, b] =
      do return .data (← zipAll (opcode.binary? device) (← σ.data? a) (← σ.data? b)) := by
  cases op <;> cases family <;> cases hop <;> rfl

theorem compute?_unary {op : UnOp} {family : Family} (hop : op.opcodes.get? family = some opcode) (a : Id) :
    σ.compute? device opcode [a] = do return .data (← (← σ.data? a).mapM opcode.unary?) := by
  cases op <;> cases family <;> cases hop <;> rfl

end Machine

/-! ## Operands -/

/-- What is known about an operand of that value. Replicating a constant takes more than its value. -/
structure Operand.Known (known : List Fact) (o : Operand) (v : Components) : Prop where
  hasType : HasType v o.ty
  isDiscrete : o.ty.isDiscrete
  holds : .holds o.id (v.map atom) ∈ known
  constant : o.constant → o.ty.isScalar → ∀ l ∈ v, .constant o.id l.atom ∈ known

namespace Lower

variable {names : List String} {known : List Fact} {st : Store} {v v' vt vf vc vl vr : Components} {ty : Ty}
  {s : Scalar} {l : Literal} {α β γ : Type} {o r : Operand} {size : Word}

theorem splatOperand_means (n : Word) (h : o.Known known [l]) (hscalar : o.ty.isScalar) :
    Computes names device known st (splat s o.id n o.constant) (replicate n.toNat l) st := by
  rw [Computes, map_replicate]
  exact splat_means s n h.holds fun hc => h.constant hc hscalar l mem_cons_self

/-- Broadcasting spreads a scalar over the lanes of the other operand. -/
theorem broadcast_means {l : Operand} {each : Ty} (h : op.Joins l.ty r.ty each)
    (hl : l.Known known vl) (hr : r.Known known vr) : Means names device known st (broadcast l r)
      (fun p => p.2.2.toNat = (spread vl vr).1.length)
      (fun p => [.holds p.1 ((spread vl vr).1.map atom), .holds p.2.1 ((spread vl vr).2.map atom)]) st := by
  have hvl := hl.hasType
  have hvr := hr.hasType
  have hdl := hl.isDiscrete
  have hdr := hr.isDiscrete
  unfold broadcast
  generalize hlty : l.ty = lty at h hvl hdl
  generalize hrty : r.ty = rty at h hvr hdr
  cases h with
  | @scalars a b accepts =>
    obtain ⟨x, rfl, -⟩ := hasType_scalar.1 hvl
    obtain ⟨y, rfl, -⟩ := hasType_scalar.1 hvr
    refine .pure _ rfl ?_
    exact cons_subset.2 ⟨hl.holds, cons_subset.2 ⟨hr.holds, nil_subset _⟩⟩
  | @vectors a b n accepts =>
    have hn := (Ty.isDiscrete_vector.1 hdl).2.1
    have hlengthl := (hasType_vector.1 hvl).1
    rw [spread_vectors (hlengthl ▸ hn) ((hasType_vector.1 hvr).1 ▸ hn)]
    refine .pure _ hlengthl.symm ?_
    exact cons_subset.2 ⟨hl.holds, cons_subset.2 ⟨hr.holds, nil_subset _⟩⟩
  | @scalarVector a b n accepts =>
    obtain ⟨x, rfl, -⟩ := hasType_scalar.1 hvl
    have hlength := (hasType_vector.1 hvr).1
    refine (splatOperand_means n hl (hlty ▸ rfl)).bind fun id _ => .pure _ ?_ ?_
    · exact hlength.symm.trans length_replicate.symm
    · rw [← hlength]
      refine cons_subset.2 ⟨mem_cons_self, cons_subset.2 ⟨?_, nil_subset _⟩⟩
      exact mem_cons_of_mem _ hr.holds
  | @vectorScalar a b n accepts =>
    obtain ⟨y, rfl, -⟩ := hasType_scalar.1 hvr
    have hlength := (hasType_vector.1 hvl).1
    rw [spread_vectorScalar (hlength ▸ (Ty.isDiscrete_vector.1 hdl).2.1)]
    refine (splatOperand_means n hr (hrty ▸ rfl)).bind fun id _ => .pure _ hlength.symm ?_
    rw [← hlength]
    refine cons_subset.2 ⟨?_, cons_subset.2 ⟨mem_cons_self, nil_subset _⟩⟩
    exact mem_cons_of_mem _ hl.holds

/-! ## Operators on two operands -/

theorem truths?_atom (h : ∀ l ∈ v, l.scalar = .bool) : truths? (v.map atom) = some (v.map Literal.isTrue) := by
  have hmap : v.mapM (fun l => some l.isTrue) = some (v.map Literal.isTrue) := mapM_pure
  refine (mapM_map (φ := atom) (ψ := id) hmap fun l hl b hb => ?_).trans ?_
  · have hbool := h l hl
    cases l <;> cases hbool
    exact hb
  · rw [map_id]

theorem joinComparison_means {id : Id} (h : .holds id (v.map atom) ∈ known) (hbool : ∀ l ∈ v, l.scalar = .bool) :
    Means names device known st (emit (if op = .ne then .Any else .All) ty [id]) (fun _ => True)
      (fun id => [.holds id [.bool (if op = .ne then v.any Literal.isTrue else v.all Literal.isTrue)]]) st := by
  refine emit_means fun fin σ _ hfacts => ?_
  have hdata := data?_of_holds (hfacts _ h)
  have htruths := truths?_atom hbool
  split
  · rw [Machine.compute?, hdata]
    simp [htruths]
  · rw [Machine.compute?, hdata]
    simp [htruths]

theorem compute?_components {fin : Lowerer} {σ : Machine} {a : Scalar} {x y : Components}
    {lhs rhs : Id} (hop : op.opcodes.get? a.family = some opcode) (hx : ∀ l ∈ x, l.scalar = a)
    (h : zipAll (op.onLiterals? device) x y = some v) (hlhs : (Fact.holds lhs (x.map atom)).Holds fin σ)
    (hrhs : (Fact.holds rhs (y.map atom)).Holds fin σ) :
    σ.compute? device opcode [lhs, rhs] = some (.data (v.map atom)) := by
  have hzip : zipAll (opcode.binary? device) (x.map atom) (y.map atom) = some (v.map atom) :=
    zipAll_map h fun l hl _ _ _ hc => BinOp.opcode_atom ((hx l hl).symm ▸ hop) hc
  rw [Machine.compute?_binary hop, data?_of_holds hlhs, data?_of_holds hrhs]
  simp [hzip]

theorem componentWise_means {l : Operand} {a : Scalar} {each : Ty}
    (hjoins : op.Joins l.ty r.ty each) (ha : l.ty.scalar? = some a) (hl : l.Known known vl)
    (hr : r.Known known vr) (hv : op.combine? device ty vl vr = some v) :
    Computes names device known st (componentWise op a.family l r ty false) v st := by
  obtain ⟨a', ev, ha', heach, hscalars, hev, hlength, htype⟩ :=
    hjoins.exists_each device hl.isDiscrete hr.isDiscrete hl.hasType hr.hasType
  rw [ha] at ha'
  cases ha'
  rw [BinOp.combine?, hev] at hv
  cases hv
  refine (broadcast_means hjoins hl hr).bind fun p hsize => ?_
  obtain ⟨lhs, rhs, size⟩ := p
  cases hop : op.opcodes.get? a.family with
  | none => exact .refuse _
  | some opcode =>
    have hcompute : ∀ (fin : Lowerer) (σ : Machine), fin.Agrees σ st →
        (∀ f ∈ [Fact.holds lhs ((spread vl vr).1.map atom),
          .holds rhs ((spread vl vr).2.map atom)] ++ known, f.Holds fin σ) →
        σ.compute? device opcode [lhs, rhs] = some (.data (ev.map atom)) :=
      fun fin σ _ hfacts => compute?_components hop hscalars hev (hfacts _ mem_cons_self)
        (hfacts _ (mem_cons_of_mem _ mem_cons_self))
    have hsame : (op.isComparison && decide (1 < size) && ty.isScalar) =
        (op.isComparison && decide (1 < ev.length) && ty.isScalar) := by
      rw [hlength, ← hsize]
      rfl
    dsimp only
    rw [hsame]
    by_cases hcond : (op.isComparison && decide (1 < ev.length) && ty.isScalar) = true
    · have hjoined : op.joined ty ev = _ := if_pos hcond
      rw [if_pos hcond, hjoined]
      refine (emit_means hcompute).bind fun id _ => ?_
      simp only [Bool.and_eq_true] at hcond
      have hbool : ∀ l ∈ ev, l.scalar = .bool := by
        rw [heach, BinOp.resultScalar, if_pos hcond.1.1] at htype
        exact fun l hl => htype.scalar_eq hl
      exact joinComparison_means mem_cons_self hbool
    · have hjoined : op.joined ty ev = ev := if_neg hcond
      rw [if_neg hcond, hjoined]
      exact emitOrDeclare_means hcompute

theorem family_ne_float (h : s.isDiscrete) : s.family ≠ .float := by
  cases s <;> cases h <;> exact nofun

/-- A lowered binary operator computes what the operator combines components to. -/
theorem binary_means {l : Operand} (hfits : op.Fits l.ty r.ty ty) (hl : l.Known known vl) (hr : r.Known known vr)
    (hv : op.combine? device ty vl vr = some v) : Computes names device known st (binary op l r ty false) v st := by
  obtain ⟨each, hjoins, -⟩ := hfits
  obtain ⟨a, ha, hdiscrete⟩ := Ty.exists_scalar hl.isDiscrete
  have hmatrix : (l.ty.isMatrix || r.ty.isMatrix) = false := by
    generalize l.ty = lty at hjoins
    generalize r.ty = rty at hjoins
    cases hjoins <;> rfl
  have hproduct : productOf? op a.family l r = none := by
    rw [productOf?, if_neg]
    simp [family_ne_float hdiscrete]
  unfold binary
  rw [if_neg (by simp [hmatrix])]
  unfold vectorBinary
  rw [ha]
  dsimp only
  rw [hproduct]
  exact componentWise_means hjoins ha hl hr hv

/-- A lowered unary operator maps the operator over components. -/
theorem unary_means {op : UnOp} (ho : o.Known known v) (hv : v.mapM op.onLiteral? = some v') :
    Computes names device known st (unary op o false) v' st := by
  unfold unary
  split
  case isTrue hplus =>
    subst hplus
    have hself : v.mapM UnOp.plus.onLiteral? = some (v.map id) := mapM_pure
    rw [map_id, hv] at hself
    cases hself
    exact .pure _ trivial (cons_subset.2 ⟨ho.holds, nil_subset _⟩)
  case isFalse =>
    obtain ⟨s, hs, -⟩ := Ty.exists_scalar ho.isDiscrete
    have hmatrix : o.ty.isMatrix = false := by
      have hd := ho.isDiscrete
      cases hty : o.ty <;> rw [hty] at hd <;> first | rfl | cases hd
    have hscalars : ∀ l ∈ v, l.scalar = s := fun l hl => Option.some.inj ((ho.hasType.scalars l hl).symm.trans hs)
    rw [if_neg (by simp [hmatrix])]
    unfold vectorUnary
    simp only [hs, PerFamily.forScalar?, Option.bind_some]
    cases hop : op.opcodes.get? s.family with
    | none => exact .refuse _
    | some opcode =>
      refine emitOrDeclare_means fun fin σ _ hfacts => ?_
      have hmap : (v.map atom).mapM opcode.unary? = some (v'.map atom) :=
        mapM_map hv fun l hl c hc => UnOp.opcode_atom (by rw [hscalars l hl]; exact hop) hc
      rw [Machine.compute?_unary hop, data?_of_holds (hfacts _ ho.holds)]
      simp [hmap]

/-! ## Choices -/

theorem zipAll_some {g : α → β → γ} {as : List α} {bs : List β} (h : as.length = bs.length) :
    zipAll (fun a b => some (g a b)) as bs = some (zipWith g as bs) := by
  rw [zipAll, if_pos h, ← map_uncurry_zip_eq_zipWith]
  exact mapM_pure

theorem zipWith_replicate_left (g : α → β → γ) (a : α) (l : List β) :
    zipWith g (replicate l.length a) l = l.map (g a) := by
  induction l with
  | nil => rfl
  | cons b l ih => simp [replicate_succ, ih]

theorem zipWith_replicate_right (g : α → β → γ) (b : β) (l : List α) :
    zipWith g l (replicate l.length b) = l.map (g · b) := by
  induction l with
  | nil => rfl
  | cons a l ih => simp [replicate_succ, ih]

theorem select?_replicate (c : Literal) (hlength : vt.length = vf.length) (hmany : 1 < vt.length) :
    select? (replicate vt.length c) vt vf = select? [c] vt vf := by
  have hzip : (vt.zip vf).length = vt.length := by simp [hlength]
  have hchosen : zipWith (fun (c : Literal) (p : Literal × Literal) =>
      if c.isTrue then p.1 else p.2) (replicate vt.length c) (vt.zip vf) =
      if c.isTrue then vt else vf := by
    rw [← hzip, zipWith_replicate_left]
    split
    · exact map_fst_zip (Nat.le_of_eq hlength)
    · exact map_snd_zip (Nat.le_of_eq hlength.symm)
  rw [select?_each (by simpa using Nat.ne_of_gt hmany), zipAll_some hlength, Option.bind_some,
    zipAll_some (by simp [hlength])]
  exact congrArg some hchosen

theorem select?_constants (a b : Literal) (hmany : 0 < vc.length) :
    select? vc (replicate vc.length a) (replicate vc.length b) = some (vc.map fun c => if c.isTrue then a else b) := by
  match vc, hmany with
  | [c], _ =>
    show some (if c.isTrue then [a] else [b]) = some [if c.isTrue then a else b]
    rw [apply_ite (fun l : Literal => [l])]
  | c :: d :: vc, _ =>
    rw [select?_each (by simp), zipAll_some (by simp), Option.bind_some, zipAll_some (by simp)]
    refine congrArg some ?_
    have hpairs : zipWith (fun t f => (t, f)) (replicate (c :: d :: vc).length a)
        (replicate (c :: d :: vc).length b) = replicate (c :: d :: vc).length (a, b) :=
      zip_replicate'
    rw [hpairs, zipWith_replicate_right]

theorem choose?_each {conditions : List Bool} (h : conditions.length ≠ 1) (onTrue onFalse : List Atom) :
    choose? conditions onTrue onFalse = (zipAll (fun t f => some (t, f)) onTrue onFalse).bind
      (zipAll (fun (c : Bool) p => some (if c then p.1 else p.2)) conditions) := by
  match conditions, h with
  | [], _ | _ :: _ :: _, _ => rfl

theorem choose?_atom (h : select? vc vt vf = some v) :
    choose? (vc.map Literal.isTrue) (vt.map atom) (vf.map atom) = some (v.map atom) := by
  by_cases hone : vc.length = 1
  · obtain ⟨c, rfl⟩ := length_eq_one_iff.1 hone
    cases h
    exact congrArg some (apply_ite (map atom) _ _ _).symm
  · rw [select?_each hone] at h
    obtain ⟨ps, hps, hv⟩ := Option.bind_eq_some_iff.1 h
    have hpairs := zipAll_map (φ := atom) (ψ := atom) (χ := fun p : Literal × Literal => (p.1.atom, p.2.atom))
      (g := fun t f => some (t, f)) hps (fun _ _ _ _ _ hc => by cases hc; rfl)
    have hchosen := zipAll_map (φ := Literal.isTrue) (χ := atom)
      (ψ := fun p : Literal × Literal => (p.1.atom, p.2.atom))
      (g := fun (c : Bool) (p : Atom × Atom) => some (if c then p.1 else p.2)) hv
      (fun _ _ _ _ _ hc => by cases hc; split <;> rfl)
    rw [choose?_each (by simpa using hone), hpairs]
    exact hchosen

theorem select_means {c t f : Id} (hc : .holds c (vc.map atom) ∈ known) (ht : .holds t (vt.map atom) ∈ known)
    (hf : .holds f (vf.map atom) ∈ known) (hbool : ∀ l ∈ vc, l.scalar = .bool) (hv : select? vc vt vf = some v) :
    Computes names device known st (emit .Select ty [c, t, f]) v st := by
  refine emit_means fun fin σ _ hfacts => ?_
  rw [Machine.compute?, data?_of_holds (hfacts _ hc), data?_of_holds (hfacts _ ht), data?_of_holds (hfacts _ hf)]
  simp [truths?_atom hbool, choose?_atom hv]

/-- A lowered choice takes each lane from the side its condition says. -/
theorem choose_means {c : Operand} {t f : Id} (hchooses : c.ty.Chooses ty) (hc : c.Known known vc)
    (ht : .holds t (vt.map atom) ∈ known) (hf : .holds f (vf.map atom) ∈ known)
    (htType : HasType vt ty) (hfType : HasType vf ty) (hv : select? vc vt vf = some v) :
    Computes names device known st (choose ty c t f false) v st := by
  have hbool : ∀ l ∈ vc, l.scalar = .bool := fun l hl =>
    Option.some.inj ((hc.hasType.scalars l hl).symm.trans hchooses.scalar?)
  refine .get_bind fun s => ?_
  dsimp only
  split
  case isTrue hcond =>
    simp only [Bool.and_eq_true, decide_eq_true_eq] at hcond
    obtain ⟨n, hn, hlength⟩ := Option.map_eq_some_iff.1 htType.width
    rw [hn] at hcond ⊢
    have hmany : 1 < vt.length := hlength ▸ UInt32.le_iff_toNat_le.1 hcond.1.2
    obtain ⟨x, rfl, -⟩ := hasType_scalar.1 (hcond.1.1 ▸ hc.hasType)
    have hsame : vt.length = vf.length := Option.some.inj (htType.width.symm.trans hfType.width)
    rw [← select?_replicate x hsame hmany, ← hlength] at hv
    refine (splatOperand_means n hc (hcond.1.1 ▸ rfl)).bind fun id _ => ?_
    refine select_means mem_cons_self (mem_cons_of_mem _ ht) (mem_cons_of_mem _ hf) (fun l hl => ?_) hv
    exact eq_of_mem_replicate hl ▸ hbool x mem_cons_self
  case isFalse => exact select_means hc.holds ht hf hbool hv

/-! ## Conversions -/

theorem replicated_means (hl : l.scalar.isDiscrete) (hsize : 0 < size.toNat) :
    Computes names device known st (replicated l size) (replicate size.toNat l) st := by
  refine (declareLiteral_means hl).bind fun id _ => ?_
  rw [map_replicate]
  split
  case isTrue => exact splat_means l.scalar size (by simp) (fun _ => by simp)
  case isFalse h =>
    have hone : size.toNat = 1 := Nat.le_antisymm (Nat.le_of_not_lt h) hsize
    rw [hone]
    exact .pure _ trivial (by simp)

theorem castShape?_withScalar {a : Scalar} (s : Scalar) (h : HasType v ty) (ha : ty.scalar? = some a) :
    ∃ size, castShape? ty (ty.withScalar s) = some (a, s, size) ∧ size.toNat = v.length := by
  have hwidth := h.width
  cases ty with
  | scalar _ =>
    cases ha
    exact ⟨1, rfl, Option.some.inj hwidth⟩
  | vector _ n =>
    cases ha
    exact ⟨n, if_pos rfl, Option.some.inj hwidth⟩
  | _ => cases hwidth

theorem bitcast_means {id : Id} {a : Scalar} (ha : a.isInteger) (hs : s.isInteger) (h : .holds id (v.map atom) ∈ known)
    (hva : ∀ l ∈ v, l.scalar = a) (hv : v.mapM (Literal.cast? s) = some v') :
    Computes names device known st (emit .Bitcast ty [id]) v' st := by
  refine emit_means fun fin σ _ hfacts => ?_
  have hmap : (v.map atom).mapM (Op.unary? .Bitcast) = some (v'.map atom) := by
    refine mapM_map hv fun l hl c hc => ?_
    have hla := hva l hl
    subst hla
    cases l <;> cases s <;> cases ha <;> cases hs <;> cases hc <;> rfl
  rw [Machine.compute?, data?_of_holds (hfacts _ h)]
  · simp [hmap]
  all_goals
    intros
    contradiction

theorem cast?_bool {one : Literal} (hone : Literal.one? s = some one) (hs : s.isDiscrete)
    (hl : l.scalar = .bool) : l.cast? s = some (if l.isTrue then one else Literal.zero s) := by
  cases l with
  | bool b => cases s <;> cases hs <;> cases hone <;> cases b <;> rfl
  | _ => cases hl

theorem ofBool_means {o : Id} {one : Literal} (hone : Literal.one? s = some one) (hs : s.isDiscrete)
    (hsize : size.toNat = v.length) (hpos : 0 < v.length) (h : .holds o (v.map atom) ∈ known)
    (hbool : ∀ l ∈ v, l.scalar = .bool) (hv : v.mapM (Literal.cast? s) = some v') : Computes names device known st (do
      let one ← replicated one size
      let zero ← replicated (Literal.zero s) size
      emit .Select ty [o, one, zero]) v' st := by
  have hselect : select? v (replicate size.toNat one) (replicate size.toNat (Literal.zero s)) = some v' := by
    rw [hsize, select?_constants one (Literal.zero s) hpos, ← hv,
      mapM_congr fun l hl => cast?_bool hone hs (hbool l hl)]
    exact (mapM_pure (m := Option)).symm
  have hscalars : one.scalar.isDiscrete ∧ (Literal.zero s).scalar.isDiscrete := by
    cases s <;> cases hs <;> cases hone <;> exact ⟨rfl, rfl⟩
  refine (replicated_means hscalars.1 (hsize ▸ hpos)).bind fun oneId _ => ?_
  refine (replicated_means hscalars.2 (hsize ▸ hpos)).bind fun zeroId _ => ?_
  exact select_means (by simp [h]) (by simp) (by simp) hbool hselect

theorem zipAll_replicate_right (f : α → β → Option γ) (b : β) (l : List α) :
    zipAll f l (List.replicate l.length b) = l.mapM (f · b) := by
  have hzip : l.zip (List.replicate l.length b) = l.map ((·, b)) := zipWith_replicate_right (fun a b => (a, b)) b l
  rw [zipAll, if_pos (by simp), hzip, List.mapM_map]
  rfl

theorem toBool_means {o : Id} {a : Scalar} (ha : a.isInteger) (hsize : size.toNat = v.length)
    (hpos : 0 < v.length) (h : .holds o (v.map atom) ∈ known) (hva : ∀ l ∈ v, l.scalar = a)
    (hv : v.mapM (Literal.cast? .bool) = some v') : Computes names device known st (do
      let zero ← replicated (Literal.zero a) size
      emit (if a.isFloat then .FUnordNotEqual else .INotEqual) ty [o, zero]) v' st := by
  have hzip : zipAll (BinOp.ne.onLiterals? device) v (replicate size.toNat (Literal.zero a)) =
      some v' := by
    rw [hsize, zipAll_replicate_right, ← hv]
    refine mapM_congr fun l hl => ?_
    have hla := hva l hl
    subst hla
    cases l <;> cases ha <;> rfl
  have hop : BinOp.ne.opcodes.get? a.family = some (if a.isFloat then .FUnordNotEqual else .INotEqual) := by
    cases a <;> cases ha <;> rfl
  have hdiscrete : (Literal.zero a).scalar.isDiscrete := by
    cases a <;> cases ha <;> rfl
  refine (replicated_means hdiscrete (hsize ▸ hpos)).bind fun zero _ => ?_
  refine emit_means fun fin σ _ hfacts => ?_
  exact compute?_components hop hva hzip (hfacts _ (mem_cons_of_mem _ h)) (hfacts _ mem_cons_self)

theorem cast?_self (h : l.scalar.isDiscrete) : l.cast? l.scalar = some l := by
  cases l <;> cases h <;> rfl

/-- A lowered conversion converts each component. -/
theorem cast_means (ho : o.Known known v) (hs : s.isDiscrete) (hv : v.mapM (Literal.cast? s) = some v') :
    Computes names device known st (cast o (o.ty.withScalar s)) v' st := by
  obtain ⟨a, ha, hda⟩ := Ty.exists_scalar ho.isDiscrete
  have hva : ∀ l ∈ v, l.scalar = a := fun l hl => Option.some.inj ((ho.hasType.scalars l hl).symm.trans ha)
  obtain ⟨size, hshape, hsize⟩ := castShape?_withScalar s ho.hasType ha
  have hpos := ho.hasType.length_pos ho.isDiscrete
  unfold cast
  by_cases hsame : o.ty = o.ty.withScalar s
  · rw [if_pos hsame]
    have has : a = s := by
      have hscalar := Ty.scalar?_withScalar ho.isDiscrete s
      rw [← hsame, ha] at hscalar
      exact Option.some.inj hscalar
    have hself : v.mapM (Literal.cast? s) = some (v.map id) := by
      rw [mapM_congr fun l hl => has ▸ (hva l hl ▸ cast?_self (hva l hl ▸ hda))]
      exact mapM_pure
    rw [map_id, hv] at hself
    cases hself
    exact .pure _ trivial (cons_subset.2 ⟨ho.holds, nil_subset _⟩)
  · have hne : a ≠ s := fun h => hsame (Ty.withScalar_of_scalar? (h ▸ ha)).symm
    rw [if_neg hsame]
    rw [hshape]
    cases a with
    | bool =>
      cases s with
      | bool => exact absurd rfl hne
      | int | uint => exact ofBool_means rfl rfl hsize hpos ho.holds hva hv
      | _ => cases hs
    | int =>
      cases s with
      | bool => exact toBool_means rfl hsize hpos ho.holds hva hv
      | int => exact absurd rfl hne
      | uint => exact bitcast_means rfl rfl ho.holds hva hv
      | _ => cases hs
    | uint =>
      cases s with
      | bool => exact toBool_means rfl hsize hpos ho.holds hva hv
      | int => exact bitcast_means rfl rfl ho.holds hva hv
      | uint => exact absurd rfl hne
      | _ => cases hs
    | _ => cases hda

end Lower

end Shader
