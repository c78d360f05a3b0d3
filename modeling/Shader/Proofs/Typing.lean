import Shader.Proofs.Evaluation

/-!
# Types of values

Rules for expressions on integers, truth values and vectors of them. A well-typed expression has a
value, which is of its type, and variables keep theirs.
-/

namespace Shader

open List

variable {s scalar : Scalar} {ty l r each : Ty} {v vl vr : Components} {op : BinOp} {n : Word} {a : Literal}

/-- Scalars other than floating point numbers. -/
def Scalar.isDiscrete : Scalar → Bool
  | .bool | .int | .uint => true
  | _ => false

/-- Scalars and vectors without floating point numbers. -/
def Ty.isDiscrete : Ty → Bool
  | .scalar s => s.isDiscrete
  | .vector s n => s.isDiscrete && 2 ≤ n && n ≤ 4
  | _ => false

/-- The type with another scalar type. -/
def Ty.withScalar (s : Scalar) : Ty → Ty
  | .scalar _ => .scalar s
  | .vector _ n => .vector s n
  | ty => ty

/-- A value has as many components as its type, each of the scalar type. -/
structure HasType (v : Components) (ty : Ty) : Prop where
  width : ty.width?.map UInt32.toNat = some v.length
  scalars : ∀ l ∈ v, ty.scalar? = some l.scalar

/-- Variables hold values of their types. -/
def Typed (Γ : String → Ty) (st : Store) : Prop := ∀ name, (Γ name).isDiscrete → HasType (st name) (Γ name)

namespace BinOp

/-- The components that an operator works on. -/
def worksOn : BinOp → Scalar → Bool
  | .bitAnd, s | .bitOr, s | .bitXor, s | .eq, s | .ne, s => s.isDiscrete
  | .logAnd, s | .logOr, s => s = .bool
  | _, s => s.isInteger

/-- The components of both operands. -/
def accepts (op : BinOp) (a b : Scalar) : Bool := op.worksOn a && if op.isShift then b.isInteger else b = a

/-- The components of the result. -/
def resultScalar (op : BinOp) (a : Scalar) : Scalar := if op.isComparison then .bool else a

/-- Types of operands, and of the result: components are joined one by one, scalars with all. -/
inductive Joins (op : BinOp) : Ty → Ty → Ty → Prop where
  | scalars {a b : Scalar} (accepts : op.accepts a b) : Joins op (.scalar a) (.scalar b) (.scalar (op.resultScalar a))
  | vectors {a b : Scalar} {n : Word} (accepts : op.accepts a b) :
      Joins op (.vector a n) (.vector b n) (.vector (op.resultScalar a) n)
  | scalarVector {a b : Scalar} {n : Word} (accepts : op.accepts a b) :
      Joins op (.scalar a) (.vector b n) (.vector (op.resultScalar a) n)
  | vectorScalar {a b : Scalar} {n : Word} (accepts : op.accepts a b) :
      Joins op (.vector a n) (.scalar b) (.vector (op.resultScalar a) n)

/-- The types of operands and of the result. A comparison of vectors is one of their components, or
of the whole. -/
def Fits (op : BinOp) (l r ty : Ty) : Prop :=
  ∃ each, op.Joins l r each ∧ (ty = each ∨ op.isComparison ∧ ty = .scalar .bool)

end BinOp

/-- The components that a unary operator works on. -/
def UnOp.worksOn : UnOp → Scalar → Bool
  | .neg, s | .bitNot, s => s.isInteger
  | .not, s => s = .bool
  | .plus, s => s.isDiscrete

/-- Types of conditions: one for the whole value, or one for each component. -/
inductive Ty.Chooses : Ty → Ty → Prop where
  | one {ty : Ty} : Chooses (.scalar .bool) ty
  | each {s : Scalar} {n : Word} : Chooses (.vector .bool n) (.vector s n)

/-- Variables in the storage of a function and nowhere else. -/
def Roles.isLocal (f : Roles) : Bool :=
  f.functionLocal && !(f.output || f.input || f.builtin || f.uniform || f.storageBuffer ||
    f.pushConstant || f.specConstant)

/-- The type of the lanes. -/
def Swizzle.typeOf (s : Swizzle) (scalar : Scalar) : Ty :=
  if s.isSingle then .scalar scalar else .vector scalar s.length.toUInt32

/-- What is assigned to: a local variable or lanes of one. -/
inductive Target (Γ : String → Ty) : Expr → Prop where
  | ident {name : String} {roles : Roles} (isLocal : roles.isLocal) (isDiscrete : (Γ name).isDiscrete) :
      Target Γ ⟨Γ name, .ident (.root name (Γ name) roles)⟩
  | swizzle {name : String} {roles : Roles} {scalar : Scalar} {n : Word} {s : Swizzle}
      (isLocal : roles.isLocal) (isDiscrete : (Γ name).isDiscrete)
      (isVector : Γ name = .vector scalar n) (lanes : ∀ lane ∈ s.lanes, lane.val < n.toNat) :
      Target Γ ⟨s.typeOf scalar, .swizzle ⟨Γ name, .ident (.root name (Γ name) roles)⟩ s⟩

/-- Well-typed expressions on integers and truth values in local variables. -/
inductive Discrete (Γ : String → Ty) : Expr → Prop where
  | literal {l : Literal} (isDiscrete : l.scalar.isDiscrete) : Discrete Γ ⟨.scalar l.scalar, .literal l⟩
  | read {e : Expr} (target : Target Γ e) : Discrete Γ e
  | assign {lhs rhs : Expr} (target : Target Γ lhs) (value : Discrete Γ rhs)
      (sameType : rhs.ty = lhs.ty) : Discrete Γ ⟨lhs.ty, .assign none lhs rhs⟩
  | compound {op : BinOp} {lhs rhs : Expr} (target : Target Γ lhs) (value : Discrete Γ rhs)
      (fits : op.Fits lhs.ty rhs.ty lhs.ty) : Discrete Γ ⟨lhs.ty, .assign (some op) lhs rhs⟩
  | init {name : String} {roles : Roles} {initial : Expr} (isLocal : roles.isLocal)
      (value : Discrete Γ initial) (sameType : initial.ty = Γ name) :
      Discrete Γ ⟨Γ name, .init (.root name (Γ name) roles) initial⟩
  | step {op : StepOp} {target : Expr} {s : Scalar} (isTarget : Target Γ target)
      (components : target.ty.scalar? = some s) (isInteger : s.isInteger) :
      Discrete Γ ⟨target.ty, .step op target⟩
  | unary {op : UnOp} {x : Expr} {s : Scalar} (operand : Discrete Γ x)
      (components : x.ty.scalar? = some s) (works : op.worksOn s) : Discrete Γ ⟨x.ty, .unary op x⟩
  | binary {op : BinOp} {l r : Expr} {ty : Ty} (left : Discrete Γ l) (right : Discrete Γ r)
      (fits : op.Fits l.ty r.ty ty) : Discrete Γ ⟨ty, .binary op l r⟩
  | cast {x : Expr} {s : Scalar} (operand : Discrete Γ x) (isDiscrete : s.isDiscrete) :
      Discrete Γ ⟨x.ty.withScalar s, .cast x⟩
  | select {c t f : Expr} (condition : Discrete Γ c) (onTrue : Discrete Γ t)
      (onFalse : Discrete Γ f) (sameType : f.ty = t.ty) (chooses : c.ty.Chooses t.ty) :
      Discrete Γ ⟨t.ty, .select c t f⟩

theorem hasType_scalar : HasType v (.scalar s) ↔ ∃ l, v = [l] ∧ l.scalar = s := by
  constructor
  · intro h
    obtain ⟨l, rfl⟩ := length_eq_one_iff.1 (Option.some.inj h.width).symm
    exact ⟨l, rfl, (Option.some.inj (h.scalars l mem_cons_self)).symm⟩
  · rintro ⟨l, rfl, rfl⟩
    exact ⟨rfl, fun x hx => by cases mem_singleton.1 hx; rfl⟩

theorem hasType_vector : HasType v (.vector s n) ↔ v.length = n.toNat ∧ ∀ l ∈ v, l.scalar = s :=
  ⟨fun h => ⟨(Option.some.inj h.width).symm, fun l hl => (Option.some.inj (h.scalars l hl)).symm⟩,
    fun h => ⟨congrArg some h.1.symm, fun l hl => congrArg some (h.2 l hl).symm⟩⟩

@[simp]
theorem Ty.withScalar_withScalar (s s' : Scalar) (ty : Ty) : (ty.withScalar s).withScalar s' = ty.withScalar s' := by
  cases ty <;> rfl

theorem Ty.withScalar_of_scalar? (h : ty.scalar? = some s) : ty.withScalar s = ty := by
  cases ty <;> cases h <;> rfl

theorem HasType.scalar_eq (h : HasType v (ty.withScalar s)) {l : Literal} (hl : l ∈ v) : l.scalar = s := by
  have hscalar := h.scalars l hl
  have hwidth := h.width
  cases ty with
  | scalar a => exact (Option.some.inj hscalar).symm
  | vector a n => exact (Option.some.inj hscalar).symm
  | _ => cases hwidth

theorem HasType.of_length {v' : Components} (h : HasType v ty) (hlength : v'.length = v.length)
    (hs : ∀ l ∈ v', l.scalar = s) : HasType v' (ty.withScalar s) := by
  have hwidth := h.width
  rw [← hlength] at hwidth
  cases ty with
  | scalar a => exact ⟨hwidth, fun l hl => congrArg some (hs l hl).symm⟩
  | vector a n => exact ⟨hwidth, fun l hl => congrArg some (hs l hl).symm⟩
  | _ => cases hwidth

theorem HasType.mapM {s' : Scalar} {f : Literal → Option Literal} (h : HasType v ty) (hs : ty.scalar? = some s)
    (hf : ∀ l : Literal, l.scalar = s → ∃ l', f l = some l' ∧ l'.scalar = s') :
    ∃ v', v.mapM f = some v' ∧ HasType v' (ty.withScalar s') := by
  have hall : ∀ l ∈ v, ∃ l', f l = some l' ∧ l'.scalar = s' := fun l hl =>
    hf l (Option.some.inj ((h.scalars l hl).symm.trans hs))
  obtain ⟨v', hv', hlength, hscalars⟩ := exists_mapM hall
  exact ⟨v', hv', h.of_length hlength hscalars⟩

/-! ## Results of operators -/

theorem BinOp.onLiterals?_of_accepts (device : Device) {b : Literal} (h : op.accepts a.scalar b.scalar) :
    ∃ c, op.onLiterals? device a b = some c ∧ c.scalar = op.resultScalar a.scalar := by
  cases a <;> cases b <;> cases op <;> cases h <;> exact ⟨_, rfl, rfl⟩

theorem Scalar.isDiscrete_of_isInteger (h : s.isInteger) : s.isDiscrete := by
  cases s <;> cases h <;> rfl

theorem UnOp.onLiteral?_of_worksOn {op : UnOp} (h : op.worksOn a.scalar) :
    ∃ c, op.onLiteral? a = some c ∧ c.scalar = a.scalar := by
  cases a <;> cases op <;> cases h <;> exact ⟨_, rfl, rfl⟩

theorem Literal.cast?_of_isDiscrete (hs : s.isDiscrete) (ha : a.scalar.isDiscrete) :
    ∃ c, a.cast? s = some c ∧ c.scalar = s := by
  cases a <;> cases s <;> cases hs <;> cases ha <;> exact ⟨_, rfl, rfl⟩

theorem Ty.isDiscrete_vector : (Ty.vector s n).isDiscrete ↔ s.isDiscrete ∧ 1 < n.toNat ∧ n.toNat ≤ 4 := by
  simp only [Ty.isDiscrete, Bool.and_eq_true, decide_eq_true_eq, UInt32.le_iff_toNat_le, and_assoc]
  exact Iff.rfl

theorem spread_vectors {l r : Components} (hl : 1 < l.length) (hr : 1 < r.length) : spread l r = (l, r) := by
  match l, r, hl, hr with
  | _ :: _ :: _, _ :: _ :: _, _, _ => rfl

theorem spread_vectorScalar {l : Components} (hl : 1 < l.length) (b : Literal) :
    spread l [b] = (l, replicate l.length b) := by
  match l, hl with
  | _ :: _ :: _, _ => rfl

theorem BinOp.Joins.spread (h : op.Joins l r each) (hl : l.isDiscrete) (hr : r.isDiscrete) (hvl : HasType vl l)
    (hvr : HasType vr r) : ∃ a b, l.scalar? = some a ∧ op.accepts a b ∧ each = each.withScalar (op.resultScalar a) ∧
      HasType (Shader.spread vl vr).1 (each.withScalar a) ∧
      HasType (Shader.spread vl vr).2 (each.withScalar b) := by
  cases h with
  | @scalars a b accepts =>
    obtain ⟨x, rfl, hx⟩ := hasType_scalar.1 hvl
    obtain ⟨y, rfl, hy⟩ := hasType_scalar.1 hvr
    exact ⟨a, b, rfl, accepts, rfl, hvl, hvr⟩
  | @vectors a b n accepts =>
    have hn := (Ty.isDiscrete_vector.1 hl).2.1
    rw [spread_vectors ((hasType_vector.1 hvl).1 ▸ hn) ((hasType_vector.1 hvr).1 ▸ hn)]
    exact ⟨a, b, rfl, accepts, rfl, hvl, hvr⟩
  | @scalarVector a b n accepts =>
    obtain ⟨x, rfl, hx⟩ := hasType_scalar.1 hvl
    refine ⟨a, b, rfl, accepts, rfl, hasType_vector.2 ⟨?_, fun c hc => ?_⟩, hvr⟩
    · exact length_replicate.trans (hasType_vector.1 hvr).1
    · exact (eq_of_mem_replicate hc) ▸ hx
  | @vectorScalar a b n accepts =>
    obtain ⟨y, rfl, hy⟩ := hasType_scalar.1 hvr
    have hlength := (hasType_vector.1 hvl).1
    rw [spread_vectorScalar (hlength ▸ (Ty.isDiscrete_vector.1 hl).2.1)]
    refine ⟨a, b, rfl, accepts, rfl, hvl, hasType_vector.2 ⟨?_, fun c hc => ?_⟩⟩
    · exact length_replicate.trans hlength
    · exact (eq_of_mem_replicate hc) ▸ hy

theorem HasType.length_eq {v' : Components} {s' : Scalar} (h : HasType v (ty.withScalar s))
    (h' : HasType v' (ty.withScalar s')) : v.length = v'.length := by
  have hwidth : (ty.withScalar s).width? = (ty.withScalar s').width? := by cases ty <;> rfl
  exact Option.some.inj (h.width.symm.trans (hwidth ▸ h'.width))

theorem Ty.isDiscrete_withScalar (h : ty.isDiscrete) (hs : s.isDiscrete) : (ty.withScalar s).isDiscrete := by
  cases ty with
  | scalar a => exact hs
  | vector a n => exact Ty.isDiscrete_vector.2 ⟨hs, (Ty.isDiscrete_vector.1 h).2⟩
  | _ => cases h

theorem HasType.length_pos (h : HasType v ty) (hd : ty.isDiscrete) : 0 < v.length := by
  cases ty with
  | scalar s =>
    obtain ⟨l, rfl, -⟩ := hasType_scalar.1 h
    exact Nat.one_pos
  | vector s n =>
    rw [(hasType_vector.1 h).1]
    exact Nat.lt_of_succ_lt (Ty.isDiscrete_vector.1 hd).2.1
  | _ => cases hd

theorem BinOp.isDiscrete_resultScalar (op : BinOp) {a : Scalar} (h : a.isDiscrete) :
    (op.resultScalar a).isDiscrete := by
  unfold resultScalar
  split
  · rfl
  · exact h

theorem BinOp.Joins.isDiscrete (h : op.Joins l r each) (hl : l.isDiscrete) (hr : r.isDiscrete) : each.isDiscrete := by
  have hvector : ∀ {a : Scalar} {n : Word}, (Ty.vector a n).isDiscrete →
      (Ty.vector (op.resultScalar a) n).isDiscrete := fun h =>
    Ty.isDiscrete_withScalar h (op.isDiscrete_resultScalar (Ty.isDiscrete_vector.1 h).1)
  cases h with
  | scalars _ => exact op.isDiscrete_resultScalar hl
  | vectors _ => exact hvector hl
  | scalarVector _ => exact Ty.isDiscrete_withScalar hr (op.isDiscrete_resultScalar hl)
  | vectorScalar _ => exact hvector hl

theorem BinOp.Fits.isDiscrete (h : op.Fits l r ty) (hl : l.isDiscrete) (hr : r.isDiscrete) : ty.isDiscrete := by
  obtain ⟨each, hjoins, rfl | ⟨-, rfl⟩⟩ := h
  · exact hjoins.isDiscrete hl hr
  · rfl

theorem BinOp.joined_hasType {a : Scalar} (h : HasType v each) (hd : each.isDiscrete)
    (heach : each = each.withScalar (op.resultScalar a))
    (hty : ty = each ∨ op.isComparison ∧ ty = .scalar .bool) : HasType (op.joined ty v) ty := by
  unfold joined
  split
  case isTrue hcond =>
    simp only [Bool.and_eq_true, decide_eq_true_eq] at hcond
    rcases hty with rfl | ⟨-, rfl⟩
    · cases ty with
      | scalar s =>
        obtain ⟨x, rfl, -⟩ := hasType_scalar.1 h
        exact absurd hcond.1.2 (Nat.lt_irrefl 1)
      | _ => cases hcond.2
    · exact hasType_scalar.2 ⟨_, rfl, rfl⟩
  case isFalse hcond =>
    rcases hty with rfl | ⟨hcomparison, rfl⟩
    · exact h
    · simp only [hcomparison, Bool.true_and, Ty.isScalar, Bool.and_true, decide_eq_true_eq] at hcond
      rw [resultScalar, if_pos hcomparison] at heach
      cases each with
      | scalar s =>
        obtain rfl : s = .bool := Ty.scalar.inj heach
        exact h
      | vector s n =>
        have hn := (Ty.isDiscrete_vector.1 hd).2.1
        exact absurd ((hasType_vector.1 h).1 ▸ hn) hcond
      | _ => cases hd

/-- Operators that join two types are defined on all values of them. -/
theorem BinOp.Joins.exists_each (device : Device) (h : op.Joins l r each) (hl : l.isDiscrete) (hr : r.isDiscrete)
    (hvl : HasType vl l) (hvr : HasType vr r) : ∃ a v, l.scalar? = some a ∧ each = each.withScalar (op.resultScalar a) ∧
      (∀ x ∈ (Shader.spread vl vr).1, x.scalar = a) ∧
      zipAll (op.onLiterals? device) (Shader.spread vl vr).1 (Shader.spread vl vr).2 = some v ∧
      v.length = (Shader.spread vl vr).1.length ∧ HasType v each := by
  obtain ⟨a, b, ha, haccepts, heach, hx, hy⟩ := h.spread hl hr hvl hvr
  have happly : ∀ x ∈ (Shader.spread vl vr).1, ∀ y ∈ (Shader.spread vl vr).2,
      ∃ z, op.onLiterals? device x y = some z ∧ z.scalar = op.resultScalar a := by
    intro x hxmem y hymem
    obtain rfl := hx.scalar_eq hxmem
    obtain rfl := hy.scalar_eq hymem
    exact onLiterals?_of_accepts device haccepts
  obtain ⟨v, hv, hlength, hscalars⟩ := exists_zipAll (hx.length_eq hy) happly
  have hvtype := hx.of_length hlength hscalars
  rw [Ty.withScalar_withScalar, ← heach] at hvtype
  exact ⟨a, v, ha, heach, fun x hxmem => hx.scalar_eq hxmem, hv, hlength, hvtype⟩

theorem BinOp.combine?_of_fits (device : Device) (h : op.Fits l r ty) (hl : l.isDiscrete) (hr : r.isDiscrete)
    (hvl : HasType vl l) (hvr : HasType vr r) : ∃ v, op.combine? device ty vl vr = some v ∧ HasType v ty := by
  obtain ⟨each, hjoins, hty⟩ := h
  obtain ⟨a, v, -, heach, -, hv, -, hvtype⟩ := hjoins.exists_each device hl hr hvl hvr
  refine ⟨op.joined ty v, by rw [combine?, hv, Option.map_some], ?_⟩
  exact joined_hasType hvtype (hjoins.isDiscrete hl hr) heach hty

/-! ## Well-typed expressions -/

theorem Swizzle.toNat_length (s : Swizzle) : s.length.toUInt32.toNat = s.length :=
  UInt32.toNat_ofNat_of_lt' (Nat.lt_of_le_of_lt s.atMostFour (by decide))

theorem Swizzle.isDiscrete_typeOf (s : Swizzle) (h : scalar.isDiscrete) : (s.typeOf scalar).isDiscrete := by
  unfold typeOf
  split
  case isTrue => exact h
  case isFalse hsingle =>
    have hpos : 0 < s.lanes.length := length_pos_iff.2 s.nonempty
    have hfour := s.atMostFour
    have hone : s.lanes.length ≠ 1 := fun hone => hsingle (by simp [isSingle, length, hone])
    have hnat : s.length.toUInt32.toNat = s.lanes.length := s.toNat_length
    exact Ty.isDiscrete_vector.2 ⟨h, by omega, by omega⟩

theorem BinOp.accepts_step (op : StepOp) (h : s.isInteger) :
    (if op.isIncrement then BinOp.add else .sub).accepts s s := by
  cases op <;> simpa [accepts, worksOn, isShift, StepOp.isIncrement] using h

theorem BinOp.resultScalar_step (op : StepOp) (s : Scalar) :
    (if op.isIncrement then BinOp.add else .sub).resultScalar s = s := by
  cases op <;> rfl

theorem BinOp.fits_step (op : StepOp) (hd : ty.isDiscrete) (hs : ty.scalar? = some s) (hinteger : s.isInteger) :
    let op := if op.isIncrement then BinOp.add else .sub
    op.Fits ty (.scalar s) ty ∧ op.Fits ty ty ty := by
  have haccepts := accepts_step op hinteger
  cases ty with
  | scalar a =>
    cases hs
    have hjoins := Joins.scalars haccepts
    rw [resultScalar_step] at hjoins
    exact ⟨⟨_, hjoins, .inl rfl⟩, _, hjoins, .inl rfl⟩
  | vector a n =>
    cases hs
    have hscalar := Joins.vectorScalar (n := n) haccepts
    have hvector := Joins.vectors (n := n) haccepts
    rw [resultScalar_step] at hscalar hvector
    exact ⟨⟨_, hscalar, .inl rfl⟩, _, hvector, .inl rfl⟩
  | _ => cases hd

theorem BinOp.combine?_replicate (device : Device) (op : BinOp) (ty : Ty) (hv : 0 < v.length) (a : Literal) :
    op.combine? device ty v (replicate v.length a) = op.combine? device ty v [a] := by
  by_cases hlong : 1 < v.length
  · have hlong' : 1 < (replicate v.length a).length := length_replicate.symm ▸ hlong
    rw [combine?, combine?, spread_vectors hlong hlong', spread_vectorScalar hlong]
  · obtain ⟨x, rfl⟩ : ∃ x, v = [x] := length_eq_one_iff.1 (by omega)
    rfl

theorem Ty.width?_of_isScalar (h : ty.isScalar) : ty.width? = some 1 := by
  cases ty with
  | scalar s => rfl
  | _ => cases h

theorem Ty.exists_scalar (h : ty.isDiscrete) : ∃ s, ty.scalar? = some s ∧ s.isDiscrete := by
  cases ty with
  | scalar s => exact ⟨s, rfl, h⟩
  | vector s n => exact ⟨s, rfl, (Ty.isDiscrete_vector.1 h).1⟩
  | _ => cases h

theorem Ty.scalar?_withScalar (h : ty.isDiscrete) (s : Scalar) : (ty.withScalar s).scalar? = some s := by
  cases ty with
  | scalar _ => rfl
  | vector _ _ => rfl
  | _ => cases h

theorem Literal.exists_one (h : s.isInteger) : ∃ l, one? s = some l ∧ l.scalar = s := by
  cases s <;> cases h <;> exact ⟨_, rfl, rfl⟩

theorem Target.isDiscrete {Γ : String → Ty} {e : Expr} (h : Target Γ e) : e.ty.isDiscrete := by
  cases h with
  | ident isLocal isDiscrete => exact isDiscrete
  | @swizzle name roles scalar n s isLocal isDiscrete isVector lanes =>
    rw [isVector] at isDiscrete
    exact s.isDiscrete_typeOf (Ty.isDiscrete_vector.1 isDiscrete).1

theorem Discrete.isDiscrete {Γ : String → Ty} {e : Expr} (h : Discrete Γ e) : e.ty.isDiscrete := by
  induction h with
  | literal isDiscrete => exact isDiscrete
  | read target => exact target.isDiscrete
  | assign target | compound target => exact target.isDiscrete
  | init _ _ sameType ih => exact sameType ▸ ih
  | step isTarget => exact isTarget.isDiscrete
  | unary _ _ _ ih => exact ih
  | binary _ _ fits ihl ihr => exact fits.isDiscrete ihl ihr
  | cast _ isDiscrete ih => exact Ty.isDiscrete_withScalar ih isDiscrete
  | select _ _ _ _ _ _ iht => exact iht

/-! ## Evaluation -/

theorem Typed.update {Γ : String → Ty} {st : Store} (h : Typed Γ st) {name : String}
    (hv : HasType v (Γ name)) : Typed Γ (Function.update st name v) := by
  intro name' hd
  by_cases heq : name' = name
  · subst heq
    rwa [Function.update_self]
  · rw [Function.update_of_ne heq]
    exact h name' hd

namespace Swizzle

theorem hasType_typeOf {s : Swizzle} (hlength : v.length = s.length)
    (hv : ∀ l ∈ v, l.scalar = scalar) : HasType v (s.typeOf scalar) := by
  unfold typeOf
  split
  case isTrue hsingle =>
    rw [of_decide_eq_true hsingle] at hlength
    obtain ⟨l, rfl⟩ := length_eq_one_iff.1 hlength
    exact hasType_scalar.2 ⟨l, rfl, hv l mem_cons_self⟩
  case isFalse => exact hasType_vector.2 ⟨hlength.trans s.toNat_length.symm, hv⟩

theorem scalar_of_typeOf {s : Swizzle} (h : HasType v (s.typeOf scalar)) :
    v.length = s.length ∧ ∀ l ∈ v, l.scalar = scalar := by
  unfold typeOf at h
  split at h
  case isTrue hsingle =>
    obtain ⟨l, rfl, hl⟩ := hasType_scalar.1 h
    refine ⟨(of_decide_eq_true hsingle).symm, fun x hx => ?_⟩
    cases mem_singleton.1 hx
    exact hl
  case isFalse =>
    obtain ⟨hlength, hscalars⟩ := hasType_vector.1 h
    exact ⟨hlength.trans s.toNat_length, hscalars⟩

theorem read?_hasType {s : Swizzle} {whole : Components} (h : HasType whole (.vector scalar n))
    (hlanes : ∀ lane ∈ s.lanes, lane.val < n.toNat) :
    ∃ part, s.read? whole = some part ∧ HasType part (s.typeOf scalar) := by
  obtain ⟨hlength, hscalars⟩ := hasType_vector.1 h
  have hread : ∀ lane ∈ s.lanes, ∃ l, whole[lane.val]? = some l ∧ l.scalar = scalar := by
    intro lane hlane
    have hlt : lane.val < whole.length := hlength ▸ hlanes lane hlane
    exact ⟨_, getElem?_eq_getElem hlt, hscalars _ (getElem_mem hlt)⟩
  obtain ⟨part, hpart, hlen, hall⟩ := exists_mapM hread
  exact ⟨part, hpart, hasType_typeOf hlen hall⟩

theorem write_hasType {s : Swizzle} {whole part : Components} (h : HasType whole (.vector scalar n))
    (hpart : ∀ l ∈ part, l.scalar = scalar) : HasType (s.write whole part) (.vector scalar n) := by
  have hall : ∀ p ∈ s.lanes.zip part, p.2.scalar = scalar := fun p hp => hpart p.2 (of_mem_zip hp).2
  unfold write
  generalize s.lanes.zip part = ps at hall
  induction ps generalizing whole with
  | nil => exact h
  | cons p ps ih =>
    refine ih ?_ fun p hp => hall p (mem_cons_of_mem _ hp)
    obtain ⟨hlength, hscalars⟩ := hasType_vector.1 h
    refine hasType_vector.2 ⟨by rw [length_set, hlength], fun l hl => ?_⟩
    rcases mem_or_eq_of_mem_set hl with hl | rfl
    · exact hscalars l hl
    · exact hall p mem_cons_self

end Swizzle

section

variable {Γ : String → Ty} {e : Expr} {st : Store} (device : Device)

/-- A target evaluates to a value of its type and changes nothing. -/
theorem Target.evaluates (h : Target Γ e) (hst : Typed Γ st) :
    ∃ v, e.evaluate? device st = some (v, st) ∧ HasType v e.ty := by
  cases h with
  | @ident name roles isLocal isDiscrete => exact ⟨st name, by rw [Expr.evaluate?]; rfl, hst name isDiscrete⟩
  | @swizzle name roles scalar n s isLocal isDiscrete isVector lanes =>
    obtain ⟨part, hpart, htype⟩ := Swizzle.read?_hasType (isVector ▸ hst name isDiscrete) lanes
    refine ⟨part, ?_, htype⟩
    rw [Expr.evaluate?, Expr.evaluate?]
    simp [Variable.name, hpart]

theorem Target.assigns (h : Target Γ e) (hst : Typed Γ st) (hv : HasType v e.ty) :
    ∃ st', e.assign? v st = some st' ∧ Typed Γ st' := by
  cases h with
  | @ident name roles isLocal isDiscrete => exact ⟨_, rfl, hst.update hv⟩
  | @swizzle name roles scalar n s isLocal isDiscrete isVector lanes =>
    have hwhole := hst name isDiscrete
    have hwritten : HasType (s.write (st name) v) (Γ name) := by
      rw [isVector] at hwhole ⊢
      exact Swizzle.write_hasType hwhole (Swizzle.scalar_of_typeOf hv).2
    exact ⟨_, rfl, hst.update hwritten⟩

theorem select?_each {vc : Components} (h : vc.length ≠ 1) (vt vf : Components) :
    select? vc vt vf = (zipAll (fun t f => some (t, f)) vt vf).bind
      (zipAll (fun (c : Literal) p => some (if c.isTrue then p.1 else p.2)) vc) := by
  match vc, h with
  | [], _ | _ :: _ :: _, _ => rfl

theorem Ty.Chooses.scalar? {c t : Ty} (h : c.Chooses t) : c.scalar? = some .bool := by
  cases h <;> rfl

theorem select?_hasType {vc vt vf : Components} {c t : Ty} (h : c.Chooses t) (hd : c.isDiscrete) (hc : HasType vc c)
    (ht : HasType vt t) (hf : HasType vf t) : ∃ v, select? vc vt vf = some v ∧ HasType v t := by
  cases h with
  | one =>
    obtain ⟨x, rfl, -⟩ := hasType_scalar.1 hc
    refine ⟨_, rfl, ?_⟩
    split
    · exact ht
    · exact hf
  | @each s n =>
    obtain ⟨hlengthc, -⟩ := hasType_vector.1 hc
    obtain ⟨hlengtht, hscalarst⟩ := hasType_vector.1 ht
    obtain ⟨hlengthf, hscalarsf⟩ := hasType_vector.1 hf
    rw [select?_each (hlengthc ▸ Nat.ne_of_gt (Ty.isDiscrete_vector.1 hd).2.1)]
    obtain ⟨ps, hps, hlength, hscalars⟩ := exists_zipAll
      (f := fun t f => some (t, f)) (P := fun p : Literal × Literal => p.1.scalar = s ∧ p.2.scalar = s)
      (hlengtht.trans hlengthf.symm) fun x hx y hy => ⟨_, rfl, hscalarst x hx, hscalarsf y hy⟩
    obtain ⟨v, hv, hlength', hscalars'⟩ := exists_zipAll
      (f := fun (c : Literal) (p : Literal × Literal) => some (if c.isTrue then p.1 else p.2))
      (P := fun l => l.scalar = s) (hlengthc.trans (hlengtht.symm.trans hlength.symm))
      fun x _ p hp => ⟨_, rfl, by split; exacts [(hscalars p hp).1, (hscalars p hp).2]⟩
    exact ⟨v, by rw [hps]; exact hv, hasType_vector.2 ⟨hlength'.trans hlengthc, hscalars'⟩⟩

/-- Every discrete expression evaluates to a value of its type. -/
theorem Discrete.evaluates (h : Discrete Γ e) : ∀ {st : Store}, Typed Γ st →
    ∃ v st', e.evaluate? device st = some (v, st') ∧ HasType v e.ty ∧ Typed Γ st' := by
  induction h with
  | literal isDiscrete =>
    intro st hst
    exact ⟨_, st, by rw [Expr.evaluate?], hasType_scalar.2 ⟨_, rfl, rfl⟩, hst⟩
  | read target =>
    intro st hst
    obtain ⟨v, hv, htype⟩ := target.evaluates device hst
    exact ⟨v, st, hv, htype, hst⟩
  | assign target value sameType ih =>
    intro st hst
    obtain ⟨v, st₁, hv, htype, hst₁⟩ := ih hst
    obtain ⟨st₂, hassign, hst₂⟩ := target.assigns hst₁ (sameType ▸ htype)
    refine ⟨v, st₂, ?_, sameType ▸ htype, hst₂⟩
    rw [Expr.evaluate?, hv]
    simp [hassign]
  | compound target value fits ih =>
    intro st hst
    obtain ⟨old, hold, holdType⟩ := target.evaluates device hst
    obtain ⟨r, st₁, hr, hrType, hst₁⟩ := ih hst
    obtain ⟨v, hv, htype⟩ := BinOp.combine?_of_fits device fits target.isDiscrete value.isDiscrete holdType hrType
    obtain ⟨st₂, hassign, hst₂⟩ := target.assigns hst₁ htype
    refine ⟨v, st₂, ?_, htype, hst₂⟩
    rw [Expr.evaluate?, hold]
    simp [hr, hv, hassign]
  | init isLocal value sameType ih =>
    intro st hst
    obtain ⟨v, st₁, hv, htype, hst₁⟩ := ih hst
    refine ⟨v, _, ?_, sameType ▸ htype, hst₁.update (sameType ▸ htype)⟩
    rw [Expr.evaluate?, hv]
    rfl
  | @step op target s isTarget components isInteger =>
    intro st hst
    obtain ⟨old, hold, holdType⟩ := isTarget.evaluates device hst
    obtain ⟨one, hone, honeType⟩ := Literal.exists_one isInteger
    obtain ⟨new, hnew, hnewType⟩ := BinOp.combine?_of_fits device
      (BinOp.fits_step op isTarget.isDiscrete components isInteger).1 isTarget.isDiscrete
      (Scalar.isDiscrete_of_isInteger isInteger) holdType (hasType_scalar.2 ⟨one, rfl, honeType⟩)
    obtain ⟨st', hassign, hst'⟩ := isTarget.assigns hst hnewType
    refine ⟨if op.yieldsNew then new else old, st', ?_, ?_, hst'⟩
    · rw [Expr.evaluate?, hold, components]
      simp [hone, hnew, hassign]
    · split
      · exact hnewType
      · exact holdType
  | @unary op x s operand components works ih =>
    intro st hst
    obtain ⟨v, st₁, hv, htype, hst₁⟩ := ih hst
    obtain ⟨v', hv', htype'⟩ := htype.mapM components fun l hl => hl ▸ UnOp.onLiteral?_of_worksOn (hl ▸ works)
    rw [Ty.withScalar_of_scalar? components] at htype'
    refine ⟨v', st₁, ?_, htype', hst₁⟩
    rw [Expr.evaluate?, hv]
    simp [hv']
  | binary left right fits ihl ihr =>
    intro st hst
    obtain ⟨vl, st₁, hvl, hl, hst₁⟩ := ihl hst
    obtain ⟨vr, st₂, hvr, hr, hst₂⟩ := ihr hst₁
    obtain ⟨v, hv, htype⟩ := BinOp.combine?_of_fits device fits left.isDiscrete right.isDiscrete hl hr
    refine ⟨v, st₂, ?_, htype, hst₂⟩
    rw [Expr.evaluate?, hvl]
    simp [hvr, hv]
  | cast operand isDiscrete ih =>
    intro st hst
    obtain ⟨v, st₁, hv, htype, hst₁⟩ := ih hst
    obtain ⟨own, hown, hdiscrete⟩ := Ty.exists_scalar operand.isDiscrete
    obtain ⟨v', hv', htype'⟩ := htype.mapM hown fun l hl => Literal.cast?_of_isDiscrete isDiscrete (hl ▸ hdiscrete)
    refine ⟨v', st₁, ?_, htype', hst₁⟩
    rw [Expr.evaluate?, hv, Ty.scalar?_withScalar operand.isDiscrete]
    simp [hv']
  | select condition onTrue onFalse sameType chooses ihc iht ihf =>
    intro st hst
    obtain ⟨vc, st₁, hvc, hc, hst₁⟩ := ihc hst
    obtain ⟨vt, st₂, hvt, ht, hst₂⟩ := iht hst₁
    obtain ⟨vf, st₃, hvf, hf, hst₃⟩ := ihf hst₂
    obtain ⟨v, hv, htype⟩ := select?_hasType chooses condition.isDiscrete hc ht (sameType ▸ hf)
    refine ⟨v, st₃, ?_, htype, hst₃⟩
    rw [Expr.evaluate?, hvc]
    simp [hvt, hvf, hv]

end

end Shader
