import Shader.Proofs.Copies
import Shader.Proofs.Layout

/-!
# Components of constructed values

A constructor of a vector or a matrix gives the components of its arguments, column by column, converted
to its own scalar type: one scalar fills a vector or the diagonal of a matrix, one longer vector is cut,
and otherwise the components follow one another.
-/

namespace Shader

open Action List

variable {α : Type} {s t : Lowerer} {components : Id → List α} {ids : List Id} {id : Id} {parts : Parts}
  {columns rows : Word} {wanted : Scalar} {β : Type}

/-! ## Reading composites -/

/-- The components that identifiers have agree with the instructions that join and select them. -/
structure Lowerer.Reading (t : Lowerer) {α : Type} (components : Id → List α) : Prop where
  declared : ∀ {type id : Id} {constituents : List Id},
    .value .ConstantComposite type id constituents ∈ t.module.declarations →
    components id = constituents.flatMap components
  joined : ∀ {type id : Id} {constituents : List Id},
    .value .CompositeConstruct type id constituents ∈ t.block.instructions →
    components id = constituents.flatMap components
  selected : ∀ {type id a b : Id} {lanes : List Word},
    .value .VectorShuffle type id (a :: b :: lanes) ∈ t.block.instructions →
    lanes.map (fun lane => (components a ++ components b)[lane.toNat]?) = (components id).map some

/-- The components of a literal, as the module finds it. -/
def Lowerer.literal {α : Type} (t : Lowerer) (components : Id → List α) (l : Literal) : List α :=
  (t.module.literals.get? l).elim [] components

/-- The components of a value that is constructed from values with such components. -/
def Ty.arrange {α : Type} (zero : List α) (ty : Ty) (args : List Ty) (given : List (List α)) : List α :=
  match ty, args, given with
  | .vector _ n, [.scalar _], [c] => (replicate n.toNat c).flatten
  | .vector _ n, [.vector ..], [cs] => cs.take n.toNat
  | .matrix _ columns rows, [.scalar _], [c] => (range columns.toNat).flatMap fun j =>
      (range rows.toNat).flatMap fun i => if i = j then c else zero
  | _, _, _ => given.flatten

theorem Ty.arrange_of_ne {args : List Ty} (h : ∀ arg, args ≠ [arg]) (zero : List α) (ty : Ty)
    (given : List (List α)) : ty.arrange zero args given = given.flatten := by
  unfold Ty.arrange
  split
  · exact absurd rfl (h _)
  · exact absurd rfl (h _)
  · exact absurd rfl (h _)
  · rfl

/-- The identifier is that of a composite of these constituents, declared or computed. -/
def Lowerer.Joins (t : Lowerer) (constituents : List Id) (id : Id) : Prop :=
  ∃ type, t.module.composites.get? (constituents, type) = some id ∨
    .value .CompositeConstruct type id constituents ∈ t.block.instructions

namespace Lowerer

variable {constituents : List Id}

theorem Reading.earlier (h : t.Reading components) (hlater : s.Extends t) : s.Reading components where
  declared hmem := h.declared (hlater.module.declarations.subset hmem)
  joined hmem := h.joined (hlater.code.subset hmem)
  selected hmem := h.selected (hlater.code.subset hmem)

theorem Joins.mono (h : s.Joins constituents id) (hlater : s.Extends t) : t.Joins constituents id :=
  h.imp fun _ => Or.imp (hlater.module.composites _ _) fun hmem => hlater.code.subset hmem

theorem Joins.reads (h : t.Joins constituents id) (ht : t.module.Sound) (hreads : t.Reading components) :
    components id = constituents.flatMap components := by
  obtain ⟨type, hregistered | hmem⟩ := h
  · exact hreads.declared (ht.composites _ _ _ hregistered)
  · exact hreads.joined hmem

theorem flatMap_of_joins {f : β → List Id} {l : List β} (h : Forall₂ (fun b id => t.Joins (f b) id) l ids)
    (ht : t.module.Sound) (hreads : t.Reading components) :
    ids.flatMap components = l.flatMap fun b => (f b).flatMap components := by
  induction h with
  | nil => rfl
  | cons hid _ ih => rw [flatMap_cons, flatMap_cons, hid.reads ht hreads, ih]

end Lowerer

namespace Lower

variable {u : Lowerer}

theorem Extending.composite (ty : Ty) (ids : List Id) (constant : Bool) : Extending (composite ty ids constant) :=
  .of_keeps (ids.map .value) fun _ hL => composite_steady hL ty (fun _ hv => mem_map_of_mem hv) constant

theorem composite_joins (ty : Ty) (ids : List Id) (constant : Bool) :
    (composite ty ids constant).Ensures fun id t => t.Joins ids id := by
  intro s id t h
  unfold composite at h
  split at h
  · obtain ⟨type, -, hregistered⟩ := Module.declareComposite_ok (onModule_ok h).1
    exact ⟨type, .inl hregistered⟩
  · obtain ⟨-, type, -, hcode⟩ := emit_appends h
    exact ⟨type, .inr (by simp [hcode])⟩

theorem Extending.mapM {γ : Type} {f : β → Lower γ} (hf : ∀ b, Extending (f b)) : ∀ l : List β, Extending (l.mapM f)
  | [] => .pure _
  | b :: l => by
    rw [mapM_cons]
    exact (hf b).bind fun _ => (Extending.mapM hf l).bind fun _ => .pure _

theorem mapM_joins (ty : Ty) (f : β → List Id) (constant : Bool) : ∀ l : List β,
    (l.mapM fun b => composite ty (f b) constant).Ensures fun ids t => Forall₂ (fun b id => t.Joins (f b) id) l ids
  | [] => .pure fun _ => .nil
  | b :: l => by
    intro s ids t h
    rw [mapM_cons] at h
    obtain ⟨id, s₁, hid, h⟩ := bind_ok h
    obtain ⟨rest, s₂, hrest, h⟩ := bind_ok h
    obtain ⟨rfl, rfl⟩ := pure_ok h
    have hlater := Extending.mapM (fun b => .composite ty (f b) constant) l hrest
    exact .cons ((composite_joins ty (f b) constant s id s₁ hid).mono hlater)
      (mapM_joins ty f constant l s₁ rest s₂ hrest)

theorem flatten_groups {n : Nat} : ∀ {count : Nat} {l : List β}, l.length ≤ n * count → (groups n count l).flatten = l
  | 0, l, h => by
    rw [length_eq_zero_iff.1 (Nat.le_zero.1 h)]
    rfl
  | _ + 1, [], _ => rfl
  | count + 1, b :: l, h => by
    rw [groups, flatten_cons, flatten_groups, take_append_drop]
    · rw [length_drop, Nat.mul_succ] at *
      omega
    · exact cons_ne_nil b l

section

variable {args : List Expr} {constant : Bool} {scalar : Scalar} (ht : t.module.Sound) (hreads : t.Reading components)

include ht hreads

theorem composite_reads {ty : Ty} (h : composite ty ids constant s = (.ok id, t)) :
    components id = ids.flatMap components :=
  (composite_joins ty ids constant s id t h).reads ht hreads

omit ht in
theorem shuffle_reads {ty : Ty} {n : Word} {c : Id} (hn : n.toNat ≤ (components c).length)
    (h : emit .VectorShuffle ty ([c, c] ++ (range n.toNat).map (·.toUInt32)) s = (.ok id, t)) :
    components id = (components c).take n.toNat := by
  obtain ⟨-, type, -, hcode⟩ := emit_appends h
  have hmem : Inst.value .VectorShuffle type id (c :: c :: (range n.toNat).map (·.toUInt32)) ∈
      t.block.instructions := by
    rw [hcode]
    exact mem_append_right _ mem_cons_self
  have hselected := hreads.selected hmem
  have htake : ((range n.toNat).map (·.toUInt32)).map
      (fun lane => (components c ++ components c)[lane.toNat]?) = ((components c).take n.toNat).map some := by
    refine ext_getElem (by simp [hn]) fun i hi _ => ?_
    have hlt : i < n.toNat := by simpa using hi
    have hword : i % 4294967296 = i := Nat.mod_eq_of_lt (Nat.lt_trans hlt n.toNat_lt)
    simp [hword, getElem?_append_left (Nat.lt_of_lt_of_le hlt hn), getElem?_eq_getElem (Nat.lt_of_lt_of_le hlt hn)]
  exact (map_inj_right fun _ _ => Option.some.inj).1 (hselected.symm.trans htake)

theorem joinMatrix_reads (hlength : ids.length = args.length)
    (h : joinMatrix scalar columns rows args ids constant s = (.ok id, t)) :
    components id = ids.flatMap components := by
  unfold joinMatrix at h
  split at h
  · exact composite_reads ht hreads h
  · obtain ⟨count, s₁, hcount, h⟩ := bind_ok h
    split at h
    case isFalse => cases h
    case isTrue hscalars =>
      obtain ⟨columnIds, s₂, hcolumns, h⟩ := bind_ok h
      have hjoins := mapM_joins _ (fun group => group) constant _ _ _ _ hcolumns
      have hlater := Extending.composite _ _ _ h
      have hfull : ids.length ≤ rows.toNat * ids.length := by
        rw [Bool.and_eq_true, decide_eq_true_eq, Word.mul_ok (Build.checked_ok hcount).1] at hscalars
        cases hrows : rows.toNat with
        | zero => rw [hlength, hscalars.1, hrows]; simp
        | succ n => exact Nat.le_mul_of_pos_left _ (Nat.succ_pos n)
      calc components id = columnIds.flatMap components := composite_reads ht hreads h
        _ = (groups rows.toNat ids.length ids).flatMap fun group => group.flatMap components :=
          Lowerer.flatMap_of_joins (hjoins.imp fun _ _ hj => hj.mono hlater) ht hreads
        _ = (groups rows.toNat ids.length ids).flatten.flatMap components := by
          rw [← flatMap_assoc, flatMap_id']
        _ = ids.flatMap components := by rw [flatten_groups hfull]

theorem diagonalMatrix_reads {c : Id} {zero : List α}
    (hzero : ∀ z, t.module.literals.get? (.zero scalar) = some z → components z = zero)
    (h : diagonalMatrix scalar columns rows c constant s = (.ok id, t)) :
    components id = (range columns.toNat).flatMap fun j =>
      (range rows.toNat).flatMap fun i => if i = j then components c else zero := by
  obtain ⟨z, s₁, hz, h⟩ := bind_ok h
  obtain ⟨columnIds, s₂, hcolumns, h⟩ := bind_ok h
  have hjoins := mapM_joins _ (fun j => (range rows.toNat).map fun r => if r = j then c else z)
    constant _ _ _ _ hcolumns
  have hlater := Extending.composite _ _ _ h
  have hdeclared := Module.declareLiteral_ok (onModule_ok hz).1
  have hmapped := Extending.mapM (fun j => .composite _ _ constant) _ hcolumns
  have hz' := hzero z ((hmapped.trans hlater).module.literals _ _ hdeclared)
  rw [composite_reads ht hreads h, Lowerer.flatMap_of_joins (hjoins.imp fun _ _ hj => hj.mono hlater) ht hreads]
  refine flatMap_congr fun j _ => ?_
  rw [flatMap_map]
  refine flatMap_congr fun i _ => ?_
  split
  · rfl
  · exact hz'

theorem constructVector_reads {n : Word} {zero : List α} (hlength : ids.length = args.length)
    (hsize : ∀ arg c own m, args = [arg] → ids = [c] → arg.ty = .vector own m → (components c).length = m.toNat)
    (h : constructVector scalar n args ids constant s = (.ok id, t)) :
    components id = (Ty.vector scalar n).arrange zero (args.map (·.ty)) (ids.map components) := by
  have hjoin : ∀ {constant : Bool}, composite (.vector scalar n) ids constant s = (.ok id, t) →
      components id = (ids.map components).flatten := fun h => by
    rw [composite_reads ht hreads h, flatMap_def]
  match args, ids with
  | [], [] => exact hjoin h
  | arg :: arg' :: args, c :: c' :: ids =>
    rw [Ty.arrange_of_ne (by simp)]
    exact hjoin h
  | [arg], [c] =>
    show components id = Ty.arrange zero _ [arg.ty] [components c]
    generalize hx : constructVector scalar n [arg] [c] constant = x at h
    unfold constructVector at hx
    dsimp only at hx
    cases hty : arg.ty with
    | scalar own =>
      rw [hty] at hx
      subst hx
      rw [composite_reads ht hreads h]
      simp [Ty.arrange, flatMap_def]
    | vector own m =>
      rw [hty] at hx
      have hm := hsize arg c own m rfl rfl hty
      show components id = (components c).take n.toNat
      dsimp only at hx
      split at hx <;> subst hx
      case isTrue heq =>
        obtain ⟨rfl, -⟩ := pure_ok h
        exact (take_of_length_le (by rw [hm, heq])).symm
      case isFalse =>
        split at h
        case isTrue hlt => exact shuffle_reads hreads (by rw [hm]; exact Nat.le_of_lt hlt) h
        case isFalse hle =>
          rw [hjoin h, take_of_length_le (by rw [hm]; exact UInt32.not_lt.1 hle)]
          exact append_nil _
    | _ =>
      rw [hty] at hx
      subst hx
      exact hjoin h

theorem constructMatrix_reads {zero : List α} (hlength : ids.length = args.length)
    (hzero : ∀ z, t.module.literals.get? (.zero scalar) = some z → components z = zero)
    (h : constructMatrix scalar columns rows args ids constant s = (.ok id, t)) :
    components id = (Ty.matrix scalar columns rows).arrange zero (args.map (·.ty)) (ids.map components) := by
  have hjoin : joinMatrix scalar columns rows args ids constant s = (.ok id, t) →
      components id = (ids.map components).flatten := fun h => by
    rw [joinMatrix_reads ht hreads hlength h, flatMap_def]
  match args, ids with
  | [], [] => exact hjoin h
  | arg :: arg' :: args, c :: c' :: ids =>
    rw [Ty.arrange_of_ne (by simp)]
    exact hjoin h
  | [arg], [c] =>
    show components id = Ty.arrange zero _ [arg.ty] [components c]
    unfold constructMatrix at h
    dsimp only at h
    split at h
    case isTrue hsame =>
      obtain ⟨rfl, -⟩ := pure_ok h
      rw [hsame]
      exact (append_nil _).symm
    case isFalse =>
      split at h
      case isTrue hscalar =>
        obtain ⟨own, hown⟩ := Ty.exists_of_isScalar hscalar
        rw [hown]
        exact diagonalMatrix_reads ht hreads hzero h
      case isFalse hscalar =>
        rw [hjoin h]
        cases hty : arg.ty with
        | scalar own => exact absurd (by rw [hty]; rfl) hscalar
        | _ => rfl

end

/-! ## Arguments -/

end Lower

/-- The type of the value after conversion of its components. -/
def Ty.converted (wanted : Scalar) : Ty → Ty
  | .vector _ n => .vector wanted n
  | _ => .scalar wanted

/-- The literal, or the vector that repeats it. -/
def Lowerer.Replicates (t : Lowerer) (l : Literal) (size : Word) (id : Id) : Prop :=
  ∃ c, t.module.literals.get? l = some c ∧
    if 1 < size then t.Joins (replicate size.toNat c) id else id = c

/-- The identifier is that of the operand as a value of the type. -/
inductive Lowerer.Converted (t : Lowerer) (o : Operand) (target : Ty) : Id → Prop where
  | same (isSame : o.ty = target) : Converted t o target o.id
  | instruction {a b : Scalar} {size : Word} {op : Op} {type id : Id}
      (shape : Lower.castShape? o.ty target = some (a, b, size))
      (isInstruction : Lower.conversion a b = .instruction op)
      (ofType : t.module.Finds none none target type)
      (computed : .value op type id [o.id] ∈ t.block.instructions) : Converted t o target id
  | ofBool {a b : Scalar} {size : Word} {l : Literal} {one zero type id : Id}
      (shape : Lower.castShape? o.ty target = some (a, b, size))
      (isBool : Lower.conversion a b = .ofBool) (hasOne : Literal.one? b = some l)
      (ones : t.Replicates l size one) (zeros : t.Replicates (.zero b) size zero)
      (ofType : t.module.Finds none none target type)
      (computed : .value .Select type id [o.id, one, zero] ∈ t.block.instructions) :
      Converted t o target id
  | toBool {a b : Scalar} {size : Word} {zero type id : Id} (shape : Lower.castShape? o.ty target = some (a, b, size))
      (isBool : Lower.conversion a b = .toBool) (zeros : t.Replicates (.zero a) size zero)
      (ofType : t.module.Finds none none target type)
      (computed : .value (if a.isFloat then .FUnordNotEqual else .INotEqual) type id [o.id, zero] ∈
        t.block.instructions) : Converted t o target id

theorem Lowerer.Replicates.mono {l : Literal} {size : Word}
    (h : s.Replicates l size id) (hlater : s.Extends t) : t.Replicates l size id := by
  obtain ⟨c, hc, hid⟩ := h
  refine ⟨c, hlater.module.literals _ _ hc, ?_⟩
  split
  case isTrue hsize =>
    rw [if_pos hsize] at hid
    exact hid.mono hlater
  case isFalse hsize =>
    rw [if_neg hsize] at hid
    exact hid

theorem Lowerer.Converted.mono {o : Operand} {target : Ty}
    (h : s.Converted o target id) (hlater : s.Extends t) : t.Converted o target id := by
  have hretains := hlater.module.toRetains
  cases h with
  | same isSame => exact .same isSame
  | instruction shape isInstruction ofType computed =>
    exact .instruction shape isInstruction (ofType.mono hretains) (hlater.code.subset computed)
  | ofBool shape isBool hasOne ones zeros ofType computed =>
    exact .ofBool shape isBool hasOne (ones.mono hlater) (zeros.mono hlater) (ofType.mono hretains)
      (hlater.code.subset computed)
  | toBool shape isBool zeros ofType computed =>
    exact .toBool shape isBool (zeros.mono hlater) (ofType.mono hretains) (hlater.code.subset computed)

namespace Lower

theorem emit_computes (op : Op) (ty : Ty) (operands : List Word) : (emit op ty operands).Ensures fun id t =>
    ∃ type, t.module.Finds none none ty type ∧ .value op type id operands ∈ t.block.instructions := by
  intro s id t h
  obtain ⟨-, type, hfinds, hcode⟩ := emit_appends h
  exact ⟨type, hfinds, by simp [hcode]⟩

theorem replicated_replicates (l : Literal) (size : Word) :
    (replicated l size).Ensures fun id t => t.Replicates l size id := by
  intro s id t h
  obtain ⟨c, s₁, hc, h⟩ := bind_ok h
  have hdeclared := Module.declareLiteral_ok (onModule_ok hc).1
  split at h
  case isTrue hsize =>
    refine ⟨c, (Extending.splat _ _ _ _ h).module.literals _ _ hdeclared, ?_⟩
    rw [if_pos hsize]
    exact composite_joins _ _ _ _ _ _ h
  case isFalse hsize =>
    obtain ⟨rfl, rfl⟩ := pure_ok h
    exact ⟨c, hdeclared, if_neg hsize ▸ rfl⟩

theorem Extending.replicated (l : Literal) (size : Word) : Extending (replicated l size) :=
  .of_keeps [] fun _ hL => replicated_steady hL l size

theorem cast_converted (o : Operand) (target : Ty) : (cast o target).Ensures fun id t => t.Converted o target id := by
  unfold cast
  split
  case isTrue hsame => exact .pure fun _ => .same hsame
  case isFalse =>
    split
    · exact .refuse _
    case h_2 a b size hshape =>
      split
      case h_1 hconversion =>
        cases eq_of_conversion hconversion
        exact absurd (eq_of_castShape? hshape) ‹_›
      case h_2 op hconversion =>
        intro s id t h
        obtain ⟨type, hfinds, hmem⟩ := emit_computes _ _ _ s id t h
        exact .instruction hshape hconversion hfinds hmem
      case h_3 hconversion =>
        split
        · exact .refuse _
        case h_2 l hl =>
          intro s id t h
          obtain ⟨one, s₁, hone, h⟩ := bind_ok h
          obtain ⟨zero, s₂, hzero, h⟩ := bind_ok h
          obtain ⟨type, hfinds, hmem⟩ := emit_computes _ _ _ s₂ id t h
          have hlast := (emit_appends h).1
          exact .ofBool hshape hconversion hl
            ((replicated_replicates _ _ _ _ _ hone).mono ((Extending.replicated _ _ hzero).trans hlast))
            ((replicated_replicates _ _ _ _ _ hzero).mono hlast) hfinds hmem
      case h_4 hconversion =>
        intro s id t h
        obtain ⟨zero, s₁, hzero, h⟩ := bind_ok h
        obtain ⟨type, hfinds, hmem⟩ := emit_computes _ _ _ s₁ id t h
        exact .toBool hshape hconversion ((replicated_replicates _ _ _ _ _ hzero).mono (emit_appends h).1) hfinds hmem

/-- What an argument of a constructor has become, after the first state and before the second. -/
inductive Given (parts : Parts) (s t : Lowerer) (wanted : Scalar) (arg : Expr) : Id → Prop where
  | lowered {u v : Lowerer} {id : Id} (own : ∀ a, arg.ty.scalar? = some a → a = wanted)
      (before : s.Extends u) (value : parts.value arg u = (.ok id, v)) (after : v.Extends t) :
      Given parts s t wanted arg id
  | literal {a : Scalar} {l : Literal} {id : Id} (own : arg.ty.scalar? = some a) (isOther : a ≠ wanted)
      (isLiteral : arg.node = .literal l)
      (declared : t.module.literals.get? (l.convert wanted) = some id) : Given parts s t wanted arg id
  | converted {a : Scalar} {u v : Lowerer} {id id' : Id} (own : arg.ty.scalar? = some a)
      (isOther : a ≠ wanted) (notLiteral : ∀ l, arg.node ≠ .literal l) (before : s.Extends u)
      (value : parts.value arg u = (.ok id, v)) (after : v.Extends t)
      (cast : t.Converted { ty := arg.ty, id } (arg.ty.converted wanted) id') :
      Given parts s t wanted arg id'

theorem Given.mono {arg : Expr} {r u : Lowerer} (h : Given parts s t wanted arg id)
    (hearlier : r.Extends s) (hlater : t.Extends u) : Given parts r u wanted arg id := by
  cases h with
  | lowered own before value after => exact .lowered own (hearlier.trans before) value (after.trans hlater)
  | literal own isOther isLiteral declared => exact .literal own isOther isLiteral (hlater.module.literals _ _ declared)
  | converted own isOther notLiteral before value after cast =>
    exact .converted own isOther notLiteral (hearlier.trans before) value (after.trans hlater) (cast.mono hlater)

theorem constructArg_given {arg : Expr} {kept : Bool}
    (h : constructArg parts (some wanted) arg s = (.ok (id, kept), t)) : Given parts s t wanted arg id := by
  generalize hx : constructArg parts (some wanted) arg = x at h
  unfold constructArg at hx
  split at hx
  case h_1 _ wanted' own hwanted hown =>
    cases hwanted
    split at hx
    case isTrue heq =>
      subst hx
      obtain ⟨id', u, hid, h⟩ := bind_ok h
      obtain ⟨hpair, rfl⟩ := pure_ok h
      cases hpair
      refine .lowered (fun a ha => ?_) (.refl s) hid (.refl u)
      rw [hown] at ha
      exact (Option.some.inj ha).symm.trans heq
    case isFalse hne =>
      split at hx <;> subst hx
      case h_1 l hl =>
        obtain ⟨id', u, hid, h⟩ := bind_ok h
        obtain ⟨hpair, rfl⟩ := pure_ok h
        cases hpair
        exact .literal hown hne hl (Module.declareLiteral_ok (onModule_ok hid).1)
      case h_2 hliteral =>
        obtain ⟨id', u, hid, h⟩ := bind_ok h
        obtain ⟨c, v, hc, h⟩ := bind_ok h
        obtain ⟨hpair, rfl⟩ := pure_ok h
        cases hpair
        have hlater : u.Extends v := Extending.of_keeps [.value id'] (fun _ hL =>
          cast_steady (o := { ty := arg.ty, id := id' }) hL mem_cons_self _) hc
        exact .converted hown hne hliteral (.refl s) hid hlater (cast_converted _ _ u id v hc)
  case h_2 hnone =>
    subst hx
    obtain ⟨id', u, hid, h⟩ := bind_ok h
    obtain ⟨hpair, rfl⟩ := pure_ok h
    cases hpair
    exact .lowered (fun a ha => absurd ha (hnone wanted a rfl)) (.refl s) hid (.refl u)

theorem constructArgs_given (hparts : parts.Regular) :
    ∀ {args : List Expr} {s t : Lowerer} {ids : List Id} {kept : Bool},
      constructArgs parts (some wanted) args s = (.ok (ids, kept), t) →
      Forall₂ (Given parts s t wanted) args ids
  | [], _, _, _, _, h => by
    obtain ⟨hpair, -⟩ := pure_ok h
    cases hpair
    exact .nil
  | arg :: args, s, t, _, _, h => by
    obtain ⟨⟨id, kept⟩, u, hid, h⟩ := bind_ok h
    obtain ⟨⟨ids, allKept⟩, v, hids, h⟩ := bind_ok h
    obtain ⟨hpair, rfl⟩ := pure_ok h
    cases hpair
    have hfirst : s.Extends u := Extending.of_keeps [] (fun _ hL => constructArg_steady hL
      (hparts _ hL) (fun _ _ => inferInstance) arg.operable_any) hid
    have hrest : u.Extends v := Extending.of_keeps [] (fun _ hL => constructArgs_steady hL
      (hparts _ hL) (fun _ _ => inferInstance) args (fun a _ => a.operable_any) []) hids
    exact .cons ((constructArg_given hid).mono (.refl s) hrest)
      ((constructArgs_given hparts hids).imp fun _ _ hgiven => hgiven.mono hfirst (.refl v))

end Lower

/-- There are components that agree with the instructions for `mat2(n)`: those where `n` is 7. -/
theorem lower_mat2_reading : (Lower.lower ⟨.matrix .float 2 2, .construct [.number]⟩ .inFunction).2.Reading
    fun id => ((lookup id
      [(11, [7]), (12, [0]), (14, [7, 0]), (15, [0, 7]), (17, [7, 0, 0, 7])]).getD [] : List Nat) := by
  let t := (Lower.lower ⟨.matrix .float 2 2, .construct [.number]⟩ .inFunction).2
  have hdeclared : ∀ inst ∈ t.module.declarations, inst.op ≠ .ConstantComposite := by decide +kernel
  have hcode : ∀ inst ∈ t.block.instructions, inst.op ≠ .VectorShuffle ∧ (inst.op = .CompositeConstruct →
      inst ∈ [.value .CompositeConstruct 13 14 [11, 12], .value .CompositeConstruct 13 15 [12, 11],
        .value .CompositeConstruct 16 17 [14, 15]]) := by decide +kernel
  refine ⟨fun h => absurd rfl (hdeclared _ h), fun h => ?_, fun h => absurd rfl (hcode _ h).1⟩
  have hmem := (hcode _ h).2 rfl
  simp only [mem_cons, not_mem_nil, or_false] at hmem
  rcases hmem with h | h | h <;> cases h <;> rfl

end Shader
