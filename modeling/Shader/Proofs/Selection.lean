import Shader.Proofs.Results
import Shader.Proofs.Typing

/-!
# Selections

Members, elements and lanes of a variable are reached on a path from it, each step of which leads to a
part of the type before it. Several lanes of a vector are shuffled into a vector of as many; several
lanes of a number in storage are shuffled too, into a number.
-/

namespace Shader

open List Option Swizzle

variable {e outer array : Expr} {ty : Ty} {i : Word} {scalar : Scalar} {step : Step}

/-! ## Well-typed expressions -/

/-- Members have the types that their structs give them. -/
inductive Variable.WellTyped : Variable → Prop where
  | root (name : String) (ty : Ty) (roles : Roles) : WellTyped (.root name ty roles)
  | member {outer : Variable} {struct : String} {layout : MemoryLayout} {members : List Member}
      {m : Member} (index : Word) (name : String) (outerTyped : outer.WellTyped)
      (isStruct : outer.ty = .struct struct layout members)
      (isMember : members[index.toNat]? = some m) : WellTyped (.member outer index name m.ty)

namespace Expr

variable {Γ : Context} {o a : Expr}

/-- Expressions as their constructors make them, where values are stored in what has their type. -/
inductive WellTyped : Expr → Prop where
  | literal (l : Literal) : WellTyped (.literal l)
  | ident {v : Variable} (isTyped : v.WellTyped) : WellTyped (.ident v)
  | assign {lhs rhs : Expr} (target : lhs.WellTyped) (value : rhs.WellTyped)
      (sameType : rhs.ty = lhs.ty) : WellTyped (.assign none lhs rhs)
  | compound {lhs rhs : Expr} (op : BinOp) (target : lhs.WellTyped) (value : rhs.WellTyped) :
      WellTyped (.assign (some op) lhs rhs)
  | init {v : Variable} {initial : Expr} (isTyped : v.WellTyped) (value : initial.WellTyped)
      (sameType : initial.ty = v.ty) : WellTyped (.init v initial)
  | unary {x : Expr} (op : UnOp) (operand : x.WellTyped) : WellTyped (.unary op x)
  | binary {l r : Expr} (op : BinOp) (ty : Ty) (left : l.WellTyped) (right : r.WellTyped) :
      WellTyped ⟨ty, .binary op l r⟩
  | cast {x : Expr} (ty : Ty) (operand : x.WellTyped) : WellTyped ⟨ty, .cast x⟩
  | step {x : Expr} (op : StepOp) (target : x.WellTyped) : WellTyped (.step op x)
  | construct {args : List Expr} (ty : Ty) (operands : ∀ arg ∈ args, arg.WellTyped) : WellTyped ⟨ty, .construct args⟩
  | call {func : Variable} {args : List Expr} {ty : Ty} (operands : ∀ arg ∈ args, arg.WellTyped)
      (isCall : call? func args = some ⟨ty, .call func args⟩) : WellTyped ⟨ty, .call func args⟩
  | member {outer : Expr} {i : Word} {ty : Ty} (whole : outer.WellTyped)
      (isMember : outer.member? i = some ⟨ty, .member outer i⟩) : WellTyped ⟨ty, .member outer i⟩
  | index {array i : Expr} {ty : Ty} (whole : array.WellTyped) (position : i.WellTyped)
      (isElement : array.index? i = some ⟨ty, .index array i⟩) : WellTyped ⟨ty, .index array i⟩
  | swizzle {outer : Expr} {s : Swizzle} {ty : Ty} (letters : String) (whole : outer.WellTyped)
      (isSwizzle : outer.swizzle? letters = some ⟨ty, .swizzle outer s⟩) :
      WellTyped ⟨ty, .swizzle outer s⟩
  | intrinsic {args : List Expr} (f : Intrinsic) (ty : Ty) (operands : ∀ arg ∈ args, arg.WellTyped) :
      WellTyped ⟨ty, .intrinsic f args⟩
  | image {args : List Expr} (access : ImageAccess) (ty : Ty)
      (operands : ∀ arg ∈ args, arg.WellTyped) : WellTyped ⟨ty, .image access args⟩
  | texture {args : List Expr} (access : TextureAccess) (ty : Ty)
      (operands : ∀ arg ∈ args, arg.WellTyped) : WellTyped ⟨ty, .texture access args⟩
  | select {c t f : Expr} (condition : c.WellTyped) (onTrue : t.WellTyped) (onFalse : f.WellTyped) :
      WellTyped (.select c t f)

/-- Variables are of their types, and selections what their constructors make. -/
def Checked (e : Expr) : Prop :=
  match e.node with
  | .ident v => v.WellTyped ∧ e.ty = v.ty
  | .member outer i => outer.member? i = some e
  | .index array i => array.index? i = some e
  | .swizzle outer _ => ∃ letters, outer.swizzle? letters = some e
  | _ => True

/-- All of the expression was made by checked constructors. -/
def Built (e : Expr) : Prop := ∀ part : Expr, part.Within e → part.Checked

theorem Built.operand (h : e.Built) (ho : o ∈ e.node.operands) : o.Built := fun part hpart => h part (.operand ho hpart)

theorem Built.of_operands (hself : e.Checked) (h : ∀ o ∈ e.node.operands, o.Built) : e.Built := by
  intro part hpart
  cases hpart with
  | self => exact hself
  | operand mem within => exact h _ mem part within

theorem Built.of_operand (hself : e.Checked) (hoperands : e.node.operands = [a]) (ha : a.Built) : e.Built :=
  .of_operands hself (hoperands ▸ forall_mem_singleton.2 ha)

theorem Built.of_pair {b : Expr} (hself : e.Checked) (hoperands : e.node.operands = [a, b])
    (ha : a.Built) (hb : b.Built) : e.Built :=
  .of_operands hself (hoperands ▸ forall_mem_cons.2 ⟨ha, forall_mem_singleton.2 hb⟩)

theorem WellTyped.built (he : e.WellTyped) : e.Built := by
  induction he with
  | literal => exact .of_operands trivial nofun
  | ident isTyped => exact .of_operands ⟨isTyped, rfl⟩ nofun
  | member _ isMember ih => exact .of_operand isMember rfl ih
  | index _ _ isElement ihArray ihIndex => exact .of_pair isElement rfl ihArray ihIndex
  | swizzle letters _ isSwizzle ih => exact .of_operand ⟨letters, isSwizzle⟩ rfl ih
  | assign _ _ _ ihTarget ihValue | compound _ _ _ ihTarget ihValue | binary _ _ _ _ ihTarget ihValue =>
    exact .of_pair trivial rfl ihTarget ihValue
  | init _ _ _ ih | unary _ _ ih | cast _ _ ih | step _ _ ih => exact .of_operand trivial rfl ih
  | construct _ _ ih | call _ _ ih | intrinsic _ _ _ ih | image _ _ _ ih | texture _ _ _ ih =>
    exact .of_operands trivial ih
  | select _ _ _ ihCondition ihTrue ihFalse =>
    refine .of_operands trivial (forall_mem_cons.2 ⟨ihCondition, ?_⟩)
    exact forall_mem_cons.2 ⟨ihTrue, forall_mem_singleton.2 ihFalse⟩

/-- The variables of the expression have the types that the context gives. -/
def Over (Γ : Context) (e : Expr) : Prop := ∀ v, e.Uses v → Γ v.outermost.name = some v.outermost.ty

theorem Over.operand (h : e.Over Γ) (ho : o ∈ e.node.operands) : o.Over Γ := fun v hv => h v (hv.operand ho)

theorem Over.ident {v : Variable} (h : Γ v.outermost.name = some v.outermost.ty) : (ident v).Over Γ := by
  rintro v' ⟨part, hwithin, hv⟩
  cases hwithin with
  | self =>
    cases hv
    exact h
  | operand mem => cases mem

theorem Over.of_operands (hvariable : e.node.variable? = none) (h : ∀ o ∈ e.node.operands, o.Over Γ) : e.Over Γ := by
  rintro v ⟨part, hwithin, hv⟩
  cases hwithin with
  | self => cases hvariable.symm.trans hv
  | operand mem within => exact h _ mem v ⟨part, within, hv⟩

theorem Over.of_operand (hvariable : e.node.variable? = none) (hoperands : e.node.operands = [o])
    (h : o.Over Γ) : e.Over Γ :=
  .of_operands hvariable (hoperands ▸ forall_mem_singleton.2 h)

theorem Over.of_pair {b : Expr} (hvariable : e.node.variable? = none)
    (hoperands : e.node.operands = [a, b]) (ha : a.Over Γ) (hb : b.Over Γ) : e.Over Γ :=
  .of_operands hvariable (hoperands ▸ forall_mem_cons.2 ⟨ha, forall_mem_singleton.2 hb⟩)

end Expr

/-! ## Lanes of a number -/

namespace Ty

/-- The type of one component. -/
def component : Ty → Ty
  | .vector s _ => .scalar s
  | ty => ty

theorem exists_of_isScalar (h : ty.isScalar) : ∃ s, ty = .scalar s := by
  cases ty with
  | scalar s => exact ⟨s, rfl⟩
  | _ => cases h

theorem scalar?_of_component (h : ty.component = .scalar scalar) : ty.scalar?.isSome := by
  cases ty with
  | scalar _ | vector _ _ => rfl
  | _ => cases h

theorem component_of_isScalar (h : ty.isScalar) : ty.component = ty := by
  cases ty with
  | vector s n => cases h
  | _ => rfl

theorem eq_of_part? {element : Ty} (hty : ty.component = .scalar scalar)
    (h : ty.part? i = some element) : element = .scalar scalar := by
  cases ty with
  | vector s n =>
    rw [part?, ite_none_right_eq_some] at h
    exact (some.inj h.2).symm.trans hty
  | scalar s => cases h
  | _ => cases hty

end Ty

namespace Expr

/-- What lanes are taken of: the expression without the swizzles at its end. -/
def selected : Expr → Expr
  | ⟨_, .swizzle outer _⟩ => outer.selected
  | ⟨_, .index ⟨_, .swizzle outer _⟩ _⟩ => outer.selected
  | e => e

/-- Whether the value is that of several lanes of a number in storage. -/
def spreads : Expr → Bool
  | ⟨_, .swizzle outer s⟩ => outer.isChain && !s.isSingle && outer.selected.ty.isScalar
  | ⟨_, .unary .plus x⟩ => x.spreads
  | ⟨_, .assign none _ x⟩ => x.spreads
  | ⟨_, .init _ x⟩ => x.spreads
  | ⟨_, .step op x⟩ => !op.yieldsNew && x.spreads
  | ⟨ty, .cast x⟩ => x.ty = ty && x.spreads
  | ⟨ty, .construct [x]⟩ => x.ty = ty && x.spreads
  | _ => false

/-- The type of the value that lowering yields. -/
def valueTy (e : Expr) : Ty := if e.spreads then e.ty.component else e.ty

theorem valueTy_of_not_spreads (h : e.spreads = false) : e.valueTy = e.ty := by
  rw [valueTy, h]
  rfl

theorem valueTy_congr {e' : Expr} (hty : e.ty = e'.ty) (hspreads : e.spreads = e'.spreads) :
    e.valueTy = e'.valueTy := by
  rw [valueTy, valueTy, hty, hspreads]

theorem valueTy_of_component (h : e.ty.component = e.ty) : e.valueTy = e.ty := by
  unfold valueTy
  split
  · exact h
  · rfl

theorem valueTy_of_conversion {x : Expr} (h : e.spreads = (x.ty = e.ty && x.spreads)) :
    e.valueTy = if x.ty = e.ty then x.valueTy else e.ty := by
  by_cases hty : x.ty = e.ty
  · rw [if_pos hty]
    exact valueTy_congr hty.symm (by simp [h, hty])
  · rw [if_neg hty]
    exact valueTy_of_not_spreads (by simp [h, hty])

theorem selected_index (h : array.swizzleLength? = none) (ty : Ty) (index : Expr) :
    selected ⟨ty, .index array index⟩ = ⟨ty, .index array index⟩ := by
  obtain ⟨arrayTy, node⟩ := array
  cases node with
  | swizzle outer s => cases h
  | _ => rfl

theorem exists_of_swizzleLength? (h : e.swizzleLength?.isSome) : ∃ outer s, e.node = .swizzle outer s := by
  unfold swizzleLength? at h
  split at h
  case h_1 outer s hnode => exact ⟨outer, s, hnode⟩
  case h_2 => cases h

theorem exists_of_call? {func : Variable} {args : List Expr} (h : call? func args = some ⟨ty, .call func args⟩) :
    ∃ params, func.ty = .function ty params := by
  unfold call? at h
  split at h
  case h_1 ret params hfunc =>
    cases h
    exact ⟨params, hfunc⟩
  case h_2 => cases h

theorem eq_of_swizzle? {letters : String} (h : outer.swizzle? letters = some e) :
    ∃ s scalar, outer.ty.component = .scalar scalar ∧ e = ⟨s.typeOf scalar, .swizzle outer s⟩ := by
  obtain ⟨s, -, h⟩ := bind_eq_some_iff.1 h
  dsimp only at h
  split at h
  case h_3 => cases h
  all_goals
    rename_i hty
    obtain ⟨p, hp, h⟩ := bind_eq_some_iff.1 h
    cases hp
    split at h
    · cases h
    · cases h
      exact ⟨s, _, congrArg Ty.component hty, rfl⟩

theorem exists_of_swizzle? {letters : String} {s : Swizzle} (h : outer.swizzle? letters = some ⟨ty, .swizzle outer s⟩) :
    ∃ scalar, outer.ty.component = .scalar scalar ∧ ty = s.typeOf scalar := by
  obtain ⟨s', scalar, hcomponents, he⟩ := eq_of_swizzle? h
  cases he
  exact ⟨scalar, hcomponents, rfl⟩

end Expr

/-! ## Paths -/

/-- The type of what a step selects. -/
def Step.into? : Step → Ty → Option Ty
  | .member i _, .struct _ _ members => members[i.toNat]?.map (·.ty)
  | .index _, .array element _ => some element
  | .index _, .matrix s _ rows => some (.vector s rows)
  | .index _, .vector s _ => some (.scalar s)
  | _, _ => none

theorem Step.into?_member {members : List Member} {m : Member} (h : members[i.toNat]? = some m)
    (name : Option String) (struct : String) (layout : MemoryLayout) :
    (Step.member i name).into? (.struct struct layout members) = some m.ty := by
  rw [into?, h, map_some]

/-- The type at the end of steps. -/
def Step.through? (steps : List Step) (ty : Ty) : Option Ty := steps.foldlM (fun ty step => step.into? ty) ty

theorem Step.through?_snoc (steps : List Step) (step : Step) (ty : Ty) :
    through? (steps ++ [step]) ty = (through? steps ty).bind step.into? := by
  unfold through?
  rw [foldlM_append]
  cases steps.foldlM (fun ty step => step.into? ty) ty with
  | none => rfl
  | some ty' => simp

theorem Expr.into?_of_member? (h : outer.member? i = some ⟨ty, .member outer i⟩)
    (name : Option String) : (Step.member i name).into? outer.ty = some ty := by
  unfold member? at h
  split at h
  case h_1 hty =>
    obtain ⟨m, hm, he⟩ := map_eq_some_iff.1 h
    cases he
    rw [hty]
    exact Step.into?_member hm name _ _
  case h_2 => cases h

theorem Expr.into?_of_index? {i : Expr} (h : array.index? i = some ⟨ty, .index array i⟩) :
    (Step.index i).into? array.ty = some ty := by
  unfold index? at h
  split at h
  case h_4 => cases h
  all_goals
    rename_i hty
    cases h
    rw [hty]
    rfl

namespace Chain

open Step

theorem ofVariable_through {v : Variable} (hv : v.WellTyped) :
    through? (ofVariable v).steps v.outermost.ty = some v.ty := by
  induction hv with
  | root name ty roles => rfl
  | member index name _ isStruct isMember ih =>
    refine (through?_snoc _ _ _).trans ?_
    rw [Variable.outermost, ih, bind_some, isStruct]
    exact into?_member isMember (some name) _ _

/-- The path leads to the expression, whose type can differ from that of the value after a swizzle. -/
inductive Reaches (path : Chain) (e : Expr) : Prop where
  | whole (leads : through? path.steps path.head.ty = some e.ty) (selected : e.selected = e)
      (isWhole : e.swizzleLength? = none) (spreads : e.spreads = false)
  | lanes (steps : List Step) (s : Swizzle) (scalar : Scalar) (ends : path.steps = steps ++ [.swizzle s])
      (leads : through? steps path.head.ty = some e.selected.ty)
      (components : e.selected.ty.component = .scalar scalar) (ty : e.ty = s.typeOf scalar)
      (isSwizzle : s.isSingle = false → e.swizzleLength?.isSome)
      (spreads : e.spreads = (!s.isSingle && e.selected.ty.isScalar))

theorem push_of_through {path : Chain} {ty' : Ty} (h : through? path.steps ty = some ty')
    (step : Step) : path.push step = .ok ⟨path.head, path.steps ++ [step]⟩ := by
  unfold push
  split
  case h_1 inner hlast =>
    rw [← dropLast_append_getLast? _ hlast, through?_snoc] at h
    obtain ⟨between, -, hinto⟩ := bind_eq_some_iff.1 h
    cases hinto
  case h_2 => rfl

theorem eq_of_push_swizzle {path path' : Chain} {steps : List Step} {s : Swizzle}
    (hends : path.steps = steps ++ [.swizzle s]) (h : path.push step = .ok path') :
    ∃ composed, afterSwizzle? s step = some composed ∧ path' = ⟨path.head, steps ++ [.swizzle composed]⟩ := by
  unfold push at h
  rw [hends, getLast?_concat] at h
  dsimp only at h
  split at h
  case h_1 composed hcomposed =>
    cases h
    exact ⟨composed, hcomposed, by rw [dropLast_concat]⟩
  case h_2 => cases h

end Chain

/-! ### Lengths of swizzles -/

theorem length_of_mapM {α β : Type} {f : α → Option β} :
    ∀ {l : List α} {l' : List β}, l.mapM f = some l' → l'.length = l.length
  | [], _, h => by
    cases h
    rfl
  | a :: l, _, h => by
    rw [mapM_cons] at h
    obtain ⟨b, -, h⟩ := bind_eq_some_iff.1 h
    obtain ⟨bs, hbs, h⟩ := bind_eq_some_iff.1 h
    cases h
    exact congrArg (· + 1) (length_of_mapM hbs)

namespace Swizzle

variable {s s' inner : Swizzle}

theorem length_ofLanes? {lanes : List (Fin 4)} (h : ofLanes? lanes = some s) : s.length = lanes.length := by
  unfold ofLanes? at h
  split at h
  · cases h
    rfl
  · cases h

theorem length_compose? (h : s.compose? inner = some s') : s'.length = s.length := by
  obtain ⟨lanes, hlanes, hswizzle⟩ := bind_eq_some_iff.1 h
  exact (length_ofLanes? hswizzle).trans (length_of_mapM hlanes)

theorem length_ofIndices? {indices : List Word} (h : ofIndices? indices = some s) : s.length = indices.length := by
  obtain ⟨lanes, hlanes, hswizzle⟩ := bind_eq_some_iff.1 h
  exact (length_ofLanes? hswizzle).trans (length_of_mapM hlanes)

theorem isSingle_congr (h : s.length = s'.length) : s.isSingle = s'.isSingle := by
  rw [isSingle, isSingle, h]

theorem typeOf_congr (h : s.length = s'.length) (scalar : Scalar) : s.typeOf scalar = s'.typeOf scalar := by
  rw [typeOf, typeOf, isSingle_congr h, h]

theorem component_typeOf (s : Swizzle) (scalar : Scalar) : (s.typeOf scalar).component = .scalar scalar := by
  unfold typeOf
  split <;> rfl

end Swizzle

theorem Expr.WellTyped.component_ne (he : e.WellTyped) (h : e.spreads) : e.ty.component ≠ e.ty := by
  induction he with
  | @swizzle outer s ty _ _ isSwizzle ih =>
    obtain ⟨scalar, -, rfl⟩ := exists_of_swizzle? isSwizzle
    have hseveral : ¬ s.isSingle := fun hs => by simp [spreads, hs] at h
    rw [component_typeOf, typeOf, if_neg hseveral]
    exact fun heq => nomatch heq
  | assign _ _ sameType _ ih => exact sameType ▸ ih h
  | @init v initial _ _ sameType ih =>
    show v.ty.component ≠ v.ty
    exact sameType ▸ ih h
  | unary op _ ih =>
    cases op with
    | plus => exact ih h
    | _ => cases h
  | cast ty _ ih =>
    obtain ⟨hty, hspreads⟩ := Bool.and_eq_true_iff.1 h
    exact of_decide_eq_true hty ▸ ih hspreads
  | step op _ ih => exact ih (Bool.and_eq_true_iff.1 h).2
  | @construct args ty _ ih =>
    rcases args with _ | ⟨arg, _ | ⟨second, rest⟩⟩
    case cons.nil =>
      obtain ⟨hty, hspreads⟩ := Bool.and_eq_true_iff.1 h
      exact of_decide_eq_true hty ▸ ih arg mem_cons_self hspreads
    all_goals cases h
  | _ => cases h

theorem Expr.WellTyped.valueTy_eq_iff (he : e.WellTyped) : e.valueTy = e.ty ↔ e.spreads = false := by
  refine ⟨fun hvalue => Bool.eq_false_iff.2 fun h => ?_, valueTy_of_not_spreads⟩
  rw [valueTy, if_pos h] at hvalue
  exact he.component_ne h hvalue

/-! ### The path of an expression -/

namespace Chain

open Step

variable {path path' : Chain}

theorem Reaches.member (hpath : path.Reaches outer) (hinto : (Step.member i none).into? outer.ty = some ty)
    (h : path.push (.member i none) = .ok path') : path'.Reaches ⟨ty, .member outer i⟩ := by
  cases hpath with
  | whole leads =>
    rw [push_of_through leads] at h
    cases h
    refine .whole ?_ rfl rfl rfl
    rw [through?_snoc, leads]
    exact hinto
  | lanes steps s scalar ends =>
    obtain ⟨composed, hcomposed, -⟩ := eq_of_push_swizzle ends h
    cases hcomposed

theorem Reaches.index {i : Expr} (hpath : path.Reaches array) (hinto : (Step.index i).into? array.ty = some ty)
    (h : path.push (.index i) = .ok path') : path'.Reaches ⟨ty, .index array i⟩ := by
  cases hpath with
  | whole leads _ isWhole =>
    rw [push_of_through leads] at h
    cases h
    refine .whole ?_ (Expr.selected_index isWhole ty i) rfl rfl
    rw [through?_snoc, leads]
    exact hinto
  | lanes steps s scalar ends leads components hty isSwizzle =>
    obtain ⟨composed, hcomposed, rfl⟩ := eq_of_push_swizzle ends h
    obtain ⟨number, -, hlane⟩ := bind_eq_some_iff.1 hcomposed
    obtain ⟨lane, hlane, hcomposed⟩ := bind_eq_some_iff.1 hlane
    have hone : composed.isSingle := decide_eq_true ((length_compose? hcomposed).trans (length_ofIndices? hlane))
    -- only several lanes can be indexed, and those are what a swizzle node stands for
    rw [hty] at hinto
    unfold typeOf at hinto
    split at hinto
    case isTrue => cases hinto
    case isFalse hseveral =>
      cases hinto
      obtain ⟨outer, s', harray⟩ := Expr.exists_of_swizzleLength? (isSwizzle (by simpa using hseveral))
      obtain ⟨arrayTy, arrayNode⟩ := array
      cases harray
      refine .lanes steps composed scalar rfl leads components ?_ (by simp [hone]) ?_
      · exact (if_pos hone).symm
      · rw [hone]
        rfl

theorem Reaches.swizzle {s' : Swizzle} (hpath : path.Reaches outer) (hchain : outer.isChain)
    (hcomponents : outer.ty.component = .scalar scalar) (h : path.push (.swizzle s') = .ok path') :
    path'.Reaches ⟨s'.typeOf scalar, .swizzle outer s'⟩ := by
  have hspreads : Expr.spreads ⟨s'.typeOf scalar, .swizzle outer s'⟩ =
      (!s'.isSingle && outer.selected.ty.isScalar) := by
    rw [Expr.spreads, hchain, Bool.true_and]
  cases hpath with
  | whole leads selected =>
    rw [push_of_through leads] at h
    cases h
    refine .lanes path.steps s' scalar rfl ?_ ?_ rfl (fun _ => rfl) hspreads
    · rw [Expr.selected, selected]
      exact leads
    · rw [Expr.selected, selected]
      exact hcomponents
  | lanes steps s scalar' ends leads components hty isSwizzle =>
    obtain ⟨composed, hcomposed, rfl⟩ := eq_of_push_swizzle ends h
    have hlength : composed.length = s'.length := length_compose? hcomposed
    rw [hty, component_typeOf] at hcomponents
    cases hcomponents
    refine .lanes steps composed scalar rfl leads components ?_ (fun _ => rfl) ?_
    · exact (typeOf_congr hlength scalar).symm
    · rw [isSingle_congr hlength]
      exact hspreads

theorem head_push (h : path.push step = .ok path') : path'.head = path.head := by
  unfold push at h
  split at h
  · split at h
    · cases h
      rfl
    · cases h
  · cases h
    rfl

theorem ofExpr_head (h : ofExpr e = .ok path) : ∃ v, e.Uses v ∧ path.head = v.outermost := by
  fun_induction ofExpr e generalizing path with
  | case1 ty v =>
    cases h
    exact ⟨v, .self rfl, head_ofVariable v⟩
  | case2 ty outer i ih | case3 ty outer i ih | case4 ty outer s ih =>
    obtain ⟨inner, hinner, hpush⟩ := exists_push h
    obtain ⟨v, hv, hhead⟩ := ih hinner
    exact ⟨v, hv.operand (by simp [Node.operands]), (head_push hpush).trans hhead⟩
  | case5 => cases h

theorem ofExpr_reaches (he : e.Built) (hchain : e.isChain) (h : ofExpr e = .ok path) : path.Reaches e := by
  have hself := he e (.self e)
  fun_induction ofExpr e generalizing path with
  | case1 ty v =>
    cases h
    obtain ⟨isTyped, rfl⟩ : v.WellTyped ∧ ty = v.ty := hself
    refine .whole ?_ rfl rfl rfl
    rw [head_ofVariable]
    exact ofVariable_through isTyped
  | case2 ty outer i ih =>
    obtain ⟨inner, hinner, hpush⟩ := exists_push h
    have houter := he.operand (o := outer) (by simp [Node.operands])
    exact (ih houter hchain hinner (houter _ (.self _))).member (Expr.into?_of_member? hself none) hpush
  | case3 ty array i ih =>
    obtain ⟨inner, hinner, hpush⟩ := exists_push h
    have harray := he.operand (o := array) (by simp [Node.operands])
    exact (ih harray (Bool.and_eq_true_iff.1 hchain).2 hinner (harray _ (.self _))).index
      (Expr.into?_of_index? hself) hpush
  | case4 ty outer s ih =>
    obtain ⟨letters, isSwizzle⟩ := hself
    obtain ⟨scalar, hcomponents, rfl⟩ := Expr.exists_of_swizzle? isSwizzle
    obtain ⟨inner, hinner, hpush⟩ := exists_push h
    have houter := he.operand (o := outer) (by simp [Node.operands])
    exact (ih houter hchain hinner (houter _ (.self _))).swizzle hchain hcomponents hpush
  | case5 => cases h

end Chain

/-- The head of a path is a root, and it is on the context if the expression is. -/
theorem Expr.Over.head {Γ : Context} (hover : e.Over Γ) (h : Chain.ofExpr e = .ok path) :
    path.head.outermost = path.head ∧ Γ path.head.outermost.name = some path.head.outermost.ty := by
  obtain ⟨v, hv, hhead⟩ := Chain.ofExpr_head h
  rw [hhead, Variable.outermost_outermost]
  exact ⟨rfl, hover v hv⟩

def Swizzle.shuffled (s : Swizzle) : Ty → Ty
  | .vector scalar _ => .vector scalar s.length.toUInt32
  | ty => ty

theorem Expr.shuffled_selected {s : Swizzle} (hs : s.isSingle = false)
    (hcomponents : e.selected.ty.component = .scalar scalar) (hty : e.ty = s.typeOf scalar)
    (hspreads : e.spreads = (!s.isSingle && e.selected.ty.isScalar)) : s.shuffled e.selected.ty = e.valueTy := by
  rw [valueTy, hspreads, hty, component_typeOf, typeOf, hs]
  cases hselected : e.selected.ty with
  | vector _ _ =>
    rw [hselected] at hcomponents
    cases hcomponents
    rfl
  | scalar _ =>
    rw [hselected] at hcomponents
    exact hcomponents
  | _ =>
    rw [hselected] at hcomponents
    cases hcomponents

end Shader
