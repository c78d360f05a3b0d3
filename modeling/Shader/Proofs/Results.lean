import Shader.Proofs.Backed
import Shader.Proofs.Context
import Shader.Proofs.Unique

/-!
# The types of results

The type of a result is looked up or declared before the instruction that yields it. What lowering says
about a result is said for every later state in which nothing contradicts the context: there, names and
constants that are passed on as results are of their types as well.
-/

namespace Shader

open Action List Module Lowerer

variable {α β : Type} {Γ : Context} {ty : Ty}

/-! ## Later states -/

namespace Lowerer

/-- A parameter, a declaration or an instruction of the block defines the identifier with that result
type. -/
def Types (s : Lowerer) (id type : Id) : Prop :=
  (type, id) ∈ s.func.function.params ∨ ∃ inst ∈ s.module.declarations ++ s.block.instructions,
      inst.result = some id ∧ inst.resultType = some type

theorem Types.mono {s s' : Lowerer} {id type : Id} (h : s.Types id type) (hs : s.Extends s') : s'.Types id type := by
  rcases h with hparam | ⟨inst, hmem, hinst⟩
  · exact .inl (hs.params ▸ hparam)
  · refine .inr ⟨inst, ?_, hinst⟩
    rcases mem_append.1 hmem with hmem | hmem
    · exact mem_append_left _ (hs.module.declarations.subset hmem)
    · exact mem_append_right _ (hs.code.subset hmem)

theorem types_of_module {s : Lowerer} {id type : Id} (h : s.module.Types id type) : s.Types id type :=
  let ⟨inst, hmem, hinst⟩ := h
  .inr ⟨inst, mem_append_left _ hmem, hinst⟩

/-- The module and the function fit the context. -/
structure Fits (Γ : Context) (s : Lowerer) : Prop where
  module : s.module.Fits Γ
  func : s.func.Fits Γ s.module

/-- Names and constants are of their types, what is found is declared, and everything is defined
once. -/
structure Consistent (Γ : Context) (s : Lowerer) : Prop where
  fits : s.Fits Γ
  module : s.module.Backed
  func : s.func.Backed s.module
  sound : s.module.Sound
  final : s.Final

/-- `P` holds in all later states that are consistent. -/
def Hence (Γ : Context) (s : Lowerer) (P : Lowerer → Prop) : Prop := ∀ ⦃t : Lowerer⦄, s.Extends t → t.Consistent Γ → P t

/-- The identifier is that of the type, outside of any layout. -/
def IsType (Γ : Context) (s : Lowerer) (ty : Ty) (type : Id) : Prop :=
  s.Hence Γ fun t => t.module.Finds none none ty type

/-- The identifier is a value of the type, or there is no value. -/
def Yields (Γ : Context) (s : Lowerer) (ty : Ty) (id : Id) : Prop :=
  s.Hence Γ fun t => id ≠ noResult → ∃ type, t.module.Finds none none ty type ∧ t.Types id type

variable {s s' : Lowerer} {type id : Id}

theorem Hence.mono {P : Lowerer → Prop} (h : s.Hence Γ P) (hs : s.Extends s') : s'.Hence Γ P :=
  fun _ ht => h (hs.trans ht)

theorem Hence.imp {P Q : Lowerer → Prop} (h : s.Hence Γ P) (hPQ : ∀ t, t.Consistent Γ → P t → Q t) : s.Hence Γ Q :=
  fun t ht hconsistent => hPQ t hconsistent (h ht hconsistent)

theorem IsType.mono (h : s.IsType Γ ty type) (hs : s.Extends s') : s'.IsType Γ ty type := Hence.mono h hs

theorem Yields.mono (h : s.Yields Γ ty id) (hs : s.Extends s') : s'.Yields Γ ty id := Hence.mono h hs

theorem IsType.yields (htype : s.IsType Γ ty type) (hid : s.Types id type) : s.Yields Γ ty id :=
  fun _ ht hconsistent _ => ⟨type, htype ht hconsistent, hid.mono ht⟩

theorem yields_noResult : s.Yields Γ ty noResult := fun _ _ _ h => absurd rfl h

theorem yields_literal {l : Literal} (h : s.module.literals.get? l = some id) : s.Yields Γ (.scalar l.scalar) id := by
  intro t ht hconsistent _
  obtain ⟨type, hfinds, htypes⟩ := hconsistent.fits.module.literals l id (ht.module.literals l id h)
  exact ⟨type, hfinds, types_of_module htypes⟩

theorem yields_composite {constituents : List Id} (hfinds : s.module.Finds none none ty type)
    (h : s.module.composites.get? (constituents, type) = some id) : s.Yields Γ ty id := by
  intro t ht hconsistent _
  have hregistered := ht.module.composites _ id h
  exact ⟨type, hfinds.mono ht.module.toRetains,
    types_of_module (hconsistent.fits.module.composites constituents type id hregistered)⟩

end Lowerer

namespace Lower

/-! ## Steps that lead to later states -/

/-- The lowering adds to the state and takes nothing away. -/
def Extending {α : Type} (x : Lower α) : Prop := ∀ ⦃s s' : Lowerer⦄ ⦃r : Except Fault α⦄, x s = (r, s') → s.Extends s'

namespace Extending

theorem of_keeps {x : Lower α} (need : List Known) {gives : α → List Id} {gains : α → List Known}
    (hx : ∀ L : Ledger Lowerer, Emitting L → Keeps L [] need x gives gains) : Extending x :=
  fun _ _ _ h => extends_of_keeps need hx h

theorem pure (a : α) : Extending (Pure.pure a : Lower α) := by
  intro s s' r h
  cases h
  exact .refl s

theorem bind {x : Lower α} {f : α → Lower β} (hx : Extending x) (hf : ∀ a, Extending (f a)) : Extending (x >>= f) := by
  intro s s' r h
  rcases hrun : x s with ⟨e | a, t⟩
  · rw [bind_apply_error hrun] at h
    cases h
    exact hx hrun
  · rw [bind_apply_ok hrun] at h
    exact (hx hrun).trans (hf a h)

theorem onModule {x : Build α} (need : List Known) {gives : α → List Id} {gains : α → List Known}
    (hx : ∀ J : Ledger Module, Declaring J → Keeps J [] need x gives gains) : Extending (onModule x) :=
  of_keeps need fun _ hL => onModule_keeps fun s => hx _ (hL.building s).toDeclaring

theorem push (inst : Inst) : Extending (push inst) := by
  intro s s' r h
  cases h
  exact { Extends.refl s with code := prefix_append _ _ }

theorem emitAs (op : Op) (type : Id) (operands : List Word) : Extending (emitAs op type operands) :=
  (onModule [] fun _ hJ => Module.freshId_keeps hJ).bind fun _ => (push _).bind fun _ => .pure _

theorem load (entity : Entity) : Extending (Lower.load entity) := by
  unfold Lower.load
  split
  · exact .pure _
  · exact .emitAs _ _ _

theorem value (ty : Ty) (id : Id) : Extending (value ty id) :=
  (onModule [] fun _ hJ => Module.declareType_steady hJ ty).bind fun _ => .pure _

theorem splat (s : Scalar) (id : Id) (n : Word) (constant : Bool) : Extending (splat s id n constant) :=
  of_keeps [.value id] fun _ hL => splat_steady hL s mem_cons_self n constant

theorem binary (op : BinOp) (l r : Operand) (ty : Ty) (fold : Bool) : Extending (binary op l r ty fold) :=
  of_keeps [.value l.id, .value r.id] fun _ hL => binary_steady hL op (by simp) (by simp) ty fold

theorem writePlace (p : Place) (id : Id) : Extending (writePlace p id) :=
  of_keeps (.value id :: p.entity.known) fun _ hL => writePlace_steady hL (subset_cons_self _ _) mem_cons_self

theorem copyOut (w : CopyOut) : Extending (copyOut w) :=
  of_keeps w.known fun _ hL => copyOut_steady hL fun _ hk => hk

theorem callArgs {parts : Parts} (hparts : parts.Regular) (params : List Variable) (args : List Expr) :
    Extending (callArgs parts params args) :=
  of_keeps [] fun L hL => callArgs_steady hL (hparts L hL) params args (fun a _ => a.operable_any) []

end Extending

/-! ## Results of a type -/

/-- The lowering yields values of the type. -/
def Gives (Γ : Context) (ty : Ty) (x : Lower Id) : Prop := x.Ensures fun id s => s.Yields Γ ty id

namespace Gives

variable {x : Lower Id}

theorem pure_noResult : Gives Γ ty (pure noResult) := .pure fun _ => yields_noResult

theorem refuse (e : BuildError) : Gives Γ ty (Build.refuse e) := Ensures.refuse e

theorem refuse_bind (e : BuildError) (f : α → Lower Id) : Gives Γ ty (Build.refuse e >>= f) := Ensures.refuse_bind e f

theorem bind {x : Lower α} {f : α → Lower Id} (h : ∀ a, Gives Γ ty (f a)) : Gives Γ ty (x >>= f) := Ensures.bind h

theorem andThen (hx : Gives Γ ty x) {y : Id → Lower β} (hy : ∀ id, Extending (y id)) :
    Gives Γ ty (x >>= fun id => y id >>= fun _ => Pure.pure id) := by
  intro s id s' h
  obtain ⟨id', t, hid, h⟩ := bind_ok h
  obtain ⟨_, hrest, rfl⟩ := bind_pure_ok h
  exact (hx s id' t hid).mono (hy id' hrest)

theorem passOn {ty' : Ty} {f : Id → Lower Id} (hx : Gives Γ ty' x)
    (hf : ∀ id, f id = Pure.pure id ∧ ty' = ty ∨ Gives Γ ty (f id)) : Gives Γ ty (x >>= f) := by
  intro s id s' h
  obtain ⟨a, t, ha, h⟩ := bind_ok h
  rcases hf a with ⟨heq, rfl⟩ | hnew
  · rw [heq] at h
    obtain ⟨rfl, rfl⟩ := pure_ok h
    exact hx s a t ha
  · exact hnew t id s' h

theorem withFlag (hx : Gives Γ ty x) (b : Bool) :
    Ensures (x >>= fun id => Pure.pure (id, b)) fun p s => s.Yields Γ ty p.1 := by
  intro s p s' h
  obtain ⟨id, t, hid, h⟩ := bind_ok h
  obtain ⟨rfl, rfl⟩ := pure_ok h
  exact hx s id t hid

/-- A declared type and a result of it together give a result of the type. -/
theorem ofType {f : Id → Lower Id} (hx : x.Ensures fun type s => s.IsType Γ ty type)
    (hf : ∀ type, (f type).Ensures fun id s => s.Types id type)
    (hextends : ∀ type, Extending (f type)) : Gives Γ ty (x >>= f) := by
  intro s id s' h
  obtain ⟨type, t, htype, h⟩ := bind_ok h
  exact ((hx s type t htype).mono (hextends type h)).yields (hf type t id s' h)

end Gives

theorem declareType_isType (ty : Ty) : (onModule (declareType ty)).Ensures fun type s => s.IsType Γ ty type :=
  fun _ _ _ h _ ht _ => (finds_of_ok (onModule_ok h).1).mono ht.module.toRetains

theorem emitAs_types (op : Op) (type : Id) (operands : List Word) :
    (emitAs op type operands).Ensures fun id s => s.Types id type := by
  intro s id s' h
  obtain ⟨id', t, -, h⟩ := bind_ok h
  obtain ⟨_, hpush, rfl⟩ := bind_pure_ok h
  cases hpush
  refine .inr ⟨.value op type id' operands, ?_, rfl, rfl⟩
  exact mem_append_right _ (mem_append_right _ mem_cons_self)

theorem emit_gives (op : Op) (ty : Ty) (operands : List Word) : Gives Γ ty (emit op ty operands) :=
  .ofType (declareType_isType ty) (fun type => emitAs_types op type operands) fun type => .emitAs op type operands

theorem emitOrDeclare_gives (fold : Bool) (op : Op) (ty : Ty) (operands : List Word) :
    Gives Γ ty (emitOrDeclare fold op ty operands) := by
  unfold emitOrDeclare
  split
  · refine .ofType (declareType_isType ty) (fun type s id s' h => ?_) fun type => ?_
    · obtain ⟨rfl, next, -, hmodule⟩ := eq_of_defineValue (onModule_ok h).1
      apply types_of_module
      rw [hmodule]
      exact ⟨_, mem_append_right _ mem_cons_self, rfl, rfl⟩
    · exact .of_keeps [] fun L hL => onModule_keeps fun s => declareFolded_steady (hL.building s) type op operands
  · exact emit_gives op ty operands

theorem declareLiteral_gives (l : Literal) : Gives Γ (.scalar l.scalar) (onModule (declareLiteral l)) :=
  fun _ _ _ h => yields_literal (declareLiteral_ok (onModule_ok h).1)

theorem composite_gives (ty : Ty) (constituents : List Id) (constant : Bool) :
    Gives Γ ty (composite ty constituents constant) := by
  unfold composite
  split
  · intro s id s' h
    obtain ⟨type, hfinds, hregistered⟩ := declareComposite_ok (onModule_ok h).1
    exact yields_composite hfinds hregistered
  · exact emit_gives _ ty constituents

theorem splat_gives (s : Scalar) (id : Id) (n : Word) (constant : Bool) :
    Gives Γ (.vector s n) (splat s id n constant) :=
  composite_gives _ _ constant

theorem load_yields {pointer type : Id} {storage : StorageClass} {s s' : Lowerer} {id : Id} (htype : s.IsType Γ ty type)
    (h : load ⟨pointer, some storage, type⟩ s = (.ok id, s')) : s'.Yields Γ ty id := by
  unfold load at h
  split at h
  case isTrue hvalue =>
    obtain ⟨rfl, rfl⟩ := pure_ok h
    obtain rfl : pointer = noResult := by simpa [Entity.isValue] using hvalue
    exact yields_noResult
  case isFalse => exact (htype.mono (Extending.emitAs _ _ _ h)).yields (emitAs_types _ _ _ _ _ _ h)

theorem resolve_lookup (v : Variable) : (resolve v).Ensures fun e s =>
    s.module.lookup (some s.func.locals) v.outermost.name = some e := by
  intro s e s' h
  unfold resolve at h
  rw [get_bind] at h
  obtain ⟨d, t, hdeclare, h⟩ := bind_ok h
  obtain ⟨_, htake, rfl⟩ := bind_pure_ok h
  cases htake
  obtain ⟨hrun, hframe⟩ := onModule_ok hdeclare
  cases hq : d.queued with
  | none =>
    have hlookup := declareByRole_lookup _ v _ d _ hrun hq
    unfold FunctionScope.take
    rw [hq, hframe]
    exact hlookup
  | some inst =>
    unfold FunctionScope.take
    rw [hq]
    exact Option.or_eq_some_iff.2 (.inl (OrderedMap.get?_put_self _ _ _))

/-! ## Operators and conversions -/

theorem componentWise_gives (op : BinOp) (family : Family) (l r : Operand) (ty : Ty) (fold : Bool) :
    Gives Γ ty (componentWise op family l r ty fold) := by
  refine .bind fun p => ?_
  dsimp only
  split
  · exact .refuse _
  · split
    · exact .bind fun _ => emit_gives _ ty _
    · exact emitOrDeclare_gives fold _ ty _

theorem vectorBinary_gives (op : BinOp) (l r : Operand) (ty : Ty) (fold : Bool) :
    Gives Γ ty (vectorBinary op l r ty fold) := by
  unfold vectorBinary
  split
  · exact .refuse _
  · split
    · exact emit_gives _ ty _
    · exact componentWise_gives op _ l r ty fold

theorem columnWise_gives (ty : Ty) (column : Ty → Word → Lower Id) : Gives Γ ty (columnWise ty column) := by
  unfold columnWise
  split
  · exact .bind fun _ => emit_gives _ _ _
  · exact .refuse _

/-- A binary operator yields a result of the type it is lowered at. -/
theorem binary_gives (op : BinOp) (l r : Operand) (ty : Ty) (fold : Bool) : Gives Γ ty (binary op l r ty fold) := by
  unfold binary
  split
  · split
    · exact .refuse _
    · split
      · exact emit_gives _ ty _
      · exact columnWise_gives ty _
  · exact vectorBinary_gives op l r ty fold

theorem vectorUnary_gives (op : UnOp) (o : Operand) (fold : Bool) : Gives Γ o.ty (vectorUnary op o fold) := by
  unfold vectorUnary
  split
  · exact .refuse _
  · exact emitOrDeclare_gives fold _ _ _

theorem unary_gives {op : UnOp} (hop : op ≠ .plus) (o : Operand) (fold : Bool) : Gives Γ o.ty (unary op o fold) := by
  unfold unary
  rw [if_neg hop]
  split
  · exact columnWise_gives _ _
  · exact vectorUnary_gives op o fold

theorem cast_self (o : Operand) : cast o o.ty = pure o.id := if_pos rfl

theorem eq_of_conversion {a b : Scalar} (h : conversion a b = .none) : a = b := by
  cases a <;> cases b <;> first | rfl | cases h

theorem eq_of_castShape? {target : Ty} {a : Scalar} {size : Word}
    (h : castShape? ty target = some (a, a, size)) : ty = target := by
  unfold castShape? at h
  split at h
  · cases h
    rfl
  · split at h
    case isTrue heq =>
      cases h
      rw [heq]
    case isFalse => cases h
  · cases h

/-- A conversion to another type yields a result of that type. -/
theorem cast_gives {o : Operand} {target : Ty} (h : o.ty ≠ target) : Gives Γ target (cast o target) := by
  unfold cast
  rw [if_neg h]
  split
  · exact .refuse _
  case h_2 a b size hshape =>
    split
    case h_1 hconversion =>
      cases eq_of_conversion hconversion
      exact absurd (eq_of_castShape? hshape) h
    · exact emit_gives _ target _
    · split
      · exact .refuse _
      · exact .bind fun _ => .bind fun _ => emit_gives _ target _
    · exact .bind fun _ => emit_gives _ target _

theorem choose_gives (ty : Ty) (c : Operand) (onTrue onFalse : Id) (fold : Bool) :
    Gives Γ ty (choose ty c onTrue onFalse fold) := by
  refine .bind fun s => ?_
  dsimp only
  split
  · exact .bind fun _ => emitOrDeclare_gives fold _ ty _
  · exact .bind fun _ => emitOrDeclare_gives fold _ ty _

theorem select_gives (parts : Parts) (e c t f : Expr) : Gives Γ e.ty (select parts e c t f) :=
  .bind fun _ => .bind fun _ => .bind fun _ => choose_gives e.ty _ _ _ _

/-! ## Calls and intrinsic functions -/

variable {parts : Parts}

theorem call_gives {func : Variable} {ret : Ty} {params : List Variable} (hfunc : func.ty = .function ret params)
    (args : List Expr) : Gives Γ ret (call parts func args) := by
  unfold call
  rw [hfunc]
  dsimp only
  split
  · exact .refuse_bind _ _
  · refine .bind fun function => .bind fun p => ?_
    refine (emit_gives _ ret _).andThen fun _ => ?_
    exact .of_keeps _ fun _ hL => copyOuts_steady hL p.2 _ fun _ hk => hk

theorem emitExtended_gives (op : GlslOp) (ty : Ty) (operands : List Id) : Gives Γ ty (emitExtended op ty operands) :=
  .bind fun _ => emit_gives _ ty _

theorem emitPair_gives (op : Op) (ty : Ty) (x y : Id) :
    (emitPair op ty x y).Ensures fun p s => s.Yields Γ ty p.1 ∧ s.Yields Γ ty p.2 := by
  intro s p s' h
  obtain ⟨field, s₁, hfield, h⟩ := bind_ok h
  obtain ⟨tuple, s₂, htuple, h⟩ := bind_ok h
  obtain ⟨pair, s₃, hpair, h⟩ := bind_ok h
  obtain ⟨first, s₄, hfirst, h⟩ := bind_ok h
  obtain ⟨second, hsecond, rfl⟩ := bind_pure_ok h
  have htype : s₁.IsType Γ ty field := declareType_isType ty s field s₁ hfield
  have hextends : s₁.Extends s₄ :=
    ((Extending.onModule [] fun _ hJ => declareTuple_steady hJ nofun) htuple).trans
      ((Extending.emitAs _ _ _ hpair).trans (Extending.emitAs _ _ _ hfirst))
  have hlast := Extending.emitAs _ _ _ hsecond
  exact ⟨((htype.mono hextends).yields (emitAs_types _ _ _ _ _ _ hfirst)).mono hlast,
    (htype.mono (hextends.trans hlast)).yields (emitAs_types _ _ _ _ _ _ hsecond)⟩

theorem atomic_gives (f : Intrinsic) (ops : PerFamily Op) (semantics : MemorySemantics) (s : Option Scalar)
    (pointer : Id) (values : List Id) (ty : Ty) : Gives Γ ty (atomic f ops semantics s pointer values ty) := by
  unfold atomic
  split
  · exact .refuse _
  · refine .bind fun scope => .bind fun equal => ?_
    split
    · exact .bind fun _ => emit_gives _ ty _
    · exact .refuse _
    · exact emit_gives _ ty _

/-- An intrinsic function yields a result of its type in each form. -/
theorem intrinsicOfForm_gives (hparts : parts.Regular) (f : Intrinsic) (ty : Ty) (first : Expr) (rest : List Expr) :
    Gives Γ ty (intrinsicOfForm parts f ty first rest) := by
  have hassign : ∀ (target : Expr) (value : Id), Extending (assignTo parts target value) :=
    fun target value => .of_keeps [.value value] fun L hL =>
      assignTo_steady hL (hparts L hL) target.meets_any mem_cons_self
  unfold intrinsicOfForm
  split
  · split
    · exact .refuse _
    · split
      · exact .bind fun _ => .bind fun _ => emit_gives _ ty _
      · exact .bind fun _ => emit_gives _ ty _
  · split
    · exact .refuse _
    · exact .bind fun _ => emitExtended_gives _ ty _
  · refine .bind fun x => .bind fun p => ?_
    refine (emitExtended_gives _ ty _).andThen fun _ => ?_
    cases p.2 with
    | none => exact .pure _
    | some w => exact .copyOut w
  · exact .bind fun _ => .bind fun _ => atomic_gives f _ _ _ _ _ ty
  · refine .bind fun x => .bind fun y => ?_
    intro s id s' h
    obtain ⟨p, t, hpair, h⟩ := bind_ok h
    obtain ⟨_, hrest, rfl⟩ := bind_pure_ok h
    exact (emitPair_gives _ ty x y s p t hpair).1.mono (hassign _ _ hrest)
  · exact .bind fun _ => .bind fun _ => .bind fun _ => .bind fun _ => .bind fun _ => .pure_noResult
  · exact .refuse _

theorem intrinsic_gives (hparts : parts.Regular) (f : Intrinsic) (args : List Expr) (ty : Ty) :
    Gives Γ ty (intrinsic parts f args ty) := by
  unfold intrinsic
  dsimp only
  split
  · exact .refuse_bind _ _
  · split
    · exact .refuse _
    · split
      · exact .bind fun _ => .bind fun _ => .bind fun _ => emit_gives _ ty _
      · exact intrinsicOfForm_gives hparts _ ty _ _
    · exact intrinsicOfForm_gives hparts _ ty _ _

theorem imageAccess_gives (access : ImageAccess) (args : List Expr) (ty : Ty) :
    Gives Γ ty (imageAccess parts access args ty) := by
  refine .bind fun p => .bind fun _ => ?_
  dsimp only
  split
  · split
    · refine .bind fun _ => .bind fun _ => .bind fun _ => .bind fun _ => ?_
      split
      · exact .bind fun _ => .bind fun _ => .bind fun _ => atomic_gives _ _ _ _ _ _ ty
      · exact .bind fun _ => .bind fun _ => .bind fun _ => .bind fun _ => atomic_gives _ _ _ _ _ _ ty
    · exact .refuse _
  · refine .bind fun _ => .bind fun _ => .bind fun _ => ?_
    split
    · exact emit_gives _ ty _
    · exact emit_gives _ ty _
    · exact .bind fun _ => .pure_noResult
    · exact emit_gives _ ty _

theorem textureAccess_gives (access : TextureAccess) (args : List Expr) (ty : Ty) :
    Gives Γ ty (textureAccess parts access args ty) :=
  .bind fun _ => .bind fun _ => .bind fun _ => .bind fun _ => .bind fun _ => emit_gives _ ty _

theorem indexValue_gives (ty : Ty) (array index : Expr) : Gives Γ ty (indexValue parts ty array index) := by
  refine .bind fun whole => ?_
  split
  · exact emit_gives _ ty _
  · refine .bind fun i => ?_
    split
    · exact emit_gives _ ty _
    · refine .bind fun copy => ?_
      intro s id s' h
      obtain ⟨element, s₁, helement, h⟩ := bind_ok h
      obtain ⟨pointerType, s₂, hpointerType, h⟩ := bind_ok h
      obtain ⟨pointer, s₃, hpointer, h⟩ := bind_ok h
      obtain ⟨_, s₄, hpush, h⟩ := bind_ok h
      obtain ⟨id', s₅, hload, h⟩ := bind_ok h
      obtain ⟨_, hrelease, rfl⟩ := bind_pure_ok h
      have htype : s₁.IsType Γ ty element := declareType_isType ty s element s₁ helement
      have hextends : s₁.Extends s₄ :=
        ((Extending.onModule [] fun _ hJ => Module.declarePointer_steady hJ _ nofun) hpointerType).trans
          (((Extending.onModule [] fun _ hJ => takeIntermediate_keeps hJ) hpointer).trans (Extending.push _ hpush))
      exact (load_yields (htype.mono hextends) hload).mono
        ((Extending.onModule [] fun _ hJ => releaseIntermediate_steady hJ _) hrelease)

end Lower

end Shader
