import Shader.Proofs.Constant

/-!
# Operations on specialization constants

An operation that depends on specialization constants, and otherwise on literals, is declared and not
done at run time. Each operation decides so by itself, from the types of its operands. Nothing is left
for run time, and what is declared finds its operands before it, exactly if all of the operations within
decide the same.
-/

namespace Shader

open Action List Module

variable {s s' : Lowerer} {e : Expr} {id : Id}

/-- Whether all operations within are done at specialization, and on no members. -/
def Expr.foldsThroughout : Expr → Bool
  | ⟨_, .literal _⟩ => true
  | ⟨_, .ident v⟩ => !v.isMember
  | ⟨ty, .unary op x⟩ => (op = .plus || folds ⟨ty, .unary op x⟩ [x]) && x.foldsThroughout
  | ⟨ty, .binary op l r⟩ => folds ⟨ty, .binary op l r⟩ [l, r] && l.foldsThroughout && r.foldsThroughout
  | ⟨ty, .select c t f⟩ =>
    folds ⟨ty, .select c t f⟩ [c, t, f] && c.foldsThroughout && t.foldsThroughout && f.foldsThroughout
  | _ => false

/-! ## Declarations in order -/

/-- Opcodes of constants, specialized or not. -/
def Op.isConstant (op : Op) : Bool := op.isFixedConstant || op.isSpecialization

/-- The identifiers of constants. -/
def constantIds (decls : List Inst) : List Id := results (decls.filter (·.op.isConstant))

theorem mem_constantIds {decls : List Inst} {inst : Inst} (hmem : inst ∈ decls)
    (hid : inst.result = some id) (hop : inst.op.isConstant) : id ∈ constantIds decls :=
  mem_filterMap.2 ⟨inst, mem_filter.2 ⟨hmem, hop⟩, hid⟩

theorem constantIds_append (decls decls' : List Inst) :
    constantIds (decls ++ decls') = constantIds decls ++ constantIds decls' := by
  simp [constantIds, results_append]

/-- Every operation on constants that is added finds its operands among the constants before it. -/
def OperandsFirst (decls : List Inst) : List Inst → Prop
  | [] => True
  | inst :: rest =>
    (inst.op = .SpecConstantOp → inst.operands.tail ⊆ constantIds decls) ∧ OperandsFirst (decls ++ [inst]) rest

theorem OperandsFirst.append : ∀ {added decls added' : List Inst}, OperandsFirst decls added →
    OperandsFirst (decls ++ added) added' → OperandsFirst decls (added ++ added')
  | [], _, _, _, h' => by simpa using h'
  | inst :: added, decls, added', h, h' => by
    refine ⟨h.1, append h.2 ?_⟩
    rwa [append_assoc, singleton_append]

theorem OperandsFirst.of_forall : ∀ {added : List Inst} (decls : List Inst),
    (∀ inst ∈ added, inst.op ≠ .SpecConstantOp) → OperandsFirst decls added
  | [], _, _ => trivial
  | inst :: _, _, h =>
    ⟨fun hop => absurd hop (h inst mem_cons_self), of_forall _ fun i hi => h i (mem_cons_of_mem _ hi)⟩

/-- From one state of lowering to another only declarations were added, in order. -/
structure Lowerer.Folded (s s' : Lowerer) : Prop where
  func : s'.func = s.func
  block : s'.block = s.block
  globals : s'.module.globals = s.module.globals
  sound : s'.module.Sound
  added : ∃ added, s'.module.declarations = s.module.declarations ++ added ∧ OperandsFirst s.module.declarations added

namespace Lowerer.Folded

variable {s'' : Lowerer}

theorem refl (hs : s.module.Sound) : s.Folded s := ⟨rfl, rfl, rfl, hs, [], (append_nil _).symm, trivial⟩

theorem trans (h : s.Folded s') (h' : s'.Folded s'') : s.Folded s'' := by
  obtain ⟨added, hadded, hfirst⟩ := h.added
  obtain ⟨added', hadded', hfirst'⟩ := h'.added
  refine ⟨h'.func.trans h.func, h'.block.trans h.block, h'.globals.trans h.globals, h'.sound,
    added ++ added', ?_, hfirst.append (hadded ▸ hfirst')⟩
  rw [hadded', hadded, append_assoc]

theorem at_depth {inner : Nat} (h : Folded { s with depth := inner } s') (outer : Nat) :
    s.Folded { s' with depth := outer } :=
  ⟨h.func, h.block, h.globals, h.sound, h.added⟩

theorem constantIds_subset (h : s.Folded s') :
    constantIds s.module.declarations ⊆ constantIds s'.module.declarations := by
  obtain ⟨added, hadded, -⟩ := h.added
  rw [hadded, constantIds_append]
  exact subset_append_left _ _

end Lowerer.Folded

/-- The variable is a specialization constant, or a part of one, and not hidden. -/
def Lowerer.Specializes (s : Lowerer) (v : Variable) : Prop :=
  s.func.locals.get? v.outermost.name = none ∧ ∃ e, s.module.globals.get? v.outermost.name = some e ∧ e.isValue

variable {ty : Ty} {v : Variable} {op : UnOp}

theorem Lowerer.Specializes.mono (h : s.Specializes v) (hfolded : s.Folded s') : s'.Specializes v := by
  unfold Lowerer.Specializes
  rwa [hfolded.func, hfolded.globals]

/-- No operation on specialization constants was declared since `m₀`. -/
def Ledger.unfolded (m₀ : Module) : Ledger Module where
  Stands _ _ m := m.globals = m₀.globals ∧
    ∃ added, m.declarations = m₀.declarations ++ added ∧ ∀ inst ∈ added, inst.op ≠ .SpecConstantOp
  drop h _ _ := h

theorem Ledger.unfolded_snoc {m₀ m : Module} {inst : Inst} {held : List Id} {known : List Known}
    (h : (Ledger.unfolded m₀).Stands held known m) (hop : inst.op ≠ .SpecConstantOp) :
    ∃ added, m.declarations ++ [inst] = m₀.declarations ++ added ∧ ∀ inst ∈ added, inst.op ≠ .SpecConstantOp := by
  obtain ⟨-, added, hadded, hall⟩ := h
  refine ⟨added ++ [inst], by rw [hadded, append_assoc], fun i hi => ?_⟩
  rcases mem_append.1 hi with hi | hi
  · exact hall i hi
  · rw [mem_singleton.1 hi]
    exact hop

theorem stepwise_unfolded (m₀ : Module) : Stepwise (.unfolded m₀) where
  alike {held known m m'} h ha := by
    rw [ha]
    exact h
  note {held known m} inst h hs _ := by
    rw [noted_insert m hs inst]
    exact h
  name h _ := h
  fresh h _ := h
  type {held known m id op} operands h hop := by
    refine ⟨h.1, Ledger.unfolded_snoc h fun heq => ?_⟩
    rw [show op = .SpecConstantOp from heq] at hop
    cases hop
  remember {held known m m' id} h _ hm' := by
    rw [hm'.same]
    exact h
  literal {held known m next type} l h _ _ _ := by
    refine ⟨h.1, Ledger.unfolded_snoc h fun heq => ?_⟩
    have hfixed := l.inst_isFixedConstant type m.bound
    rw [heq] at hfixed
    cases hfixed

namespace Lower

theorem onModule_folded {α : Type} {x : Build α} {gives : α → List Id} {gains : α → List Known}
    (hx : ∀ J : Ledger Module, Declaring J → Keeps J [] [] x gives gains) (hs : s.module.Sound)
    {a : α} (h : onModule x s = (.ok a, s')) : s.Folded s' := by
  obtain ⟨hrun, hframe⟩ := onModule_ok h
  have hsettled := onModule_settled [] (fun J hJ => hx J hJ.toDeclaring) (fun _ hi => nomatch hi) hs h
  have hunfolded : (Ledger.unfolded s.module).Stands [] [] (x s.module).2 :=
    (hx _ (stepwise_unfolded s.module).declaring).after_nil (fun _ hi => hi)
      ⟨rfl, [], (append_nil _).symm, fun _ hi => nomatch hi⟩
  rw [hrun] at hunfolded
  obtain ⟨hglobals, added, hadded, hall⟩ := hunfolded
  exact ⟨hsettled.func, hsettled.block, hglobals, hsettled.sound, added, hadded, .of_forall _ hall⟩

theorem declareType_folded (hs : s.module.Sound) {type : Id}
    (h : onModule (declareType ty) s = (.ok type, s')) : s.Folded s' :=
  onModule_folded (fun _ hJ => Module.declareType_steady hJ ty) hs h

theorem declareLiteral_folded {l : Literal} (hs : s.module.Sound)
    (h : onModule (declareLiteral l) s = (.ok id, s')) : s.Folded s' ∧ id ∈ constantIds s'.module.declarations := by
  have hfolded := onModule_folded (fun _ hJ => Module.declareLiteral_steady hJ l) hs h
  obtain ⟨type, hmem⟩ := hfolded.sound.literals l id (declareLiteral_ok (onModule_ok h).1)
  refine ⟨hfolded, mem_constantIds hmem rfl ?_⟩
  rw [Op.isConstant, l.inst_isFixedConstant, Bool.true_or]

theorem declareFolded_folded {type : Id} {op : Op} {operands : List Id} (hs : s.module.Sound)
    (hoperands : operands ⊆ constantIds s.module.declarations)
    (h : onModule (declareFolded type op operands) s = (.ok id, s')) :
    s.Folded s' ∧ id ∈ constantIds s'.module.declarations := by
  have hsettled := onModule_settled []
    (fun _ hJ => declareFolded_steady hJ type op operands) (fun _ hi => nomatch hi) hs h
  obtain ⟨rfl, next, -, hmodule⟩ := eq_of_defineValue (onModule_ok h).1
  let inst := Inst.value .SpecConstantOp type s.module.bound (Enumerated.number op :: operands)
  have hdeclarations : s'.module.declarations = s.module.declarations ++ [inst] := by rw [hmodule]
  refine ⟨⟨hsettled.func, hsettled.block, by rw [hmodule], hsettled.sound, [inst], hdeclarations, ?_⟩, ?_⟩
  · exact ⟨fun _ => hoperands, trivial⟩
  · rw [hdeclarations]
    exact mem_constantIds (mem_append_right _ mem_cons_self) rfl rfl

/-- Lowering on constants, fixed or not: operations are declared after their operands. -/
def folding : Progress where
  Moves := Lowerer.Folded
  Constant s id := id ∈ constantIds s.module.declarations
  refl := .refl
  trans := .trans
  sound h := h.sound
  block h := h.block
  mono h _ hid := h.constantIds_subset hid
  declareType hs h := declareType_folded hs h
  atDepth := .at_depth

/-! ## Operators -/

section Operators

variable {need : List Id}

theorem emitOrDeclare_folding (op : Op) (ty : Ty) {operands : List Id} (h : operands ⊆ need) :
    folding.Within need (emitOrDeclare true op ty operands) (fun id => [id]) := by
  intro s s' id hs hneed hrun
  obtain ⟨type, t, htype, hrun⟩ := bind_ok hrun
  have hfolded := declareType_folded hs htype
  obtain ⟨hfolded', hid⟩ := declareFolded_folded hfolded.sound
    (fun i hi => hfolded.constantIds_subset (hneed i (h hi))) hrun
  exact ⟨hfolded.trans hfolded', forall_mem_singleton.2 hid⟩

theorem exists_scalar (h : ty.isFoldable) : ∃ scalar, ty = .scalar scalar ∧ scalar.isFloat = false := by
  cases ty with
  | scalar scalar => exact ⟨scalar, rfl, by simpa [Ty.isFoldable] using h⟩
  | _ => cases h

theorem unary_folding {o : Operand} (hop : op ≠ .plus) (ho : o.ty.isFoldable) (hneed : o.id ∈ need) :
    folding.Within need (unary op o true) (fun id => [id]) := by
  obtain ⟨scalar, hty, -⟩ := exists_scalar ho
  unfold unary vectorUnary
  rw [if_neg hop, hty, if_neg (by simp [Ty.isMatrix])]
  split
  · exact .refuse _
  · exact emitOrDeclare_folding _ _ (by simpa using hneed)

theorem binary_folding {op : BinOp} {l r : Operand} (hl : l.ty.isFoldable) (hr : r.ty.isFoldable)
    (hneed : [l.id, r.id] ⊆ need) : folding.Within need (binary op l r ty true) (fun id => [id]) := by
  obtain ⟨scalar, htyL, hfloat⟩ := exists_scalar hl
  obtain ⟨scalar', htyR, -⟩ := exists_scalar hr
  have hproduct : productOf? op scalar.family l r = none := by
    unfold productOf?
    cases scalar <;> simp_all [Scalar.family, Scalar.isFloat]
  have hbroadcast : broadcast l r = pure (l.id, r.id, 1) := by
    unfold broadcast
    rw [htyL, htyR]
    rfl
  unfold binary vectorBinary componentWise
  rw [if_neg (by simp [htyL, htyR, Ty.isMatrix]), htyL]
  dsimp only [Ty.scalar?]
  rw [hproduct, hbroadcast]
  simp only [pure_bind]
  split
  · exact .refuse _
  · rw [if_neg (by simp)]
    exact emitOrDeclare_folding _ _ hneed

theorem columnWise_emits (need : List Known) (ty : Ty) {column : Ty → Word → Lower Id}
    (hcolumn : ∀ L : Ledger Lowerer, Emitting L → ∀ columnTy c need', need ⊆ need' →
      Supplies L need' (column columnTy c)) : Emits (columnWise ty column) := by
  unfold columnWise
  split
  · refine Emits.after need (fun L hL => Steady.mapM_mem ?_) fun ids => emit_emits
    exact fun c _ need' h => hcolumn L hL _ _ need' h
  · exact .refuse _

theorem unary_emits (o : Operand) (hop : op ≠ .plus) : Emits (unary op o false) := by
  unfold unary
  rw [if_neg hop]
  split
  · exact columnWise_emits [.value o.id] _ fun L hL columnTy c need' h =>
      unaryColumn_steady hL op (h mem_cons_self) columnTy c
  · unfold vectorUnary
    split
    · exact .refuse _
    · exact emit_emits

theorem vectorBinary_emits (op : BinOp) (l r : Operand) (ty : Ty) : Emits (vectorBinary op l r ty false) := by
  unfold vectorBinary
  split
  · exact .refuse _
  · split
    · exact emit_emits
    · refine Emits.after [.value l.id, .value r.id] (fun L hL => broadcast_steady hL (by simp) (by simp)) fun p => ?_
      dsimp only
      split
      · exact .refuse _
      · split
        · exact emit_emits.bind fun _ => emit_emits
        · exact emit_emits

theorem binary_emits (op : BinOp) (l r : Operand) (ty : Ty) : Emits (binary op l r ty false) := by
  unfold binary
  split
  · split
    · exact .refuse _
    · split
      · exact emit_emits
      · exact columnWise_emits [.value l.id, .value r.id] _ fun L hL columnTy c need' h =>
          binaryColumn_steady hL op (h (by simp)) (h (by simp)) columnTy c
  · exact vectorBinary_emits op l r ty

theorem choose_folding {c : Operand} {onTrue onFalse : Id} (hty : ty.isFoldable)
    (hneed : [c.id, onTrue, onFalse] ⊆ need) :
    folding.Within need (choose ty c onTrue onFalse true) (fun id => [id]) := by
  obtain ⟨scalar, rfl, -⟩ := exists_scalar hty
  intro s s' id hs hmet hrun
  unfold choose at hrun
  rw [get_bind, if_neg (by simp [Ty.width?]), pure_bind] at hrun
  exact emitOrDeclare_folding _ _ hneed hs hmet hrun

theorem choose_emits (ty : Ty) (c : Operand) (onTrue onFalse : Id) : Emits (choose ty c onTrue onFalse false) := by
  refine Emits.after [] (fun L hL => Keeps.get_bind fun s => Steady.done s s) fun state => ?_
  dsimp only
  split
  · exact Emits.after [.value c.id] (fun L hL => splat_steady hL _ (by simp) _ _) fun _ => emit_emits
  · exact emit_emits

end Operators

/-! ## Variables -/

theorem declareByRole_found {m : Module} {locals : Option Scope} {e : Entity}
    (h : m.lookup locals v.outermost.name = some e) : declareByRole locals v m = (.ok { entity := e }, m) := by
  unfold declareByRole
  rw [get_bind]
  rw [h]
  rfl

theorem resolve_specialization (h : s.Specializes v) :
    ∃ e, e.isValue ∧ s.module.globals.get? v.outermost.name = some e ∧ resolve v s = (.ok e, s) := by
  obtain ⟨hlocal, e, he, hvalue⟩ := h
  refine ⟨e, hvalue, he, ?_⟩
  have hfound : s.module.lookup (some s.func.locals) v.outermost.name = some e := by
    rw [Module.lookup, Option.bind_some, hlocal, Option.none_or, he]
  have hdeclare : onModule (declareByRole (some s.func.locals) v) s = (.ok { entity := e }, s) := by
    unfold onModule
    rw [declareByRole_found hfound]
  unfold resolve
  rw [get_bind, bind_apply_ok hdeclare]
  rfl

theorem spill_emits (ty : Ty) (value : Id) : Emits (spill ty value) := by
  intro s s' id h
  obtain ⟨copy, t, htemp, h⟩ := bind_ok h
  obtain ⟨_, hstore, rfl⟩ := bind_pure_ok h
  cases hstore
  refine Nat.lt_of_le_of_lt (count_le [] (fun L hL => temp_steady hL ty) htemp) ?_
  simp [count, Block.push]

theorem member_emits {parts : Parts} (hparts : parts.Regular) (hmember : v.isMember) (hv : s.Specializes v) {e : Entity}
    (h : node parts ⟨ty, .ident v⟩ .value s = (.ok e, s')) : count s < count s' := by
  cases v with
  | root => cases hmember
  | member outer index name vty =>
    let path := Chain.ofVariable (.member outer index name vty)
    obtain ⟨p, u, hplace, hentity⟩ := bind_ok (show (placeOfChain parts path >>= placeEntity ty) s = (.ok e, s') from h)
    obtain ⟨root, t, hroot, hplace⟩ := bind_ok hplace
    obtain ⟨base, t', hbase, hfollow⟩ := bind_ok hplace
    have hhead : s.Specializes path.head := by
      rw [Chain.head_ofVariable]
      unfold Lowerer.Specializes
      rwa [Variable.outermost_outermost]
    obtain ⟨entity, hvalue, -, hresolve⟩ := resolve_specialization hhead
    cases hroot.symm.trans hresolve
    calc count s
      _ < count t' := ?_
      _ ≤ count u := count_le base.known (fun L hL => follow_steady hL (hparts L hL)
            (Chain.ofVariable_operable fun _ => trivial) _ fun _ hk => hk) hfollow
      _ ≤ count s' := count_le p.entity.known (fun L hL => placeEntity_steady hL ty fun _ hk => hk) hentity
    unfold pathBase at hbase
    rw [if_neg (by simpa [Entity.isPointer, Entity.isValue] using hvalue)] at hbase
    obtain ⟨copy, t₁, hspill, hbase⟩ := bind_ok hbase
    refine Nat.lt_of_lt_of_le (spill_emits _ _ hspill) ?_
    obtain ⟨type, htype, rfl⟩ := bind_pure_ok hbase
    exact count_le [] (fun L hL => declareType_steady hL _) htype

/-! ## Whole expressions -/

/-- Parts that append nothing exactly if their expression folds throughout. -/
structure Foldings (parts : Parts) : Prop where
  steady : ∀ L : Ledger Lowerer, Emitting L → parts.Steady .any L
  value : ∀ {e : Expr} {s s' : Lowerer} {id : Id}, e.specialized?.isSome → s.module.Sound →
    (∀ v ∈ e.mentions, s.Specializes v) → parts.value e s = (.ok id, s') → folding.Outcome e.foldsThroughout [id] s s'

section Nodes

variable {parts : Parts}

theorem operand_outcome (hparts : Foldings parts) (he : e.specialized?.isSome) (hs : s.module.Sound)
    (hvars : ∀ v ∈ e.mentions, s.Specializes v) {o : Operand} (h : operand parts e s = (.ok o, s')) :
    o.ty = e.ty ∧ folding.Outcome e.foldsThroughout [o.id] s s' := by
  obtain ⟨id, hvalue, rfl⟩ := bind_pure_ok h
  exact ⟨rfl, hparts.value he hs hvars hvalue⟩

theorem unary_outcome (hparts : Foldings parts) {x : Expr} (hx : x.specialized?.isSome)
    (hs : s.module.Sound) (hvars : ∀ v ∈ x.mentions, s.Specializes v)
    (h : (operand parts x >>= fun o => unary op o (e.folds [x])) s = (.ok id, s')) :
    folding.Outcome (x.foldsThroughout ∧ (op = .plus ∨ e.folds [x])) [id] s s' := by
  obtain ⟨o, t, ho, hrun⟩ := bind_ok h
  obtain ⟨hty, houtcome⟩ := operand_outcome hparts hx hs hvars ho
  have hgood : op = .plus ∨ e.folds [x] → folding.Within [o.id] (unary op o (e.folds [x])) (fun id => [id]) := by
    intro hcase
    by_cases hop : op = .plus
    · unfold unary
      rw [if_pos hop]
      exact .pure _ fun _ hi => hi
    · have hfolds := hcase.resolve_left hop
      rw [hfolds]
      simp only [Expr.folds, all_cons, all_nil, Bool.and_eq_true] at hfolds
      exact unary_folding hop (hty ▸ hfolds.2.1) mem_cons_self
  have hbad : ¬ (op = .plus ∨ e.folds [x]) → Emits (unary op o (e.folds [x])) := by
    intro hcase
    rw [not_or, Bool.not_eq_true] at hcase
    rw [hcase.2]
    exact unary_emits o hcase.1
  have hle := count_le [.value o.id] (fun L hL => unary_steady hL op (by simp) _) hrun
  exact (houtcome.and (fun _ hmoves hids => .of_within hgood hbad hmoves.sound hids hrun) hle).weaken
    (subset_append_right _ _)

theorem binary_outcome (hparts : Foldings parts) {op : BinOp} {l r : Expr}
    (hl : l.specialized?.isSome) (hr : r.specialized?.isSome) (hs : s.module.Sound)
    (hvars : ∀ v ∈ l.mentions ++ r.mentions, s.Specializes v)
    (h : (operand parts l >>= fun lhs => operand parts r >>= fun rhs =>
      binary op lhs rhs e.ty (e.folds [l, r])) s = (.ok id, s')) :
    folding.Outcome (l.foldsThroughout ∧ r.foldsThroughout ∧ e.folds [l, r]) [id] s s' := by
  obtain ⟨lhs, t, hlhs, hrun⟩ := bind_ok h
  obtain ⟨rhs, u, hrhs, hrun⟩ := bind_ok hrun
  obtain ⟨htyL, houtcomeL⟩ := operand_outcome hparts hl hs (fun v hv => hvars v (mem_append_left _ hv)) hlhs
  have hgood : rhs.ty = r.ty → e.folds [l, r] →
      folding.Within [rhs.id, lhs.id] (binary op lhs rhs e.ty (e.folds [l, r])) (fun id => [id]) := by
    intro htyR hfolds
    rw [hfolds]
    simp only [Expr.folds, all_cons, all_nil, Bool.and_eq_true] at hfolds
    exact binary_folding (htyL ▸ hfolds.2.1) (htyR ▸ hfolds.2.2.1) (by simp)
  have hbad : ¬ e.folds [l, r] → Emits (binary op lhs rhs e.ty (e.folds [l, r])) := by
    intro hcase
    rw [Bool.not_eq_true] at hcase
    rw [hcase]
    exact binary_emits op lhs rhs e.ty
  have hle := count_le [.value rhs.id, .value lhs.id] (fun L hL => binary_steady hL op (by simp) (by simp) e.ty _) hrun
  have hle' := count_le [] (fun L hL => operand_steady (hparts.steady L hL) r.operable_any) hrhs
  refine (houtcomeL.and (fun _ hmoves hids => ?_) (Nat.le_trans hle' hle)).weaken (subset_append_right _ _)
  obtain ⟨htyR, houtcomeR⟩ := operand_outcome hparts hr hmoves.sound
    (fun v hv => (hvars v (mem_append_right _ hv)).mono hmoves) hrhs
  refine (houtcomeR.and (fun _ hmoves' hids' => ?_) hle).weaken (subset_append_right _ _)
  have hmet : ∀ i ∈ [rhs.id, lhs.id], folding.Constant u i := forall_mem_cons.2
    ⟨hids' _ mem_cons_self, fun i hi => folding.mono hmoves' (hids i hi)⟩
  have hdone := Progress.Outcome.of_within (hgood htyR) hbad hmoves'.sound hmet hrun
  exact hdone

theorem select_outcome (hparts : Foldings parts) {c t f : Expr} (hc : c.specialized?.isSome)
    (ht : t.specialized?.isSome) (hf : f.specialized?.isSome) (hs : s.module.Sound)
    (hvars : ∀ v ∈ c.mentions ++ t.mentions ++ f.mentions, s.Specializes v)
    (h : select parts e c t f s = (.ok id, s')) :
    folding.Outcome (c.foldsThroughout ∧ t.foldsThroughout ∧ f.foldsThroughout ∧ e.folds [c, t, f]) [id] s s' := by
  obtain ⟨condition, s₁, hcondition, hrun⟩ := bind_ok h
  obtain ⟨onTrue, s₂, htrue, hrun⟩ := bind_ok hrun
  obtain ⟨onFalse, s₃, hfalse, hrun⟩ := bind_ok hrun
  have hgood : e.folds [c, t, f] → folding.Within [onFalse, onTrue, condition.id]
      (choose e.ty condition onTrue onFalse (e.folds [c, t, f])) (fun id => [id]) := by
    intro hfolds
    rw [hfolds]
    simp only [Expr.folds, Bool.and_eq_true] at hfolds
    exact choose_folding hfolds.1.2 (by simp)
  have hbad : ¬ e.folds [c, t, f] → Emits (choose e.ty condition onTrue onFalse (e.folds [c, t, f])) := by
    intro hcase
    rw [Bool.not_eq_true] at hcase
    rw [hcase]
    exact choose_emits _ _ _ _
  have hle₃ := count_le [.value condition.id, .value onTrue, .value onFalse]
    (fun L hL => choose_steady hL e.ty (by simp) (by simp) (by simp) _) hrun
  have hle₂ := count_le [] (fun L hL => (hparts.steady L hL).value f.operable_any []) hfalse
  have hle₁ := count_le [] (fun L hL => (hparts.steady L hL).value t.operable_any []) htrue
  have houtcome := (operand_outcome hparts hc hs (fun v hv => hvars v (by simp [hv])) hcondition).2
  refine (houtcome.and (fun _ hmoves hids => ?_) (by omega)).weaken (subset_append_right _ _)
  have houtcome₁ := hparts.value ht hmoves.sound (fun v hv => (hvars v (by simp [hv])).mono hmoves) htrue
  refine (houtcome₁.and (fun _ hmoves₁ hids₁ => ?_) (by omega)).weaken (subset_append_right _ _)
  have houtcome₂ := hparts.value hf hmoves₁.sound
    (fun v hv => (hvars v (by simp [hv])).mono (hmoves.trans hmoves₁)) hfalse
  refine (houtcome₂.and (fun _ hmoves₂ hids₂ => ?_) hle₃).weaken (subset_append_right _ _)
  have hmet : ∀ i ∈ [onFalse, onTrue, condition.id], folding.Constant s₃ i := by
    refine forall_mem_cons.2 ⟨hids₂ _ mem_cons_self, forall_mem_cons.2 ⟨?_, ?_⟩⟩
    · exact folding.mono hmoves₂ (hids₁ _ mem_cons_self)
    · exact fun i hi => folding.mono hmoves₂ (folding.mono hmoves₁ (hids i hi))
  have hdone := Progress.Outcome.of_within hgood hbad hmoves₂.sound hmet hrun
  exact hdone

end Nodes

theorem ident_outcome {height : Nat} (hs : s.module.Sound) (hv : s.Specializes v)
    (h : (partsOf (lowerWithin height)).value ⟨ty, .ident v⟩ s = (.ok id, s')) :
    folding.Outcome (v.isMember = false) [id] s s' := by
  obtain ⟨rest, entity, t, rfl, hnode, hload⟩ := valueWithin_ok h
  by_cases hmember : v.isMember
  · refine .inr ⟨by simp [hmember], ?_⟩
    have hlt := member_emits (partsOf_regular rest) hmember (by exact hv) hnode
    have hle := count_le entity.known (fun L hL => load_steady hL fun _ hk => hk) hload
    exact Nat.lt_of_lt_of_le hlt hle
  · rw [Bool.not_eq_true] at hmember
    obtain ⟨e, hvalue, hglobal, hresolve⟩ := resolve_specialization (s := { s with depth := s.depth + 1 }) hv
    unfold node at hnode
    dsimp only at hnode
    rw [if_neg (by simp [hmember]), hresolve] at hnode
    cases hnode
    unfold load at hload
    rw [if_pos (by simp [hvalue])] at hload
    obtain ⟨rfl, rfl⟩ := pure_ok hload
    refine .inl ⟨hmember, .refl hs, forall_mem_singleton.2 ?_⟩
    obtain ⟨inst, hmem, hresult, hop⟩ := hs.values _ entity hglobal hvalue
    exact mem_constantIds hmem hresult (by simp [Op.isConstant, hop])

theorem isSome_of_or {a b : Option Bool} (h : (do return (← a) || (← b) : Option Bool).isSome) :
    a.isSome ∧ b.isSome := by
  cases a <;> cases b <;> simp_all

theorem foldings_within : ∀ height : Nat, Foldings (partsOf (lowerWithin height))
  | 0 => {
      steady := partsOf_regular 0
      value := fun _ _ _ h => by
        obtain ⟨rest, _, _, hrest, -⟩ := valueWithin_ok h
        cases hrest }
  | height + 1 => {
      steady := partsOf_regular (height + 1)
      value := by
        have ih := foldings_within height
        rintro ⟨ty, node⟩ s s' id he hs hvars h
        cases node with
        | literal l =>
          refine valued_outcome (fun _ => rfl) (fun _ hrun => ?_) h
          obtain ⟨hfolded, hid⟩ := declareLiteral_folded (by exact hs) hrun
          exact .inl ⟨rfl, hfolded, forall_mem_singleton.2 hid⟩
        | ident v =>
          refine (ident_outcome hs (hvars v mem_cons_self) h).of_iff ?_
          simp [Expr.foldsThroughout]
        | unary op x =>
          rw [Expr.specialized?] at he
          refine valued_outcome (fun _ => (bind_assoc _ _ _).symm) (fun hrest hrun => ?_) h
          cases hrest
          refine (unary_outcome (e := ⟨ty, .unary op x⟩) ih he (by exact hs) (by exact hvars) hrun).of_iff ?_
          simp [Expr.foldsThroughout, and_comm]
        | binary op l r =>
          obtain ⟨hl, hr⟩ := isSome_of_or he
          have hnode : ∀ parts, node parts ⟨ty, .binary op l r⟩ .value =
              (operand parts l >>= fun lhs => operand parts r >>= fun rhs =>
                binary op lhs rhs ty (Expr.folds ⟨ty, .binary op l r⟩ [l, r])) >>=
              fun id => value ty id := fun parts => by
            simp only [bind_assoc]
            rfl
          refine valued_outcome hnode (fun hrest hrun => ?_) h
          cases hrest
          refine (binary_outcome (e := ⟨ty, .binary op l r⟩) ih hl hr (by exact hs) (by exact hvars) hrun).of_iff ?_
          simp only [Expr.foldsThroughout, Bool.and_eq_true]
          tauto
        | select c t f =>
          rw [Expr.specialized?] at he
          have hsome : c.specialized?.isSome ∧ t.specialized?.isSome ∧ f.specialized?.isSome := by
            cases hc : c.specialized? <;> cases ht : t.specialized? <;>
              cases hf : f.specialized? <;> simp_all
          refine valued_outcome (fun _ => rfl) (fun hrest hrun => ?_) h
          cases hrest
          refine (select_outcome (e := ⟨ty, .select c t f⟩) ih hsome.1 hsome.2.1 hsome.2.2
            (by exact hs) (by exact hvars) hrun).of_iff ?_
          simp only [Expr.foldsThroughout, Bool.and_eq_true]
          tauto
        | _ => cases he }

end Lower

/-- The operands of an operator. -/
def Expr.operands : Expr → List Expr
  | ⟨_, .unary _ x⟩ => [x]
  | ⟨_, .binary _ l r⟩ => [l, r]
  | ⟨_, .select c t f⟩ => [c, t, f]
  | _ => []

/-- An operation done at specialization takes no instruction, and only earlier constants, exactly if all
operations within are done so too. -/
theorem lower_folds_iff {config : Config} {w : Workbench} (hw : w.Reachable config) {e : Expr}
    (hfolds : e.folds e.operands) {s s' : Lowerer} (hs : s.module = w.module)
    (hvars : ∀ v ∈ e.mentions, s.Specializes v) {id : Id} (h : Lower.lower e s = (.ok id, s')) :
    (s'.block = s.block ∧ ∃ added, s'.module.declarations = s.module.declarations ++ added ∧
        OperandsFirst s.module.declarations added) ↔
      e.foldsThroughout := by
  have hsound : s.module.Sound := hs ▸ hw.sound.ledger.1
  have hsome : e.specialized?.isSome := by
    simp only [Expr.folds, Expr.isSpecialization, Bool.and_eq_true, decide_eq_true_eq] at hfolds
    rw [hfolds.1.1]
    rfl
  rcases (Lower.foldings_within _).value hsome hsound hvars h with
    ⟨hgood, hfolded, -⟩ | ⟨hbad, hlt⟩
  · exact ⟨fun _ => hgood, fun _ => ⟨hfolded.block, hfolded.added⟩⟩
  · refine ⟨fun hsame => absurd hlt ?_, fun hgood => absurd hgood hbad⟩
    rw [Lower.count, Lower.count, hsame.1]
    exact Nat.lt_irrefl _

def Workbench.specialized : Workbench :=
  ((Workbench.start {}).perform (.specConstant "size" 0 (.scalar .int) (.int 5))).2

def Expr.size : Expr := .ident (.root "size" (.scalar .int) { specConstant := true })

def Expr.sizePlus (x : Expr) : Expr := ⟨.scalar .int, .binary .add .size x⟩

theorem lower_sum_of_sums_folds :
    let e := Expr.sizePlus (.sizePlus (.literal (.int 1)))
    let s := Lowerer.empty Workbench.specialized.module
    e.folds e.operands ∧ (∀ v ∈ e.mentions, s.Specializes v) ∧ e.foldsThroughout ∧
      ∃ id s', Lower.lower e s = (.ok id, s') ∧ s'.block = s.block ∧
        ∃ added, s'.module.declarations = s.module.declarations ++ added ∧
          OperandsFirst s.module.declarations added := by
  intro e s
  have hok : (Lower.lower e s).1.isOk := by decide +kernel
  have hvars : ∀ v ∈ e.mentions, s.Specializes v := by
    intro v hv
    obtain rfl : v = .root "size" (.scalar .int) { specConstant := true } := by
      simpa [e, Expr.sizePlus, Expr.size, Expr.mentions, Expr.ident, Expr.literal] using hv
    exact ⟨rfl, ⟨3, none, 2⟩, by decide +kernel, rfl⟩
  obtain ⟨id, h⟩ := exists_ok hok
  have hreachable : Workbench.specialized.Reachable {} := .perform .start rfl nofun
  exact ⟨rfl, hvars, rfl, id, _, h, (lower_folds_iff hreachable rfl rfl hvars h).2 rfl⟩

/-- The sum of two literals is computed at run time, also as an operand of what is declared. -/
def Expr.sizePlusSum : Expr := .sizePlus ⟨.scalar .int, .binary .add (.literal (.int 1)) (.literal (.int 2))⟩

theorem lower_sum_of_literals_emits : Expr.sizePlusSum.folds Expr.sizePlusSum.operands ∧
      (Lower.lower .sizePlusSum (.empty Workbench.specialized.module)).1.isOk ∧
      (Lower.lower .sizePlusSum (.empty Workbench.specialized.module)).2.block.instructions.map (·.op) = [.IAdd] := by
  decide +kernel

end Shader
