import Shader.Proofs.Results

/-!
# Appended instructions

Lowering appends instructions to a block, also where it ends early. A law says which ones it may append,
given what is declared by then. Most only compute a result from values, and a law that has nothing to
say about these is kept by every step that appends no others.
-/

namespace Shader

open Action List Module

/-! ## Kinds of instructions -/

/-- Whether the instruction calls a function, works on memory atomically or writes to an image. -/
def Op.acts : Op → Bool
  | .FunctionCall | .ImageWrite | .AtomicLoad | .AtomicStore | .AtomicExchange
  | .AtomicCompareExchange | .AtomicIIncrement | .AtomicIDecrement | .AtomicIAdd | .AtomicISub
  | .AtomicSMin | .AtomicUMin | .AtomicSMax | .AtomicUMax | .AtomicAnd | .AtomicOr | .AtomicXor => true
  | _ => false

/-- Instructions that ask for the properties of an image. -/
def Op.isImageQuery : Op → Bool
  | .ImageQuerySizeLod | .ImageQuerySize | .ImageQueryLod | .ImageQueryLevels | .ImageQuerySamples => true
  | _ => false

/-- Instructions that read texels of an image. -/
def Op.readsTexels : Op → Bool
  | .ImageSampleImplicitLod | .ImageSampleExplicitLod | .ImageSampleDrefImplicitLod
  | .ImageSampleDrefExplicitLod | .ImageSampleProjImplicitLod | .ImageSampleProjExplicitLod
  | .ImageSampleProjDrefImplicitLod | .ImageSampleProjDrefExplicitLod | .ImageFetch | .ImageGather
  | .ImageDrefGather | .ImageRead => true
  | _ => false

/-- Whether the instruction acts or accesses an image. -/
def Op.engages (op : Op) : Bool := op.acts || op.isImageQuery || op.readsTexels

variable {W : Law} {s : Lowerer} {op : Op}

theorem Op.engages_of_acts (h : op.acts) : op.engages := by simp [engages, h]

/-- Whether the instruction neither does so nor goes through a pointer to a variable. -/
def Op.computes (op : Op) : Bool := !op.engages && op != .Load && op != .Store && op != .AccessChain

theorem BinOp.opcodes_computes (op : BinOp) : op.opcodes.all Op.computes := by
  cases op <;> rfl

theorem UnOp.opcodes_computes (op : UnOp) : op.opcodes.all Op.computes := by
  cases op <;> rfl

theorem conversion_computes {a b : Scalar} (h : Lower.conversion a b = .instruction op) : op.computes := by
  cases a <;> cases b <;> cases h <;> rfl

theorem product?_computes {l r : Operand} {a b : Id} (h : Lower.product? l r = some (op, a, b)) : op.computes := by
  unfold Lower.product? at h
  split at h <;> cases h <;> rfl

/-- Forms of functions whose instructions only compute. -/
def IntrinsicForm.computes : IntrinsicForm → Bool
  | .core ops => ops.all Op.computes
  | .atomic ops => ops.all Op.acts
  | .carry op | .wideProduct op => op.computes
  | .extended _ | .extendedOutput _ => true

theorem Intrinsic.form_computes (f : Intrinsic) : f.form.computes := by
  cases f <;> rfl

theorem TextureAccess.form_engages (access : TextureAccess) : access.form.op.engages := by
  cases access <;> rfl

/-! ## Laws -/

/-- Which instructions may be appended, given what is declared by then. -/
structure Law where
  Holds : Lowerer → Inst → Prop
  mono : ∀ {s t : Lowerer} {inst : Inst}, s.Extends t → Holds s inst → Holds t inst

/-- The law has nothing to say about instructions of this opcode. -/
def Law.Allows (W : Law) (op : Op) : Prop := ∀ s inst, inst.op = op → W.Holds s inst

/-- The law has nothing to say about computations. -/
def Law.Spares (W : Law) : Prop := ∀ op, op.computes → W.Allows op

/-- A law on opcodes alone. -/
def Law.onOps (p : Op → Prop) : Law where
  Holds _ inst := p inst.op
  mono _ h := h

/-- A later state, and what was appended on the way keeps to the law. -/
structure Lowerer.Adds (W : Law) (s t : Lowerer) : Prop where
  later : s.Extends t
  depth : t.depth = s.depth
  code : ∃ code, t.block.instructions = s.block.instructions ++ code ∧ ∀ inst ∈ code, W.Holds t inst

namespace Lowerer.Adds

variable {t u : Lowerer}

theorem refl (s : Lowerer) : s.Adds W s := ⟨.refl s, rfl, [], by simp, forall_mem_nil _⟩

theorem trans (h : s.Adds W t) (h' : t.Adds W u) : s.Adds W u := by
  obtain ⟨code, hcode, hlaw⟩ := h.code
  obtain ⟨code', hcode', hlaw'⟩ := h'.code
  refine ⟨h.later.trans h'.later, h'.depth.trans h.depth, code ++ code', by rw [hcode', hcode, append_assoc], ?_⟩
  exact forall_mem_append.2 ⟨fun inst hi => W.mono h'.later (hlaw inst hi), hlaw'⟩

theorem of_block (h : s.Extends t) (hdepth : t.depth = s.depth) (hblock : t.block = s.block) : s.Adds W t :=
  ⟨h, hdepth, [], by simp [hblock], forall_mem_nil _⟩

end Lowerer.Adds

namespace Lower

variable {α β : Type} {x : Lower α} {f : α → Lower β} {gives : α → List Id} {gains : α → List Known}

/-- What the step appends from that state on keeps to the law, whether it succeeds or not. -/
def ObeysAt (W : Law) (x : Lower α) (s : Lowerer) : Prop :=
  ∀ ⦃r : Except Fault α⦄ ⦃s' : Lowerer⦄, x s = (r, s') → s.Adds W s'

/-- From every state, what is appended keeps to the law. -/
def Obeys (W : Law) (x : Lower α) : Prop := ∀ s, ObeysAt W x s

theorem ObeysAt.bind (hx : ObeysAt W x s) (hf : ∀ a t, x s = (.ok a, t) → ObeysAt W (f a) t) :
    ObeysAt W (x >>= f) s := by
  intro r s' h
  rcases hrun : x s with ⟨e | a, t⟩
  · rw [bind_apply_error hrun] at h
    cases h
    exact hx hrun
  · rw [bind_apply_ok hrun] at h
    exact (hx hrun).trans (hf a t hrun h)

namespace Obeys

theorem pure (a : α) : Obeys W (Pure.pure a : Lower α) := by
  intro s r s' h
  cases h
  exact .refl s

theorem refuse (e : BuildError) : Obeys W (Build.refuse e : Lower α) := by
  intro s r s' h
  cases h
  exact .refl s

theorem refuse_bind (e : BuildError) (f : α → Lower β) : Obeys W (Build.refuse e >>= f) := by
  intro s r s' h
  cases h
  exact .refl s

theorem checked (c : Checked α) : Obeys W (Build.checked c : Lower α) := by
  cases c with
  | ok a => exact pure a
  | error o =>
    intro s r s' h
    cases h
    exact .refl s

theorem bind (hx : Obeys W x) (hf : ∀ a, Obeys W (f a)) : Obeys W (x >>= f) := fun s => (hx s).bind fun a t _ => hf a t

theorem get_bind {f : Lowerer → Lower α} (hf : ∀ s, Obeys W (f s)) : Obeys W (get >>= f) := fun s => hf s s

theorem mapM : ∀ {l : List α}, (∀ a ∈ l, Obeys W (f a)) → Obeys W (l.mapM f)
  | [], _ => pure []
  | a :: l, hf => by
    obtain ⟨ha, hl⟩ := forall_mem_cons.1 hf
    rw [mapM_cons]
    exact ha.bind fun b => (mapM hl).bind fun bs => pure _

theorem building {x : Build α} (need : List Known)
    (hx : ∀ J : Ledger Module, Building .any J → Keeps J [] need x gives gains) : Obeys W (onModule x) := by
  intro s r s' h
  have hextends : s.Extends s' := extends_of_keeps need (fun L hL => onModule_keeps fun s => hx _ (hL.building s)) h
  cases h
  exact .of_block hextends rfl rfl

theorem declaring {x : Build α} (need : List Known)
    (hx : ∀ J : Ledger Module, Declaring J → Keeps J [] need x gives gains) :
    Obeys W (onModule x) := building need fun J hJ => hx J hJ.toDeclaring

theorem push {inst : Inst} (h : W.Allows inst.op) : Obeys W (push inst) := by
  intro s r s' hrun
  cases hrun
  refine ⟨Extending.push inst rfl, rfl, [inst], rfl, fun i hi => ?_⟩
  exact h _ i (by rw [mem_singleton.1 hi])

end Obeys

theorem push_obeysAt {inst : Inst} (h : W.Holds { s with block := s.block.push inst } inst) :
    ObeysAt W (push inst) s := by
  intro r s' hrun
  cases hrun
  refine ⟨Extending.push inst rfl, rfl, [inst], rfl, fun i hi => ?_⟩
  rw [mem_singleton.1 hi]
  exact h

/-! ## Basic steps -/

theorem declareType_obeys (ty : Ty) : Obeys W (onModule (declareType ty)) :=
  .declaring [] fun _ hJ => Module.declareType_steady hJ ty

theorem declarePointer_obeys (pointee : Id) (storage : StorageClass) :
    Obeys W (onModule (declarePointer pointee storage)) :=
  .declaring [] fun _ hJ => Module.declarePointer_steady hJ storage nofun

theorem declareLiteral_obeys (l : Literal) : Obeys W (onModule (declareLiteral l)) :=
  .declaring [] fun _ hJ => Module.declareLiteral_steady hJ l

theorem freshId_obeys : Obeys W (onModule Module.freshId) := .declaring [] fun _ hJ => Module.freshId_keeps hJ

theorem takeIntermediate_obeys : Obeys W (onModule takeIntermediate) :=
  .declaring [] fun _ hJ => takeIntermediate_keeps hJ

theorem releaseIntermediate_obeys (id : Id) : Obeys W (onModule (releaseIntermediate id)) :=
  .declaring [] fun _ hJ => releaseIntermediate_steady hJ id

theorem nameMember_obeys (locals : Option Scope) (outer : Id) (name : String) (index : Word) :
    Obeys W (onModule (nameMember locals outer name index)) :=
  .building (locals.elim [] Scope.known) fun _ hJ => nameMember_steady hJ (by rintro _ rfl; simp) outer name index

theorem functionNamed_obeys (name : String) : Obeys W (onModule (functionNamed name)) :=
  .building [] fun _ hJ => functionNamed_steady hJ name

theorem emitAs_obeys (hop : W.Allows op) (type : Id) (operands : List Word) : Obeys W (emitAs op type operands) :=
  freshId_obeys.bind fun id =>
    have hpush : Obeys W (push (.value op type id operands)) := .push hop
    hpush.bind fun _ => .pure id

theorem emitAs_obeysAt {type : Id} {operands : List Word}
    (h : ∀ t id, s.Extends t → W.Holds t (.value op type id operands)) : ObeysAt W (emitAs op type operands) s := by
  refine (freshId_obeys s).bind fun id t hfresh => ?_
  have hlater := (freshId_obeys (W := W) s hfresh).later.trans (Extending.push (.value op type id operands) rfl)
  exact (push_obeysAt (h _ id hlater)).bind fun _ u _ => Obeys.pure id u

theorem emit_obeys (hop : W.Allows op) (ty : Ty) (operands : List Word) : Obeys W (emit op ty operands) :=
  (declareType_obeys ty).bind fun type => emitAs_obeys hop type operands

theorem emitEffect_obeys (hop : W.Allows op) (operands : List Word) : Obeys W (emitEffect op operands) := .push hop

theorem emitOrDeclare_obeys (fold : Bool) (hop : W.Allows op) (ty : Ty) (operands : List Word) :
    Obeys W (emitOrDeclare fold op ty operands) := by
  unfold emitOrDeclare
  split
  · refine (declareType_obeys ty).bind fun type => ?_
    exact .building [] fun _ hJ => declareFolded_steady hJ type op operands
  · exact emit_obeys hop ty operands

theorem value_obeys (ty : Ty) (id : Id) : Obeys W (value ty id) := (declareType_obeys ty).bind fun _ => .pure _

theorem assigned_obeys (p : Place) (ty : Ty) (id : Id) (demand : Demand) : Obeys W (match p.swizzle, demand with
      | none, .pointer => pure p.entity
      | _, _ => value ty id : Lower Entity) := by
  split
  · exact .pure _
  · exact value_obeys ty id

theorem bind_value_obeys {x : Lower Id} (hx : Obeys W x) (ty : Ty) :
    Obeys W (x >>= fun id => value ty id) := hx.bind fun id => value_obeys ty id

theorem obeys_of_steady (need : List Known) (hx : ∀ L : Ledger Lowerer, Emitting L → Keeps L [] need x gives gains)
    (hblock : ∀ s, (x s).2.block = s.block) : Obeys W x := by
  intro s r s' h
  have hs := hblock s
  rw [h] at hs
  exact .of_block (extends_of_keeps need hx h) (depth_of_keeps need hx h) hs

theorem onModule_block (x : Build α) (s : Lowerer) : (onModule x s).2.block = s.block := by
  rfl

theorem resolve_obeys (v : Variable) : Obeys W (resolve v) := by
  refine obeys_of_steady [] (fun L hL => resolve_steady hL fun _ => trivial) fun s => ?_
  unfold resolve
  rw [get_bind]
  have hblock := onModule_block (declareByRole (some s.func.locals) v) s
  rcases hrun : onModule (declareByRole (some s.func.locals) v) s with ⟨e | d, t⟩
  · rw [bind_apply_error hrun]
    rwa [hrun] at hblock
  · rw [bind_apply_ok hrun]
    rwa [hrun] at hblock

theorem temp_obeys (ty : Ty) : Obeys W (temp ty) := by
  refine obeys_of_steady [] (fun L hL => temp_steady hL ty) fun s => ?_
  unfold temp
  have hblock := onModule_block (declareTemporary ty) s
  rcases hrun : onModule (declareTemporary ty) s with ⟨e | p, t⟩
  · rw [bind_apply_error hrun]
    rwa [hrun] at hblock
  · rw [bind_apply_ok hrun]
    rwa [hrun] at hblock

theorem walkMember_obeys (w : Walk) (index : Word) (name : Option String) : Obeys W (walkMember w index name) := by
  unfold walkMember
  split
  · split
    · exact .refuse _
    · cases name with
      | none => exact (Obeys.pure _).bind fun _ => (declareLiteral_obeys _).bind fun _ => .pure _
      | some name =>
        refine Obeys.get_bind fun s => ?_
        exact (nameMember_obeys _ _ _ _).bind fun _ => (declareLiteral_obeys _).bind fun _ => .pure _
  · exact .refuse _

theorem walkSwizzle_obeys (w : Walk) (s : Swizzle) : Obeys W (walkSwizzle w s) := by
  unfold walkSwizzle
  split
  · split
    · exact .pure _
    · split
      · exact .refuse _
      · exact (declareLiteral_obeys _).bind fun _ => .pure _
  · exact .pure _

theorem load_obeys (hload : W.Allows .Load) (e : Entity) : Obeys W (load e) := by
  unfold load
  split
  · exact .pure _
  · exact emitAs_obeys hload _ _

theorem spill_obeys (hstore : W.Allows .Store) (ty : Ty) (value : Id) : Obeys W (spill ty value) :=
  (temp_obeys ty).bind fun _ => (emitEffect_obeys hstore _).bind fun _ => .pure _

/-! ## Computations -/

section

variable (hW : W.Spares)

include hW

theorem composite_obeys (ty : Ty) (constituents : List Id) (constant : Bool) :
    Obeys W (composite ty constituents constant) := by
  unfold composite
  split
  · exact .building _ fun _ hJ => declareComposite_steady hJ (fun _ hk => hk) ty
  · exact emit_obeys (hW _ rfl) ty constituents

theorem splat_obeys (s : Scalar) (id : Id) (n : Word) (constant : Bool) :
    Obeys W (splat s id n constant) := composite_obeys hW _ _ constant

theorem broadcast_obeys (l r : Operand) : Obeys W (broadcast l r) := by
  unfold broadcast
  split
  · exact (splat_obeys hW _ _ _ _).bind fun _ => .pure _
  · exact (splat_obeys hW _ _ _ _).bind fun _ => .pure _
  · exact .pure _

theorem componentWise_obeys (op : BinOp) (family : Family) (l r : Operand) (ty : Ty) (fold : Bool) :
    Obeys W (componentWise op family l r ty fold) := by
  refine (broadcast_obeys hW l r).bind fun p => ?_
  dsimp only
  split
  · exact .refuse _
  case h_2 opcode hopcode =>
    have hop := hW opcode (PerFamily.of_get? op.opcodes_computes hopcode)
    split
    · refine (emit_obeys hop _ _).bind fun _ => emit_obeys (hW _ ?_) ty _
      split <;> rfl
    · exact emitOrDeclare_obeys fold hop ty _

theorem product_obeys {op : BinOp} {family : Family} {l r : Operand} {opcode : Op} {a b : Id}
    (h : productOf? op family l r = some (opcode, a, b)) (ty : Ty) : Obeys W (emit opcode ty [a, b]) := by
  unfold productOf? at h
  split at h
  · exact emit_obeys (hW _ (product?_computes h)) ty _
  · cases h

theorem vectorBinary_obeys (op : BinOp) (l r : Operand) (ty : Ty) (fold : Bool) :
    Obeys W (vectorBinary op l r ty fold) := by
  unfold vectorBinary
  split
  · exact .refuse _
  · split
    case h_1 hproduct => exact product_obeys hW hproduct ty
    · exact componentWise_obeys hW op _ l r ty fold

theorem columnWise_obeys (ty : Ty) {column : Ty → Word → Lower Id}
    (hcolumn : ∀ columnTy c, Obeys W (column columnTy c)) : Obeys W (columnWise ty column) := by
  unfold columnWise
  split
  · exact (Obeys.mapM fun c _ => hcolumn _ _).bind fun ids => emit_obeys (hW _ rfl) _ ids
  · exact .refuse _

theorem columnOf_obeys (o : Operand) (columnTy : Ty) (c : Word) : Obeys W (columnOf o columnTy c) := by
  unfold columnOf
  split
  · exact (emit_obeys (hW _ rfl) _ _).bind fun _ => .pure _
  · exact .pure _

theorem binary_obeys (op : BinOp) (l r : Operand) (ty : Ty) (fold : Bool) : Obeys W (binary op l r ty fold) := by
  unfold binary
  split
  · split
    · exact .refuse _
    · split
      case h_1 hproduct => exact product_obeys hW hproduct ty
      · refine columnWise_obeys hW ty fun columnTy c => ?_
        exact (columnOf_obeys hW l columnTy c).bind fun lc =>
          (columnOf_obeys hW r columnTy c).bind fun rc => vectorBinary_obeys hW op lc rc columnTy false
  · exact vectorBinary_obeys hW op l r ty fold

theorem vectorUnary_obeys (op : UnOp) (o : Operand) (fold : Bool) : Obeys W (vectorUnary op o fold) := by
  unfold vectorUnary
  split
  · exact .refuse _
  case h_2 opcode hopcode =>
    obtain ⟨s, -, hfamily⟩ := Option.bind_eq_some_iff.1 hopcode
    exact emitOrDeclare_obeys fold (hW _ (PerFamily.of_get? op.opcodes_computes hfamily)) _ _

theorem unary_obeys (op : UnOp) (o : Operand) (fold : Bool) : Obeys W (unary op o fold) := by
  unfold unary
  split
  · exact .pure _
  · split
    · refine columnWise_obeys hW _ fun columnTy c => ?_
      exact (columnOf_obeys hW o columnTy c).bind fun column => vectorUnary_obeys hW op column false
    · exact vectorUnary_obeys hW op o fold

theorem replicated_obeys (l : Literal) (size : Word) : Obeys W (replicated l size) := by
  refine (declareLiteral_obeys l).bind fun id => ?_
  split
  · exact splat_obeys hW _ _ _ _
  · exact .pure _

theorem cast_obeys (o : Operand) (target : Ty) : Obeys W (cast o target) := by
  unfold cast
  split
  · exact .pure _
  · split
    · exact .refuse _
    · split
      · exact .pure _
      case h_2 op hop => exact emit_obeys (hW _ (conversion_computes hop)) target _
      · split
        · exact .refuse _
        · exact (replicated_obeys hW _ _).bind fun _ => (replicated_obeys hW _ _).bind fun _ =>
            emit_obeys (hW _ rfl) target _
      · refine (replicated_obeys hW _ _).bind fun _ => emit_obeys (hW _ ?_) target _
        split <;> rfl

theorem choose_obeys (ty : Ty) (c : Operand) (onTrue onFalse : Id) (fold : Bool) :
    Obeys W (choose ty c onTrue onFalse fold) := by
  refine .get_bind fun s => ?_
  dsimp only
  split
  · exact (splat_obeys hW _ _ _ _).bind fun _ => emitOrDeclare_obeys fold (hW _ rfl) ty _
  · exact (Obeys.pure _).bind fun _ => emitOrDeclare_obeys fold (hW _ rfl) ty _

theorem readPlace_obeys (hload : W.Allows .Load) (p : Place) : Obeys W (readPlace p) := by
  refine (load_obeys hload p.entity).bind fun value => ?_
  split
  · exact .pure _
  · exact emit_obeys (hW _ rfl) _ _

theorem writePlace_obeys (hload : W.Allows .Load) (hstore : W.Allows .Store) (p : Place)
    (value : Id) : Obeys W (writePlace p value) := by
  unfold writePlace
  split
  · exact emitEffect_obeys hstore _
  · exact (load_obeys hload p.entity).bind fun _ => (Obeys.checked _).bind fun _ =>
      (emitAs_obeys (hW _ rfl) _ _).bind fun _ => emitEffect_obeys hstore _

/-! ### Constructors -/

theorem constructScalar_obeys (ty : Ty) (args : List Expr) (ids : List Id) : Obeys W (constructScalar ty args ids) := by
  unfold constructScalar
  split
  · split
    · exact .pure _
    · exact emit_obeys (hW _ rfl) ty _
  · exact .refuse _

theorem constructVector_obeys (s : Scalar) (n : Word) (args : List Expr) (ids : List Id)
    (constant : Bool) : Obeys W (constructVector s n args ids constant) := by
  unfold constructVector
  split
  · split
    · exact splat_obeys hW _ _ _ _
    · split
      · exact .pure _
      · split
        · exact emit_obeys (hW _ rfl) _ _
        · exact composite_obeys hW _ _ _
    · exact composite_obeys hW _ _ _
  · exact composite_obeys hW _ _ _

theorem diagonalMatrix_obeys (s : Scalar) (columns rows : Word) (diagonal : Id) (constant : Bool) :
    Obeys W (diagonalMatrix s columns rows diagonal constant) :=
  (declareLiteral_obeys _).bind fun _ => (Obeys.mapM fun _ _ => composite_obeys hW _ _ _).bind
    fun _ => composite_obeys hW _ _ _

theorem joinMatrix_obeys (s : Scalar) (columns rows : Word) (args : List Expr) (ids : List Id)
    (constant : Bool) : Obeys W (joinMatrix s columns rows args ids constant) := by
  unfold joinMatrix
  split
  · exact composite_obeys hW _ _ _
  · refine (Obeys.checked _).bind fun count => ?_
    split
    · exact (Obeys.mapM fun _ _ => composite_obeys hW _ _ _).bind fun _ => composite_obeys hW _ _ _
    · exact .refuse _

theorem constructMatrix_obeys (s : Scalar) (columns rows : Word) (args : List Expr) (ids : List Id)
    (constant : Bool) : Obeys W (constructMatrix s columns rows args ids constant) := by
  unfold constructMatrix
  split
  · split
    · exact .pure _
    · split
      · exact diagonalMatrix_obeys hW _ _ _ _ _
      · exact joinMatrix_obeys hW _ _ _ _ _ _
  · exact joinMatrix_obeys hW _ _ _ _ _ _

theorem assemble_obeys (ty : Ty) (args : List Expr) (ids : List Id) (constant : Bool) :
    Obeys W (assemble ty args ids constant) := by
  unfold assemble
  split
  · exact constructScalar_obeys hW _ _ _
  · exact constructVector_obeys hW _ _ _ _ _
  · exact constructMatrix_obeys hW _ _ _ _ _ _
  · exact composite_obeys hW _ _ _
  · exact composite_obeys hW _ _ _
  · exact .refuse _

theorem emitExtended_obeys (op : GlslOp) (ty : Ty) (operands : List Id) : Obeys W (emitExtended op ty operands) :=
  (Obeys.building [] fun _ hJ => importGlslStd450_steady hJ id).bind fun _ => emit_obeys (hW _ rfl) ty _

theorem emitPair_obeys (hop : op.computes) (ty : Ty) (x y : Id) : Obeys W (emitPair op ty x y) :=
  (declareType_obeys ty).bind fun field =>
    (Obeys.declaring [] fun _ hJ => declareTuple_steady hJ nofun).bind fun tuple =>
      (emitAs_obeys (hW _ hop) tuple _).bind fun _ =>
        (emitAs_obeys (hW _ rfl) field _).bind fun _ => (emitAs_obeys (hW _ rfl) field _).bind fun _ => .pure _

end

/-! ### Arguments of image functions -/

theorem imageArg_ok {callee : Callee} {args : List Expr} {s' : Lowerer} {image : Expr}
    {config : ImageConfig} (h : imageArg callee args s = (.ok (image, config), s')) :
    s' = s ∧ image.ty.imageConfig? = some config ∧ ∃ rest, args = image :: rest := by
  unfold imageArg at h
  cases args with
  | nil => exact (refuse_ok h).elim
  | cons first rest =>
    cases hconfig : first.ty.imageConfig? with
    | none =>
      simp only [hconfig] at h
      exact (refuse_ok h).elim
    | some found =>
      simp only [hconfig] at h
      obtain ⟨hpair, rfl⟩ := pure_ok h
      cases hpair
      exact ⟨rfl, hconfig, rest, rfl⟩

theorem checkCount_ok {callee : Callee} {args : List Expr} {expected : Nat} {s' : Lowerer} {u : Unit}
    (h : checkCount callee args expected s = (.ok u, s')) : s' = s ∧ args.length = expected := by
  unfold checkCount at h
  split at h
  · exact (refuse_ok h).elim
  case isFalse hlength =>
    obtain ⟨-, rfl⟩ := pure_ok h
    exact ⟨rfl, not_not.1 hlength⟩

theorem imageArg_obeys (callee : Callee) (args : List Expr) : Obeys W (imageArg callee args) := by
  unfold imageArg
  split
  · exact .refuse _
  · split
    · exact .refuse _
    · exact .pure _

theorem checkCount_obeys (callee : Callee) (args : List Expr) (expected : Nat) :
    Obeys W (checkCount callee args expected) := by
  unfold checkCount
  split
  · exact .refuse _
  · exact .pure _

end Lower

end Shader
