import Mathlib.Logic.Relation
import Shader.Proofs.Encoding
import Shader.Proofs.Traced

/-!
# Definition before use

Lowering builds in the module, queues variables and appends instructions, one step at a time. Whatever
an instruction refers to is defined by the time that it is appended, in the module, in the function or
before it in the block. The one thing that may be missing is a function that it calls.
-/

namespace Shader

open List Work

variable {inst : Inst} {e : Expr}

/-! ## Modules that were read -/

namespace Module

variable {m : Module} {r : Reading}

theorem Closed.learn (h : m.Closed) (hs : inst.op.section ≠ .imports) : (m.learn inst).Closed := by
  unfold Module.learn
  split
  case h_3 himports => exact absurd himports hs
  case h_6 => exact h
  all_goals
    split
    · exact { h with }
    · exact h

theorem Closed.learn_insert (h : m.Closed) (inst : Inst) : ((m.learn inst).insert inst.op.section inst).Closed := by
  by_cases hs : inst.op.section = .imports
  · unfold Module.learn
    rw [hs]
    dsimp only
    split
    · refine { h.insert .imports inst with imported := fun id hid => ?_ }
      exact mem_results_snoc m.imports hid
    · exact h.insert .imports inst
  · exact (h.learn hs).insert _ inst

theorem readLocal_module {p : Pending} (h : readLocal m p inst = .ok r) :
    r.module = { m with functions := r.module.functions } := by
  unfold readLocal at h
  dsimp only at h
  repeat' split at h
  all_goals cases h <;> rfl

section

variable {P : Module → Prop} (hinsert : ∀ m inst, P m → P ((m.learn inst).insert inst.op.section inst))
  (hfunctions : ∀ m functions, P m → P { m with functions }) {r' : Reading}

include hinsert hfunctions

theorem readInst_keeps (h : P r.module) (hread : readInst r inst = .ok r') : P r'.module := by
  unfold readInst at hread
  split at hread
  case h_1 =>
    unfold readGlobal at hread
    split at hread
    · obtain ⟨f, -, hread⟩ := Inst.bind_eq_ok_iff.1 hread
      cases hread
      exact h
    · repeat' split at hread
      all_goals cases hread
      exact hinsert _ inst h
  case h_2 p _ =>
    rw [readLocal_module hread]
    exact hfunctions _ _ h

/-- Reading keeps what stands through instructions outside of functions, and through functions. -/
theorem readAll_keeps (insts : List Inst) (h : P r.module) (hread : insts.foldlM readInst r = .ok r') :
    P r'.module := by
  induction insts generalizing r with
  | nil =>
    cases hread
    exact h
  | cons inst insts ih =>
    rw [foldlM_cons] at hread
    obtain ⟨r₁, hfirst, hrest⟩ := Inst.bind_eq_ok_iff.1 hread
    exact ih (readInst_keeps hinsert hfunctions h hfirst) hrest

end

/-- What reading instructions leaves alone: the bound, and all that is found in a module. -/
structure SameNames (m m' : Module) : Prop where
  bound : m'.bound = m.bound
  functionIds : m'.functionIds = m.functionIds
  findings : m'.findings = m.findings

theorem SameNames.globals {m' : Module} (h : m.SameNames m') : m'.globals = m.globals :=
  congrArg (·.2.2.2.2.2) h.findings

theorem SameNames.trans {m₁ m₂ m₃ : Module} (h : m₁.SameNames m₂) (h' : m₂.SameNames m₃) : m₁.SameNames m₃ :=
  ⟨h'.bound.trans h.bound, h'.functionIds.trans h.functionIds, h'.findings.trans h.findings⟩

theorem learn_sameNames (m : Module) (inst : Inst) : m.SameNames (m.learn inst) := by
  unfold learn
  split
  case h_6 => exact ⟨rfl, rfl, rfl⟩
  all_goals split <;> exact ⟨rfl, rfl, rfl⟩

theorem insert_sameNames (m : Module) (s : Section) (inst : Inst) : m.SameNames (m.insert s inst) := by
  cases s <;> exact ⟨rfl, rfl, rfl⟩

theorem readAll_sameNames (insts : List Inst) {r' : Reading} (h : insts.foldlM readInst r = .ok r') :
    r.module.SameNames r'.module :=
  readAll_keeps (fun m inst hm => (hm.trans (m.learn_sameNames inst)).trans (insert_sameNames _ _ inst))
    (fun _ _ hm => { hm with }) insts ⟨rfl, rfl, rfl⟩ h

theorem ofWords_closed {words : List Word} (h : ofWords words = .ok m) : m.Closed := by
  unfold ofWords at h
  obtain ⟨⟨header, body⟩, -, h⟩ := Inst.bind_eq_ok_iff.1 h
  unfold ofInstructions at h
  obtain ⟨r, hread, h⟩ := Inst.bind_eq_ok_iff.1 h
  have hempty : ∀ (config : Config) (bound : Id), Closed { config, bound } := fun _ _ =>
    ⟨fun _ h => (nomatch h), fun _ _ h => (nomatch h), fun _ _ h => (nomatch h),
      fun _ _ h => (nomatch h), fun _ h => nomatch h⟩
  have hr := readAll_keeps (fun _ inst hm => hm.learn_insert inst) (fun _ _ hm => { hm with }) _ (hempty _ _) hread
  repeat' split at h
  all_goals cases h
  exact { hr with }

end Module

/-! ## Workbenches that operations lead to -/

/-- Operations that put another module in the place of the one at hand. -/
def Operation.replaces : Operation → Bool
  | .reload | .load _ => true
  | _ => false

namespace Workbench

/-- Workbenches that operations lead to, if modules are replaced only between functions. -/
inductive Attainable (config : Config) : Workbench → Prop where
  | start : Attainable config (start config)
  | perform {w : Workbench} {op : Operation} (attainable : Attainable config w)
      (between : op.replaces → w.functions.things = []) : Attainable config (w.perform op).2

variable {w : Workbench}

theorem Attainable.run {config : Config} (h : w.Attainable config) (ops : List Operation)
    (hops : ∀ op ∈ ops, op.replaces = false) : (w.run ops).Attainable config := by
  induction ops generalizing w with
  | nil => exact h
  | cons op ops ih =>
    obtain ⟨hop, hops⟩ := forall_mem_cons.1 hops
    refine ih (h.perform fun hreplaces => ?_) hops
    rw [hop] at hreplaces
    cases hreplaces

/-- Operations that do not build define no more than they bring along, and leave what was defined. -/
theorem Stands.perform_other {J : Ledger Module} {Q : FunctionScope → Prop} {op : Operation} (hw : w.Stands J Q)
    (hop : ¬op.builds) (hJ : ∀ {held held' known m}, J.Stands held known m → J.Stands held' known m)
    (hinsert : ∀ target inst, J.Stands w.held w.known (w.module.insert target inst))
    (hload : ∀ words m, op.replaces → Module.ofWords words = .ok m → J.Stands w.held w.known m) :
    (w.perform op).2.Stands J Q := by
  have hreplace : ∀ {x : Except FormatError Module}, (∀ m, x = .ok m → J.Stands w.held w.known m) →
      Stands J Q ((do loadModule x; return .done : Work Answer) w).2 := by
    intro x hx
    cases x with
    | error e => exact hw
    | ok m => exact ⟨hJ (hx m rfl), hw.scopes⟩
  cases op with
  | insert target inst => exact ⟨hJ (hinsert target inst), hw.scopes⟩
  | push inst =>
    rcases currentBlock_cases _ w with ⟨b, -, h⟩ | ⟨-, h⟩ <;> rw [perform, Operation.perform, h]
    · exact ⟨hJ hw.ledger, hw.scopes⟩
    · exact hw
  | reload =>
    show Stands _ _ ((get >>= fun w => do
      loadModule (w.module.toWords >>= Module.ofWords)
      return .done : Work Answer) w).2
    rw [bind_apply]
    refine hreplace fun m hm => ?_
    obtain ⟨words, -, hwords⟩ := Inst.bind_eq_ok_iff.1 hm
    exact hload words m rfl hwords
  | load words => exact hreplace fun m hm => hload words m rfl hm
  | _ => exact absurd rfl hop

theorem Attainable.traced {config : Config} (h : w.Attainable config) :
    w.Stands (.traced fun _ => True) FunctionScope.Placed := by
  induction h with
  | start => exact ⟨⟨Module.start_closed config, fun _ h => nomatch h⟩, fun _ h => nomatch h⟩
  | @perform w op _ between ih =>
    by_cases hop : op.builds
    · exact (perform_change hop).stands running_traced (fun hm => hm.refers _) (stepwise_traced _).mark ih
    refine ih.perform_other hop (fun h => h) (fun target inst => ?_) fun words m hreplaces hm => ?_
    · exact ih.ledger.grow ((Module.Grown.refl _).insert target inst) (ih.ledger.closed.insert target inst)
    · refine ⟨Module.ofWords_closed hm, fun k hk => ?_⟩
      rw [known, between hreplaces] at hk
      cases hk

end Workbench

/-- The identifier is defined in the function or in the current block. -/
def Lowerer.Has (s : Lowerer) (id : Id) : Prop :=
  id ∈ s.func.function.params.map (·.2) ∨ id ∈ results s.func.function.queued ∨ id ∈ results s.block.instructions

/-- The identifier is defined where the block can refer to it. -/
def Lowerer.Defines (s : Lowerer) (id : Id) : Prop :=
  s.Has id ∨ id ∈ results s.module.imports ∨ id ∈ results s.module.declarations

/-- All that the instruction refers to is defined, up to the functions that may be called. -/
structure Inst.DefinedAt (Calls : String → Prop) (s : Lowerer) (inst : Inst) : Prop where
  type : ∀ id, inst.resultType = some id → id ∈ results s.module.declarations
  values : ∀ id ∈ inst.op.values inst.operands, s.Defines id
  callee : ∀ id, inst.callee? = some id → ∃ name, Calls name ∧ s.module.functionIds.get? name = some id

/-- One step of lowering: building adds to the module and to local variables, or an instruction is
appended. -/
inductive Lowerer.Step (Calls : String → Prop) (s : Lowerer) : Lowerer → Prop where
  | build {t : Lowerer} (module : s.module.Grown t.module) (params : t.func.function.params = s.func.function.params)
      (queued : s.func.function.queued <+: t.func.function.queued)
      (block : t.block = s.block) : Step Calls s t
  | emit {inst : Inst} {next : Id} (defined : inst.DefinedAt Calls s)
      (result : inst.result = some s.module.bound) (fresh : Word.add s.module.bound 1 = .ok next) :
      Step Calls s { s with module := { s.module with bound := next }, block := s.block.push inst }
  | effect {inst : Inst} (defined : inst.DefinedAt Calls s) (result : inst.result = none) :
      Step Calls s { s with block := s.block.push inst }

/-! ## The ledger of a sequence of steps -/

section

variable {known : List Known} {s : Lowerer}

theorem Lowerer.Has.push {id : Id} (h : s.Has id) (inst : Inst) (m : Module) :
    Lowerer.Has { s with module := m, block := s.block.push inst } id :=
  h.imp_right (Or.imp_right fun hid => results_subset_append _ _ hid)

theorem Lowerer.Has.queue {id : Id} (h : s.Has id) {f : FunctionScope}
    (hparams : f.function.params = s.func.function.params) (hqueued : s.func.function.queued <+: f.function.queued) :
    Lowerer.Has { s with func := f } id := by
  refine Or.imp (fun hid => ?_) (Or.imp_left fun hid => ?_) h
  · exact hparams.symm ▸ hid
  · exact (hqueued.filterMap _).subset hid

theorem Inst.Grounded.definedAt {T : Terms} (hinst : inst.Grounded T known)
    (h : Traced s.Has (s.func.locals.known ++ known) s.module) : inst.DefinedAt T.Calls s where
  type id hid := h.known (.type id) (mem_append_right _ (hinst.type id hid))
  values id hid := h.known (.value id) (mem_append_right _ (hinst.values id hid))
  callee id hid :=
    let ⟨name, hcalls, hname⟩ := hinst.callee id hid
    ⟨name, hcalls, h.known (.function name id) (mem_append_right _ hname)⟩

end

/-- The lowerer is reached from `s₀` by steps that refer to what is defined. -/
def Ledger.stepping (Calls : String → Prop) (s₀ : Lowerer) : Ledger Lowerer where
  Stands held known s :=
    (Ledger.traced s.Has).Stands held (s.func.locals.known ++ known) s.module ∧
      Relation.ReflTransGen (Lowerer.Step Calls) s₀ s
  drop {_ _ _ _ s} h :=
    ((Ledger.traced s.Has).framed [] s.func.locals.known
      (.keeping fun _ => Relation.ReflTransGen (Lowerer.Step Calls) s₀ s)).drop h

/-- Instructions refer to what is defined, so long as `noResult` does not pass for a value. -/
theorem tracing_stepping (Calls : String → Prop) (s₀ : Lowerer) : Tracing (.calling Calls) (.stepping Calls s₀) where
  building s :=
    (building_traced s.Has).framed [] s.func.locals.known
      (.keeping (P := fun m => Relation.ReflTransGen (Lowerer.Step Calls) s₀ { s with module := m })
        fun hm h => h.tail (.build hm rfl prefix_rfl rfl))
  noResult h := nomatch h
  locals h := ⟨(Ledger.traced _).drop h.1 (Subperm.refl _) (by simp), h.2⟩
  emit {held known s next inst} h hadd hid hinst := by
    refine ⟨?_, h.2.tail (.emit (hinst.definedAt h.1) hid hadd)⟩
    have hmore := (h.1.fresh hadd).mono fun id (hs : s.Has id) => hs.push inst { s.module with bound := next }
    exact hmore.know_after (k := .value _) _ (.inl (.inr (.inr (mem_results_snoc _ hid))))
  effect {held known s inst} h hid hinst :=
    ⟨h.1.mono fun id hs => hs.push inst s.module, h.2.tail (.effect (hinst.definedAt h.1) hid)⟩
  queue {held known s id} pointer h := by
    have hqueued := prefix_append s.func.function.queued [.localVariable pointer id]
    refine ⟨?_, h.2.tail (.build (.refl _) rfl hqueued rfl)⟩
    have hmore := h.1.mono fun id' (hs : s.Has id') =>
      hs.queue (f := s.func.queue (.localVariable pointer id)) rfl hqueued
    exact hmore.know_after (k := .value _) _ (.inl (.inr (.inl (mem_results_snoc _ rfl))))
  take {held known s name ty e} pointer h he _ _ _ _ _ := by
    have hqueued := prefix_append s.func.function.queued [.localVariable pointer e.id]
    refine ⟨?_, h.2.tail (.build (.refl _) rfl hqueued rfl)⟩
    have hmore := h.1.mono fun id (hs : s.Has id) =>
      hs.queue (f := s.func.take name ⟨e, some (.localVariable pointer e.id)⟩) rfl hqueued
    have hknown := hmore.know (k := .value e.id) (.inl (.inr (.inl (mem_results_snoc _ rfl))))
    exact ⟨hknown.closed, fun k hk => hknown.known k (taken_known_subset _ name _ he hk)⟩

/-! ## Lowering -/

/-- A function of this name is called within the expression. -/
def Expr.Calls (e : Expr) (name : String) : Prop :=
  ∃ (part : Expr) (func : Variable) (args : List Expr), part.Within e ∧ part.node = .call func args ∧ func.name = name

theorem Expr.meets_calling (h : ∀ part : Expr, part.Within e → ∀ o ∈ part.node.operands, o.yields) :
    e.Meets (.calling e.Calls) :=
  ⟨h, fun part hpart func args hcall => ⟨part, func, args, hpart, hcall, rfl⟩, fun _ _ _ => trivial,
    fun _ _ _ _ => inferInstanceAs (Ty.Allowed true _), nofun, trivial⟩

theorem Ledger.stepping_start {s : Lowerer}
    (h : ((Ledger.traced fun _ => True).lowering FunctionScope.Placed).Stands [] [] s)
    (Calls : String → Prop) : (Ledger.stepping Calls s).Stands [] [] s := by
  obtain ⟨htraced, hplaced⟩ := h
  refine ⟨⟨htraced.closed, fun k hk => ?_⟩, .refl⟩
  rw [append_nil] at hk
  obtain ⟨e, he, hk'⟩ := mem_flatMap.1 hk
  have hdefined := htraced.known k (mem_append_left _ hk)
  simp only [Entity.known, mem_cons, not_mem_nil, or_false] at hk'
  rcases hk' with rfl | rfl
  · exact .inl ((hplaced e he).imp_right .inl)
  · exact hdefined

theorem Workbench.Stands.stepping {w : Workbench} (h : w.Stands (.traced fun _ => True) FunctionScope.Placed)
    {f : FunctionScope} {b : Block} (hf : w.functions.get? = some f) (hb : w.blocks.get? = some b)
    (Calls : String → Prop) :
    let s : Lowerer := ⟨w.module, f, b, 0⟩
    (Ledger.stepping Calls s).Stands [] [] s := Ledger.stepping_start (h.lowerer hf hb) Calls

/-- If all operands have a value, lowering appends instructions that refer to nothing but what is
defined at that moment and to functions that the expression calls, whether or not it succeeds. -/
theorem lower_defines_first {config : Config} {w : Workbench} (hw : w.Attainable config) {f : FunctionScope} {b : Block}
    (hf : w.functions.get? = some f) (hb : w.blocks.get? = some b) (e : Expr)
    (hoperands : ∀ part : Expr, part.Within e → ∀ o ∈ part.node.operands, o.yields) :
    let s : Lowerer := ⟨w.module, f, b, 0⟩
    Relation.ReflTransGen (Lowerer.Step e.Calls) s (Lower.lower e s).2 ∧
      Relation.ReflTransGen (Lowerer.Step e.Calls) s (Lower.lowerPointer e s).2 := by
  intro s
  have hstart := hw.traced.stepping hf hb e.Calls
  have htracing := tracing_stepping e.Calls s
  have hmeets := Expr.meets_calling hoperands
  exact ⟨((Lower.lower_steady htracing hmeets rfl).after_nil (nil_subset _) hstart).2,
    ((Lower.lowerPointer_steady htracing hmeets rfl).after_nil (nil_subset _) hstart).2⟩

theorem Expr.forall_within {P : Expr → Prop} (he : P e)
    (h : ∀ o ∈ e.node.operands, ∀ part : Expr, part.Within o → P part) (part : Expr)
    (hpart : part.Within e) : P part := by
  cases hpart with
  | self => exact he
  | operand mem within => exact h _ mem part within

theorem Expr.operands_yield
    (h : ∀ o ∈ e.node.operands, o.yields ∧ ∀ part : Expr, part.Within o → ∀ o' ∈ part.node.operands,
      o'.yields) (part : Expr) (hpart : part.Within e) : ∀ o ∈ part.node.operands, o.yields :=
  forall_within (fun o ho => (h o ho).1) (fun o ho => (h o ho).2) part hpart

def Variable.parameter : Variable := .root "n" (.scalar .int) {}

/-- `main` has a parameter and a block with an end, and its second block is empty. -/
def Workbench.secondBlock : Workbench :=
  (start {}).run [.openFunction "main" .void [.parameter], .freshBlock,
    .terminate (.effect .Return []), .appendBlock, .freshBlock]

/-- `k = max(twice(n + 1), n)` -/
def Expr.storesCall : Expr :=
  let twice : Variable := .root "twice" (.function (.scalar .int) [.parameter]) {}
  let n : Expr := .ident .parameter
  .assign none (.ident (.root "k" (.scalar .int) { functionLocal := true })) ⟨.scalar .int, .intrinsic .max
      [⟨.scalar .int, .call twice [⟨.scalar .int, .binary .add n (.literal (.int 1))⟩]⟩, n]⟩

def Lowerer.inSecondBlock : Lowerer where
  module := Workbench.secondBlock.module
  func := Workbench.secondBlock.functions.get?.get (by decide +kernel)
  block := Workbench.secondBlock.blocks.get?.get (by decide +kernel)

theorem lower_storesCall_defines_first : Workbench.secondBlock.Attainable {} ∧
      Workbench.secondBlock.functions.get? = some Lowerer.inSecondBlock.func ∧
      Workbench.secondBlock.blocks.get? = some Lowerer.inSecondBlock.block ∧
      (∀ part : Expr, part.Within .storesCall → ∀ o ∈ part.node.operands, o.yields) ∧
      Relation.ReflTransGen (Lowerer.Step Expr.storesCall.Calls) .inSecondBlock
        (Lower.lower .storesCall .inSecondBlock).2 ∧
      (Lower.lower .storesCall .inSecondBlock).2.block.instructions.map (·.op) =
        [.IAdd, .FunctionCall, .ExtInst, .Store] := by
  have hw : Workbench.secondBlock.Attainable {} := Workbench.Attainable.start.run _ (by decide)
  have hf : Workbench.secondBlock.functions.get? = some Lowerer.inSecondBlock.func := (Option.some_get _).symm
  have hb : Workbench.secondBlock.blocks.get? = some Lowerer.inSecondBlock.block := (Option.some_get _).symm
  have hleaf : ∀ e : Expr, e.node.operands = [] →
      ∀ part : Expr, part.Within e → ∀ o ∈ part.node.operands, o.yields := fun e he =>
    Expr.operands_yield fun o ho => nomatch (he ▸ ho : o ∈ [])
  have hoperands : ∀ part : Expr, part.Within .storesCall → ∀ o ∈ part.node.operands, o.yields := by
    refine Expr.operands_yield (forall_mem_cons.2 ⟨⟨rfl, hleaf _ rfl⟩, forall_mem_singleton.2 ⟨rfl, ?_⟩⟩)
    refine Expr.operands_yield (forall_mem_cons.2 ⟨⟨rfl, ?_⟩, forall_mem_singleton.2 ⟨rfl, hleaf _ rfl⟩⟩)
    refine Expr.operands_yield (forall_mem_singleton.2 ⟨rfl, ?_⟩)
    exact Expr.operands_yield (forall_mem_cons.2 ⟨⟨rfl, hleaf _ rfl⟩, forall_mem_singleton.2 ⟨rfl, hleaf _ rfl⟩⟩)
  exact ⟨hw, hf, hb, hoperands, (lower_defines_first hw hf hb .storesCall hoperands).1, by decide +kernel⟩

end Shader
