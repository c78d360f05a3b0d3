import Shader.Proofs.Appended
import Shader.Proofs.ChainValue
import Shader.Proofs.TexelOffsets

/-!
# Events in order

Calls, atomic operations and accesses to images are each lowered to exactly one instruction, in the
order in which they stand in the expression, after their operands from left to right. The order holds
for targets of assignments as well, although these are lowered as paths and not as trees.
-/

namespace Shader

open Action List Law Expr

variable {e : Expr} {s t : Lowerer} {parts : Parts} {f : Intrinsic} {s' : Lowerer}

variable {op : Op} {v : Variable}

/-! ## Events of expressions -/

/-- Functions that change memory in one step with reading it. -/
def Intrinsic.isAtomic : Intrinsic → Bool
  | .atomicAdd | .atomicMin | .atomicMax | .atomicAnd | .atomicOr | .atomicXor | .atomicExchange
  | .atomicCompSwap => true
  | _ => false

/-- The opcode of an atomic function on this scalar type. -/
def Intrinsic.atomicOp? (f : Intrinsic) (s : Option Scalar) : Option Op :=
  match f.form with
  | .atomic ops => ops.forScalar? s
  | _ => none

theorem Intrinsic.isAtomic_iff (f : Intrinsic) : f.isAtomic ↔ ∃ ops, f.form = .atomic ops := by
  cases f <;> simp [isAtomic, form]

theorem Intrinsic.exists_form_of_atomicOp? {s : Option Scalar} (h : f.atomicOp? s = some op) :
    ∃ ops family, f.form = .atomic ops ∧ ops.get? family = some op := by
  unfold atomicOp? at h
  split at h
  case h_1 ops hform =>
    obtain ⟨scalar, -, hop⟩ := Option.bind_eq_some_iff.1 h
    exact ⟨ops, scalar.family, hform, hop⟩
  case h_2 => cases h

theorem Intrinsic.isAtomic_of_atomicOp? {s : Option Scalar} (h : f.atomicOp? s = some op) : f.isAtomic :=
  let ⟨ops, _, hform, _⟩ := exists_form_of_atomicOp? h
  f.isAtomic_iff.2 ⟨ops, hform⟩

theorem Intrinsic.acts_of_atomicOp? {s : Option Scalar} (h : f.atomicOp? s = some op) : op.acts := by
  obtain ⟨ops, family, hform, hop⟩ := exists_form_of_atomicOp? h
  have hops := f.form_computes
  rw [hform] at hops
  exact PerFamily.of_get? hops hop

theorem Intrinsic.maskPlace?_of_atomicOp? {s : Option Scalar} (h : f.atomicOp? s = some op) : op.maskPlace? = none := by
  obtain ⟨ops, family, hform, hop⟩ := exists_form_of_atomicOp? h
  have hops : ops.all (·.maskPlace?.isNone) := by cases f <;> cases hform <;> rfl
  exact Option.isNone_iff_eq_none.1 (PerFamily.of_get? hops hop)

theorem ImageAccess.isAtomic_of_atomic? {access : ImageAccess} (h : access.atomic? = some f) : f.isAtomic := by
  cases access <;> cases h <;> rfl

namespace Expr

mutual

/-- The expressions within, each after its operands from left to right. -/
def postOrder : Expr → List Expr
  | ⟨ty, node⟩ => operandsInOrder node ++ [⟨ty, node⟩]

/-- The operands and all within them, each after its own operands. -/
def operandsInOrder : Node Expr → List Expr
  | .literal _ | .ident _ => []
  | .init _ e | .unary _ e | .cast e | .step _ e | .member e _ | .swizzle e _ => e.postOrder
  | .assign _ a b | .binary _ a b | .index a b => a.postOrder ++ b.postOrder
  | .construct args | .call _ args | .intrinsic _ args | .image _ args | .texture _ args => allInOrder args
  | .select c t f => c.postOrder ++ t.postOrder ++ f.postOrder

def allInOrder : List Expr → List Expr
  | [] => []
  | e :: es => e.postOrder ++ allInOrder es

end

theorem allInOrder_eq (es : List Expr) : allInOrder es = es.flatMap postOrder := by
  induction es with
  | nil => rfl
  | cons e es ih => rw [allInOrder, ih, flatMap_cons]

theorem postOrder_eq (e : Expr) : e.postOrder = e.node.operands.flatMap postOrder ++ [e] := by
  obtain ⟨ty, node⟩ := e
  rw [postOrder]
  cases node <;> simp [operandsInOrder, Node.operands, allInOrder_eq]

/-- Expressions that are done by an instruction of their own kind. -/
def engages (e : Expr) : Bool :=
  match e.node with
  | .call .. | .image .. | .texture .. => true
  | .intrinsic f _ => f.isAtomic
  | _ => false

/-- Expressions that do something, and variables. -/
def isEvent (e : Expr) : Bool := e.engages || e.node.variable?.isSome

/-- The events within an expression, in order. -/
def events (e : Expr) : List Expr := e.postOrder.filter isEvent

theorem engages_eq_false_of_variable (h : e.node.variable? = some v) : e.engages = false := by
  obtain ⟨ty, node⟩ := e
  cases node with
  | ident | init => rfl
  | _ => cases h

theorem isEvent_of_engages (h : e.engages) : e.isEvent := by simp [isEvent, h]

theorem filter_engages_events (e : Expr) : e.events.filter engages = e.postOrder.filter engages := by
  rw [events, filter_filter]
  congr 1
  funext part
  cases h : part.engages <;> simp [isEvent, h]

theorem events_eq (e : Expr) : e.events = e.node.operands.flatMap events ++ if e.isEvent then [e] else [] := by
  rw [events, postOrder_eq, filter_append, filter_flatMap]
  congr 1
  by_cases h : e.isEvent <;> simp [h]

theorem events_of_not_event (h : e.isEvent = false) : e.events = e.node.operands.flatMap events := by
  rw [events_eq, h]
  simp

theorem events_of_operand {a : Expr} (h : e.isEvent = false) (ha : e.node.operands = [a]) : e.events = a.events := by
  rw [events_of_not_event h, ha, flatMap_cons, flatMap_nil, append_nil]

theorem events_of_operands {a b : Expr} (h : e.isEvent = false) (hab : e.node.operands = [a, b]) :
    e.events = a.events ++ b.events := by
  rw [events_of_not_event h, hab]
  simp

/-- The opcode of the instruction that does it. -/
def engagedOp? (e : Expr) : Option Op :=
  match e.node with
  | .call .. => some .FunctionCall
  | .intrinsic f (first :: _) => f.atomicOp? first.ty.scalar?
  | .image .size _ => some .ImageQuerySize
  | .image .samples _ => some .ImageQuerySamples
  | .image .load _ => some .ImageRead
  | .image .store _ => some .ImageWrite
  | .image access (image :: _) => access.atomic?.bind (·.atomicOp? (image.ty.imageConfig?.map (·.sampled)))
  | .texture access _ => some access.form.op
  | _ => none

theorem engages_of_engagedOp? (h : e.engagedOp? = some op) : e.engages := by
  obtain ⟨ty, node⟩ := e
  cases node with
  | call | image | texture => rfl
  | intrinsic f args =>
    cases args with
    | nil => cases h
    | cons first rest => exact Intrinsic.isAtomic_of_atomicOp? h
  | _ => cases h

theorem engagedOp?_of_atomic? {access : ImageAccess} (h : access.atomic? = some f)
    {ty : Ty} {args : List Expr} (hop : engagedOp? ⟨ty, .image access args⟩ = some op) :
    f.atomicOp? ((args.head?.bind (·.ty.imageConfig?)).map (·.sampled)) = some op := by
  cases access <;> cases h <;> cases args <;> first | cases hop | exact hop

end Expr

/-- The instruction has the opcode of the expression, offsets texels if that does, and calls its
function with as many arguments. -/
structure Inst.Realizes (m : Module) (inst : Inst) (e : Expr) : Prop where
  op : e.engagedOp? = some inst.op
  offsets : inst.offsetsTexels = e.offsetsTexels
  callee : ∀ func args, e.node = .call func args → ∃ function ids,
    inst.operands = function :: ids ∧ m.functionIds.get? func.name = some function ∧ ids.length = args.length

theorem Inst.Realizes.mono {m m' : Module} {inst : Inst} (h : inst.Realizes m e)
    (hm : m.Retains m') : inst.Realizes m' e where
  op := h.op
  offsets := h.offsets
  callee func args he :=
    let ⟨function, ids, hoperands, hfunction, hlength⟩ := h.callee func args he
    ⟨function, ids, hoperands, hm.functionIds _ _ hfunction, hlength⟩

theorem filter_eq_filter_filter {α : Type} {p q : α → Bool} {l : List α} (h : ∀ a, p a → q a) :
    l.filter p = (l.filter q).filter p := by
  rw [filter_filter]
  congr 1
  funext a
  cases ha : p a with
  | false => rfl
  | true => rw [h a ha]; rfl

theorem Inst.Realizes.filter {m : Module} {code : List Inst} {es : List Expr} {p : Inst → Bool} {q : Expr → Bool}
    (h : Forall₂ (Inst.Realizes m) (code.filter (·.op.engages)) (es.filter engages))
    (hp : ∀ inst, p inst → inst.op.engages) (hq : ∀ e, q e → e.engages)
    (hpq : ∀ inst e, Inst.Realizes m inst e → p inst = q e) :
    Forall₂ (Inst.Realizes m) (code.filter p) (es.filter q) := by
  rw [filter_eq_filter_filter hp, filter_eq_filter_filter hq]
  exact rel_filter (fun inst e hinst => iff_of_eq (congrArg (· = true) (hpq inst e hinst))) h

/-- The name stands for something. -/
def Lowerer.Knows (s : Lowerer) (name : String) : Prop :=
  ∃ entity, s.module.lookup (some s.func.locals) name = some entity

theorem Lowerer.Knows.mono {name : String} (h : s.Knows name) (hs : s.Extends t) : t.Knows name :=
  let ⟨entity, hentity⟩ := h
  ⟨entity, hs.names name entity hentity⟩

/-! ## Realized events -/

/-- A later state that knows the variables among the events; the code in between realizes those that act. -/
structure Lowerer.Realizes (s t : Lowerer) (es : List Expr) : Prop where
  later : s.Extends t
  depth : t.depth = s.depth
  names : ∀ e ∈ es, ∀ v, e.node.variable? = some v → t.Knows v.outermost.name
  code : ∃ code, t.block.instructions = s.block.instructions ++ code ∧
    Forall₂ (Inst.Realizes t.module) (code.filter (·.op.engages)) (es.filter engages)

namespace Lowerer.Realizes

variable {u : Lowerer} {es es' : List Expr}

theorem trans (h : s.Realizes t es) (h' : t.Realizes u es') : s.Realizes u (es ++ es') := by
  obtain ⟨code, hcode, hrealizes⟩ := h.code
  obtain ⟨code', hcode', hrealizes'⟩ := h'.code
  refine ⟨h.later.trans h'.later, h'.depth.trans h.depth, fun e he v hv => ?_, code ++ code', by rw [hcode', hcode, append_assoc], ?_⟩
  · rcases mem_append.1 he with he | he
    · exact (h.names e he v hv).mono h'.later
    · exact h'.names e he v hv
  · rw [filter_append, filter_append]
    refine rel_append ?_ hrealizes'
    exact hrealizes.imp fun _ _ hinst => hinst.mono h'.later.module.toRetains

theorem rotate (h : s.Realizes t ([e] ++ es)) (he : e.engages = false) : s.Realizes t (es ++ [e]) := by
  obtain ⟨code, hcode, hrealizes⟩ := h.code
  refine ⟨h.later, h.depth, fun e' he' => h.names e' (by grind), code, hcode, ?_⟩
  rw [filter_append, filter_cons_of_neg (by simp [he])] at hrealizes ⊢
  simpa using hrealizes

end Lowerer.Realizes

/-- Nothing is done but computing. -/
def Law.idle : Law := .onOps fun op => op.engages = false

theorem Law.idle_allows (h : op.engages = false) : idle.Allows op := by
  rintro s inst rfl
  exact h

theorem Law.idle_spares : idle.Spares := by
  intro op hop
  refine idle_allows ?_
  rw [Op.computes] at hop
  cases h : op.engages with
  | false => rfl
  | true => simp [h] at hop

theorem Lowerer.Adds.realizes (h : s.Adds .idle t) : s.Realizes t [] := by
  obtain ⟨code, hcode, hidle⟩ := h.code
  refine ⟨h.later, h.depth, by simp, code, hcode, ?_⟩
  rw [filter_eq_nil_iff.2 fun inst hi => by
    simp [show inst.op.engages = false from hidle inst hi]]
  exact .nil

/-! ## What lowering goes into -/

/-- A part that is lowered on its own, or what an expression does itself. -/
inductive Visit where
  | part (e : Expr)
  | own (e : Expr)

/-- The events of a visit. -/
def Visit.events : Visit → List Expr
  | .part e => e.events
  | .own e => [e]

/-- Which arguments of a call are places. -/
def Node.places {ε : Type} : Node ε → List Bool
  | .call func _ => match func.ty with
    | .function _ params => params.map fun param => param.roles.outParameter || param.isByReference
    | _ => []
  | .intrinsic f _ => match f.form with
    | .extendedOutput _ => [false, true]
    | .carry _ => [false, false, true]
    | .wideProduct _ => [false, false, true, true]
    | _ => []
  | _ => []

namespace Expr

/-- The visit to an operand. Literals are not worth one. -/
def asPart (e : Expr) : List Visit :=
  match e.node with
  | .literal _ => []
  | _ => [.part e]

/-- The visits along a path: the variable and the indices. -/
def onPath : Expr → List Visit
  | ⟨_, .member outer _⟩ | ⟨_, .swizzle outer _⟩ => outer.onPath
  | ⟨_, .index array i⟩ => array.onPath ++ i.asPart
  | e => [.own e]

/-- The visits to a place. -/
def asPlace (e : Expr) : List Visit := if e.isChain then e.onPath else e.asPart

/-- The visits to arguments, some of which are places. -/
def asArgs : List Bool → List Expr → List Visit
  | _, [] => []
  | places, e :: es => (if places.headD false then e.asPlace else e.asPart) ++ asArgs places.tail es

/-- What lowering goes into, in order. -/
def visits (e : Expr) : List Visit :=
  match e.node with
  | .ident _ => [.own e]
  | .member outer _ | .swizzle outer _ => if e.isChain then e.onPath else outer.asPart
  | .index array i => if e.isChain then e.onPath else array.asPart ++ i.asPart
  | .assign _ lhs rhs => lhs.asPlace ++ rhs.asPart
  | .step _ target => target.asPlace
  | node => asArgs node.places node.operands ++ if e.isEvent then [.own e] else []

theorem asPart_of_constantIndex? {i : Expr} {n : Word} (h : i.constantIndex? = some n) : i.asPart = [] := by
  obtain ⟨ty, node⟩ := i
  cases node with
  | literal l => rfl
  | _ => cases h

theorem asArgs_nil (es : List Expr) : asArgs [] es = es.flatMap asPart := by
  induction es with
  | nil => rfl
  | cons e es ih => rw [flatMap_cons, ← ih]; rfl

theorem visits_of_places (hnode : e.visits = asArgs e.node.places e.node.operands ++
    if e.isEvent then [.own e] else []) (hplaces : e.node.places = []) :
    e.visits = e.node.operands.flatMap asPart ++ if e.isEvent then [.own e] else [] := by
  rw [hnode, hplaces, asArgs_nil]

theorem visits_of_operands (hnode : e.visits = asArgs e.node.places e.node.operands ++
    if e.isEvent then [.own e] else []) (hplaces : e.node.places = []) (hevent : e.isEvent = false) :
    e.visits = e.node.operands.flatMap asPart := by
  rw [visits_of_places hnode hplaces, hevent]
  simp

theorem asPart_events (e : Expr) : e.asPart.flatMap Visit.events = e.events := by
  obtain ⟨ty, node⟩ := e
  cases node with
  | literal l => rfl
  | _ => exact flatMap_singleton ..

theorem onPath_events (h : e.isChain) : e.onPath.flatMap Visit.events = e.events := by
  fun_induction onPath e with
  | case1 ty outer index ih | case2 ty outer s ih => exact (ih h).trans (events_of_operand rfl rfl).symm
  | case3 ty array i ih =>
    rw [flatMap_append, ih (Bool.and_eq_true_iff.1 h).2, asPart_events]
    exact (events_of_operands rfl rfl).symm
  | case4 e =>
    obtain ⟨ty, node⟩ := e
    cases node with
    | ident v => rfl
    | _ => simp_all [isChain]

theorem asPlace_events (e : Expr) : e.asPlace.flatMap Visit.events = e.events := by
  unfold asPlace
  split
  case isTrue h => exact onPath_events h
  case isFalse => exact asPart_events e

theorem asArgs_events (places : List Bool) (es : List Expr) :
    (asArgs places es).flatMap Visit.events = es.flatMap events := by
  induction es generalizing places with
  | nil => rfl
  | cons e es ih =>
    rw [asArgs, flatMap_append, ih, flatMap_cons]
    split
    · rw [asPlace_events]
    · rw [asPart_events]

theorem visits_events (e : Expr) : e.visits.flatMap Visit.events = e.events := by
  have hargs : (asArgs e.node.places e.node.operands ++ if e.isEvent then [Visit.own e] else []).flatMap
      Visit.events = e.events := by
    rw [flatMap_append, asArgs_events, events_eq]
    split <;> rfl
  obtain ⟨ty, node⟩ := e
  cases node with
  | ident v => rfl
  | member outer index | swizzle outer s =>
    unfold visits
    dsimp only
    split
    case isTrue h => exact onPath_events h
    case isFalse => exact (asPart_events outer).trans (events_of_operand rfl rfl).symm
  | index array i =>
    unfold visits
    dsimp only
    split
    case isTrue h => exact onPath_events h
    case isFalse =>
      rw [flatMap_append, asPart_events, asPart_events]
      exact (events_of_operands rfl rfl).symm
  | assign op lhs rhs =>
    show (lhs.asPlace ++ rhs.asPart).flatMap _ = _
    rw [flatMap_append, asPlace_events, asPart_events]
    exact (events_of_operands rfl rfl).symm
  | step op target => exact (asPlace_events target).trans (events_of_operand rfl rfl).symm
  | _ => exact hargs

end Expr

/-- The way to a later state: what it goes into, which variables it resolves, and idle steps. -/
inductive Lowerer.Trail (parts : Parts) : Lowerer → List Visit → Lowerer → Prop where
  | idle {s t : Lowerer} (h : s.Adds .idle t) : Trail parts s [] t
  | value {s t : Lowerer} {e : Expr} {id : Id} (h : parts.value e s = (.ok id, t)) : Trail parts s e.asPart t
  | pointer {s t : Lowerer} {e : Expr} {id : Id} (h : parts.pointer e s = (.ok id, t)) : Trail parts s e.asPart t
  | own {s t : Lowerer} {e : Expr} (h : s.Realizes t [e]) : Trail parts s [.own e] t
  | trans {s t u : Lowerer} {vs vs' : List Visit} (h : Trail parts s vs t) (h' : Trail parts t vs' u) :
      Trail parts s (vs ++ vs') u
  | rotate {s t : Lowerer} {e : Expr} {vs : List Visit} (he : e.engages = false)
      (h : Trail parts s ([.own e] ++ vs) t) : Trail parts s (vs ++ [.own e]) t

/-- Whenever it succeeds, the lowering realizes these events. -/
def Lower.Realizes {α : Type} (x : Lower α) (es : List Expr) : Prop :=
  ∀ ⦃s s' : Lowerer⦄ ⦃a : α⦄, x s = (.ok a, s') → s.Realizes s' es

/-- The lowering of each part realizes the events of the part. -/
structure Parts.Realize (parts : Parts) : Prop where
  value : ∀ e, (parts.value e).Realizes e.events
  pointer : ∀ e, (parts.pointer e).Realizes e.events

theorem Lowerer.Trail.realizes {parts : Parts} (hparts : parts.Realize) {vs : List Visit}
    (h : s.Trail parts vs t) : s.Realizes t (vs.flatMap Visit.events) := by
  induction h with
  | idle h => exact h.realizes
  | value h => exact asPart_events _ ▸ hparts.value _ h
  | pointer h => exact asPart_events _ ▸ hparts.pointer _ h
  | own h => exact h
  | trans h h' ih ih' =>
    rw [flatMap_append]
    exact ih.trans ih'
  | rotate he h ih =>
    rw [flatMap_append] at ih ⊢
    exact ih.rotate he

namespace Lower

variable {α β : Type} {vs vs' : List Visit} {x : Lower α} {f : α → Lower β}

/-- Whenever it succeeds, the lowering makes these visits. -/
def Visits (parts : Parts) (x : Lower α) (vs : List Visit) : Prop :=
  ∀ ⦃s s' : Lowerer⦄ ⦃a : α⦄, x s = (.ok a, s') → s.Trail parts vs s'

abbrev Idle (x : Lower α) : Prop := Obeys .idle x

theorem Obeys.visits (h : Idle x) : Visits parts x [] := fun s _ _ hrun => .idle (h s hrun)

theorem value_visits (e : Expr) : Visits parts (parts.value e) e.asPart := fun _ _ _ => .value

namespace Visits

theorem refuse (e : BuildError) : Visits parts (Build.refuse e : Lower α) vs := fun _ _ _ h => (refuse_ok h).elim

theorem refuse_bind (e : BuildError) (f : α → Lower β) : Visits parts (Build.refuse e >>= f) vs := by
  intro s s' b h
  obtain ⟨a, t, ha, -⟩ := bind_ok h
  exact (refuse_ok ha).elim

theorem bind (hx : Visits parts x vs) (hf : ∀ a, Visits parts (f a) vs') : Visits parts (x >>= f) (vs ++ vs') := by
  intro s s' b h
  obtain ⟨a, t, ha, hb⟩ := bind_ok h
  exact (hx ha).trans (hf a hb)

theorem after (hx : Idle x) (hf : ∀ a, Visits parts (f a) vs) : Visits parts (x >>= f) vs := bind hx.visits hf

theorem andThen (hx : Visits parts x vs) (hf : ∀ a, Idle (f a)) : Visits parts (x >>= f) vs := by
  have h := bind hx fun a => (hf a).visits
  rwa [append_nil] at h

theorem values : ∀ args : List Expr, Visits parts (args.mapM parts.value) (args.flatMap asPart)
  | [] => (Obeys.pure []).visits
  | e :: args => by
    rw [mapM_cons, flatMap_cons]
    exact (value_visits e).bind fun b => (values args).andThen fun bs => .pure _

end Visits

/-! ## Paths and places -/

theorem load_idle (e : Entity) : Idle (load e) := load_obeys (idle_allows rfl) e

theorem store_idle (pointer value : Id) : Idle (store pointer value) := emitEffect_obeys (idle_allows rfl) _

theorem spill_idle (ty : Ty) (value : Id) : Idle (spill ty value) := spill_obeys (idle_allows rfl) ty value

theorem readPlace_idle (p : Place) : Idle (readPlace p) := readPlace_obeys idle_spares (idle_allows rfl) p

theorem writePlace_idle (p : Place) (value : Id) : Idle (writePlace p value) :=
  writePlace_obeys idle_spares (idle_allows rfl) (idle_allows rfl) p value

end Lower

/-- The visit to the index of a step. -/
def Step.visits : Step → List Visit
  | .index i => i.asPart
  | .member .. | .swizzle _ => []

namespace Chain

theorem ofVariable_visits (v : Variable) : (ofVariable v).steps.flatMap Step.visits = [] := by
  induction v using ofVariable.induct with
  | case1 => rfl
  | case2 outer index name ty ih =>
    rw [ofVariable, flatMap_append, ih]
    rfl

theorem push_visits {path path' : Chain} {step : Step} (h : path.push step = .ok path') :
    path'.steps.flatMap Step.visits = path.steps.flatMap Step.visits ++ step.visits := by
  rcases push_cases h with ⟨rfl, -⟩ | ⟨steps, s, composed, hsteps, hcomposed, rfl⟩
  · simp
  · have hstep : step.visits = [] := by
      cases step with
      | index i =>
        obtain ⟨n, hn, -⟩ := Option.bind_eq_some_iff.1 hcomposed
        exact asPart_of_constantIndex? hn
      | _ => rfl
    rw [hstep, hsteps, append_nil, flatMap_append, flatMap_append]
    rfl

theorem ofExpr_visits {path : Chain} (h : ofExpr e = .ok path) :
    ∃ base v, base.node.variable? = some v ∧ path.head = v.outermost ∧
      e.onPath = .own base :: path.steps.flatMap Step.visits := by
  fun_induction ofExpr e generalizing path with
  | case1 ty v =>
    cases h
    exact ⟨⟨ty, .ident v⟩, v, rfl, head_ofVariable v, by rw [ofVariable_visits]; rfl⟩
  | case2 ty outer i ih | case3 ty outer i ih | case4 ty outer s ih =>
    obtain ⟨inner, hinner, hpush⟩ := exists_push h
    obtain ⟨base, v, hv, hhead, hvisits⟩ := ih hinner
    refine ⟨base, v, hv, (head_push hpush).trans hhead, ?_⟩
    rw [push_visits hpush, ← cons_append, ← hvisits, onPath]
    simp [Step.visits]
  | case5 => cases h

end Chain

namespace Lower

theorem resolve_realizes {u : Variable} (hv : e.node.variable? = some v)
    (hname : u.outermost.name = v.outermost.name) : Realizes (resolve u) [e] := by
  intro s s' entity h
  obtain ⟨hlater, hdepth, -, hcode⟩ := (resolve_obeys (W := .idle) u s h).realizes
  refine ⟨hlater, hdepth, fun e' he' v' hv' => ?_, ?_⟩
  · obtain rfl := mem_singleton.1 he'
    obtain rfl := Option.some.inj (hv.symm.trans hv')
    exact ⟨entity, hname ▸ resolve_lookup u s entity s' h⟩
  · rwa [filter_cons_of_neg (by simp [engages_eq_false_of_variable hv])]

theorem resolve_visits {u : Variable} (hv : e.node.variable? = some v)
    (hname : u.outermost.name = v.outermost.name) : Visits parts (resolve u) [.own e] :=
  fun _ _ _ h => .own (resolve_realizes hv hname h)

theorem pathBase_idle (head : Variable) (root : Entity) : Idle (pathBase head root) := by
  unfold pathBase
  split
  · exact .pure _
  · exact (spill_idle _ _).bind fun _ => (declareType_obeys _).bind fun _ => .pure _

theorem walk_visits (w : Walk) (step : Step) : Visits parts (walk parts w step) step.visits := by
  cases step with
  | member index name => exact (walkMember_obeys w index name).visits
  | swizzle s => exact (walkSwizzle_obeys w s).visits
  | index i =>
    show Visits parts (walkIndex parts w i) i.asPart
    unfold walkIndex
    split
    · exact .refuse _
    · exact (value_visits i).andThen fun _ => .pure _

theorem walkAll_visits : ∀ (steps : List Step) (w : Walk),
    Visits parts (steps.foldlM (walk parts) w) (steps.flatMap Step.visits)
  | [], w => (Obeys.pure w).visits
  | step :: steps, w => (walk_visits w step).bind fun w' => walkAll_visits steps w'

theorem follow_visits (path : Chain) (root base : Entity) :
    Visits parts (follow parts path root base) (path.steps.flatMap Step.visits) := by
  refine (walkAll_visits path.steps _).andThen fun w => ?_
  split
  · exact .pure _
  · refine (Obeys.declaring [] fun _ hJ => Module.declareTypeWith_steady hJ _ _ _ _).bind fun _ => ?_
    refine (declarePointer_obeys _ _).bind fun _ => takeIntermediate_obeys.bind fun _ => ?_
    exact (Obeys.push (idle_allows rfl)).bind fun _ => .pure _

theorem place_visits (e : Expr) : Visits parts (place parts e) e.asPlace := by
  unfold place
  split
  case h_1 name ty roles hnode =>
    have hv : e.node.variable? = some (.root name ty roles) := by rw [hnode]; rfl
    have hpath : e.asPlace = [.own e] := by
      obtain ⟨eTy, node⟩ := e
      cases hnode
      rfl
    rw [hpath]
    exact (resolve_visits hv rfl).andThen fun _ => .pure _
  case h_2 =>
    split
    case isTrue hchain =>
      split
      · exact .refuse _
      case h_2 path hpath =>
        obtain ⟨base, v, hv, hhead, hvisits⟩ := Chain.ofExpr_visits hpath
        have hname : path.head.outermost.name = v.outermost.name := by
          rw [hhead, Variable.outermost_outermost]
        rw [asPlace, if_pos hchain, hvisits]
        exact (resolve_visits hv hname).bind fun root => .after (pathBase_idle _ _) fun base =>
          follow_visits path root base
    case isFalse => exact .refuse _

theorem placeToAssign_visits (e : Expr) : Visits parts (placeToAssign parts e) e.asPlace := by
  refine (place_visits e).andThen fun p => ?_
  split
  · exact .refuse_bind _ _
  · exact .pure _

theorem chain_visits (e : Expr) : Visits parts (chain parts e) e.asPlace := by
  refine (place_visits e).andThen fun p => ?_
  unfold placeEntity
  split
  · exact .pure _
  · exact bind_value_obeys (readPlace_idle p) _

/-! ## Calls -/

theorem referenceArg_visits (arg : Expr) : Visits parts (referenceArg parts arg) arg.asPlace := by
  unfold referenceArg
  split
  case isTrue =>
    refine (place_visits arg).andThen fun p => ?_
    split
    · exact .pure _
    · exact (readPlace_idle p).bind fun _ => spill_idle _ _
  case isFalse hchain =>
    rw [asPlace, if_neg hchain]
    exact (value_visits arg).andThen fun _ => spill_idle _ _

theorem outputArg_visits (arg : Expr) (copyIn : Bool) : Visits parts (outputArg parts arg copyIn) arg.asPlace := by
  refine (placeToAssign_visits arg).andThen fun p => ?_
  split
  · exact .pure _
  · refine (temp_obeys _).bind fun copy => (declareType_obeys _).bind fun copyType => ?_
    split
    · exact (readPlace_idle p).bind fun _ => (store_idle _ _).bind fun _ => .pure _
    · exact .pure _

theorem callArg_visits (param : Variable) (arg : Expr) : Visits parts (callArg parts param arg)
    (if param.roles.outParameter || param.isByReference then arg.asPlace else arg.asPart) := by
  unfold callArg
  split
  case isTrue hout =>
    rw [hout]
    exact outputArg_visits arg _
  case isFalse hout =>
    rw [Bool.eq_false_iff.2 hout]
    split
    case isTrue href =>
      rw [href]
      exact (referenceArg_visits arg).andThen fun _ => .pure _
    case isFalse href =>
      rw [Bool.eq_false_iff.2 href]
      exact (value_visits arg).andThen fun _ => .pure _

theorem callArgs_visits : ∀ {params : List Variable} {args : List Expr},
    args.length = params.length → Visits parts (callArgs parts params args) (asArgs
      (params.map fun param => param.roles.outParameter || param.isByReference) args)
  | [], [], _ => (Obeys.pure _).visits
  | param :: _, arg :: _, h =>
    (callArg_visits param arg).bind fun _ => (callArgs_visits (Nat.succ.inj h)).andThen fun _ => .pure _

theorem copyOut_idle (w : CopyOut) : Idle (copyOut w) := (load_idle _).bind fun value => writePlace_idle w.place value

theorem copyOuts_idle : ∀ backs : List CopyOut, Idle (backs.forM copyOut)
  | [] => .pure _
  | w :: backs => (copyOut_idle w).bind fun _ => copyOuts_idle backs

theorem callArgs_length (parts : Parts) : ∀ {params : List Variable} {args : List Expr},
    args.length = params.length → (callArgs parts params args).Yields fun p => p.1.length = args.length
  | [], [], _ => .pure rfl
  | param :: params, arg :: args, h => by
    refine .bind fun q => ?_
    intro s p s' hrun
    obtain ⟨rest, t, hrest, hrun⟩ := bind_ok hrun
    obtain ⟨rfl, -⟩ := pure_ok hrun
    exact congrArg (· + 1) (callArgs_length parts (Nat.succ.inj h) _ rest _ hrest)

theorem push_realizes {inst : Inst} {u : Unit} (hengages : inst.op.engages) (hevent : e.engages)
    (hinst : inst.Realizes s.module e) (h : push inst s = (.ok u, s')) : s.Realizes s' [e] := by
  have hlater := Extending.push inst h
  cases h
  refine ⟨hlater, rfl, fun e' he' v hv => ?_, [inst], rfl, ?_⟩
  · rw [← mem_singleton.1 he', engages_eq_false_of_variable hv] at hevent
    cases hevent
  · rw [filter_cons_of_pos (p := fun inst : Inst => inst.op.engages) hengages, filter_cons_of_pos hevent]
    exact .cons hinst .nil

theorem emit_realizes {ty : Ty} {operands : List Word} {id : Id} (hengages : op.engages) (hevent : e.engages)
    (hinst : ∀ type id, (Inst.value op type id operands).Realizes s.module e)
    (h : emit op ty operands s = (.ok id, s')) : s.Realizes s' [e] := by
  obtain ⟨type, s₁, htype, h⟩ := bind_ok h
  obtain ⟨fresh, s₂, hfresh, h⟩ := bind_ok h
  obtain ⟨_, hpush, rfl⟩ := bind_pure_ok h
  have hbefore : s.Realizes s₂ [] := ((declareType_obeys ty s htype).trans (freshId_obeys s₁ hfresh)).realizes
  have hafter := (hinst type fresh).mono hbefore.later.module.toRetains
  exact hbefore.trans (push_realizes hengages hevent hafter hpush)

theorem call_ok {func : Variable} {args : List Expr} {id : Id} (h : call parts func args s = (.ok id, s')) :
    ∃ ret params, func.ty = .function ret params ∧ args.length = params.length ∧ ∃ function s₁ ids backs s₂ s₃,
        onModule (Module.functionNamed func.name) s = (.ok function, s₁) ∧
        s₁.module.functionIds.get? func.name = some function ∧
        callArgs parts params args s₁ = (.ok (ids, backs), s₂) ∧
        emit .FunctionCall ret (function :: ids) s₂ = (.ok id, s₃) ∧ backs.forM copyOut s₃ = (.ok (), s') := by
  unfold call at h
  cases hfunc : func.ty <;> rw [hfunc] at h
  case function ret params =>
    dsimp only at h
    split at h
    · cases h
    case isFalse hlength =>
      obtain ⟨function, s₁, hfunction, h⟩ := bind_ok h
      obtain ⟨⟨ids, backs⟩, s₂, hargs, h⟩ := bind_ok h
      obtain ⟨_, s₃, hemit, h⟩ := bind_ok h
      obtain ⟨_, hbacks, rfl⟩ := bind_pure_ok h
      exact ⟨ret, params, rfl, not_not.1 hlength, function, s₁, ids, backs, s₂, s₃, hfunction,
        Module.functionNamed_ok (onModule_ok hfunction).1, hargs, hemit, hbacks⟩
  all_goals cases h

theorem call_visits (hparts : parts.Regular) (ty : Ty) (func : Variable) (args : List Expr) :
    Visits parts (call parts func args) (visits ⟨ty, .call func args⟩) := by
  intro s s' id h
  obtain ⟨ret, params, hty, hlength, function, s₁, ids, backs, s₂, s₃, hfunction, hfound, hargs, hemit,
    hbacks⟩ := call_ok h
  have hplaces : (Node.call func args).places =
      params.map fun param => param.roles.outParameter || param.isByReference := by
    simp only [Node.places, hty]
  have hcallee := (Extending.callArgs hparts _ _ hargs).module.functionIds _ _ hfound
  have hcall : s₂.Realizes s₃ [⟨ty, .call func args⟩] := by
    refine emit_realizes rfl rfl (fun type id => ⟨rfl, rfl, fun func' args' hnode => ?_⟩) hemit
    cases hnode
    exact ⟨function, ids, rfl, hcallee, callArgs_length parts hlength _ _ _ hargs⟩
  have hbefore := ((functionNamed_obeys func.name).visits hfunction).trans (callArgs_visits hlength hargs)
  have hall := hbefore.trans ((Lowerer.Trail.own hcall).trans ((copyOuts_idle backs).visits hbacks))
  rw [← hplaces] at hall
  exact hall

/-! ## Intrinsic functions -/

theorem atomic_visits {ops : PerFamily Op} (hform : f.form = .atomic ops)
    (semantics : MemorySemantics) {scalar : Option Scalar} (pointer : Id) (values : List Id)
    (ty : Ty) (hevent : e.engages) (he : e.engagedOp? = f.atomicOp? scalar)
    (hoffsets : e.offsetsTexels = false) (hcall : ∀ func args, e.node ≠ .call func args) :
    Visits parts (atomic f ops semantics scalar pointer values ty) [.own e] := by
  have hatomic : f.atomicOp? scalar = ops.forScalar? scalar := by
    rw [Intrinsic.atomicOp?, hform]
  unfold atomic
  split
  · exact .refuse _
  case h_2 op hop =>
    have hop' := hatomic.trans hop
    have hemit : ∀ operands, Visits parts (emit op ty operands) [.own e] := by
      intro operands s s' id h
      refine .own (emit_realizes (Op.engages_of_acts (Intrinsic.acts_of_atomicOp? hop')) hevent
        (fun type id => ⟨he.trans hop', ?_, fun func args hnode => absurd hnode (hcall func args)⟩) h)
      rw [hoffsets, Inst.offsetsTexels_of_maskPlace? (Intrinsic.maskPlace?_of_atomicOp? hop')]
    refine .after (declareLiteral_obeys _) fun scope => .after (declareLiteral_obeys _) fun equal => ?_
    split
    · exact .after (declareLiteral_obeys _) fun _ => hemit _
    · exact .refuse _
    · exact hemit _

theorem assignTo_visits (target : Expr) (value : Id) : Visits parts (assignTo parts target value) target.asPlace :=
  (placeToAssign_visits target).andThen fun p => writePlace_idle p value

theorem intrinsicOfForm_visits (f : Intrinsic) (ty : Ty) (first : Expr) (rest : List Expr) :
    Visits parts (intrinsicOfForm parts f ty first rest) (visits ⟨ty, .intrinsic f (first :: rest)⟩) := by
  have hcomputes := f.form_computes
  have hplain : (∀ ops, f.form ≠ .atomic ops) → visits ⟨ty, .intrinsic f (first :: rest)⟩ =
      asArgs (Node.intrinsic f (first :: rest)).places (first :: rest) := by
    intro h
    have hatomic : f.isAtomic = false := Bool.eq_false_iff.2 fun hatomic =>
      let ⟨ops, hops⟩ := f.isAtomic_iff.1 hatomic
      h ops hops
    simp [visits, isEvent, engages, Node.variable?, hatomic, Node.operands]
  have hvalues : Visits parts ((first :: rest).mapM parts.value) _ := Visits.values (first :: rest)
  rw [← asArgs_nil] at hvalues
  unfold intrinsicOfForm
  split
  case h_1 rest _ _ ops hform =>
    rw [hform] at hcomputes
    simp only [hplain (by simp [hform]), Node.places, hform]
    split
    · exact .refuse _
    case h_2 op hop =>
      obtain ⟨scalar, -, hop⟩ := Option.bind_eq_some_iff.1 hop
      have hemit : ∀ ids, Idle (emit op ty ids) := fun ids =>
        emit_obeys (idle_spares _ (PerFamily.of_get? hcomputes hop)) ty ids
      split
      · refine .after (Obeys.declaring [] fun _ hJ => Module.addCapability_steady hJ _) fun _ => ?_
        exact hvalues.andThen fun ids => hemit ids
      · exact hvalues.andThen fun ids => hemit ids
  case h_2 rest _ _ ops hform =>
    simp only [hplain (by simp [hform]), Node.places, hform]
    split
    · exact .refuse _
    · exact hvalues.andThen fun ids => emitExtended_obeys idle_spares _ ty ids
  case h_3 op output hform =>
    simp only [hplain (by simp [hform]), Node.places, hform]
    refine (value_visits first).bind fun x => (outputArg_visits output false).bind fun p => Obeys.visits ?_
    refine (emitExtended_obeys idle_spares _ ty _).bind fun id => ?_
    obtain ⟨pointer, back⟩ := p
    cases back with
    | none => exact (Obeys.pure _).bind fun _ => .pure _
    | some w => exact (copyOut_idle w).bind fun _ => .pure _
  case h_4 rest _ _ ops hform =>
    have hengages : engages ⟨ty, .intrinsic f (first :: rest)⟩ := f.isAtomic_iff.2 ⟨ops, hform⟩
    have hvisits : visits ⟨ty, .intrinsic f (first :: rest)⟩ =
        first.asPart ++ (rest.flatMap asPart ++ [.own ⟨ty, .intrinsic f (first :: rest)⟩]) := by
      simp [visits, isEvent_of_engages hengages, Node.places, hform, Node.operands, asArgs_nil]
    rw [hvisits]
    refine Visits.bind (fun _ _ _ => .pointer) fun pointer => (Visits.values rest).bind fun values => ?_
    exact atomic_visits hform _ pointer values ty hengages rfl rfl (by simp)
  case h_5 op second output hform =>
    rw [hform] at hcomputes
    simp only [hplain (by simp [hform]), Node.places, hform]
    refine (value_visits first).bind fun x => (value_visits second).bind fun y => ?_
    refine .after (emitPair_obeys idle_spares hcomputes ty x y) fun p => ?_
    exact (assignTo_visits output _).bind fun _ => (Obeys.pure _).visits
  case h_6 op second high low hform =>
    rw [hform] at hcomputes
    simp only [hplain (by simp [hform]), Node.places, hform]
    refine (value_visits first).bind fun x => (value_visits second).bind fun y => ?_
    refine .after (emitPair_obeys idle_spares hcomputes first.ty x y) fun p => ?_
    refine (assignTo_visits high _).bind fun _ => ?_
    exact (assignTo_visits low _).bind fun _ => (Obeys.pure _).visits
  case h_7 => exact .refuse _

theorem intrinsic_visits (f : Intrinsic) (args : List Expr) (ty : Ty) :
    Visits parts (intrinsic parts f args ty) (visits ⟨ty, .intrinsic f args⟩) := by
  unfold intrinsic
  dsimp only
  split
  · exact .refuse_bind _ _
  · split
    · exact .refuse _
    case h_2 x y choice _ =>
      split
      · have hmix : Visits parts (mixSelect parts ty x y choice) (x.asPart ++ (y.asPart ++ choice.asPart)) :=
          (value_visits x).bind fun _ => (value_visits y).bind fun _ =>
            (value_visits choice).andThen fun _ => emit_obeys (idle_spares _ rfl) ty _
        simpa [visits, Node.places, Intrinsic.form, Node.operands, asArgs, isEvent, engages,
          Intrinsic.isAtomic, Node.variable?] using hmix
      · exact intrinsicOfForm_visits .mix ty x [y, choice]
    · exact intrinsicOfForm_visits f ty _ _

/-! ## Texels -/

theorem atomicTexel_visits {ops : PerFamily Op} (hform : f.form = .atomic ops) {config : ImageConfig} (image : Expr)
    (address values : List Expr) (ty : Ty) (hevent : e.engages) (he : e.engagedOp? = f.atomicOp? (some config.sampled))
    (hoffsets : e.offsetsTexels = false) (hcall : ∀ func args, e.node ≠ .call func args) :
    Visits parts (atomicTexel parts f ops config image address values ty)
      (image.asPart ++ (address.flatMap asPart ++ (values.flatMap asPart ++ [.own e]))) := by
  refine .after (declareType_obeys _) fun texel => .after (declarePointer_obeys _ _) fun type => ?_
  refine Visits.bind (fun _ _ _ => .pointer) fun base => (Visits.values address).bind fun ids => ?_
  have hrest : ∀ sample : List Id, Visits parts (do
      let pointer ← emitAs .ImageTexelPointer type (base :: ids ++ sample)
      let values ← values.mapM parts.value
      atomic f ops .image (some config.sampled) pointer values ty)
      (values.flatMap asPart ++ [.own e]) := by
    intro sample
    refine .after (emitAs_obeys (idle_spares _ rfl) _ _) fun pointer => ?_
    exact (Visits.values values).bind fun ids' => atomic_visits hform _ pointer ids' ty hevent he hoffsets hcall
  split
  · exact .after (.pure _) fun sample => hrest sample
  · exact .after (declareLiteral_obeys _) fun _ => .after (.pure _) fun sample => hrest sample

theorem imageAccess_visits (access : ImageAccess) (args : List Expr) (ty : Ty) :
    Visits parts (imageAccess parts access args ty) (visits ⟨ty, .image access args⟩) := by
  intro s s' id hrun
  obtain ⟨⟨image, config⟩, s₁, himage, hchecked⟩ := bind_ok hrun
  obtain ⟨_, s₂, hcount, h⟩ := bind_ok hchecked
  obtain ⟨rfl, hconfig, rest, rfl⟩ := imageArg_ok himage
  obtain ⟨rfl, hlength⟩ := checkCount_ok hcount
  have hvisits : visits ⟨ty, .image access (image :: rest)⟩ =
      (image :: rest).flatMap asPart ++ [.own ⟨ty, .image access (image :: rest)⟩] :=
    visits_of_places rfl rfl
  have hrest : rest.flatMap asPart = (rest.take config.addressLength).flatMap asPart ++
        (rest.drop config.addressLength).flatMap asPart := by
    rw [← flatMap_append, take_append_drop]
  rw [tail_cons, splitAt_eq] at h
  cases hatomic : access.atomic? with
  | some f =>
    obtain ⟨ops, hform⟩ := f.isAtomic_iff.1 (access.isAtomic_of_atomic? hatomic)
    simp only [hatomic, hform] at h
    rw [hvisits, flatMap_cons, hrest]
    simp only [append_assoc]
    refine atomicTexel_visits hform image _ _ ty (e := ⟨ty, .image access (image :: rest)⟩) rfl ?_ rfl (by simp) h
    cases access with
    | size | samples | load | store => cases hatomic
    | _ => simp [engagedOp?, hatomic, hconfig]
  | none =>
    simp only [hatomic] at h
    obtain ⟨base, s₃, hbase, h⟩ := bind_ok h
    obtain ⟨ids, s₄, hids, h⟩ := bind_ok h
    obtain ⟨texel, s₅, htexel, h⟩ := bind_ok h
    have hargs := ((value_visits image hbase).trans (Visits.values _ hids)).trans (Visits.values _ htexel)
    rw [append_assoc, ← hrest] at hargs
    rw [hvisits]
    refine hargs.trans (.own ?_)
    rw [splitAt_eq] at h
    have haddress : 1 ≤ config.addressLength := by
      unfold ImageConfig.addressLength
      split <;> omega
    have hidsLength := Yields.mapM_length _ _ _ _ _ hids
    have htexelLength := Yields.mapM_length _ _ _ _ _ htexel
    rw [length_take] at hidsLength
    rw [length_drop] at htexelLength
    rw [length_cons] at hlength
    cases access with
    | size | samples => exact emit_realizes rfl rfl (fun _ _ => ⟨rfl, rfl, by simp⟩) h
    | load =>
      have hplace : Op.maskPlace? .ImageRead = some (base :: ids.take 1).length := by
        rw [length_cons, length_take, Op.maskPlace?]
        simp only [ImageAccess.arity] at hlength
        congr 1
        omega
      refine emit_realizes rfl rfl (fun _ _ => ⟨rfl, ?_, by simp⟩) h
      exact (Inst.offsetsTexels_of_operands hplace rfl).trans (announcesOffsets_sampleOperands _)
    | store =>
      obtain ⟨_, hpush, -⟩ := bind_pure_ok h
      have hplace : Op.maskPlace? .ImageWrite = some (base :: ids.take 1 ++ texel).length := by
        rw [length_append, length_cons, length_take, Op.maskPlace?]
        simp only [ImageAccess.arity] at hlength
        congr 1
        omega
      refine push_realizes rfl rfl ⟨rfl, ?_, by simp⟩ hpush
      exact (Inst.offsetsTexels_of_operands hplace rfl).trans (announcesOffsets_sampleOperands _)
    | _ => cases hatomic

theorem announced_visits (multisampled : Bool) : ∀ {operands : List ImageOperand} {args : List Expr},
    args.length = ImageOperand.totalArity operands →
    Visits parts (announced parts multisampled operands args) (args.flatMap asPart)
  | [], args, h => by
    rw [eq_nil_of_length_eq_zero h]
    exact (Obeys.pure _).visits
  | operand :: operands, args, h => by
    rw [ImageOperand.totalArity_cons] at h
    have hargs : args.flatMap asPart = (args.take operand.arity).flatMap asPart ++
        (args.drop operand.arity).flatMap asPart := by
      rw [← flatMap_append, take_append_drop]
    rw [announced, hargs]
    refine (Visits.values _).bind fun ids => ?_
    exact (announced_visits multisampled (by simp [h])).andThen fun _ => .pure _

theorem textureAccess_visits (access : TextureAccess) (args : List Expr) (ty : Ty) :
    Visits parts (textureAccess parts access args ty) (visits ⟨ty, .texture access args⟩) := by
  intro s s' id hrun
  obtain ⟨⟨image, config⟩, s₁, himage, hchecked⟩ := bind_ok hrun
  obtain ⟨_, s₂, hcount, h⟩ := bind_ok hchecked
  obtain ⟨rfl, -, rest, rfl⟩ := imageArg_ok himage
  obtain ⟨rfl, hlength⟩ := checkCount_ok hcount
  rw [tail_cons, splitAt_eq] at h
  obtain ⟨handle, s₃, hhandle, h⟩ := bind_ok h
  obtain ⟨ids, s₄, hids, h⟩ := bind_ok h
  obtain ⟨entries, s₅, hentries, h⟩ := bind_ok h
  have hfirst : s₂.Trail parts image.asPart s₃ := by
    refine ((value_visits image).andThen fun id => ?_) hhandle
    split
    · exact emit_obeys (idle_spares _ rfl) _ _
    · exact .pure _
  have hrest : rest.length = access.form.fixed + ImageOperand.totalArity (access.form.operandsFor config.dim) := by
    rw [length_cons] at hlength
    omega
  have hannounced := announced_visits config.ms (by
    rw [length_drop]
    omega) hentries
  have hargs := (hfirst.trans (Visits.values _ hids)).trans hannounced
  rw [append_assoc, ← flatMap_append, take_append_drop] at hargs
  rw [visits_of_places rfl rfl]
  refine hargs.trans (.own (emit_realizes access.form_engages rfl (fun type id => ⟨rfl, ?_, by simp⟩) h))
  refine TextureAccess.offsetsTexels_inst rfl rfl ?_ (announced_bits parts _ _ _ _ entries _ hentries) hrest
  rw [Yields.mapM_length _ _ _ _ _ hids, length_take, hrest]
  omega

/-! ## Expressions -/

theorem constructArg_visits (target : Option Scalar) (arg : Expr) :
    Visits parts (constructArg parts target arg) arg.asPart := by
  have hvalue : Visits parts (do return (← parts.value arg, true)) arg.asPart :=
    (value_visits arg).andThen fun _ => .pure _
  unfold constructArg
  split
  · split
    · exact hvalue
    · split
      case h_1 l hnode =>
        rw [asPart, hnode]
        exact ((declareLiteral_obeys _).bind fun _ => .pure _).visits
      · exact (value_visits arg).andThen fun _ => (cast_obeys idle_spares _ _).bind fun _ => .pure _
  · exact hvalue

theorem constructArgs_visits (target : Option Scalar) : ∀ args : List Expr,
    Visits parts (constructArgs parts target args) (args.flatMap asPart)
  | [] => (Obeys.pure _).visits
  | arg :: args =>
    (constructArg_visits target arg).bind fun _ => (constructArgs_visits target args).andThen fun _ => .pure _

theorem swizzleValue_visits (ty : Ty) (outer : Expr) (s : Swizzle) :
    Visits parts (swizzleValue parts ty outer s) outer.asPart := by
  refine (value_visits outer).andThen fun vector => ?_
  split
  · exact .pure _
  · exact splat_obeys idle_spares _ _ _ _
  · exact emit_obeys (idle_spares _ rfl) ty _
  · exact emit_obeys (idle_spares _ rfl) ty _

theorem indexValue_visits (ty : Ty) (array index : Expr) :
    Visits parts (indexValue parts ty array index) (array.asPart ++ index.asPart) := by
  refine (value_visits array).bind fun whole => ?_
  split
  case h_1 i hindex =>
    rw [asPart_of_constantIndex? hindex]
    exact (emit_obeys (idle_spares _ rfl) ty _).visits
  · refine (value_visits index).andThen fun i => ?_
    split
    · exact emit_obeys (idle_spares _ rfl) ty _
    · refine (spill_idle _ _).bind fun copy => (declareType_obeys _).bind fun element => ?_
      refine (declarePointer_obeys _ _).bind fun _ => takeIntermediate_obeys.bind fun pointer => ?_
      refine (Obeys.push (idle_allows rfl)).bind fun _ => (load_idle _).bind fun _ => ?_
      exact (releaseIntermediate_obeys _).bind fun _ => .pure _

theorem operand_visits (e : Expr) : Visits parts (operand parts e) e.asPart := (value_visits e).andThen fun _ => .pure _

theorem assign_visits (ty : Ty) (op : Option BinOp) (lhs rhs : Expr) (demand : Demand) :
    Visits parts (assign parts ty op lhs rhs demand) (lhs.asPlace ++ rhs.asPart) := by
  refine (placeToAssign_visits lhs).bind fun p => ?_
  cases op with
  | none =>
    exact (value_visits rhs).andThen fun id => (writePlace_idle p id).bind fun _ => assigned_obeys p ty id demand
  | some op =>
    refine .after (readPlace_idle p) fun current => (operand_visits rhs).andThen fun r => ?_
    exact (binary_obeys idle_spares _ _ _ _ _).bind fun id => (writePlace_idle p id).bind fun _ =>
      assigned_obeys p ty id demand

theorem init_visits (hv : e.node.variable? = some v) (initial : Expr) (demand : Demand) :
    Visits parts (init parts e v initial demand) (initial.asPart ++ [.own e]) := by
  suffices h : Visits parts (init parts e v initial demand) ([.own e] ++ initial.asPart) from
    fun _ _ _ hrun => .rotate (engages_eq_false_of_variable hv) (h hrun)
  refine (resolve_visits hv rfl).bind fun entity => ?_
  dsimp only
  split
  · exact .refuse_bind _ _
  · refine (value_visits initial).andThen fun id => (store_idle _ _).bind fun _ => ?_
    cases demand with
    | pointer => exact .pure _
    | value => exact value_obeys _ _

theorem step_visits (op : StepOp) (target : Expr) : Visits parts (step parts op target) target.asPlace := by
  refine (placeToAssign_visits target).andThen fun p => ?_
  refine (readPlace_idle p).bind fun old => ?_
  split
  · refine (declareLiteral_obeys _).bind fun literal => ?_
    have hrest : ∀ (one : Operand), Idle (do
        let new ← binary (if op.isIncrement then .add else .sub) { ty := target.ty, id := old } one target.ty false
        writePlace p new
        return if op.yieldsNew then new else old : Lower Id) := fun one =>
      (binary_obeys idle_spares _ _ _ _ _).bind fun new => (writePlace_idle p new).bind fun _ => .pure _
    dsimp only
    split
    · exact (splat_obeys idle_spares _ _ _ _).bind fun one => hrest _
    · exact (Obeys.pure _).bind fun one => hrest _
  · exact .refuse _

theorem select_visits (e c t f : Expr) :
    Visits parts (select parts e c t f) (c.asPart ++ (t.asPart ++ (f.asPart ++ []))) :=
  (operand_visits c).bind fun _ => (value_visits t).bind fun _ =>
    (value_visits f).bind fun _ => (choose_obeys idle_spares _ _ _ _ _).visits

theorem bind_value_visits {x : Lower Id} {vs : List Visit} (hx : Visits parts x vs) (ty : Ty) :
    Visits parts (do value ty (← x)) vs := hx.andThen fun id => value_obeys ty id

theorem node_visits (hparts : parts.Regular) (e : Expr) (demand : Demand) :
    Visits parts (node parts e demand) e.visits := by
  have hchain : e.isChain → Visits parts (chain parts e) e.onPath := by
    intro h
    have hplace : Visits parts (chain parts e) _ := chain_visits e
    rwa [asPlace, if_pos h] at hplace
  obtain ⟨ty, node⟩ := e
  cases node with
  | literal l => exact bind_value_visits (declareLiteral_obeys l).visits ty
  | ident v =>
    show Visits parts (if v.isMember then chain parts _ else resolve v) _
    split
    · exact hchain rfl
    · exact resolve_visits rfl rfl
  | member outer index =>
    unfold node visits
    dsimp only
    split
    case isTrue h => exact hchain h
    case isFalse =>
      exact (value_visits outer).andThen fun whole => bind_value_obeys (emit_obeys (idle_spares _ rfl) ty _) ty
  | index array i =>
    unfold node visits
    dsimp only
    split
    case isTrue h => exact hchain h
    case isFalse => exact bind_value_visits (indexValue_visits ty array i) ty
  | swizzle outer s =>
    unfold node visits
    dsimp only
    split
    case isTrue h => exact hchain h
    case isFalse => exact bind_value_visits (swizzleValue_visits ty outer s) ty
  | assign op lhs rhs => exact assign_visits ty op lhs rhs demand
  | init v initial =>
    rw [visits_of_places rfl rfl, Node.operands, flatMap_singleton]
    exact init_visits rfl initial demand
  | unary op x =>
    rw [visits_of_operands rfl rfl rfl]
    exact (operand_visits x).bind fun r => (bind_value_obeys (unary_obeys idle_spares _ _ _) ty).visits
  | binary op l r =>
    rw [visits_of_operands rfl rfl rfl]
    exact (operand_visits l).bind fun lhs => (operand_visits r).bind fun rhs =>
      (bind_value_obeys (binary_obeys idle_spares _ _ _ _ _) ty).visits
  | cast x =>
    rw [visits_of_operands rfl rfl rfl]
    exact (operand_visits x).bind fun r => (bind_value_obeys (cast_obeys idle_spares _ _) ty).visits
  | step op x => exact bind_value_visits (step_visits op x) ty
  | construct args =>
    rw [visits_of_operands rfl rfl rfl]
    refine bind_value_visits ((constructArgs_visits _ args).andThen fun _ => ?_) ty
    exact assemble_obeys idle_spares _ _ _ _
  | call func args => exact bind_value_visits (call_visits hparts ty func args) ty
  | intrinsic f args => exact bind_value_visits (intrinsic_visits f args ty) ty
  | image access args => exact bind_value_visits (imageAccess_visits access args ty) ty
  | texture access args => exact bind_value_visits (textureAccess_visits access args ty) ty
  | select c t f =>
    rw [visits_of_operands rfl rfl rfl]
    exact bind_value_visits (select_visits _ c t f) ty

theorem Realizes.andThen {α β : Type} {x : Lower α} {f : α → Lower β} {es : List Expr} (hx : Realizes x es)
    (hf : ∀ a, Idle (f a)) : Realizes (x >>= f) es := by
  intro s s' b h
  obtain ⟨a, t, ha, hb⟩ := bind_ok h
  have hall := (hx ha).trans (hf a t hb).realizes
  rwa [append_nil] at hall

theorem partsOf_realize {entity : Expr → Demand → Lower Entity}
    (h : ∀ e demand, Realizes (entity e demand) e.events) : (partsOf entity).Realize where
  value e := (h e .value).andThen fun _ => load_idle _
  pointer e := (h e .pointer).andThen fun result => by
    unfold pointerOf
    split
    · exact .refuse_bind _ _
    · exact .pure _

theorem lowerWithin_realizes (height : Nat) (e : Expr) (demand : Demand) :
    Realizes (lowerWithin height e demand) e.events := by
  induction height generalizing e demand with
  | zero => exact fun _ _ _ => nofun
  | succ height ih =>
    intro s s' entity h
    obtain ⟨t, hrun, rfl⟩ := eq_of_nested h
    have hrealizes := (node_visits (partsOf_regular height) e demand hrun).realizes (partsOf_realize ih)
    rw [visits_events] at hrealizes
    obtain ⟨hlater, hdepth, hnames, hcode⟩ := hrealizes
    exact ⟨{ hlater with }, congrArg (· - 1) hdepth, hnames, hcode⟩

end Lower

theorem lower_realizes (e : Expr) : (Lower.lower e).Realizes e.events := fun _ _ _ h =>
  (Lower.partsOf_realize (Lower.lowerWithin_realizes _)).value e h

theorem lowerPointer_realizes (e : Expr) : (Lower.lowerPointer e).Realizes e.events := fun _ _ _ h =>
  (Lower.partsOf_realize (Lower.lowerWithin_realizes _)).pointer e h

end Shader
