import Shader.Proofs.Construction
import Shader.Proofs.Operands

/-!
# What lowering does to a ledger

Lowering builds in the module, appends instructions and queues local variables, and knows all that an
appended instruction refers to. A ledger of lowerers that stands through each of these stands through
the lowering of every expression that meets its terms.
-/

namespace Shader

open Action List Module

variable {m : Module}

/-- The declaration of a local variable. -/
def Inst.localVariable (pointer id : Id) : Inst := .value .Variable pointer id [Enumerated.number StorageClass.Function]

/-- The ledger, as it looks at the module of a lowerer. -/
def Ledger.ofModule (L : Ledger Lowerer) (s : Lowerer) : Ledger Module where
  Stands held known m := L.Stands held known { s with module := m }
  Ends := L.Ends
  drop := L.drop
  ends := L.ends

/-- A ledger of lowerers that stands through the lowering of all expressions that meet the terms. -/
structure Tracing (T : Terms) (L : Ledger Lowerer) : Prop where
  building : ∀ s, Building T.names (L.ofModule s) T.doubles
  noResult : ∀ {held known} {s : Lowerer}, T.lenient →
    L.Stands held known s → L.Stands held (.value noResult :: known) s := by
    exact fun _ h => h
  locals : ∀ {held known} {s : Lowerer}, L.Stands held known s → L.Stands held (s.func.locals.known ++ known) s := by
    exact fun h => h
  emit : ∀ {held known} {s : Lowerer} {next : Id} {inst : Inst},
    L.Stands held known s → Word.add s.module.bound 1 = .ok next →
    inst.result = some s.module.bound → inst.Grounded T known →
    L.Stands held (.value s.module.bound :: known)
      { s with module := { s.module with bound := next }, block := s.block.push inst }
  effect : ∀ {held known} {s : Lowerer} {inst : Inst},
    L.Stands held known s → inst.result = none → inst.Grounded T known →
    L.Stands held known { s with block := s.block.push inst } := by
    exact fun h _ _ => h
  queue : ∀ {held known} {s : Lowerer} {id : Id} (pointer : Id), L.Stands (id :: held) known s →
    L.Stands held (.value id :: known) { s with func := s.func.queue (.localVariable pointer id) } := by
    exact fun _ h => h
  take : ∀ {held known} {s : Lowerer} {name : String} {ty : Ty} {e : Entity}
    (pointer : Id), L.Stands (e.id :: held) known s → .type e.type ∈ known →
    T.names name (some .Function) ty → s.module.Finds none none ty e.type →
    e.storage = some .Function → s.module.lookup (some s.func.locals) name = none →
    s.module.pointers.get? (e.type, .Function) = some pointer →
    L.Stands held (.value e.id :: known) { s with func := s.func.take name ⟨e, some (.localVariable pointer e.id)⟩ }
  deep : ∀ {held known} {s : Lowerer}, L.Stands held known s →
    (∀ n ∈ T.height, s.module.config.nestingLimit < s.depth + n) →
    L.Ends (.refused (.tooDeep s.module.config.nestingLimit)) := by
    exact fun _ _ => trivial
  unassignable : T.places → ∀ kind, L.Ends (.refused (.notAssignable kind)) := by
    exact fun _ _ => trivial

/-- Ledgers that stand through the lowering of every expression. -/
abbrev Emitting (L : Ledger Lowerer) : Prop := Tracing .any L

theorem Tracing.mono {N N' : Names} {L : Ledger Lowerer} (hL : Tracing (.naming N) L)
    (hN : ∀ name storage ty, N' name storage ty → N name storage ty) : Tracing (.naming N') L :=
  { hL with
    building := fun s => (hL.building s).mono hN
    emit := fun h hadd hresult hinst => hL.emit h hadd hresult { hinst with }
    effect := fun h hresult hinst => hL.effect h hresult { hinst with }
    take := fun pointer h htype hname => hL.take pointer h htype (hN _ _ _ hname) }

theorem Emitting.restrict {L : Ledger Lowerer} (hL : Emitting L) (N : Names) :
    Tracing (.naming N) L := hL.mono fun _ _ _ _ => trivial

/-! ## Declared variables -/

namespace Module

variable {name : String}

/-- A new local variable with a new name, whose declaration waits for the function. -/
structure NewLocal (m : Module) (locals : Option Scope) (name : String) (ty : Ty) (d : Declared)
    (inst : Inst) : Prop where
  inScope : locals.isSome
  absent : locals.bind (·.get? name) = none
  isVariable : ∃ pointer, inst = .localVariable pointer d.entity.id ∧
    m.pointers.get? (d.entity.type, .Function) = some pointer
  inFunction : d.entity.storage = some .Function
  finds : m.Finds none none ty d.entity.type

variable {storage : StorageClass} {locals : Option Scope} {ty : Ty} {d : Declared} {m' : Module}

theorem newVariable_ok (h : newVariable name storage ty m = (.ok d, m')) :
    ∃ id m₁, m₁.globals = m.globals ∧ placeVariable id name storage ty m₁ = (.ok d, m') := by
  obtain ⟨id, m₁, hid, h⟩ := bind_ok h
  obtain ⟨-, next, -, rfl⟩ := eq_of_freshId hid
  obtain ⟨_, m₂, hdebug, h⟩ := bind_ok h
  cases hdebug
  cases hbuiltin : builtinNumber? name with
  | none =>
    rw [hbuiltin] at h
    refine ⟨id, _, ?_, h⟩
    rfl
  | some number =>
    rw [hbuiltin] at h
    obtain ⟨_, m₃, hdecorate, h⟩ := bind_ok h
    cases hdecorate
    refine ⟨id, _, ?_, h⟩
    rfl

theorem newVariable_globals (h : newVariable name .Function ty m = (.ok d, m')) : m'.globals = m.globals := by
  obtain ⟨id, m₁, hglobals, h⟩ := newVariable_ok h
  obtain ⟨type, m₂, htype, h⟩ := bind_ok h
  obtain ⟨pointer, hpointer, -⟩ := bind_pure_ok h
  rw [globals_of_declaring [] (fun _ hJ => declarePointer_steady hJ .Function nofun) hpointer,
    globals_of_declaring [] (fun _ hJ => declareTypeWith_steady hJ _ _ _ []) htype, hglobals]

theorem newVariable_declares (name : String) (storage : StorageClass) (ty : Ty) :
    (newVariable name storage ty).Ensures fun d m => d.entity.storage = some storage ∧
      (storage = .Function → m.Finds none none ty d.entity.type) ∧
      (storage ≠ .Function → m.globals.get? name = some d.entity) ∧
      ∃ pointer, m.pointers.get? (d.entity.type, storage) = some pointer ∧ d.queued =
        if storage = .Function then some (.localVariable pointer d.entity.id) else none := by
  intro m d m' h
  obtain ⟨id, m₁, -, h⟩ := newVariable_ok h
  obtain ⟨type, m₂, htype, h⟩ := bind_ok h
  obtain ⟨pointer, m₃, hpointer, h⟩ := bind_ok h
  have hpointers := declarePointer_ok hpointer
  by_cases hf : storage = .Function
  · subst hf
    obtain ⟨rfl, rfl⟩ := pure_ok h
    refine ⟨rfl, fun _ => (finds_of_ok htype).mono ?_, fun hne => absurd rfl hne, pointer, hpointers, rfl⟩
    exact .of_declaring [] (fun _ hJ => declarePointer_steady hJ _ nofun) hpointer
  · rw [if_neg hf] at h
    obtain ⟨_, m₄, hdeclare, h⟩ := bind_ok h
    obtain ⟨_, hput, rfl⟩ := bind_pure_ok h
    cases hdeclare
    cases hput
    exact ⟨rfl, fun h => absurd h hf, fun _ => OrderedMap.get?_put_self _ _ _, pointer, hpointers, (if_neg hf).symm⟩

theorem newVariable_queued (h : newVariable name storage ty m = (.ok d, m')) {inst : Inst} (hq : d.queued = some inst)
    (hscope : storage = .Function → locals.isSome) (habsent : storage = .Function → locals.bind (·.get? name) = none) :
    storage = .Function ∧ NewLocal m' locals name ty d inst := by
  obtain ⟨hstorage, hfinds, -, pointer, hpointer, hqueued⟩ := newVariable_declares _ _ _ m d m' h
  rw [hq] at hqueued
  split at hqueued
  case isFalse => cases hqueued
  case isTrue hf =>
    subst hf
    exact ⟨rfl, hscope rfl, habsent rfl, ⟨pointer, Option.some.inj hqueued, hpointer⟩, hstorage, hfinds rfl⟩

theorem declareVariable_cases (h : declareVariable locals name storage ty m = (.ok d, m')) :
    let found := if storage = .Function then locals.bind (·.get? name) else m.globals.get? name
    found = some d.entity ∧ d.queued = none ∨ found = none ∧ (storage = .Function → locals.isSome) ∧
      newVariable name storage ty m = (.ok d, m') := by
  unfold declareVariable at h
  rw [get_bind] at h
  generalize (if storage = .Function then locals.bind (·.get? name) else m.globals.get? name) = found at h ⊢
  cases found with
  | some e =>
    obtain ⟨rfl, -⟩ := pure_ok h
    exact .inl ⟨rfl, rfl⟩
  | none =>
    dsimp only at h
    split at h
    · obtain ⟨_, _, hrefuse, -⟩ := bind_ok h
      exact (refuse_ok hrefuse).elim
    case isFalse hscope => exact .inr ⟨rfl, fun hf => by simpa [hf, Option.isSome_iff_ne_none] using hscope, h⟩

theorem declareVariable_queued (locals : Option Scope) (name : String) (storage : StorageClass)
    (ty : Ty) : (declareVariable locals name storage ty).Ensures fun d m =>
      ∀ inst, d.queued = some inst → storage = .Function ∧ NewLocal m locals name ty d inst := by
  intro m d m' h inst hq
  rcases declareVariable_cases h with ⟨-, hnone⟩ | ⟨habsent, hscope, hnew⟩
  · cases hnone.symm.trans hq
  · exact newVariable_queued hnew hq hscope fun hf => by rwa [if_pos hf] at habsent

theorem lookup_eq_none : m.lookup locals name = none ↔ locals.bind (·.get? name) = none ∧ m.globals.get? name = none :=
  Option.or_eq_none_iff

/-- A variable is found, or declared where its role says. -/
theorem declareByRole_cases {v : Variable} (h : declareByRole locals v m = (.ok d, m')) :
    m.lookup locals v.outermost.name = some d.entity ∧ d.queued = none ∧ m' = m ∨
      let storage := v.outermost.storageClass m.config.version
      m.lookup locals v.outermost.name = none ∧ (storage = .Function → locals.isSome) ∧
        newVariable v.outermost.name storage v.outermost.ty m = (.ok d, m') := by
  unfold declareByRole at h
  rw [get_bind] at h
  cases hfound : m.lookup locals v.outermost.name with
  | some e =>
    simp only [hfound] at h
    obtain ⟨rfl, rfl⟩ := pure_ok h
    exact .inl ⟨rfl, rfl, rfl⟩
  | none =>
    simp only [hfound] at h
    split at h
    · obtain ⟨_, _, hrefuse, -⟩ := bind_ok h
      exact (refuse_ok hrefuse).elim
    · rw [get_bind] at h
      obtain ⟨hlocals, hglobals⟩ := lookup_eq_none.1 hfound
      rcases declareVariable_cases h with ⟨hold, -⟩ | ⟨-, hnew⟩
      · rw [hlocals, hglobals, ite_self] at hold
        cases hold
      · exact .inr ⟨rfl, hnew⟩

theorem declareByRole_queued (locals : Option Scope) (v : Variable) :
    (declareByRole locals v).Ensures fun d m => ∀ inst, d.queued = some inst →
      (∃ version, v.outermost.storageClass version = .Function) ∧ m.lookup locals v.outermost.name = none ∧
        NewLocal m locals v.outermost.name v.outermost.ty d inst := by
  intro m d m' h inst hq
  rcases declareByRole_cases h with ⟨-, hnone, -⟩ | ⟨habsent, hscope, hrun⟩
  · cases hnone.symm.trans hq
  · obtain ⟨hlocals, hglobals⟩ := lookup_eq_none.1 habsent
    obtain ⟨hstorage, hnew⟩ := newVariable_queued hrun hq hscope fun _ => hlocals
    rw [hstorage] at hrun
    exact ⟨⟨_, hstorage⟩, lookup_eq_none.2 ⟨hlocals, newVariable_globals hrun ▸ hglobals⟩, hnew⟩

theorem declareByRole_lookup (locals : Option Scope) (v : Variable) : (declareByRole locals v).Ensures fun d m =>
      d.queued = none → m.lookup locals v.outermost.name = some d.entity := by
  intro m d m' h hq
  rcases declareByRole_cases h with ⟨hfound, -, rfl⟩ | ⟨habsent, -, hnew⟩
  · exact hfound
  · obtain ⟨-, -, hglobal, pointer, -, hqueued⟩ := newVariable_declares _ _ _ m d m' hnew
    rw [hq] at hqueued
    split at hqueued
    case isTrue => cases hqueued
    case isFalse hne => exact Option.or_eq_some_iff.2 (.inr ⟨(lookup_eq_none.1 habsent).1, hglobal hne⟩)

theorem declareTemporary_queued (ty : Ty) :
    (declareTemporary ty).Yields fun p => ∃ pointer, p.2 = .localVariable pointer p.1 :=
  .bind fun _ => .bind fun pointer => .bind fun _ => .pure ⟨pointer, rfl⟩

end Module

namespace Lower

variable {T : Terms} {L : Ledger Lowerer} {need : List Known} {op : Op} {α : Type}
  {operands : List Word} {x : Build α} {type id : Id} {s : Lowerer}

/-! ## Basic steps -/

theorem onModule_keeps {takes : List Id} {gives : α → List Id} {gains : α → List Known}
    (h : ∀ s, Keeps (L.ofModule s) takes need x gives gains) : Keeps L takes need (onModule x) gives gains := by
  intro s held known hneed hs
  have hx := h s s.module held known hneed hs
  unfold onModule
  rcases hrun : x s.module with ⟨_ | a, m⟩ <;> rw [hrun] at hx <;> exact hx

theorem onModule_of_ok {a : α} (h : x s.module = (.ok a, m)) : onModule x s = (.ok a, { s with module := m }) := by
  unfold onModule
  rw [h]

theorem onModule_error {e : Fault} (h : x s.module = (.error e, m)) :
    onModule x s = (.error e, { s with module := m }) := by
  unfold onModule
  rw [h]

theorem onModule_ok {t : Lowerer} {a : α} (h : onModule x s = (.ok a, t)) :
    x s.module = (.ok a, t.module) ∧ t = { s with module := t.module } := by
  unfold onModule at h
  rcases hrun : x s.module with ⟨r, m⟩
  rw [hrun] at h
  cases h
  exact ⟨rfl, rfl⟩

section

variable (hL : Tracing T L)

include hL

theorem emitEffect_steady (hop : op.isPlainEffect) (hvalues : ∀ v ∈ op.values operands, .value v ∈ need) :
    Upholds L need (emitEffect op operands) :=
  fun _ _ _ hneed hs => hL.effect hs rfl (.of_isPlainEffect hop fun v hv => hneed (hvalues v hv))

theorem freshId_keeps : Keeps L [] need (onModule Module.freshId) (fun id => [id]) (fun _ => []) :=
  onModule_keeps fun s => Module.freshId_keeps (hL.building s).toDeclaring

theorem declareType_steady (ty : Ty) [ty.Allowed T.doubles] : SuppliesType L need (onModule (declareType ty)) :=
  onModule_keeps fun s => Module.declareType_steady (hL.building s).toDeclaring ty

theorem declarePointer_steady (pointee : Id) (storage : StorageClass) :
    SuppliesType L need (onModule (declarePointer pointee storage)) :=
  onModule_keeps fun s => Module.declarePointer_steady (hL.building s).toDeclaring storage nofun

theorem declareLiteral_steady (l : Literal) [(Ty.scalar l.scalar).Allowed T.doubles] :
    Supplies L need (onModule (declareLiteral l)) :=
  onModule_keeps fun s => Module.declareLiteral_steady (hL.building s).toDeclaring l

theorem emitGrounded_steady (h : ∀ id, (Inst.value op type id operands).Grounded T need) :
    Supplies L need (emitAs op type operands) := by
  intro s held known hneed hs
  unfold emitAs
  cases hadd : Word.add s.module.bound 1 with
  | error o =>
    rw [bind_apply_error (onModule_error (freshId_error hadd))]
    exact ⟨L.ends rfl, hs⟩
  | ok next =>
    rw [bind_apply_ok (onModule_of_ok (freshId_ok hadd))]
    exact hL.emit hs hadd rfl ((h _).mono hneed)

theorem emitIntermediate_steady (h : ∀ id, (Inst.value op type id operands).Grounded T need) : Supplies L need (do
      let id ← onModule takeIntermediate
      push (.value op type id operands)
      return id) := by
  intro s held known hneed hs
  cases hadd : Word.add s.module.bound 1 with
  | error o =>
    have htake : takeIntermediate s.module = (.error (.overflow o), s.module) := by
      unfold takeIntermediate
      rw [bind_apply_error (freshId_error hadd)]
    rw [bind_apply_error (onModule_error htake)]
    exact ⟨L.ends rfl, hs⟩
  | ok next =>
    have htake : takeIntermediate s.module = (.ok s.module.bound, { s.module with
        bound := next
        intermediates := addNew s.module.intermediates s.module.bound
        busyIntermediates := addNew s.module.busyIntermediates s.module.bound }) := by
      unfold takeIntermediate
      rw [bind_apply_ok (freshId_ok hadd)]
      rfl
    rw [bind_apply_ok (onModule_of_ok htake)]
    let inst := Inst.value op type s.module.bound operands
    have hemit := hL.emit hs hadd (rfl : inst.result = _) ((h _).mono hneed)
    exact (hL.building { s with block := s.block.push inst }).alike hemit rfl

theorem accessChain_steady {β : Type} (htype : .type type ∈ need) {indices : List Id}
    (hindices : ∀ v ∈ indices, .value v ∈ need) {k : Id → Lower β} {gains : β → List Known}
    (hk : ∀ id, Steady L ([.value id] ++ need) (k id) gains) : Steady L need (do
      let id ← onModule takeIntermediate
      push (.value .AccessChain type id indices)
      k id) gains := by
  have h : ∀ id, (Inst.value .AccessChain type id indices).Grounded T need := fun id =>
    .of_isPlain rfl htype fun v hv => hindices v (Op.values_subset _ hv)
  have hchain : Supplies L need (do
      let id ← onModule takeIntermediate
      push (.value .AccessChain type id indices)
      return id) := emitIntermediate_steady hL h
  have hbind := Steady.bind hchain hk
  simp only [bind_assoc, pure_bind] at hbind
  exact hbind

theorem emitAs_steady (hop : op.isPlain) (htype : .type type ∈ need)
    (hvalues : ∀ v ∈ op.values operands, .value v ∈ need) : Supplies L need (emitAs op type operands) :=
  emitGrounded_steady hL fun _ => .of_isPlain hop htype hvalues

theorem emitTaking_steady (hop : op.isPlain) (ty : Ty) [ty.Allowed T.doubles]
    (hvalues : ∀ v ∈ op.values operands, .value v ∈ need) : Supplies L need (emit op ty operands) :=
  (declareType_steady hL ty).bind fun _ => emitAs_steady hL hop (by simp) fun v hv => mem_append_right _ (hvalues v hv)

theorem emit_steady (hop : op.isPlain) (ty : Ty) [ty.Allowed T.doubles] {operands : List Id}
    (hknown : ∀ v ∈ operands, .value v ∈ need) : Supplies L need (emit op ty operands) :=
  emitTaking_steady hL hop ty fun v hv => hknown v (Op.values_subset _ hv)

theorem emitExtract_steady (ty : Ty) [ty.Allowed T.doubles] (hid : .value id ∈ need) (lane : Word) :
    Supplies L need (emit .CompositeExtract ty [id, lane]) :=
  emitTaking_steady hL rfl ty fun _ hv => Op.mem_values_extract hv ▸ hid

theorem emitShuffle_steady (ty : Ty) [ty.Allowed T.doubles] {a b : Id} (ha : .value a ∈ need) (hb : .value b ∈ need)
    (lanes : List Word) : Supplies L need (emit .VectorShuffle ty ([a, b] ++ lanes)) := by
  refine emitTaking_steady hL rfl ty fun v hv => ?_
  have hv := Op.mem_values_shuffle hv
  simp only [mem_cons, not_mem_nil, or_false] at hv
  rcases hv with rfl | rfl
  · exact ha
  · exact hb

theorem emitOrDeclare_steady (fold : Bool) (hop : op.isPlain) (ty : Ty) [ty.Allowed T.doubles] {operands : List Id}
    (hknown : ∀ v ∈ operands, .value v ∈ need) : Supplies L need (emitOrDeclare fold op ty operands) := by
  unfold emitOrDeclare
  split
  · refine (declareType_steady hL ty).bind fun type => ?_
    exact onModule_keeps fun s => declareFolded_steady (hL.building s) type op operands
  · exact emit_steady hL hop ty hknown

theorem load_steady {e : Entity} (he : e.known ⊆ need) : Supplies L need (load e) := by
  have hid : .value e.id ∈ need := he (by simp [Entity.known])
  unfold load
  split
  · exact Steady.known hid
  · refine emitAs_steady hL rfl (he (by simp [Entity.known])) fun v hv => ?_
    cases mem_singleton.1 (Op.values_subset _ hv)
    exact hid

theorem store_steady {pointer value : Id} (hpointer : .value pointer ∈ need)
    (hvalue : .value value ∈ need) : Upholds L need (store pointer value) := by
  refine emitEffect_steady hL rfl fun v hv => ?_
  have hv := Op.values_subset _ hv
  simp only [mem_cons, not_mem_nil, or_false] at hv
  rcases hv with rfl | rfl
  · exact hpointer
  · exact hvalue

theorem value_steady (ty : Ty) [ty.Allowed T.doubles] (hid : .value id ∈ need) :
    Steady L need (value ty id) Entity.known :=
  (declareType_steady hL ty).bind fun _ => Steady.pure _ (by simp [Entity.known, hid])

theorem bind_value_steady (ty : Ty) [ty.Allowed T.doubles] {x : Lower Id} (hx : Supplies L need x) :
    Steady L need (x >>= fun id => value ty id) Entity.known :=
  Steady.bind hx fun _ => value_steady hL ty (by simp)

theorem composite_steady (ty : Ty) [ty.Allowed T.doubles] {constituents : List Id}
    (h : ∀ v ∈ constituents, .value v ∈ need) (constant : Bool) :
    Supplies L need (composite ty constituents constant) := by
  unfold composite
  split
  · refine onModule_keeps fun s => declareComposite_steady (hL.building s) (fun k hk => ?_) ty
    obtain ⟨v, hv, rfl⟩ := mem_map.1 hk
    exact h v hv
  · exact emit_steady hL rfl _ h

theorem splat_steady (s : Scalar) [(Ty.scalar s).Allowed T.doubles] (hid : .value id ∈ need)
    (n : Word) (constant : Bool) : Supplies L need (splat s id n constant) :=
  composite_steady hL _ (fun _ hv => eq_of_mem_replicate hv ▸ hid) constant

end

/-- What is known of a value, if there is one. -/
def gained (passes : Bool) (known : List Known) : List Known := if passes then known else []

theorem gained_subset (passes : Bool) (known : List Known) : gained passes known ⊆ known := by
  unfold gained
  split
  · exact fun _ hk => hk
  · exact nil_subset _

theorem gained_steady {x : Lower α} {gains : α → List Known} (passes : Bool)
    (hx : Steady L need x gains) : Steady L need x (fun a => gained passes (gains a)) :=
  hx.weaken (fun _ => Subperm.refl _) (fun a => subset_append_of_subset_left _ (gained_subset passes (gains a)))

section

variable (hL : Tracing T L)

include hL

theorem noResult_steady {passes : Bool} (h : passes → T.lenient) :
    Steady L need (pure noResult : Lower Id) (fun id => gained passes [.value id]) := by
  intro s held known _ hs
  cases passes with
  | false => exact hs
  | true => exact hL.noResult (h rfl) hs

theorem bind_gained_steady (ty : Ty) [ty.Allowed T.doubles] {x : Lower Id} {passes : Bool}
    (hx : Steady L need x (fun id => gained passes [.value id])) :
    Steady L need (x >>= fun id => value ty id) (fun e => gained passes e.known) := by
  cases passes with
  | false => exact Steady.bind hx fun _ => (declareType_steady hL ty).bind fun _ => Steady.done _
  | true => exact bind_value_steady hL ty hx

/-! ## Variables -/

/-- A step can make use of the local variables that are known when it starts. -/
theorem keepsAt_of_locals {x : Lower α} {gives : α → List Id} {gains : α → List Known}
    (h : KeepsAt L [] (s.func.locals.known ++ need) x gives gains s) : KeepsAt L [] need x gives gains s := by
  intro held known hneed hs
  have hx := h held _ (append_subset.2 ⟨subset_append_left _ known, fun _ hk => mem_append_right _ (hneed hk)⟩)
    (hL.locals hs)
  rcases hrun : x s with ⟨_ | a, t⟩ <;> rw [hrun] at hx
  · exact ⟨hx.1, L.drop hx.2 (Subperm.refl _) (subset_append_right _ _)⟩
  · exact L.drop hx (Subperm.refl _) (by grind)

/-- A variable that is named is resolved to a known entity. -/
theorem resolve_steady {v : Variable} [v.outermost.ty.Allowed T.doubles] (hv : v.NamedIn T.names) :
    Steady L need (resolve v) Entity.known := by
  refine Keeps.get_bind fun s => ?_
  intro held known _ hs
  have hdecl : Keeps L [] s.func.locals.known
      (onModule (declareByRole (some s.func.locals) v)) Declared.held Declared.known :=
    onModule_keeps fun t => declareByRole_keeps (hL.building t) (fun _ _ h => Scope.known_subset (by exact h)) hv
  have hs' := hL.locals hs
  rcases hrun : onModule (declareByRole (some s.func.locals) v) s with ⟨e | d, t⟩
  · rw [bind_apply_error hrun]
    obtain ⟨hends, hstands⟩ := hdecl.of_error hrun (subset_append_left _ _) hs'
    exact ⟨hends, L.drop hstands (Subperm.refl _) (subset_append_right _ _)⟩
  · rw [bind_apply_ok hrun]
    have ht := hdecl.of_ok hrun (subset_append_left _ _) hs'
    obtain ⟨hmod, hframe⟩ := onModule_ok hrun
    refine L.drop (?_ : L.Stands held (d.entity.known ++ (s.func.locals.known ++ known)) _) (Subperm.refl _) ?_
    · cases hq : d.queued with
      | none =>
        simp only [Declared.held, Declared.known, hq] at ht
        simp only [FunctionScope.take, hq]
        exact ht
      | some inst =>
        obtain ⟨⟨version, hversion⟩, habsent, -, -, ⟨pointer, rfl, hpointer⟩, hstorage, hfinds⟩ :=
          declareByRole_queued _ v _ _ _ hmod inst hq
        have hd : d = ⟨d.entity, some (.localVariable pointer d.entity.id)⟩ := by rw [← hq]
        simp only [Declared.held, Declared.known, hq] at ht
        rw [hd]
        refine hL.take pointer ht mem_cons_self (hversion ▸ hv version) hfinds hstorage ?_ hpointer
        rw [hframe]
        exact habsent
    · refine append_subset.2 ⟨subset_append_left _ _, ?_⟩
      exact fun _ hk => mem_append_right _ (mem_append_right _ hk)

theorem temp_steady (ty : Ty) [ty.Allowed T.doubles] : Supplies L need (temp ty) := by
  unfold temp
  have hdecl : Keeps L [] need (onModule (declareTemporary ty)) (fun p => [p.1]) (fun _ => []) :=
    onModule_keeps fun s => declareTemporary_keeps (hL.building s).toDeclaring ty
  intro s held known hneed hs
  rcases hrun : onModule (declareTemporary ty) s with ⟨e | ⟨id, inst⟩, t⟩
  · rw [bind_apply_error hrun]
    exact hdecl.of_error hrun hneed hs
  · rw [bind_apply_ok hrun]
    obtain ⟨pointer, hinst⟩ := declareTemporary_queued ty _ _ _ (onModule_ok hrun).1
    obtain rfl : inst = .localVariable pointer id := hinst
    exact hL.queue pointer (hdecl.of_ok hrun hneed hs)

theorem spill_steady (ty : Ty) [ty.Allowed T.doubles] {value : Id} (hvalue : .value value ∈ need) :
    Supplies L need (spill ty value) := by
  refine (temp_steady hL ty).bind fun id => ?_
  exact (store_steady hL (by simp) (by simp [hvalue])).bind fun _ => Steady.pure _ (by simp)

end

end Lower

end Shader
