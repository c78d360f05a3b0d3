import Shader.Proofs.Requirements
import Shader.Proofs.Sourced

/-!
# Interfaces of shaders

An entry point names the inputs and outputs that a scan of its expressions finds, and lowering the
expressions declares each at its first use. The two agree but for members of outputs, which the scan
leaves out on purpose, and for inputs that it misses: those that are built in but not marked as inputs,
and those that have the name of another input.
-/

namespace Shader

open Action List

variable {v : Variable} {es : List Expr} {m' : Module} {e : Expr} {op : Operation}

namespace Expr

theorem mem_mentionsOfAll : ∀ {es : List Expr}, v ∈ mentionsOfAll es ↔ ∃ e ∈ es, v ∈ e.mentions
  | [] => by simp [mentionsOfAll]
  | e :: es => by simp [mentionsOfAll, mem_mentionsOfAll]

theorem mem_mentions (e : Expr) : v ∈ e.mentions ↔ ∃ part ∈ e.postOrder, part.node.variable? = some v := by
  refine exists_part_iff (p := fun e => v ∈ e.mentions) (fun e => ?_) e
  obtain ⟨ty, node⟩ := e
  cases node <;> simp [mentions, Node.variable?, Node.operands, mem_mentionsOfAll, eq_comm]

theorem Uses.mem_mentions (h : e.Uses v) : v ∈ e.mentions := by
  obtain ⟨part, hpart, hv⟩ := h
  exact (Expr.mem_mentions e).2 ⟨part, hpart.mem_postOrder, hv⟩

end Expr

/-! ## Variables that scans find -/

namespace Variable

def byName (m : OrderedMap String Variable) (vs : List Variable) : OrderedMap String Variable :=
  vs.foldl (fun m v => m.putNew v.name v) m

theorem mem_values_byName (v : Variable) : ∀ (vs : List Variable) (m : OrderedMap String Variable),
    v ∈ (byName m vs).values ↔ v ∈ m.values ∨ m.get? v.name = none ∧ vs.find? (·.name = v.name) = some v
  | [], m => by simp [byName]
  | u :: vs, m => by
    have ih := mem_values_byName v vs (m.putNew u.name u)
    rw [byName] at ih ⊢
    rw [foldl_cons, ih, OrderedMap.mem_values_putNew, OrderedMap.get?_putNew, find?_cons]
    by_cases hname : u.name = v.name
    · simp [hname, eq_comm]
    · have hne : v ≠ u := fun h => hname (congrArg name h).symm
      simp [hname, hne]

theorem mem_values_byName_empty {vs : List Variable} :
    v ∈ (byName ∅ vs).values ↔ vs.find? (·.name = v.name) = some v := by
  rw [mem_values_byName]
  refine ⟨fun h => ?_, fun h => .inr ⟨rfl, h⟩⟩
  rcases h with h | h
  · cases h
  · exact h.2

end Variable

namespace Requirements

/-- The requirements of expressions that are scanned one after the other. -/
def ofAll (es : List Expr) : Requirements := es.foldl scan {}

/-- Outputs, other than members of blocks. -/
def isOutput (v : Variable) : Bool := !v.roles.input && v.roles.output && !v.isMember

theorem name_of_isOutput (h : isOutput v) : v.outermost.name = v.name := by
  cases v with
  | root => rfl
  | member => simp [isOutput, Variable.isMember, Variable.outer?] at h

theorem foldl_addVariable : ∀ (vs : List Variable) (r : Requirements),
    (vs.foldl addVariable r).inputs = Variable.byName r.inputs (vs.filter (·.roles.input)) ∧
      (vs.foldl addVariable r).outputs = Variable.byName r.outputs (vs.filter isOutput)
  | [], r => ⟨rfl, rfl⟩
  | v :: vs, r => by
    obtain ⟨hinputs, houtputs⟩ := foldl_addVariable vs (r.addVariable v)
    rw [foldl_cons, hinputs, houtputs]
    unfold addVariable
    cases hinput : v.roles.input with
    | true => simp [hinput, isOutput, Variable.byName]
    | false =>
      cases houtput : v.roles.output && !v.isMember with
      | true => simp_all [isOutput, Variable.byName]
      | false => simp_all [isOutput, Variable.byName]

theorem foldl_scan : ∀ (es : List Expr) (r : Requirements), (es.foldl scan r).inputs =
        Variable.byName r.inputs ((es.flatMap Expr.mentions).filter (·.roles.input)) ∧
      (es.foldl scan r).outputs = Variable.byName r.outputs ((es.flatMap Expr.mentions).filter isOutput)
  | [], r => ⟨rfl, rfl⟩
  | e :: es, r => by
    obtain ⟨hinputs, houtputs⟩ := foldl_scan es (r.scan e)
    rw [foldl_cons, hinputs, houtputs, scan]
    obtain ⟨hinputs', houtputs'⟩ := foldl_addVariable e.mentions
      { r with capabilities := e.capabilities.foldl addNew r.capabilities }
    rw [hinputs', houtputs']
    simp [Variable.byName]

theorem mem_inputs_ofAll : v ∈ (ofAll es).inputs.values ↔
    (es.flatMap Expr.mentions).find? (fun u => u.roles.input && u.name = v.name) = some v := by
  rw [ofAll, (foldl_scan es {}).1, Variable.mem_values_byName_empty, find?_filter]
  simp only [Bool.decide_and, Bool.decide_eq_true]

theorem mem_outputs_ofAll : v ∈ (ofAll es).outputs.values ↔
    (es.flatMap Expr.mentions).find? (fun u => isOutput u && u.name = v.name) = some v := by
  rw [ofAll, (foldl_scan es {}).2, Variable.mem_values_byName_empty, find?_filter]
  simp only [Bool.decide_and, Bool.decide_eq_true]

end Requirements

/-- Of the used variables, this is the first input of its name, or an output that is no member. -/
def Variable.IsListed (vs : List Variable) (v : Variable) : Prop :=
  vs.find? (fun u => u.roles.input && u.name = v.name) = some v ∨ v ∈ vs ∧ Requirements.isOutput v

instance (vs : List Variable) : DecidablePred (Variable.IsListed vs) := fun v =>
  inferInstanceAs (Decidable (vs.find? (fun u => u.roles.input && u.name = v.name) = some v ∨
      v ∈ vs ∧ Requirements.isOutput v))

theorem Variable.IsListed.mem {vs : List Variable} (h : v.IsListed vs) : v ∈ vs := by
  rcases h with h | h
  · exact mem_of_find?_eq_some h
  · exact h.1

theorem Requirements.exists_mem_iff {p : String → Prop} :
    (∃ v ∈ (ofAll es).inputs.values ++ (ofAll es).outputs.values, p v.outermost.name) ↔
      ∃ v : Variable, v.IsListed (es.flatMap Expr.mentions) ∧ p v.outermost.name := by
  constructor
  · rintro ⟨v, hv, hp⟩
    rcases mem_append.1 hv with hv | hv
    · exact ⟨v, .inl (mem_inputs_ofAll.1 hv), hp⟩
    · have hfind := mem_outputs_ofAll.1 hv
      have houtput := find?_some hfind
      rw [Bool.and_eq_true] at houtput
      exact ⟨v, .inr ⟨mem_of_find?_eq_some hfind, houtput.1⟩, hp⟩
  · rintro ⟨v, hlisted, hp⟩
    rcases hlisted with hinput | ⟨hmem, houtput⟩
    · exact ⟨v, mem_append_left _ (mem_inputs_ofAll.2 hinput), hp⟩
    · have hsome : ((es.flatMap Expr.mentions).find? fun u => isOutput u && u.name = v.name).isSome :=
        find?_isSome.2 ⟨v, hmem, by simp [houtput]⟩
      obtain ⟨u, hu⟩ := Option.isSome_iff_exists.1 hsome
      have hfound := find?_some hu
      simp only [Bool.and_eq_true, decide_eq_true_eq] at hfound
      have hname : u.outermost.name = v.outermost.name := by
        rw [name_of_isOutput hfound.1, name_of_isOutput houtput, hfound.2]
      refine ⟨u, mem_append_right _ (mem_outputs_ofAll.2 ?_), hname ▸ hp⟩
      rw [hfound.2]
      exact hu

/-! ## Variables outside of functions -/

namespace Module

variable {m : Module}

/-- The variable is known under this identifier. -/
def Identifies (m : Module) (v : Variable) (id : Id) : Prop := ∃ e, m.globals.get? v.outermost.name = some e ∧ e.id = id

theorem declareByRole_grown {d : Declared} (h : declareByRole none v m = (.ok d, m')) : m.Grown m' :=
  .of_keeps [] (fun _ hJ => declareByRole_keeps hJ (by simp) fun _ => trivial) h

theorem declareByRole_global {d : Declared} (h : declareByRole none v m = (.ok d, m')) :
    m'.globals.get? v.outermost.name = some d.entity := by
  have hqueued : d.queued = none := by
    cases hq : d.queued with
    | none => rfl
    | some inst =>
      have hscope := (declareByRole_queued none v m d m' h inst hq).2.2.inScope
      cases hscope
  exact declareByRole_lookup none v m d m' h hqueued

theorem declareGlobals_ok : ∀ {vs : List Variable} {ids ids' : List Id} {m m' : Module},
    declareGlobals ids vs m = (.ok ids', m') → m.Grown m' ∧ ∀ {later : Module}, m'.Retains later →
      ∀ id, id ∈ ids' ↔ id ∈ ids ∨ ∃ v ∈ vs, later.Identifies v id
  | [], ids, ids', m, m', h => by
    obtain ⟨rfl, rfl⟩ := pure_ok h
    exact ⟨.refl m, by simp⟩
  | v :: vs, ids, ids', m, m', h => by
    obtain ⟨d, m₁, hdeclare, hrest⟩ := bind_ok h
    obtain ⟨hgrown, hids⟩ := declareGlobals_ok hrest
    refine ⟨(declareByRole_grown hdeclare).trans hgrown, fun {later} hlater id => ?_⟩
    have hv := hlater.globals _ _ (hgrown.globals _ _ (declareByRole_global hdeclare))
    have hfirst : later.Identifies v id ↔ id = d.entity.id := by
      constructor
      · rintro ⟨e, he, rfl⟩
        rw [hv] at he
        rw [Option.some.inj he]
      · rintro rfl
        exact ⟨d.entity, hv, rfl⟩
    have hmem : id ∈ [d.entity.id].foldl addNew ids ↔ id ∈ ids ∨ id ∈ [d.entity.id] := mem_foldl_addNew
    rw [foldl_cons, foldl_nil, mem_singleton] at hmem
    rw [hids hlater, hmem, exists_mem_cons_iff, hfirst, or_assoc]

theorem declareInterface_ok {r : Requirements} {inputs outputs : List Id}
    (h : declareInterface r m = (.ok (inputs, outputs), m')) (id : Id) :
    id ∈ inputs ++ outputs ↔ ∃ v ∈ r.inputs.values ++ r.outputs.values, m'.Identifies v id := by
  obtain ⟨ids, m₁, hinputs, h⟩ := bind_ok h
  obtain ⟨ids', houtputs, hpair⟩ := bind_pure_ok h
  cases hpair
  obtain ⟨-, hmem⟩ := declareGlobals_ok hinputs
  obtain ⟨hgrown, hmem'⟩ := declareGlobals_ok houtputs
  rw [mem_append, hmem hgrown.toRetains, hmem' (.refl _)]
  simp only [not_mem_nil, false_or, mem_append, or_and_right, exists_or]

theorem declareGlobals_found : ∀ {vs : List Variable},
    (∀ v ∈ vs, ∃ e, m.globals.get? v.outermost.name = some e) → ∀ ids, ∃ ids', declareGlobals ids vs m = (.ok ids', m)
  | [], _, ids => ⟨ids, rfl⟩
  | v :: vs, h, ids => by
    obtain ⟨⟨e, he⟩, hvs⟩ := forall_mem_cons.1 h
    have hv : declareByRole none v m = (.ok { entity := e }, m) := by
      unfold declareByRole
      rw [get_bind]
      have hlookup : m.lookup none v.outermost.name = some e := he
      simp only [hlookup]
      rfl
    obtain ⟨ids', hrest⟩ := declareGlobals_found hvs (addNew ids e.id)
    refine ⟨ids', ?_⟩
    rw [declareGlobals, bind_apply_ok hv]
    exact hrest

theorem declareInterface_found {r : Requirements}
    (h : ∀ v ∈ r.inputs.values ++ r.outputs.values, ∃ e, m.globals.get? v.outermost.name = some e) :
    ∃ inputs outputs, declareInterface r m = (.ok (inputs, outputs), m) := by
  obtain ⟨hinputs, houtputs⟩ := forall_mem_append.1 h
  obtain ⟨inputs, hinputs⟩ := declareGlobals_found hinputs []
  obtain ⟨outputs, houtputs⟩ := declareGlobals_found houtputs []
  refine ⟨inputs, outputs, ?_⟩
  rw [declareInterface, bind_apply_ok hinputs, bind_apply_ok houtputs]
  rfl

end Module

/-! ## Expressions that were lowered -/

theorem Rack.mem_put {α : Type} {r : Rack α} {a : α} (h : r.get? = some a) (b : α) : b ∈ (r.put b).things := by
  obtain ⟨before, after, -, hput, -⟩ := exists_others h
  simp [hput]

/-- The expression that an operation lowers. -/
def Operation.lowered? : Operation → Option Expr
  | .lower e | .lowerPointer e => some e
  | _ => none

theorem Work.lowering_ok {α β : Type} {x : Lower α} {g : α → β} {w : Workbench}
    (h : ((lowering x >>= fun a => (pure (g a) : Work β)) w).1.isOk) :
    ∃ f b a s, w.functions.get? = some f ∧ w.blocks.get? = some b ∧ x ⟨w.module, f, b, 0⟩ = (.ok a, s) := by
  rw [bind_apply] at h
  rcases lowering_cases x w with ⟨f, b, r, s, hf, hb, hx, hw⟩ | ⟨-, e, hw⟩ <;> rw [hw] at h
  · cases r with
    | error e => cases h
    | ok a => exact ⟨f, b, a, s, hf, hb, hx⟩
  · cases h

namespace Workbench

/-- Everything that is to be lowered can be. -/
def lowersAll (w : Workbench) : List Operation → Bool
  | [] => true
  | op :: ops => (op.lowered?.isNone || (w.perform op).1.isOk) && (w.perform op).2.lowersAll ops

theorem perform_lowered (he : op.lowered? = some e) {w : Workbench} (hok : (w.perform op).1.isOk) :
    ∃ f ∈ (w.perform op).2.functions.things, ∀ v ∈ e.mentions,
      ∃ entity, (w.perform op).2.module.lookup (some f.locals) v.outermost.name = some entity := by
  have hrun : ∃ x : Lower Id, x.Realizes e.events ∧
      w.perform op = (Work.lowering x >>= fun id => pure (.id id) : Work Answer) w := by
    cases op with
    | lower e' =>
      cases he
      exact ⟨_, lower_realizes e, rfl⟩
    | lowerPointer e' =>
      cases he
      exact ⟨_, lowerPointer_realizes e, rfl⟩
    | _ => cases he
  obtain ⟨x, hx, hperform⟩ := hrun
  rw [hperform] at hok ⊢
  obtain ⟨f, b, id, s, hf, hb, hlowered⟩ := Work.lowering_ok hok
  rw [Work.bind_pure_snd, Work.lowering_apply hf hb hlowered]
  refine ⟨s.func, Rack.mem_put hf s.func, fun v hv => ?_⟩
  obtain ⟨part, hpart, hvariable⟩ := (Expr.mem_mentions e).1 hv
  exact (hx hlowered).names part (mem_filter.2 ⟨hpart, by simp [Expr.isEvent, hvariable]⟩) v hvariable

/-- Of the expressions that were lowered, the variables that no function hides are globals. -/
theorem run_known {N : Names} {P : String → Prop} (hP : ∀ name ty, N name (some .Function) ty → ¬P name) :
    ∀ {ops : List Operation} {w : Workbench}, (∀ op ∈ ops, op.Keeps N P) → w.Sourced N P →
      w.lowersAll ops → ∀ op ∈ ops, ∀ e, op.lowered? = some e → ∀ v ∈ e.mentions,
        P v.outermost.name → ∃ entity, (w.run ops).module.globals.get? v.outermost.name = some entity
  | [], _, _, _, _, op, hop => absurd hop not_mem_nil
  | first :: ops, w, hops, hw, hall, op, hop => by
    intro e he v hv hname
    obtain ⟨hfirst, hrest⟩ := forall_mem_cons.1 hops
    obtain ⟨hok, hall⟩ := Bool.and_eq_true_iff.1 hall
    have hnext : (w.perform first).2.Sourced N P := (perform_change hfirst.builds).sourced hP hfirst hw
    rcases mem_cons.1 hop with rfl | hop
    · rw [he] at hok
      obtain ⟨f, hf, hknown⟩ := perform_lowered he (by simpa using hok)
      obtain ⟨entity, hentity⟩ := hknown v hv
      rcases Option.or_eq_some_iff.1 hentity with hlocal | ⟨-, hglobal⟩
      · rw [Option.bind_some, hnext.scopes f hf _ hname] at hlocal
        cases hlocal
      · exact ⟨entity, (run_retains _ ops fun op hop => (hrest op hop).builds).globals _ _ hglobal⟩
    · exact run_known hP hrest hnext hall op hop e he v hv hname

end Workbench

/-! ## Interfaces -/

theorem Variable.storageClass_of_version {version : Version} {storage : StorageClass}
    (h : v.storageClass version = storage) (hbuffer : storage ≠ .StorageBuffer ∧ storage ≠ .Uniform)
    (version' : Version) : v.storageClass version' = storage := by
  subst h
  have hclass : ∀ version : Version, version.bufferClass = .StorageBuffer ∨ version.bufferClass = .Uniform := by
    intro version
    unfold Version.bufferClass
    split <;> simp
  unfold storageClass at hbuffer ⊢
  grind

/-- Declared inputs and outputs are those of used variables, and listed exactly if one of these is to be. -/
def Module.Lists (m : Module) (vs : List Variable) (ids : List Id) : Prop :=
  ∀ inst ∈ m.declarations, ∀ storage, storage = .Input ∨ storage = .Output → inst.op = .Variable →
    inst.operands = [Enumerated.number storage] → ∃ id, inst.result = some id ∧
      (∃ v ∈ vs, m.Identifies v id ∧ ∀ version, v.outermost.storageClass version = storage) ∧
      (id ∈ ids ↔ ∃ v : Variable, v.IsListed vs ∧ m.Identifies v id)

namespace Operation

variable {ops : List Operation}

/-- Operations that may declare globals without an expression. -/
def declares : Operation → Bool
  | .declare .. | .resolve .. | .interface => true
  | _ => false

/-- The operation gives the name to a parameter or to a local variable. -/
def hides (version : Version) (name : String) : Operation → Bool
  | .openFunction _ _ params => params.any (·.name = name)
  | .lower e | .lowerPointer e =>
    e.mentions.any fun v => v.outermost.name = name && v.outermost.storageClass version = .Function
  | _ => false

/-- The variables in all expressions that are lowered. -/
def mentions (ops : List Operation) : List Variable := (ops.filterMap lowered?).flatMap Expr.mentions

/-- Names that some of the variables may declare. -/
def namesOf (vs : List Variable) : Names := fun name storage ty => storage = none ∨ ∃ v ∈ vs, v.names name storage ty

theorem mem_mentions (hop : op ∈ ops) (he : op.lowered? = some e) (hv : v ∈ e.mentions) : v ∈ mentions ops :=
  mem_flatMap.2 ⟨e, mem_filterMap.2 ⟨op, hop, he⟩, hv⟩

theorem keeps_namesOf {P : String → Prop} (hop : op ∈ ops) (hbuilds : op.builds) (hdeclares : op.declares = false)
    (hparams : ∀ name ret params, op = .openFunction name ret params → ∀ p ∈ params, ¬P p.name) :
    op.Keeps (namesOf (mentions ops)) P where
  builds := hbuilds
  params := hparams
  names w name storage ty hname := by
    cases op with
    | specConstant => exact .inl hname.2.1
    | lower e | lowerPointer e =>
      obtain ⟨v, huses, hv⟩ := hname
      exact .inr ⟨v, mem_mentions hop rfl huses.mem_mentions, hv⟩
    | declare | resolve | interface => cases hdeclares
    | _ => cases hname

theorem exists_hides {name : String} {ty : Ty} {version : Version}
    (h : namesOf (mentions ops) name (some .Function) ty) : ∃ op ∈ ops, op.hides version name := by
  rcases h with h | ⟨v, hv, hname, ⟨version', hstorage⟩, -⟩
  · cases h
  · obtain ⟨e, he, hv⟩ := mem_flatMap.1 hv
    obtain ⟨op, hop, he⟩ := mem_filterMap.1 he
    have hlocal : v.outermost.storageClass version = .Function :=
      Variable.storageClass_of_version (Option.some.inj hstorage).symm (by decide) version
    have hides : e.mentions.any fun v => v.outermost.name = name && v.outermost.storageClass version = .Function :=
      any_eq_true.2 ⟨v, hv, by simp [hname, hlocal]⟩
    refine ⟨op, hop, ?_⟩
    cases op with
    | lower e' | lowerPointer e' =>
      cases he
      exact hides
    | _ => cases he

end Operation

theorem Module.Sourced.lists {m : Module} {inputs outputs : List Id}
    (hm : m.Sourced (Operation.namesOf (es.flatMap Expr.mentions)))
    (h : declareInterface (.ofAll es) m = (.ok (inputs, outputs), m')) :
    m'.Lists (es.flatMap Expr.mentions) (inputs ++ outputs) := by
  have hnamed : ∀ v ∈ (Requirements.ofAll es).inputs.values ++ (Requirements.ofAll es).outputs.values,
      v.NamedIn (Operation.namesOf (es.flatMap Expr.mentions)) := by
    intro v hv version
    refine .inr ⟨v, ?_, v.namedIn_names version⟩
    rcases mem_append.1 hv with hv | hv
    · exact mem_of_find?_eq_some (Requirements.mem_inputs_ofAll.1 hv)
    · exact mem_of_find?_eq_some (Requirements.mem_outputs_ofAll.1 hv)
  have hkeeps : Steady (.keeping _) [] _ _ := declareInterface_steady (cataloguing_sourced _).building hnamed
  have hm' := hkeeps.keeping hm (congrArg Prod.snd h)
  intro inst hinst storage hstorage hop hoperands
  obtain ⟨name, storage', ty, pointer, id, type, rfl, hname, hglobal⟩ := hm' inst hinst hop
  obtain rfl : storage' = storage :=
    Enumerated.number_injective StorageClass.ofNumber?_number (singleton_inj.1 hoperands)
  refine ⟨id, rfl, ?_, ?_⟩
  · rcases hname with hname | ⟨v, hv, rfl, ⟨version, hclass⟩, -⟩
    · cases hname
    · refine ⟨v, hv, ⟨_, hglobal, rfl⟩, fun version' => ?_⟩
      refine Variable.storageClass_of_version (Option.some.inj hclass).symm ?_ version'
      rcases hstorage with rfl | rfl <;> decide
  · rw [declareInterface_ok h]
    exact Requirements.exists_mem_iff (p := fun name => ∃ e, m'.globals.get? name = some e ∧ e.id = id)

/-- If expressions are lowered into a new module, the declared inputs and outputs are those of variables
in them, and scans find those that one of these is to be listed for. They find them without declaring
any if all was lowered and no function hides a name. -/
theorem run_interface (config : Config) {ops : List Operation} (hops : ∀ op ∈ ops, op.builds ∧ op.declares = false) :
    let module := ((Workbench.start config).run ops).module
    let r := Requirements.ofAll (ops.filterMap Operation.lowered?)
    (∀ inputs outputs m, Module.declareInterface r module = (.ok (inputs, outputs), m) →
      m.Lists (Operation.mentions ops) (inputs ++ outputs)) ∧
    ((Workbench.start config).lowersAll ops → (∀ v ∈ Operation.mentions ops, v.IsListed (Operation.mentions ops) →
        ∀ op ∈ ops, op.hides config.version v.outermost.name = false) →
      ∃ inputs outputs, Module.declareInterface r module = (.ok (inputs, outputs), module)) := by
  intro module r
  constructor
  · intro inputs outputs m h
    have hsourced := Workbench.run_sourced (N := Operation.namesOf (Operation.mentions ops))
      (P := fun _ => False) (fun _ _ _ h => h)
      (fun op hop => Operation.keeps_namesOf hop (hops op hop).1 (hops op hop).2 (by simp))
      (Workbench.start_sourced _ _ config)
    exact hsourced.module.lists h
  · intro hall hunhidden
    let P : String → Prop := fun name => ∃ v : Variable, v.IsListed (Operation.mentions ops) ∧ name = v.outermost.name
    have hP : ∀ name ty, Operation.namesOf (Operation.mentions ops) name (some .Function) ty → ¬P name := by
      rintro name ty hname ⟨v, hv, rfl⟩
      obtain ⟨op, hop, hides⟩ := Operation.exists_hides hname
      rw [hunhidden v hv.mem hv op hop] at hides
      cases hides
    have hkeeps : ∀ op ∈ ops, op.Keeps (Operation.namesOf (Operation.mentions ops)) P := by
      intro op hop
      refine Operation.keeps_namesOf hop (hops op hop).1 (hops op hop).2 ?_
      rintro name ret params rfl p hp ⟨v, hv, hname⟩
      have hides := hunhidden v hv.mem hv _ hop
      rw [Operation.hides, any_eq_false] at hides
      exact hides p hp (by simpa using hname)
    have hstart := Workbench.start_sourced (Operation.namesOf (Operation.mentions ops)) P config
    refine Module.declareInterface_found fun v hv => ?_
    obtain ⟨u, hu, hname⟩ := Requirements.exists_mem_iff.1 ⟨v, hv, rfl⟩
    obtain ⟨e, he, hmem⟩ := mem_flatMap.1 hu.mem
    obtain ⟨op, hop, he⟩ := mem_filterMap.1 he
    obtain ⟨entity, hentity⟩ := Workbench.run_known hP hkeeps hstart hall op hop e he u hmem ⟨u, hu, rfl⟩
    exact ⟨entity, hname ▸ hentity⟩

/-- `color = tint`, beside a function that returns its local `shade`. -/
def Operation.tinting : List Operation :=
  let tint : Expr := .ident (.root "tint" (.vector .float 4) { input := true })
  let color : Expr := .ident (.root "color" (.vector .float 4) { output := true })
  let shade : Expr := .ident (.root "shade" (.vector .float 4) { functionLocal := true })
  [.openFunction "main" .void [], .freshBlock, .lower (.assign none color tint),
    .openFunction "shaded" (.vector .float 4) [], .freshBlock, .lower (.assign none shade tint),
    .lower shade]

theorem tinting_interface : (∀ op ∈ Operation.tinting, op.builds ∧ op.declares = false) ∧
    (Workbench.start {}).lowersAll Operation.tinting ∧
    let vs := Operation.mentions Operation.tinting
    let m := ((Workbench.start {}).run Operation.tinting).module
    (∀ v ∈ vs, v.IsListed vs → ∀ op ∈ Operation.tinting, op.hides ⟨1, 0⟩ v.outermost.name = false) ∧
    ∃ inputs outputs, Module.declareInterface
        (.ofAll (Operation.tinting.filterMap Operation.lowered?)) m = (.ok (inputs, outputs), m) ∧
      m.Lists vs (inputs ++ outputs) := by
  have hops : ∀ op ∈ Operation.tinting, op.builds ∧ op.declares = false := by decide
  have hall : (Workbench.start {}).lowersAll Operation.tinting := by decide +kernel
  have hunhidden : ∀ v ∈ Operation.mentions Operation.tinting, v.IsListed (Operation.mentions Operation.tinting) →
        ∀ op ∈ Operation.tinting, op.hides ⟨1, 0⟩ v.outermost.name = false := by decide +kernel
  obtain ⟨hlists, hfound⟩ := run_interface {} hops
  obtain ⟨inputs, outputs, h⟩ := hfound hall hunhidden
  exact ⟨hops, hall, hunhidden, inputs, outputs, h, hlists inputs outputs _ h⟩

/-- `gl_VertexIndex` alone. -/
def Operation.indexing : List Operation :=
  [.openFunction "main" .void [], .freshBlock, .lower (.ident (.root "gl_VertexIndex" (.scalar .int) { builtin := true }))]

/-- The members `color` of two blocks. -/
def Operation.blending : List Operation :=
  let member (block : String) : Variable :=
    .member (.root block (.struct block .std140 [⟨"color", .scalar .float, 0, none⟩]) { input := true }) 0 "color"
      (.scalar .float)
  [.openFunction "main" .void [], .freshBlock, .lower (.ident (member "near")), .lower (.ident (member "far"))]

/-- All is lowered, and an input is declared that a scan does not list. -/
abbrev Operation.LeavesOut (ops : List Operation) : Prop :=
  (∀ op ∈ ops, op.builds ∧ op.declares = false) ∧ (Workbench.start {}).lowersAll ops ∧
    let m := ((Workbench.start {}).run ops).module
    ∃ ids ∈ (Module.declareInterface (.ofAll (ops.filterMap lowered?)) m).1.toOption,
      ∃ inst ∈ m.declarations, inst.op = .Variable ∧ inst.operands = [Enumerated.number StorageClass.Input] ∧
        inst.result.all fun id => id ∉ ids.1 ++ ids.2

/-- An input that is only marked as built in, and one that has the name of another. -/
theorem inputs_not_listed : Operation.LeavesOut Operation.indexing ∧ Operation.LeavesOut Operation.blending := by
  decide +kernel

end Shader
