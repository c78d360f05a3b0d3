import Shader.Proofs.Backed
import Shader.Proofs.Continued

/-!
# Storage that names stand for

A variable is looked up by its name alone, first in the function and then in the module, and is declared
in the storage of its roles only if neither has the name. So a local variable stands for storage of its
function unless only the module knows its name, and a shared variable for its own storage unless the
name means something else.
-/

namespace Shader

open Module OrderedMap

variable {f : FunctionScope} {e : Entity}

/-- Whether the variable is shared beyond the shader that declares it. -/
def Roles.isShared (roles : Roles) : Bool :=
  roles.input || roles.output || roles.uniform || roles.pushConstant || roles.storageBuffer

theorem Variable.storageClass_ne_function {v : Variable} (h : v.roles.isShared) (version : Version) :
    v.storageClass version ≠ .Function := by
  unfold Roles.isShared at h
  unfold storageClass Version.bufferClass
  grind

namespace FunctionScope

/-- The entity is a local variable of the function, in its storage. -/
def Owns (f : FunctionScope) (e : Entity) : Prop :=
  e.storage = some .Function ∧ ∃ pointer, .localVariable pointer e.id ∈ f.function.queued

theorem Owns.queue (h : f.Owns e) (inst : Inst) : (f.queue inst).Owns e := by
  obtain ⟨hstorage, pointer, hqueued⟩ := h
  exact ⟨hstorage, pointer, List.mem_append_left _ hqueued⟩

/-- Names of a function stand for parameters or for variables in its own storage. -/
structure Housed (f : FunctionScope) : Prop where
  storage : ∀ name e storage, f.locals.get? name = some e → e.storage = some storage → storage = .Function
  owned : ∀ name e, f.locals.get? name = some e → e.id ∈ f.function.params.map (·.2) ∨ f.Owns e

namespace Housed

theorem queue (h : f.Housed) (inst : Inst) : (f.queue inst).Housed where
  storage := h.storage
  owned name e he := (h.owned name e he).imp_right fun howns => howns.queue inst

theorem take (h : f.Housed) (name : String) (pointer : Id) (hstorage : e.storage = some .Function) :
    (f.take name ⟨e, some (.localVariable pointer e.id)⟩).Housed where
  storage name' e' storage he' hs := by
    rcases eq_or_get?_of_get?_put he' with ⟨-, rfl⟩ | hold
    · exact Option.some.inj (hs.symm.trans hstorage)
    · exact h.storage name' e' storage hold hs
  owned name' e' he' := by
    rcases eq_or_get?_of_get?_put he' with ⟨-, rfl⟩ | hold
    · exact .inr ⟨hstorage, pointer, List.mem_append_right _ List.mem_cons_self⟩
    · exact (h.queue _).owned name' e' hold

end Housed

end FunctionScope

theorem Module.Begins.housed {m : Module} {name : String} {ret : Ty} {params : List Variable} (h : m.Begins name ret params f) : f.Housed where
  storage _ e storage he hs := (h.backed _ e storage he hs).1
  owned _ _ he := .inl (h.id_mem (mem_values he))

/-- No global variable is in local storage. -/
def Module.GlobalsOutside (m : Module) : Prop := ∀ name e, m.globals.get? name = some e → e.storage ≠ some .Function

theorem Module.lasting_globalsOutside : Lasting .any GlobalsOutside where
  grow h _ hsame := by
    simp only [findings, Prod.mk.injEq] at hsame
    exact fun name e he => h name e (hsame.2.2.2.2.2 ▸ he)
  remember h hm' := by
    rw [hm'.same]
    exact h
  literal h _ _ := h
  composite h _ _ := h
  global h _ hnew name' e' he' := by
    rcases eq_or_get?_of_get?_put he' with ⟨-, rfl⟩ | hold
    · exact hnew.isGlobal
    · exact h name' e' hold

theorem running_housed : Running (.keeping GlobalsOutside) FunctionScope.Housed where
  building := lasting_globalsOutside.building
  queue _ _ h := h.queue _
  take pointer h _ hstorage _ := h.take _ pointer hstorage
  opened h _ := (openFunction_begins h).housed
  appended _ h := ⟨h.storage, h.owned⟩
  closed _ h := h

/-! ## Resolution -/

namespace FunctionScope

variable {name : String} {ty : Ty} {d : Declared} {m m' : Module}

theorem take_of_found (name : String) (h : d.queued = none) : f.take name d = f := by
  unfold take
  rw [h]

theorem take_owns (name : String) {pointer : Id} (h : d.queued = some (.localVariable pointer d.entity.id))
    (hstorage : d.entity.storage = some .Function) : (f.take name d).Owns d.entity := by
  unfold take
  rw [h]
  exact ⟨hstorage, pointer, List.mem_append_right _ List.mem_cons_self⟩

theorem lookup_of_local (h : f.locals.get? name = some e) : m.lookup (some f.locals) name = some e := by
  unfold lookup
  rw [Option.bind_some, h]
  rfl

theorem lookup_of_absent (h : f.locals.get? name = none) : m.lookup (some f.locals) name = m.globals.get? name := by
  unfold lookup
  rw [Option.bind_some, h, Option.none_or]

namespace Housed

theorem owns_iff (hf : f.Housed) (hm : m.GlobalsOutside)
    (h : declareByRole (some f.locals) (.root name ty { functionLocal := true }) m = (.ok d, m'))
    (hparam : ∀ e, f.locals.get? name = some e → e.id ∉ f.function.params.map (·.2)) :
    (f.take name d).Owns d.entity ↔ (f.locals.get? name).isSome ∨ m.globals.get? name = none := by
  rcases declareByRole_cases h with ⟨hfound, hqueued, -⟩ | ⟨hnone, -, hnew⟩
  · rw [take_of_found name hqueued]
    cases hlocal : f.locals.get? name with
    | some e =>
      cases (lookup_of_local hlocal).symm.trans hfound
      have howned := (hf.owned name d.entity hlocal).resolve_left (hparam d.entity hlocal)
      exact ⟨fun _ => .inl rfl, fun _ => howned⟩
    | none =>
      have hglobal := (lookup_of_absent hlocal).symm.trans hfound
      refine ⟨fun howns => absurd howns.1 (hm name d.entity hglobal), ?_⟩
      rintro (hsome | hnone)
      · cases hsome
      · cases hnone.symm.trans hglobal
  · obtain ⟨hstorage, -, -, pointer, -, hqueued⟩ := newVariable_declares _ _ _ m d m' hnew
    exact ⟨fun _ => .inr (lookup_eq_none.1 hnone).2, fun _ => take_owns name hqueued hstorage⟩

theorem storage_iff {roles : Roles} (hf : f.Housed) (hroles : roles.isShared)
    (h : declareByRole (some f.locals) (.root name ty roles) m = (.ok d, m')) :
    let storage := Variable.storageClass m.config.version (.root name ty roles)
    d.entity.storage = some storage ↔
      f.locals.get? name = none ∧ ∀ e, m.globals.get? name = some e → e.storage = some storage := by
  intro storage
  have hshared : storage ≠ .Function := Variable.storageClass_ne_function (v := .root name ty roles) hroles _
  rcases declareByRole_cases h with ⟨hfound, -⟩ | ⟨hnone, -, hnew⟩
  · cases hlocal : f.locals.get? name with
    | some e =>
      cases (lookup_of_local hlocal).symm.trans hfound
      refine ⟨fun hs => absurd (hf.storage name d.entity storage hlocal hs) hshared, ?_⟩
      rintro ⟨habsent, -⟩
      cases habsent
    | none =>
      have hglobal := (lookup_of_absent hlocal).symm.trans hfound
      refine ⟨fun hs => ⟨rfl, fun e he => ?_⟩, fun hall => hall.2 d.entity hglobal⟩
      cases hglobal.symm.trans he
      exact hs
  · obtain ⟨hlocals, hglobals⟩ := lookup_eq_none.1 hnone
    have hstorage := (newVariable_declares _ _ _ m d m' hnew).1
    refine ⟨fun _ => ⟨hlocals, fun e he => ?_⟩, fun _ => hstorage⟩
    cases hglobals.symm.trans he

end Housed

end FunctionScope

/-! ## Runs -/

namespace Workbench

variable {w : Workbench}

theorem perform_housed (hw : w.Stands (.keeping GlobalsOutside) FunctionScope.Housed) (op : Operation) :
    (w.perform op).2.Stands (.keeping GlobalsOutside) FunctionScope.Housed := by
  by_cases hop : op.builds
  · exact (perform_change hop).stands running_housed (fun hm => hm) lasting_globalsOutside.stepwise.mark hw
  refine hw.perform_other hop (fun h => h) (fun target inst name e he => ?_) fun words m _ hm name e he => ?_
  · rw [(insert_sameNames w.module target inst).globals] at he
    exact hw.ledger name e he
  · rw [(ofWords_names hm).2.1] at he
    cases he

theorem run_housed (config : Config) (ops : List Operation) :
    ((start config).run ops).Stands (.keeping GlobalsOutside) FunctionScope.Housed := by
  have hall : ∀ (ops : List Operation) (w : Workbench), w.Stands (.keeping GlobalsOutside) FunctionScope.Housed →
      (w.run ops).Stands (.keeping GlobalsOutside) FunctionScope.Housed := by
    intro ops
    induction ops with
    | nil => exact fun _ hw => hw
    | cons op ops ih => exact fun w hw => ih _ (perform_housed hw op)
  exact hall ops _ ⟨fun _ _ he => (nomatch he), fun _ hf => nomatch hf⟩

end Workbench

/-- A local variable is one of the function's own exactly if the function knows its name or the module
does not. A shared one has the storage of its roles exactly if the function does not know its name, and
the module knows it there or not at all. -/
theorem resolve_storage_iff (config : Config) (ops : List Operation) :
    let w := (Workbench.start config).run ops
    ∀ f ∈ w.functions.things, ∀ (name : String) (ty : Ty) (roles : Roles) (d : Declared) (m : Module),
      declareByRole (some f.locals) (.root name ty roles) w.module = (.ok d, m) →
      (roles = { functionLocal := true } → (∀ e, f.locals.get? name = some e → e.id ∉ f.function.params.map (·.2)) →
        ((f.take name d).Owns d.entity ↔ (f.locals.get? name).isSome ∨ w.module.globals.get? name = none)) ∧
      (roles.isShared →
        let storage := Variable.storageClass w.module.config.version (.root name ty roles)
        (d.entity.storage = some storage ↔ f.locals.get? name = none ∧
          ∀ e, w.module.globals.get? name = some e → e.storage = some storage)) := by
  intro w f hf name ty roles d m h
  have hw := Workbench.run_housed config ops
  have hhoused := hw.scopes f hf
  refine ⟨fun hroles hparam => ?_, fun hroles => hhoused.storage_iff hroles h⟩
  subst hroles
  exact hhoused.owns_iff hw.ledger h hparam

def Operation.coloring : List Operation :=
  [.openFunction "main" .void [], .resolve (.root "color" (.scalar .float) { functionLocal := true }) false]

def FunctionScope.coloring : FunctionScope where
  function := { name := "main", id := 2, returnType := 3, functionType := 4,
                queued := [.localVariable 7 5] }
  locals := ⟨[("color", ⟨5, some .Function, 6⟩)]⟩

theorem coloring_things :
    ((Workbench.start {}).run Operation.coloring).functions.things = [FunctionScope.coloring] := by
  let parts (f : FunctionScope) := (f.function, f.locals.entries)
  have hparts : ∀ f g, parts f = parts g → f = g := by
    rintro ⟨_, ⟨_⟩⟩ ⟨_, ⟨_⟩⟩ heq
    cases heq
    rfl
  refine (List.map_inj_right hparts).1 ?_
  decide +kernel

/-- The local variable is one of the function's own, and an output of another name is an output. -/
theorem coloring_storage :
    let w := (Workbench.start {}).run Operation.coloring
    let f := FunctionScope.coloring
    f ∈ w.functions.things ∧ (∃ d m, declareByRole (some f.locals)
          (.root "color" (.scalar .float) { functionLocal := true }) w.module = (.ok d, m) ∧
        (∀ e, f.locals.get? "color" = some e → e.id ∉ f.function.params.map (·.2)) ∧
        (f.take "color" d).Owns d.entity) ∧
      ∃ d m, declareByRole (some f.locals) (.root "tint" (.scalar .float) { output := true })
          w.module = (.ok d, m) ∧ d.entity.storage = some .Output := by
  intro w f
  have hf : f ∈ w.functions.things := coloring_things ▸ List.mem_singleton_self f
  have hparam : ∀ e, f.locals.get? "color" = some e → e.id ∉ f.function.params.map (·.2) := fun _ _ => List.not_mem_nil
  have hlocal : declareByRole (some f.locals) (.root "color" (.scalar .float) { functionLocal := true }) w.module =
        (.ok { entity := ⟨5, some .Function, 6⟩ }, w.module) := rfl
  have hok : (declareByRole (some f.locals)
      (.root "tint" (.scalar .float) { output := true }) w.module).1.isOk := by decide +kernel
  obtain ⟨d, hd⟩ := Action.exists_ok hok
  have hglobal : w.module.globals.get? "tint" = none := by decide +kernel
  refine ⟨hf, ⟨_, _, hlocal, hparam, ?_⟩, d, _, hd, ?_⟩
  · exact ((resolve_storage_iff {} _ f hf _ _ _ _ _ hlocal).1 rfl hparam).2 (.inl rfl)
  · refine ((resolve_storage_iff {} _ f hf _ _ _ _ _ hd).2 rfl).2 ⟨rfl, fun e he => ?_⟩
    cases hglobal.symm.trans he

/-- An output is resolved to the local variable of its name. -/
theorem coloring_output_hidden :
    let w := (Workbench.start {}).run Operation.coloring
    let f := FunctionScope.coloring
    f ∈ w.functions.things ∧ ∃ d, declareByRole (some f.locals) (.root "color" (.scalar .float) { output := true })
          w.module = (.ok d, w.module) ∧
        f.locals.get? "color" = some d.entity ∧ d.entity.storage = some .Function :=
  ⟨coloring_things ▸ List.mem_singleton_self _, { entity := ⟨5, some .Function, 6⟩ }, rfl, rfl, rfl⟩

end Shader
