import Shader.Proofs.Registration

/-!
# Where the variables of a module come from

A variable outside of functions is declared under a name, which the module has for it from then on. So
if a run introduces certain names only, each of these variables belongs to one of them. Functions have
names of their own, for which the module is not asked.
-/

namespace Shader

variable {N : Names}

namespace Module

/-- The instruction declares a global variable under one of the names. -/
def Sources (N : Names) (m : Module) (inst : Inst) : Prop :=
  ∃ name storage ty pointer id type,
    inst = .value .Variable pointer id [Enumerated.number storage] ∧ N name (some storage) ty ∧
      m.globals.get? name = some ⟨id, some storage, type⟩

/-- Every variable outside of functions is that of a name that may be introduced. -/
def Sourced (N : Names) (m : Module) : Prop := ∀ inst ∈ m.declarations, inst.op = .Variable → m.Sources N inst

section

variable {m m' : Module} {inst : Inst}

theorem Sources.mono (h : m.Sources N inst) (hm : m.Retains m') : m'.Sources N inst := by
  obtain ⟨name, storage, ty, pointer, id, type, heq, hname, hglobal⟩ := h
  exact ⟨name, storage, ty, pointer, id, type, heq, hname, hm.globals _ _ hglobal⟩

end

theorem cataloguing_sourced (N : Names) : Cataloguing N fun m inst => inst.op = .Variable → m.Sources N inst where
  mono hm h hop := (h hop).mono hm
  aggregate _ hop heq := by
    cases heq
    cases hop
  shared hop _ _ heq := by
    cases heq
    cases hop
  literal {_ l type id} _ _ heq := by
    have hop := l.inst_isFixedConstant type id
    rw [heq] at hop
    cases hop
  composite _ := nofun
  specialize _ _ hop heq := by
    cases heq
    cases hop
  global _ hname hglobal _ := ⟨_, _, _, _, _, _, rfl, hname, hglobal⟩

end Module

/-- The function has no names of its own among those in `P`. -/
def FunctionScope.Spares (P : String → Prop) (f : FunctionScope) : Prop := ∀ name, P name → f.locals.get? name = none

theorem FunctionScope.Spares.take {P : String → Prop} {f : FunctionScope} (h : f.Spares P)
    {name : String} (hname : ¬P name) (e : Entity) (inst : Inst) : (f.take name ⟨e, some inst⟩).Spares P := by
  intro name' hP
  have hne : name ≠ name' := fun heq => hname (heq ▸ hP)
  exact (OrderedMap.get?_put_of_ne _ _ hne).trans (h name' hP)

theorem Module.Begins.spares {P : String → Prop} {m : Module} {name : String} {ret : Ty} {params : List Variable}
    {f : FunctionScope} (h : m.Begins name ret params f) (hparams : ∀ p ∈ params, ¬P p.name) : f.Spares P := by
  intro n hn
  cases he : f.locals.get? n with
  | none => rfl
  | some e =>
    obtain ⟨param, hparam, _, rfl, -⟩ := h.entity he
    exact absurd hn (hparams param hparam)

theorem housing_spares {P : String → Prop} (hP : ∀ name ty, N name (some .Function) ty → ¬P name) :
    Housing N fun _ f => f.Spares P where
  mono _ h := h
  take h hname _ _ _ := h.take (hP _ _ hname) _ _

/-- The operation builds, and introduces those names only; it begins no function with a parameter of
some of them. -/
structure Operation.Keeps (N : Names) (P : String → Prop) (op : Operation) : Prop where
  builds : op.builds
  names : ∀ w name storage ty, op.names w name storage ty → N name storage ty
  params : ∀ name ret params, op = .openFunction name ret params → ∀ p ∈ params, ¬P p.name

namespace Workbench

/-- Global variables have names that may be introduced, and functions have none of some names. -/
structure Sourced (N : Names) (P : String → Prop) (w : Workbench) : Prop where
  module : w.module.Sourced N
  scopes : ∀ f ∈ w.functions.things, f.Spares P

section

variable {P : String → Prop} (hP : ∀ name ty, N name (some .Function) ty → ¬P name)

include hP

theorem Change.sourced {w w' : Workbench} {op : Operation} (hop : op.Keeps N P)
    (hc : Change w op w') (hw : w.Sourced N P) : w'.Sourced N P where
  module := hc.catalogues (Module.cataloguing_sourced N) (hop.names w) hw.module
  scopes := hc.scopes (housing_spares fun name ty hname => hP name ty (hop.names w _ _ _ hname))
    (fun isOpen hbegins => hbegins.spares (hop.params _ _ _ isOpen)) hw.scopes

theorem run_sourced {w : Workbench} {ops : List Operation} (hops : ∀ op ∈ ops, op.Keeps N P)
    (hw : w.Sourced N P) : (w.run ops).Sourced N P := by
  induction ops generalizing w with
  | nil => exact hw
  | cons op ops ih =>
    obtain ⟨hop, hops⟩ := List.forall_mem_cons.1 hops
    exact ih hops ((perform_change hop.builds).sourced hP hop hw)

end

theorem start_sourced (N : Names) (P : String → Prop) (config : Config) : (start config).Sourced N P :=
  ⟨fun _ hinst => absurd hinst List.not_mem_nil, fun _ hf => absurd hf List.not_mem_nil⟩

end Workbench

end Shader
