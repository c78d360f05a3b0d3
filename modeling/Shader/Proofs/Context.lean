import Shader.Proofs.Registry

/-!
# Names and their types

If the names of a context are introduced with one type each, in a function or outside of functions, then
whatever such a name stands for is of that type: the type was declared, and what is a value was defined
as one of it.
-/

namespace Shader

open OrderedMap

variable {m m' : Module} {Γ : Context}

variable {name : String} {f : FunctionScope} {N : Names} {here : Prop} {ty : Ty} {e : Entity}

/-- The types of names. -/
def Context : Type := String → Option Ty

/-- Names of the context are introduced with their types only, local ones if they are of the function. -/
def Names.Obey (N : Names) (Γ : Context) (here : Prop) : Prop :=
  ∀ name storage ty ty', N name storage ty → (storage = some .Function → here) → Γ name = some ty' → ty = ty'

/-- As seen from function number `i`, the operation introduces names of the context with their types
only. -/
structure Operation.Obeys (op : Operation) (Γ : Context) (i : Nat) (w : Workbench) : Prop where
  names : (op.names w).Obey Γ (w.functions.current = some i)
  params : ∀ name ret params, op = .openFunction name ret params → w.functions.places.length = i →
    ∀ p ∈ params, ∀ ty, Γ p.name = some ty → p.ty = ty

/-! ## Modules -/

namespace Module

variable {type : Id}

/-- The identifier is declared with this type. -/
def Types (m : Module) (id type : Id) : Prop :=
  ∃ inst ∈ m.declarations, inst.result = some id ∧ inst.resultType = some type

theorem Types.mono {id : Id} (h : m.Types id type) (hm : m.declarations <+: m'.declarations) : m'.Types id type :=
  let ⟨inst, hmem, hinst⟩ := h
  ⟨inst, hm.subset hmem, hinst⟩

theorem finds_scalar {s : Scalar} (h : m.types.get? (.plain (.scalar s)) = some type) :
    m.Finds none none (.scalar s) type := by
  exact cachedType_found h

/-- What is found in the module by name or by value has the type that `Γ` or the value tells. -/
structure Fits (Γ : Context) (m : Module) : Prop where
  literals : ∀ l id, m.literals.get? l = some id → ∃ type, m.Finds none none (.scalar l.scalar) type ∧ m.Types id type
  composites : ∀ constituents type id, m.composites.get? (constituents, type) = some id → m.Types id type
  globals : ∀ name e ty, m.globals.get? name = some e → Γ name = some ty →
    m.Finds e.layout? none ty e.type ∧ (e.isValue → m.Types e.id e.type)

namespace Fits

theorem extend (h : m.Fits Γ) (hm : m.Retains m') (hdeclarations : m.declarations <+: m'.declarations)
    (hliterals : ∀ l id, m'.literals.get? l = some id → m.literals.get? l = some id ∨
      ∃ type, m'.Finds none none (.scalar l.scalar) type ∧ m'.Types id type)
    (hcomposites : ∀ key id, m'.composites.get? key = some id → m.composites.get? key = some id ∨
      m'.Types id key.2) (hglobals : ∀ name e, m'.globals.get? name = some e → m.globals.get? name = some e ∨
      ∀ ty, Γ name = some ty → m'.Finds e.layout? none ty e.type ∧ (e.isValue → m'.Types e.id e.type)) : m'.Fits Γ where
  literals l id hl := by
    rcases hliterals l id hl with hold | hnew
    · obtain ⟨type, hfinds, htypes⟩ := h.literals l id hold
      exact ⟨type, hfinds.mono hm, htypes.mono hdeclarations⟩
    · exact hnew
  composites constituents type id hc := by
    rcases hcomposites _ id hc with hold | hnew
    · exact (h.composites constituents type id hold).mono hdeclarations
    · exact hnew
  globals name e ty he hty := by
    rcases hglobals name e he with hold | hnew
    · obtain ⟨hfinds, htypes⟩ := h.globals name e ty hold hty
      exact ⟨hfinds.mono hm, fun hvalue => (htypes hvalue).mono hdeclarations⟩
    · exact hnew ty hty

theorem grow (h : m.Fits Γ) (hm : m.Grown m') (hsame : m'.findings = m.findings) : m'.Fits Γ := by
  simp only [findings, Prod.mk.injEq] at hsame
  obtain ⟨-, -, -, hliterals, hcomposites, hglobals⟩ := hsame
  exact h.extend hm.toRetains hm.declarations (fun _ _ hl => .inl (hliterals ▸ hl))
    (fun _ _ hc => .inl (hcomposites ▸ hc)) (fun _ _ he => .inl (hglobals ▸ he))

end Fits

theorem enduring_fits (Γ : Context) : Enduring (Fits Γ) where
  grow := Fits.grow
  remember {m _ _} h hm' := by
    have hm := (Grown.refl m).remember hm'
    rw [hm'.same] at hm ⊢
    exact h.extend hm.toRetains hm.declarations (fun _ _ hl => .inl hl) (fun _ _ hc => .inl hc) (fun _ _ he => .inl he)
  literal {m l type id} h hlacks hmem := by
    have hm := (Grown.refl m).putLiteral id hlacks.literal
    refine h.extend hm.toRetains hm.declarations (fun l' id hl' => ?_) (fun _ _ hc => .inl hc) (fun _ _ he => .inl he)
    rcases eq_or_get?_of_get?_put hl' with ⟨rfl, rfl⟩ | hold
    · exact .inr ⟨type, (finds_scalar hlacks.type).mono hm.toRetains, _, hmem, rfl, rfl⟩
    · exact .inl hold

theorem lasting_fits (hN : N.Obey Γ here) : Lasting N (Fits Γ) where
  toEnduring := enduring_fits Γ
  composite {m constituents type id} h hnew hmem := by
    have hm := (Grown.refl m).putComposite id hnew
    refine h.extend hm.toRetains hm.declarations (fun _ _ hl => .inl hl) (fun key id hc => ?_) (fun _ _ he => .inl he)
    rcases eq_or_get?_of_get?_put hc with ⟨rfl, rfl⟩ | hold
    · exact .inr ⟨_, hmem, rfl, rfl⟩
    · exact .inl hold
  global {m name ty e} h hname hnew := by
    have hm := (Grown.refl m).putGlobal e hnew.isNew
    refine h.extend hm.toRetains hm.declarations (fun _ _ hl => .inl hl) (fun _ _ hc => .inl hc)
      (fun name' e' he' => ?_)
    rcases eq_or_get?_of_get?_put he' with ⟨rfl, rfl⟩ | hold
    · refine .inr fun ty' hty' => ?_
      obtain rfl := hN name e.storage ty ty' hname (fun h => absurd h hnew.isGlobal) hty'
      obtain ⟨inst, hmem, hresult, hinst⟩ := hnew.declared
      exact ⟨hnew.finds.mono hm.toRetains, fun hvalue => ⟨inst, hmem, hresult, (hinst hvalue).1⟩⟩
    · exact .inl hold

end Module

/-! ## Functions -/

/-- Names of the context are of their types, and those of values stand for parameters. -/
def Scope.Fits (Γ : Context) (m : Module) (params : List (Id × Id)) (scope : Scope) : Prop :=
  ∀ name e ty, scope.get? name = some e → Γ name = some ty →
    m.Finds none none ty e.type ∧ (e.isValue → (e.type, e.id) ∈ params)

/-- Names of the function fit the context. -/
def FunctionScope.Fits (Γ : Context) (m : Module) (f : FunctionScope) : Prop := f.locals.Fits Γ m f.function.params

theorem Scope.Fits.mono {params params' : List (Id × Id)} {scope : Scope} (h : scope.Fits Γ m params)
    (hm : m.Retains m') (hparams : params ⊆ params') : scope.Fits Γ m' params' := by
  intro name e ty he hty
  obtain ⟨hfinds, hvalue⟩ := h name e ty he hty
  exact ⟨hfinds.mono hm, fun he => hparams (hvalue he)⟩

theorem Scope.Fits.put {params : List (Id × Id)} {scope : Scope} (h : scope.Fits Γ m params)
    (hty : ∀ ty', Γ name = some ty' → ty = ty') (hfinds : m.Finds none none ty e.type)
    (hvalue : e.isValue → (e.type, e.id) ∈ params) : Scope.Fits Γ m params (scope.put name e) := by
  intro name' e' ty' he' hty'
  rcases eq_or_get?_of_get?_put he' with ⟨rfl, rfl⟩ | hold
  · obtain rfl := hty ty' hty'
    exact ⟨hfinds, hvalue⟩
  · exact h name' e' ty' hold hty'

theorem FunctionScope.Fits.mono (h : f.Fits Γ m) (hm : m.Retains m') : f.Fits Γ m' :=
  Scope.Fits.mono h hm fun _ hp => hp

theorem FunctionScope.Fits.take (h : f.Fits Γ m) (inst : Inst)
    (hty : ∀ ty', Γ name = some ty' → ty = ty') (hfinds : m.Finds none none ty e.type)
    (hstorage : e.storage = some .Function) : (f.take name ⟨e, some inst⟩).Fits Γ m := by
  refine Scope.Fits.put h hty hfinds fun hvalue => ?_
  rw [Entity.isValue, hstorage] at hvalue
  cases hvalue

theorem housing_fits (hN : N.Obey Γ here) (hhere : here) : Housing N fun m f => f.Fits Γ m where
  mono hm h := h.mono hm
  take h hname hfinds hstorage _ := h.take _ (fun _ => hN _ _ _ _ hname fun _ => hhere) hfinds hstorage

theorem Module.Begins.fits {ret : Ty} {params : List Variable} (h : m.Begins name ret params f)
    (hparams : ∀ p ∈ params, ∀ ty, Γ p.name = some ty → p.ty = ty) : f.Fits Γ m := by
  intro n e ty he hty
  obtain ⟨param, hparam, type, rfl, hmem, henters⟩ := h.entity he
  obtain rfl := hparams param hparam ty hty
  refine ⟨henters.finds, fun hvalue => ?_⟩
  have hstorage := henters.storage
  have hpassed := henters.passed
  split at hstorage
  · rw [Entity.isValue, hstorage] at hvalue
    cases hvalue
  · rw [if_neg ‹_›] at hpassed
    rwa [← hpassed]

namespace Workbench

/-- The module and the `i`-th open function fit the context. -/
structure Fits (Γ : Context) (i : Nat) (w : Workbench) : Prop where
  module : w.module.Fits Γ
  function : ∀ f, w.functions.places[i]? = some (some f) → f.Fits Γ w.module

variable {i : Nat} {w w' : Workbench} {op : Operation}

theorem Change.fits (hop : op.Obeys Γ i w) (hc : Change w op w') (hw : w.Fits Γ i) : w'.Fits Γ i where
  module := hc.keeps (Module.lasting_fits hop.names).building (Module.enduring_fits Γ).stepwise.mark
    (fun _ h => h.extend { Module.Retains.refl w.module with } List.prefix_rfl (fun _ _ hl => .inl hl)
      (fun _ _ hc => .inl hc) (fun _ _ he => .inl he)) hw.module
  function := hc.scope (fun hm h => h.mono hm) (housing_fits hop.names)
    (fun isOpen hi hbegins => hbegins.fits (hop.params _ _ _ isOpen hi)) hw.function

/-- Reachable workbenches in which function number `i` sees one variable of the right type under each
name. -/
inductive ReachableIn (config : Config) (Γ : Context) (i : Nat) : Workbench → Prop where
  | start : ReachableIn config Γ i (start config)
  | perform {w : Workbench} {op : Operation} (reachable : ReachableIn config Γ i w)
      (builds : op.builds) (refers : ∀ id ∈ op.refers, id < w.module.bound)
      (obeys : op.Obeys Γ i w) : ReachableIn config Γ i (w.perform op).2

theorem ReachableIn.reachable {config : Config} (h : w.ReachableIn config Γ i) : w.Reachable config := by
  induction h with
  | start => exact .start
  | perform _ builds refers _ ih => exact ih.perform builds refers

theorem ReachableIn.fits {config : Config} (h : w.ReachableIn config Γ i) : w.Fits Γ i := by
  induction h with
  | start =>
    exact ⟨⟨fun _ _ hl => (nomatch hl), fun _ _ _ hc => (nomatch hc), fun _ _ _ he => nomatch he⟩,
      fun _ hf => nomatch hf⟩
  | perform _ builds _ obeys ih => exact (perform_change builds).fits obeys ih

end Workbench

end Shader
