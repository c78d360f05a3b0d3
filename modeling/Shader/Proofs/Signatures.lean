import Shader.Proofs.Backed
import Shader.Proofs.Defined

/-!
# Two ways to a function type

The type of a function is declared when the function is begun, from the types of its parameters one
after the other, and where the type is declared by itself. Both come to one identifier, in either order
and with any work in between, as long as the module is not replaced.
-/

namespace Shader

open Action Module

variable {n : Nat} {type' : Id} {types' : List Id} {v : Variable}

variable {ret : Ty} {params : List Variable} {name : String}

/-- Both parameters are passed as values of one type, or as pointers to it. -/
def Variable.PassedAlike (v v' : Variable) : Prop := v.ty = v'.ty ∧ v.isByReference = v'.isByReference

instance (v v' : Variable) : Decidable (v.PassedAlike v') :=
  inferInstanceAs (Decidable (v.ty = v'.ty ∧ v.isByReference = v'.isByReference))

namespace Module

variable {m m' : Module} {id : Id} {type : Id} {types : List Id} {f : FunctionScope}

/-! ## Parameters -/

theorem Passes.unique {v' : Variable} (hv : v.PassedAlike v') (h : m.Passes v type)
    (h' : m.Passes v' type') : type = type' := by
  obtain ⟨value, hvalue, htype⟩ := h
  obtain ⟨value', hvalue', htype'⟩ := h'
  rw [← hv.1] at hvalue'
  obtain rfl := hvalue.unique hvalue'
  rw [hv.2] at htype
  split at htype
  · rw [if_pos ‹_›] at htype'
    exact Option.some.inj (htype.symm.trans htype')
  · rw [if_neg ‹_›] at htype'
    exact htype.trans htype'.symm

theorem passes_unique {params' : List Variable} (hparams : List.Forall₂ Variable.PassedAlike params params')
    (h : List.Forall₂ m.Passes params types) (h' : List.Forall₂ m.Passes params' types') : types = types' := by
  induction hparams generalizing types types' with
  | nil =>
    cases h
    cases h'
    rfl
  | cons hv _ ih =>
    cases h with
    | cons htype htypes =>
      cases h' with
      | cons htype' htypes' => rw [htype.unique hv htype', ih htypes htypes']

theorem Passes.passedAs (h : m.Passes v type) :
    ∃ value, m.Finds none none v.ty value ∧ passedAs v value m = (.ok type, m) := by
  obtain ⟨value, hvalue, htype⟩ := h
  refine ⟨value, hvalue, ?_⟩
  unfold Module.passedAs
  split
  · rw [if_pos ‹_›] at htype
    exact findOrMake_of_some htype
  · rw [if_neg ‹_›] at htype
    rw [htype]
    rfl

theorem Passes.declareParam (h : m.Passes v type) : declareParam v m = (.ok type, m) := by
  obtain ⟨value, hvalue, hpassed⟩ := h.passedAs
  cases v <;> rw [declareParam]
  all_goals exact (bind_apply_ok hvalue _).trans hpassed

theorem declareParams_of_passes (h : List.Forall₂ m.Passes params types) : declareParams params m = (.ok types, m) := by
  induction h with
  | nil => rfl
  | cons hv _ ih =>
    rw [declareParams, bind_apply_ok hv.declareParam, bind_apply_ok ih]
    rfl

/-! ## Signatures -/

/-- The module has declared the function type, from the types of its result and its parameters. -/
structure Signs (m : Module) (ret : Ty) (params : List Variable) (type : Id) (types : List Id) (id : Id) : Prop where
  returns : m.Finds none none ret type
  passes : List.Forall₂ m.Passes params types
  found : m.functionTypes.get? (type :: types) = some id

namespace Signs

theorem mono (h : m.Signs ret params type types id) (hm : m.Retains m') : m'.Signs ret params type types id :=
  ⟨h.returns.mono hm, h.passes.imp fun _ _ hpasses => hpasses.mono hm, hm.functionTypes _ _ h.found⟩

theorem unique {params' : List Variable} {id' : Id}
    (hparams : List.Forall₂ Variable.PassedAlike params params') (h : m.Signs ret params type types id)
    (h' : m.Signs ret params' type' types' id') : type = type' ∧ types = types' ∧ id = id' := by
  obtain rfl := h.returns.unique h'.returns
  obtain rfl := passes_unique hparams h.passes h'.passes
  exact ⟨rfl, rfl, Option.some.inj (h.found.symm.trans h'.found)⟩

theorem unique_self {id' : Id} (h : m.Signs ret params type types id)
    (h' : m.Signs ret params type' types' id') : type = type' ∧ types = types' ∧ id = id' :=
  h.unique (List.forall₂_same.2 fun _ _ => ⟨rfl, rfl⟩) h'

theorem declareType (hm : m.Backed) (h : m.Signs ret params type types id) :
    ∃ known, declareType (.function ret params) m = (.ok id, { m with types := known }) := by
  cases hkey : m.types.get? (.plain (.function ret params)) with
  | some id' =>
    obtain ⟨type', types', hreturns, hpasses, hfound⟩ := hm.types _ _ hkey
    obtain ⟨-, -, rfl⟩ := h.unique_self ⟨hreturns, hpasses, hfound⟩
    exact ⟨m.types, cachedType_found hkey⟩
  | none =>
    refine ⟨_, findOrMake_of_none hkey (n := m) ?_⟩
    rw [bind_apply_ok h.returns, bind_apply_ok (declareParams_of_passes h.passes)]
    exact findOrMake_of_some h.found

end Signs

theorem openFunction_signs (h : openFunction name ret params m = (.ok f, m')) :
    m'.Signs ret params f.function.returnType (f.function.params.map (·.1)) f.function.functionType :=
  have hbegins := openFunction_begins h
  ⟨hbegins.returns, hbegins.opens.passes, hbegins.signature⟩

theorem declareType_signs (hm : m'.Backed) (h : declareType (.function ret params) m = (.ok id, m')) :
    ∃ type types, m'.Signs ret params type types id := by
  obtain ⟨type, types, hreturns, hpasses, hfound⟩ := hm.types _ _ (cachedType_ok h)
  exact ⟨type, types, hreturns, hpasses, hfound⟩

/-! ## Identifiers that are left -/

/-- There are `n` more identifiers to hand out. -/
def HasRoom (m : Module) (n : Nat) : Prop := m.bound.toNat + n < UInt32.size

theorem HasRoom.freshId (h : m.HasRoom (n + 1)) :
    ∃ next, freshId m = (.ok m.bound, { m with bound := next }) ∧ HasRoom { m with bound := next } n := by
  have hlt : m.bound.toNat + (1 : Word).toNat < UInt32.size := Nat.lt_of_le_of_lt (Nat.add_le_add_left (by simp) _) h
  have hadd : Word.add m.bound 1 = .ok (m.bound + 1) := if_pos hlt
  refine ⟨_, freshId_ok hadd, ?_⟩
  unfold HasRoom at h ⊢
  rw [Word.add_ok hadd, UInt32.toNat_one]
  omega

/-- Where there is room, parameters of known types are opened. -/
theorem openParams_of_passes {n : Nat} : ∀ {params : List Variable} {types : List Id} (locals : Scope) {m : Module},
    List.Forall₂ m.Passes params types → m.HasRoom (params.length + n) →
    ∃ ids scope m', openParams locals params m = (.ok (ids, scope), m') ∧ ids.map (·.1) = types ∧
      m.Retains m' ∧ m'.HasRoom n
  | [], types, locals, m, h, hroom => by
    cases h
    exact ⟨[], locals, m, rfl, rfl, .refl m, by simpa using hroom⟩
  | v :: params, types, locals, m, h, hroom => by
    cases h with
    | @cons _ type _ types hv hparams =>
      obtain ⟨value, hvalue, hpassed⟩ := hv.passedAs
      have hroom' : m.HasRoom (params.length + n + 1) := by
        rwa [List.length_cons, Nat.add_right_comm] at hroom
      obtain ⟨next, hfresh, hleft⟩ := hroom'.freshId
      let m₁ : Module := { m with bound := next, debug := m.debug ++ [.nameOf m.bound v.name] }
      have hretains : m.Retains m₁ := { Retains.refl m with }
      obtain ⟨ids, scope, m', hopen, hids, hlater, hrest⟩ := openParams_of_passes (n := n) (m := m₁)
        (locals.put v.name ⟨m.bound, if v.isByReference then some .Function else none, value⟩)
        (hparams.imp fun _ _ hpasses => hpasses.mono hretains) hleft
      refine ⟨(type, m.bound) :: ids, scope, m', ?_, congrArg (type :: ·) hids, hretains.trans hlater, hrest⟩
      have hdeclared : declareType v.ty m = (.ok value, m) := hvalue
      have hnamed : addDebug (.nameOf m.bound v.name) { m with bound := next } = (.ok (), m₁) := rfl
      rw [openParams, bind_apply_ok hdeclared, bind_apply_ok hpassed,
        bind_apply_ok hfresh, bind_apply_ok hnamed, bind_apply_ok hopen]
      rfl

theorem functionNamed_of_room (name : String) (h : m.HasRoom (n + 1)) :
    ∃ id m', functionNamed name m = (.ok id, m') ∧ m.Retains m' ∧ m'.HasRoom n := by
  cases hname : m.functionIds.get? name with
  | some id =>
    refine ⟨id, m, findOrMake_of_some hname, .refl m, ?_⟩
    unfold HasRoom at h ⊢
    omega
  | none =>
    obtain ⟨next, hfresh, hleft⟩ := h.freshId
    refine ⟨m.bound, _, findOrMake_of_none hname hfresh, ?_, hleft⟩
    exact { Retains.refl m with
      functionIds := fun _ _ hold => OrderedMap.get?_put_of_get? _ hname hold }

theorem Signs.openFunction (h : m.Signs ret params type types id) (hroom : m.HasRoom (params.length + 1))
    (name : String) : ∃ f m', openFunction name ret params m = (.ok f, m') := by
  obtain ⟨function, m₁, hnamed, hretains, hleft⟩ := functionNamed_of_room (n := params.length) name hroom
  have h₁ := h.mono hretains
  obtain ⟨ids, scope, m₂, hopen, rfl, hlater, -⟩ := openParams_of_passes (n := 0) ∅ h₁.passes hleft
  have hsignature : declareSignature type (ids.map (·.1)) m₂ = (.ok id, m₂) := findOrMake_of_some (h₁.mono hlater).found
  have hreturns : Module.declareType ret m₁ = (.ok type, m₁) := h₁.returns
  refine ⟨{ function := { name, id := function, returnType := type, functionType := id, params := ids }
            locals := scope }, { m₂ with debug := m₂.debug ++ [.nameOf function name] }, ?_⟩
  unfold Module.openFunction
  rw [bind_apply_ok hnamed, bind_apply_ok hreturns, bind_apply_ok hopen]
  exact bind_apply_ok hsignature _

theorem backed_of_empty (h : m.findings = (∅, ∅, ∅, ∅, ∅, ∅)) : m.Backed := by
  simp only [findings, Prod.mk.injEq] at h
  obtain ⟨htypes, hpointers, hfunctionTypes, hliterals, hcomposites, hglobals⟩ := h
  constructor
  · intro key id hid
    rw [htypes] at hid
    cases hid
  · intro pointee storage id hid
    rw [hpointers] at hid
    cases hid
  · intro key id hid
    rw [hfunctionTypes] at hid
    cases hid
  · intro l id hid
    rw [hliterals] at hid
    cases hid
  · intro constituents type id hid
    rw [hcomposites] at hid
    cases hid
  · intro name e storage he
    rw [hglobals] at he
    cases he

theorem ofWords_backed {words : List Word} (h : ofWords words = .ok m) : m.Backed := by
  obtain ⟨p, -, h⟩ := Inst.bind_eq_ok_iff.1 h
  obtain ⟨r, hread, h⟩ := Inst.bind_eq_ok_iff.1 h
  have hempty := (readAll_sameNames _ hread).findings
  repeat' split at h
  all_goals cases h
  exact backed_of_empty hempty

end Module

/-! ## Arbitrary operations -/

namespace Workbench

variable {w : Workbench} {op : Operation}

theorem stands_keeping {P : Module → Prop} : w.Stands (.keeping P) (fun _ => True) ↔ P w.module :=
  ⟨fun h => h.ledger, fun h => ⟨h, fun _ _ => trivial⟩⟩

theorem perform_backed (hw : w.module.Backed) (op : Operation) : (w.perform op).2.module.Backed := by
  have hstands : w.Stands (.keeping Module.Backed) (fun _ => True) := stands_keeping.2 hw
  by_cases hop : op.builds
  · exact ((perform_change hop).stands running_backed (fun h => h) lasting_backed.stepwise.mark hstands).ledger
  · refine (hstands.perform_other hop (fun h => h) (fun target inst => ?_) fun words m _ hm => ?_).ledger
    · exact hw.grow ((Module.Grown.refl _).insert target inst) (Module.insert_sameNames _ _ _).findings
    · exact ofWords_backed hm

theorem run_backed (ops : List Operation) (hw : w.module.Backed) : (w.run ops).module.Backed := by
  induction ops generalizing w with
  | nil => exact hw
  | cons op ops ih => exact ih (perform_backed hw op)

/-- An operation that replaces nothing keeps what the module finds. -/
theorem perform_retains (hop : op.replaces = false) : w.module.Retains (w.perform op).2.module := by
  by_cases hbuilds : op.builds
  · exact (perform_change hbuilds).retains
  · have hstands : w.Stands (.keeping w.module.Retains) (fun _ => True) := stands_keeping.2 (.refl _)
    refine (hstands.perform_other hbuilds (fun h => h) (fun target inst => ?_) fun _ _ hreplaces _ => ?_).ledger
    · exact ((Grown.refl _).insert target inst).toRetains
    · rw [hop] at hreplaces
      cases hreplaces

theorem run_retains_all (ops : List Operation) (hops : ∀ op ∈ ops, op.replaces = false) :
    w.module.Retains (w.run ops).module := by
  induction ops generalizing w with
  | nil => exact .refl _
  | cons op ops ih =>
    obtain ⟨hop, hops⟩ := List.forall_mem_cons.1 hops
    exact (perform_retains hop).trans (ih hops)

theorem perform_openFunction {f : FunctionScope} {m : Module}
    (h : openFunction name ret params w.module = (.ok f, m)) : w.perform (.openFunction name ret params) =
      (.ok (.function f.function), { w with module := m, functions := w.functions.add f }) := by
  show (Work.onModule (openFunction name ret params) >>= _) w = _
  rw [Work.bind_apply, Work.onModule_apply, h]
  rfl

theorem perform_openFunction_ok {answer : Answer} {w' : Workbench}
    (h : w.perform (.openFunction name ret params) = (.ok answer, w')) :
    ∃ f : FunctionScope, answer = .function f.function ∧
      openFunction name ret params w.module = (.ok f, w'.module) := by
  rcases hopen : openFunction name ret params w.module with ⟨_ | f, m⟩
  · change (Work.onModule (openFunction name ret params) >>= _) w = _ at h
    rw [Work.bind_apply, Work.onModule_apply, hopen] at h
    cases h
  · rw [perform_openFunction hopen] at h
    cases h
    exact ⟨f, rfl, rfl⟩

theorem perform_type {ty : Ty} {id : Id} {m : Module} (h : declareType ty w.module = (.ok id, m)) :
    w.perform (.type ty none) = (.ok (.id id), { w with module := m }) := by
  show (Work.onModule (declareType ty) >>= _) w = _
  rw [Work.bind_apply, Work.onModule_apply, h]
  rfl

theorem perform_type_ok {ty : Ty} {answer : Answer} {w' : Workbench}
    (h : w.perform (.type ty none) = (.ok answer, w')) :
    ∃ id, answer = .id id ∧ declareType ty w.module = (.ok id, w'.module) := by
  rcases hdeclare : declareType ty w.module with ⟨_ | id, m⟩
  · change (Work.onModule (declareType ty) >>= _) w = _ at h
    rw [Work.bind_apply, Work.onModule_apply, hdeclare] at h
    cases h
  · rw [perform_type hdeclare] at h
    cases h
    exact ⟨id, rfl, rfl⟩

end Workbench

/-! ## Runs -/

/-- A function type has the same identifier whether it is declared with a function or by itself, and
whichever comes first; its operands are the types of result and parameters. Functions that differ in
names only share it. -/
theorem run_signatures_agree (config : Config) (before between : List Operation)
    (hbetween : ∀ op ∈ between, op.replaces = false) (name : String) (ret : Ty) (params : List Variable) :
    let w := (Workbench.start config).run before
    (∀ f w₁, w.perform (.openFunction name ret params) = (.ok (.function f), w₁) →
      let w₂ := w₁.run between
      .defining .TypeFunction f.functionType (f.returnType :: f.params.map (·.1)) ∈ w₁.module.declarations ∧
      (∃ types, w₂.perform (.type (.function ret params) none) =
        (.ok (.id f.functionType), { w₂ with module := { w₂.module with types } })) ∧
      ∀ name' params' f' w₃, List.Forall₂ Variable.PassedAlike params params' →
        w₂.perform (.openFunction name' ret params') = (.ok (.function f'), w₃) →
        f'.functionType = f.functionType ∧ f'.returnType = f.returnType ∧ f'.params.map (·.1) = f.params.map (·.1)) ∧
    ∀ id w₁, w.perform (.type (.function ret params) none) = (.ok (.id id), w₁) →
      let w₂ := w₁.run between
      (w₂.module.HasRoom (params.length + 1) →
        ∃ f w₃, w₂.perform (.openFunction name ret params) = (.ok (.function f), w₃)) ∧
      ∀ f w₃, w₂.perform (.openFunction name ret params) = (.ok (.function f), w₃) → f.functionType = id ∧
        .defining .TypeFunction id (f.returnType :: f.params.map (·.1)) ∈ w₃.module.declarations := by
  intro w
  have hw : w.module.Backed := Workbench.run_backed before (new_backed config)
  refine ⟨fun f w₁ hopen => ?_, fun id w₁ htype => ?_⟩
  · intro w₂
    have hw₁ := Workbench.perform_backed hw (.openFunction name ret params)
    rw [hopen] at hw₁
    obtain ⟨scope, hanswer, hbegun⟩ := Workbench.perform_openFunction_ok hopen
    obtain rfl := Answer.function.inj hanswer
    have hsigns := openFunction_signs hbegun
    have hlater := hsigns.mono (Workbench.run_retains_all between hbetween)
    refine ⟨hw₁.functionTypes _ _ hsigns.found, ?_, fun name' params' f' w₃ halike hopen' => ?_⟩
    · obtain ⟨types, hdeclare⟩ := hlater.declareType (Workbench.run_backed between hw₁)
      exact ⟨types, Workbench.perform_type hdeclare⟩
    · have hretains : w₂.module.Retains (w₂.perform (.openFunction name' ret params')).2.module :=
        Workbench.perform_retains rfl
      rw [hopen'] at hretains
      obtain ⟨scope', hanswer', hbegun'⟩ := Workbench.perform_openFunction_ok hopen'
      obtain rfl := Answer.function.inj hanswer'
      obtain ⟨hret, hparams, hid⟩ := (hlater.mono hretains).unique halike (openFunction_signs hbegun')
      exact ⟨hid.symm, hret.symm, hparams.symm⟩
  · intro w₂
    have hw₁ := Workbench.perform_backed hw (.type (.function ret params) none)
    rw [htype] at hw₁
    obtain ⟨id', hanswer, hdeclare⟩ := Workbench.perform_type_ok htype
    obtain rfl := Answer.id.inj hanswer
    obtain ⟨type, types, hsigns⟩ := declareType_signs hw₁ hdeclare
    have hlater := hsigns.mono (Workbench.run_retains_all between hbetween)
    refine ⟨fun hroom => ?_, fun f w₃ hopen => ?_⟩
    · obtain ⟨scope, m, hopen⟩ := hlater.openFunction hroom name
      exact ⟨_, _, Workbench.perform_openFunction hopen⟩
    · have hretains : w₂.module.Retains (w₂.perform (.openFunction name ret params)).2.module :=
        Workbench.perform_retains rfl
      have hw₃ := Workbench.perform_backed (Workbench.run_backed between hw₁) (.openFunction name ret params)
      rw [hopen] at hretains hw₃
      obtain ⟨scope, hanswer', hbegun⟩ := Workbench.perform_openFunction_ok hopen
      obtain rfl := Answer.function.inj hanswer'
      have hsigns' := openFunction_signs hbegun
      obtain ⟨-, -, hid⟩ := (hlater.mono hretains).unique_self hsigns'
      subst hid
      exact ⟨rfl, hw₃.functionTypes _ _ hsigns'.found⟩

/-- Parameters passed as a value, as a pointer for their type, and as one that is written. -/
def Variable.eachWay : List Variable :=
  [.root "a" (.scalar .float) { parameter := true }, .root "b" (.array (.scalar .int) (some 2)) { parameter := true },
    .root "c" (.scalar .int) { outParameter := true }]

def Operation.mixing : List Operation :=
  [.insert .declarations (.effect .Nop []), .literal (.int 7),
    .openFunction "g" (.scalar .int) [.root "x" (.scalar .float) { outParameter := true }]]

theorem eachWay_signatures_agree :
    let w := (Workbench.start {}).run [.literal (.uint 2)]
    let open_ : Operation := .openFunction "f" .void Variable.eachWay
    let type : Operation := .type (.function .void Variable.eachWay) none
    (∀ op ∈ Operation.mixing, op.replaces = false) ∧ (∃ f w₁ w₂, w.perform open_ = (.ok (.function f), w₁) ∧
        (w₁.run Operation.mixing).perform type = (.ok (.id f.functionType), w₂)) ∧
      ∃ id w₁ f w₂, w.perform type = (.ok (.id id), w₁) ∧
        (w₁.run Operation.mixing).perform open_ = (.ok (.function f), w₂) ∧
        f.functionType = id := by
  intro w open_ type
  have hbetween : ∀ op ∈ Operation.mixing, op.replaces = false := by decide
  obtain ⟨hbegun, hdeclared⟩ :=
    run_signatures_agree {} [.literal (.uint 2)] Operation.mixing hbetween "f" .void Variable.eachWay
  refine ⟨hbetween, ?_, ?_⟩
  · have hok : (openFunction "f" .void Variable.eachWay w.module).1.isOk := by decide +kernel
    obtain ⟨scope, hopen⟩ := exists_ok hok
    have hperform := Workbench.perform_openFunction hopen
    obtain ⟨-, ⟨types, htype⟩, -⟩ := hbegun _ _ hperform
    exact ⟨_, _, _, hperform, htype⟩
  · have hok : (declareType (.function .void Variable.eachWay) w.module).1.isOk := by decide +kernel
    obtain ⟨id, hdeclare⟩ := exists_ok hok
    have hperform := Workbench.perform_type hdeclare
    obtain ⟨hbegins, hagree⟩ := hdeclared _ _ hperform
    have hroom : (Workbench.run { w with module := (declareType (.function .void Variable.eachWay) w.module).2 }
        Operation.mixing).module.bound.toNat + 4 < UInt32.size := by decide +kernel
    obtain ⟨f, w₂, hopen⟩ := hbegins hroom
    exact ⟨id, _, f, w₂, hperform, hopen, (hagree f w₂ hopen).1⟩

end Shader
