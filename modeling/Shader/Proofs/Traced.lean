import Shader.Proofs.Run

/-!
# Identifiers and their definitions

What a module finds is declared, and so is all that is known while it is built. What is defined in
functions is left open: some identifiers count as defined elsewhere.
-/

namespace Shader

open List Module OrderedMap

variable {m m' : Module} {id : Id} {k : Known} {inst : Inst}

theorem results_subset_append (l l' : List Inst) : results l ⊆ results (l ++ l') := by
  rw [results_append]
  exact subset_append_left _ _

theorem mem_results_snoc (l : List Inst) (h : inst.result = some id) : id ∈ results (l ++ [inst]) := by
  rw [results_snoc _ h]
  exact mem_append_right _ mem_cons_self

/-! ## Registries -/

/-- Whatever the module finds is declared in it. -/
structure Module.Closed (m : Module) : Prop where
  types : ∀ id ∈ m.typeIds, id ∈ results m.declarations
  literals : ∀ l id, m.literals.get? l = some id → id ∈ results m.declarations
  composites : ∀ key id, m.composites.get? key = some id → id ∈ results m.declarations
  globals : ∀ name e, m.globals.get? name = some e → e.id ∈ results m.declarations ∧ e.type ∈ results m.declarations
  imported : ∀ id, m.glslStd450 = some id → id ∈ results m.imports

namespace Module.Closed

theorem noted (h : m.Closed) (hm : m.Noted m') : m'.Closed := by
  rw [hm]
  exact { h with }

theorem declare (h : m.Closed) (inst : Inst) : Closed { m with declarations := m.declarations ++ [inst] } where
  types id hid := results_subset_append _ _ (h.types id hid)
  literals l id hl := results_subset_append _ _ (h.literals l id hl)
  composites key id hkey := results_subset_append _ _ (h.composites key id hkey)
  globals name e he :=
    ⟨results_subset_append _ _ (h.globals name e he).1, results_subset_append _ _ (h.globals name e he).2⟩
  imported := h.imported

theorem insert (h : m.Closed) (s : Section) (inst : Inst) : (m.insert s inst).Closed := by
  cases s with
  | declarations => exact h.declare inst
  | imports =>
    exact { h with imported := fun id hid => results_subset_append _ _ (h.imported id hid) }
  | _ => exact { h with }

theorem findType (h : m.Closed) (hid : id ∈ results m.declarations)
    (hm : m' = { m with types := m'.types, pointers := m'.pointers, functionTypes :=
      m'.functionTypes }) (htypes : m'.typeIds ⊆ id :: m.typeIds) : m'.Closed := by
  rw [hm] at htypes ⊢
  refine { h with types := fun id' hid' => ?_ }
  rcases mem_cons.1 (htypes hid') with rfl | hid'
  · exact hid
  · exact h.types id' hid'

theorem remember (h : m.Closed) {P : Module → Prop} (hid : id ∈ results m.declarations)
    (hm : m.Remembers P id m') : m'.Closed :=
  h.findType hid hm.same hm.typeIds

theorem putLiteral (h : m.Closed) (l : Literal) (hid : id ∈ results m.declarations) :
    Closed { m with literals := m.literals.put l id } := by
  refine { h with literals := fun l' id' hl' => ?_ }
  rcases eq_or_get?_of_get?_put hl' with ⟨-, rfl⟩ | hold
  · exact hid
  · exact h.literals l' id' hold

theorem putComposite (h : m.Closed) (key : List Id × Id) (hid : id ∈ results m.declarations) :
    Closed { m with composites := m.composites.put key id } := by
  refine { h with composites := fun key' id' hkey' => ?_ }
  rcases eq_or_get?_of_get?_put hkey' with ⟨-, rfl⟩ | hold
  · exact hid
  · exact h.composites key' id' hold

theorem putGlobal (h : m.Closed) (name : String) {e : Entity} (hid : e.id ∈ results m.declarations)
    (htype : e.type ∈ results m.declarations) : Closed { m with globals := m.globals.put name e } := by
  refine { h with globals := fun name' e' he' => ?_ }
  rcases eq_or_get?_of_get?_put he' with ⟨-, rfl⟩ | hold
  · exact ⟨hid, htype⟩
  · exact h.globals name' e' hold

end Module.Closed

/-! ## The ledger -/

/-- What is known of an identifier, if those in `V` are defined elsewhere. -/
def Known.Defined (V : Id → Prop) (m : Module) : Known → Prop
  | .value id => V id ∨ id ∈ results m.imports ∨ id ∈ results m.declarations
  | .type id => id ∈ results m.declarations
  | .function name id => m.functionIds.get? name = some id

theorem Known.Defined.mono {V V' : Id → Prop} (h : k.Defined V m)
    (hV : ∀ id, V id → V' id) (hm : m.Grown m') : k.Defined V' m' := by
  have himports : results m.imports ⊆ results m'.imports := (hm.imports.filterMap _).subset
  have hdecls : results m.declarations ⊆ results m'.declarations := (hm.declarations.filterMap _).subset
  cases k with
  | value id => exact h.imp (hV id) (Or.imp (fun h => himports h) (fun h => hdecls h))
  | type id => exact hdecls h
  | function name id => exact hm.functionIds name id h

/-- What is known is declared, or `V` holds of it. -/
structure Traced (V : Id → Prop) (known : List Known) (m : Module) : Prop where
  closed : m.Closed
  known : ∀ k ∈ known, k.Defined V m

namespace Traced

variable {V : Id → Prop} {known : List Known}

theorem know (h : Traced V known m) (hk : k.Defined V m) : Traced V (k :: known) m :=
  ⟨h.closed, forall_mem_cons.2 ⟨hk, h.known⟩⟩

theorem know_after (before : List Known) (h : Traced V (before ++ known) m) (hk : k.Defined V m) :
    Traced V (before ++ k :: known) m :=
  ⟨h.closed, fun k' hk' => (h.know hk).known k' (perm_middle.mem_iff.1 hk')⟩

theorem mono (h : Traced V known m) {V' : Id → Prop} (hV : ∀ id, V id → V' id) : Traced V' known m :=
  ⟨h.closed, fun k hk => (h.known k hk).mono hV (.refl m)⟩

theorem grow (h : Traced V known m) (hm : m.Grown m') (hclosed : m'.Closed) : Traced V known m' :=
  ⟨hclosed, fun k hk => (h.known k hk).mono (fun _ h => h) hm⟩

theorem fresh (h : Traced V known m) {next : Id} (hnext : Word.add m.bound 1 = .ok next) :
    Traced V known { m with bound := next } :=
  h.grow ((Grown.refl m).fresh hnext) { h.closed with }

theorem declare (h : Traced V known m) (hid : inst.result = some id) (hk : k = .value id ∨ k = .type id) :
    Traced V (k :: known) { m with declarations := m.declarations ++ [inst] } := by
  have hmem : id ∈ results (m.declarations ++ [inst]) := mem_results_snoc _ hid
  refine (h.grow ((Grown.refl m).addDeclaration inst) (h.closed.declare inst)).know ?_
  rcases hk with rfl | rfl
  · exact .inr (.inr hmem)
  · exact hmem

end Traced

/-- All that is found is declared, and so is what is known. -/
def Ledger.traced (V : Id → Prop) : Ledger Module where
  Stands _ known m := Traced V known m
  drop h _ hknown := ⟨h.closed, fun k hk => h.known k (hknown hk)⟩

theorem stepwise_traced (V : Id → Prop) : Stepwise (.traced V) where
  alike {held known m m'} h ha := by
    refine h.grow ?_ (h.closed.noted ha.noted)
    rw [ha]
    exact { Grown.refl m with }
  note {held known m} inst h _ _ := h.grow ((Grown.refl m).insert _ inst) (h.closed.insert _ inst)
  name {held known m id name} h _ := h.grow ((Grown.refl m).addDebug _) (h.closed.noted rfl)
  fresh h hnext := h.fresh hnext
  type _ h _ := h.declare rfl (.inr rfl)
  remember {held known m m' id} h hid hm' :=
    h.grow ((Grown.refl m).remember hm') (h.closed.remember (h.known _ hid) hm')
  foundType h hid := h.know (h.closed.types _ hid)
  literal {held known m next type} l h _ hlacks hnext := by
    have hdeclared := (h.fresh hnext).declare (k := .value m.bound) (rfl : (l.inst type _).result = _) (.inl rfl)
    exact hdeclared.grow ((Grown.refl _).putLiteral _ hlacks.literal)
      (hdeclared.closed.putLiteral l (mem_results_snoc _ rfl))
  foundLiteral h hl := h.know (.inr (.inr (h.closed.literals _ _ hl)))

theorem building_traced (V : Id → Prop) : Building .any (.traced V) where
  toDeclaring := (stepwise_traced V).declaring
  composite {held known m next type constituents} h _ _ hnew hnext := by
    let inst := Inst.value .ConstantComposite type m.bound constituents
    have hdeclared := (h.fresh hnext).declare (k := .value m.bound) (rfl : inst.result = _) (.inl rfl)
    exact hdeclared.grow ((Grown.refl _).putComposite _ hnew)
      (hdeclared.closed.putComposite (constituents, type) (mem_results_snoc _ rfl))
  foundComposite h hkey := h.know (.inr (.inr (h.closed.composites _ _ hkey)))
  specialize _ _ h _ _ := h.declare rfl (.inl rfl)
  globalVariable {held known m name ty storage pointer type} id h htype _ hnew := by
    let inst := Inst.value .Variable pointer id [Enumerated.number storage]
    have hdeclared := h.declare (k := .value id) (rfl : inst.result = _) (.inl rfl)
    exact hdeclared.grow ((Grown.refl _).putGlobal ⟨id, some storage, type⟩ hnew.isNew)
      (hdeclared.closed.putGlobal name (mem_results_snoc _ rfl)
        (hdeclared.known (.type type) (mem_cons_of_mem _ htype)))
  global {held known m name ty e} h he _ hnew :=
    h.grow ((Grown.refl m).putGlobal e hnew.isNew) (h.closed.putGlobal name hnew.mem_results
      (h.known (.type e.type) (he (by simp [Entity.known]))))
  foundGlobal {held known m name e} h he := by
    obtain ⟨hid, htype⟩ := h.closed.globals _ _ he
    exact (h.know (k := .type e.type) htype).know (k := .value e.id) (.inr (.inr hid))
  imported {held known m next} _ h hnext := by
    let inst : Inst := { op := .ExtInstImport, result := some m.bound, name := some setName }
    have hmem : m.bound ∈ results (m.imports ++ [inst]) := mem_results_snoc _ rfl
    refine ⟨{ h.closed with imported := ?_ }, forall_mem_cons.2 ⟨.inr (.inl hmem), ?_⟩⟩
    · rintro id ⟨⟩
      exact hmem
    · refine fun k hk => (h.known k hk).mono (fun _ h => h) ?_
      exact { (Grown.refl m).fresh hnext with imports := prefix_append _ _ }
  foundImport _ h hid := h.know (.inr (.inl (h.closed.imported _ hid)))
  named {held known m next name} h habsent hnext :=
    (h.grow ((Grown.refl m).addFunction habsent hnext) { h.closed with }).know
      (k := .function name m.bound) (get?_put_self _ _ _)
  foundFunction h hname := h.know hname
  member {_ _ m _ _ _} h _ _ := h.grow { Grown.refl m with } (h.closed.noted rfl)

/-- Names of the function stand for its parameters and queued variables. -/
def FunctionScope.Placed (f : FunctionScope) : Prop :=
  ∀ e ∈ f.locals.values, e.id ∈ f.function.params.map (·.2) ∨ e.id ∈ results f.function.queued

theorem FunctionScope.Placed.queue {f : FunctionScope} (h : f.Placed) (inst : Inst) : (f.queue inst).Placed :=
  fun e he => (h e he).imp_right fun hq => results_subset_append _ _ hq

theorem FunctionScope.Placed.take {f : FunctionScope} (h : f.Placed) (name : String) {e : Entity}
    (hinst : inst.result = some e.id) : (f.take name ⟨e, some inst⟩).Placed := by
  intro e' he'
  rcases mem_cons.1 (values_put_subset _ _ _ he') with rfl | he'
  · exact .inr (mem_results_snoc _ hinst)
  · exact (h e' he').imp_right fun hq => results_subset_append _ _ hq

theorem running_traced : Running (.traced fun _ => True) FunctionScope.Placed where
  building := building_traced _
  noResult h := h.know (.inl trivial)
  placed h _ := h.know (.inl trivial)
  queue _ _ h := h.queue _
  take _ h _ _ _ := h.take _ rfl
  opened hrun _ _ he := .inl ((openFunction_begins hrun).id_mem he)
  closed _ h := ⟨{ h.closed with }, h.known⟩

theorem Traced.refers {known : List Known} (h : Traced (fun _ => True) known m)
    (ids : List Id) : Traced (fun _ => True) (ids.map .value ++ known) m := by
  refine ⟨h.closed, fun k hk => ?_⟩
  rcases mem_append.1 hk with hk | hk
  · obtain ⟨id, -, rfl⟩ := mem_map.1 hk
    exact .inl trivial
  · exact h.known k hk

theorem Module.start_closed (config : Config) : (Workbench.start config).module.Closed := by
  refine ⟨fun _ h => (nomatch h), fun _ _ h => (nomatch h), fun _ _ h => (nomatch h), fun _ _ h => (nomatch h), ?_⟩
  rintro id ⟨⟩
  exact mem_cons_self

end Shader
