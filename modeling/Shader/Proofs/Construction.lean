import Shader.Proofs.Found

/-!
# What construction of a module does to a ledger

Beyond types and literals, construction defines composite constants, names globals and functions, and
imports instruction sets. A ledger that stands through each of these stands through every step of
construction but the one that takes in a finished function.
-/

namespace Shader

open Action List OrderedMap Keeps

variable {m : Module}

variable {name : String} {e : Entity} {ty : Ty} {type id : Id} {scope : Scope} {storage : StorageClass}

/-! ## Identifiers in parts of a module -/

/-- The identifiers that instructions define. -/
def results (insts : List Inst) : List Id := insts.filterMap (·.result)

@[simp] theorem results_append (l l' : List Inst) : results (l ++ l') = results l ++ results l' := filterMap_append

theorem results_snoc {inst : Inst} (l : List Inst) (h : inst.result = some id) :
    results (l ++ [inst]) = results l ++ [id] := by
  simp [results, h]

/-- The label and the results in a block; the terminator has none. -/
def Block.ids (b : Block) : List Id := b.label :: results b.instructions

/-- The parameters and all results in a function, but not the function's own identifier. -/
def Function.ids (f : Function) : List Id := f.params.map (·.2) ++ (results f.queued ++ f.blocks.flatMap Block.ids)

def Entity.known (e : Entity) : List Known := [.value e.id, .type e.type]

def Scope.known (scope : Scope) : List Known := scope.values.flatMap Entity.known

def Scope.types (scope : Scope) : List Known := scope.values.map (.type ·.type)

theorem Scope.known_subset (h : scope.get? name = some e) : e.known ⊆ scope.known :=
  fun _ hk => mem_flatMap.2 ⟨e, mem_values h, hk⟩

theorem Scope.known_put_subset (scope : Scope) (name : String) (e : Entity) :
    Scope.known (scope.put name e) ⊆ e.known ++ scope.known := by
  intro k hk
  obtain ⟨e', he', hk'⟩ := mem_flatMap.1 hk
  rcases mem_cons.1 (values_put_subset scope name e he') with rfl | he'
  · exact mem_append_left _ hk'
  · exact mem_append_right _ (mem_flatMap.2 ⟨e', he', hk'⟩)

/-- The identifier of a variable that is queued and not yet defined. -/
def Declared.held (d : Declared) : List Id :=
  match d.queued with
  | none => []
  | some _ => [d.entity.id]

/-- What is known of a variable. One that goes into its function yet is not defined. -/
def Declared.known (d : Declared) : List Known :=
  match d.queued with
  | none => d.entity.known
  | some _ => [.type d.entity.type]

theorem Function.hoist_ids_perm (f : Function) : f.hoist.ids.Perm f.ids := by
  unfold Function.hoist
  cases hb : f.blocks with
  | nil => exact Perm.refl _
  | cons first rest =>
    refine Perm.append_left _ ?_
    simp only [hb, flatMap_cons, Block.ids, results_append, cons_append, append_assoc]
    exact perm_middle.symm

/-! ## Ledgers of modules -/

/-- The identifier is that of a specialization constant. -/
def Module.Specializes (m : Module) (id : Id) : Prop :=
  ∃ inst ∈ m.declarations, inst.result = some id ∧ inst.op.isSpecialization

theorem Module.Specializes.mono {m' : Module} (h : m.Specializes id)
    (hsubset : m.declarations ⊆ m'.declarations) : m'.Specializes id := by
  obtain ⟨inst, hmem, hinst⟩ := h
  exact ⟨inst, hsubset hmem, hinst⟩

/-- The layout of what is stored there, if its storage class has one. -/
def Entity.layout? (e : Entity) : Option MemoryLayout := e.storage.bind StorageClass.layout?

/-- The name is new, and the entity of a declared type: a specialization constant or a pointer to it. -/
structure Module.Introduces (m : Module) (name : String) (ty : Ty) (e : Entity) : Prop where
  isNew : m.globals.get? name = none
  isGlobal : e.storage ≠ some .Function
  finds : m.Finds e.layout? none ty e.type
  declared : ∃ inst ∈ m.declarations, inst.result = some e.id ∧
    (e.isValue → inst.resultType = some e.type ∧ inst.op.isSpecialization)
  points : ∀ storage, e.storage = some storage → ∃ pointer,
    .value .Variable pointer e.id [Enumerated.number storage] ∈ m.declarations ∧
      m.pointers.get? (e.type, storage) = some pointer

theorem Module.Introduces.mem_results (h : m.Introduces name ty e) : e.id ∈ results m.declarations := by
  obtain ⟨inst, hmem, hresult, -⟩ := h.declared
  exact mem_filterMap.2 ⟨inst, hmem, hresult⟩

theorem Module.Introduces.specializes (h : m.Introduces name ty e) (hvalue : e.isValue) : m.Specializes e.id := by
  obtain ⟨inst, hmem, hresult, hinst⟩ := h.declared
  exact ⟨inst, hmem, hresult, (hinst hvalue).2⟩

/-- A variable of that storage and type can be declared under the name outside of functions. -/
structure Module.Admits (m : Module) (name : String) (storage : StorageClass) (ty : Ty) (pointer type : Id) : Prop where
  isNew : m.globals.get? name = none
  isGlobal : storage ≠ .Function
  finds : m.Finds storage.layout? none ty type
  points : m.pointers.get? (type, storage) = some pointer

def Module.declaring (m : Module) (storage : StorageClass) (pointer id : Id) : Module :=
  { m with declarations := m.declarations ++ [.value .Variable pointer id [Enumerated.number storage]] }

def Module.withVariable (m : Module) (name : String) (storage : StorageClass) (pointer id type : Id) :
    Module :=
  { m.declaring storage pointer id with globals := m.globals.put name ⟨id, some storage, type⟩ }

theorem Module.Admits.introduces {pointer : Id} (h : m.Admits name storage ty pointer type) (id : Id) :
    (m.declaring storage pointer id).Introduces name ty ⟨id, some storage, type⟩ := by
  let inst := Inst.value .Variable pointer id [Enumerated.number storage]
  have hmem : inst ∈ m.declarations ++ [inst] := mem_append_right _ mem_cons_self
  refine ⟨h.isNew, by simpa using h.isGlobal, h.finds.mono { Retains.refl m with },
    ⟨inst, hmem, rfl, nofun⟩, fun storage' h' => ?_⟩
  cases h'
  exact ⟨pointer, hmem, h.points⟩

/-- A variable with a new name can become a member of one that was known before it. -/
structure Module.Adopts (m : Module) (P : List Known → Module → Prop) (key : String) (outer id : Id) : Prop where
  isNew : m.memberVariables.get? key = none
  before : ∃ m₀ known, P known m₀ ∧ m₀.bound = id ∧ m₀.memberVariables = m.memberVariables ∧
    (.value outer ∈ known ∨ ∃ name, m₀.variableNameOf? none outer = some name)

theorem Module.Adopts.imp {P Q : List Known → Module → Prop} {key : String} {outer : Id}
    (h : m.Adopts P key outer id) (hPQ : ∀ known m₀, P known m₀ → Q known m₀) : m.Adopts Q key outer id := by
  obtain ⟨m₀, known, hm₀, hrest⟩ := h.before
  exact ⟨h.isNew, m₀, known, hPQ known m₀ hm₀, hrest⟩

/-- A ledger that stands through every step of construction that introduces no other names. -/
structure Building (N : Names) (J : Ledger Module) (d : Bool := true) (strict : Prop := False) : Prop
    extends Declaring J d strict where
  composite : ∀ {held known} {m : Module} {next type : Id}
    {constituents : List Id}, J.Stands held known m → .type type ∈ known →
    constituents.map .value ⊆ known → m.composites.get? (constituents, type) = none →
    Word.add m.bound 1 = .ok next →
    J.Stands held (.value m.bound :: known) { m with
      bound := next
      declarations := m.declarations ++ [.value .ConstantComposite type m.bound constituents]
      composites := m.composites.put (constituents, type) m.bound }
  foundComposite : ∀ {held known} {m : Module} {key : List Id × Id} {id : Id},
    J.Stands held known m → m.composites.get? key = some id → J.Stands held (.value id :: known) m := by
    exact fun h _ => h
  specialize : ∀ {held known} {m : Module} {id : Id} {op : Op}
    (type : Id) (operands : List Word), J.Stands (id :: held) known m → op.isSpecialization →
    (strict → (Inst.value op type id operands).Rests known) → J.Stands held (.value id :: known)
      { m with declarations := m.declarations ++ [.value op type id operands] }
  globalVariable : ∀ {held known} {m : Module} {name : String} {ty : Ty}
    {storage : StorageClass} {pointer type : Id} (id : Id), J.Stands (id :: held) known m →
    .type type ∈ known → N name (some storage) ty → m.Admits name storage ty pointer type →
    J.Stands held (.value id :: known) (m.withVariable name storage pointer id type)
  global : ∀ {held known} {m : Module} {name : String} {ty : Ty} {e : Entity},
    J.Stands held known m → e.known ⊆ known → N name e.storage ty → m.Introduces name ty e →
    J.Stands held known { m with globals := m.globals.put name e }
  foundGlobal : ∀ {held known} {m : Module} {name : String} {e : Entity},
    J.Stands held known m → m.globals.get? name = some e → J.Stands held (e.known ++ known) m := by
    exact fun h _ => h
  imported : ∀ {held known} {m : Module} {next : Id}, ¬ strict → J.Stands held known m → Word.add m.bound 1 = .ok next →
    J.Stands held (.value m.bound :: known) { m with
      bound := next
      imports := m.imports ++ [{ op := .ExtInstImport, result := some m.bound, name := some Module.setName }]
      glslStd450 := some m.bound }
  foundImport : ∀ {held known} {m : Module} {id : Id}, ¬ strict →
    J.Stands held known m → m.glslStd450 = some id → J.Stands held (.value id :: known) m := by
    exact fun _ h _ => h
  named : ∀ {held known} {m : Module} {next : Id} {name : String},
    J.Stands held known m → m.functionIds.get? name = none → Word.add m.bound 1 = .ok next →
    J.Stands held (.function name m.bound :: known) { m with
      bound := next, functionIds := m.functionIds.put name m.bound }
  foundFunction : ∀ {held known} {m : Module} {name : String} {id : Id},
    J.Stands held known m → m.functionIds.get? name = some id →
    J.Stands held (.function name id :: known) m := by
    exact fun h _ => h
  member : ∀ {held known} {m : Module} {key : String} {outer id : Id}, J.Stands held known m → id ∈ held →
    m.Adopts (J.Stands []) key outer id →
    J.Stands held known { m with memberVariables := m.memberVariables.put key (outer, id) }

theorem Building.mono {N N' : Names} {J : Ledger Module} (hJ : Building N J)
    (hN : ∀ name storage ty, N' name storage ty → N name storage ty) : Building N' J :=
  { hJ with
    globalVariable := fun id h htype hname hnew => hJ.globalVariable id h htype (hN _ _ _ hname) hnew
    global := fun h he hname hnew => hJ.global h he (hN _ _ _ hname) hnew }

theorem Building.restrict {J : Ledger Module} (hJ : Building .any J) (N : Names) : Building N J :=
  hJ.mono fun _ _ _ _ => trivial

namespace Module

variable {N : Names} {J : Ledger Module} {d : Bool} {strict : Prop} {need : List Known}
  {params : List Variable} {locals : Scope} {ids : List (Id × Id)} {ret : Ty} {f : FunctionScope}

/-! ## Identifiers and constants -/

theorem importGlslStd450_steady (hJ : Building N J d strict) (hlax : ¬ strict) : Supplies J need importGlslStd450 := by
  refine findOrMake_steady (fun hm h => hJ.foundImport hlax hm h) fun m _ => ?_
  simp only [bind_assoc, pure_bind]
  exact freshId_bind_keepsAt fun _ hm hadd => ⟨_, _, rfl, hJ.imported hlax hm hadd⟩

theorem takeIntermediate_keeps (hJ : Declaring J d strict) :
    Keeps J [] need takeIntermediate (fun id => [id]) (fun _ => []) := by
  refine (freshId_keeps hJ).bind fun id => ?_
  refine ((modify_steady hJ fun _ => ?_).frame [id]).bind fun _ => .pure _ (Subperm.refl _) (nil_subset _)
  rfl

theorem releaseIntermediate_steady (hJ : Declaring J d strict) (id : Id) : Upholds J need (releaseIntermediate id) :=
  modify_steady hJ fun _ => rfl

theorem defineComposite_steady (hJ : Building N J d strict) {constituents : List Id}
    (hknown : constituents.map .value ⊆ need) (htype : .type type ∈ need)
    (hnew : m.composites.get? (constituents, type) = none) : KeepsAt J [] need
      (defineValue .ConstantComposite type constituents >>= fun id =>
        modify (fun m => { m with composites := m.composites.put (constituents, type) id }) >>= fun _ => pure id)
      (fun _ => []) (fun id => [.value id]) m := by
  unfold defineValue
  simp only [bind_assoc]
  exact freshId_bind_keepsAt fun hneed hm hadd =>
    ⟨_, _, rfl, hJ.composite hm (hneed htype) (fun k hk => hneed (hknown hk)) hnew hadd⟩

theorem declareComposite_steady (hJ : Building N J d strict) {constituents : List Id}
    (hknown : constituents.map .value ⊆ need) (ty : Ty) [ty.Allowed d] :
    Supplies J need (declareComposite constituents ty) := by
  refine (declareType_steady hJ.toDeclaring ty).bind fun type => ?_
  refine findOrMake_steady (fun hm hkey => hJ.foundComposite hm hkey) fun m hnew => ?_
  exact defineComposite_steady hJ (fun k hk => by simp [hknown hk]) (by simp) hnew

theorem isSpecialization_specDeclaration (l : Literal) : (specDeclaration l).1.isSpecialization := by
  cases l with
  | bool b => cases b <;> rfl
  | _ => rfl

theorem rests_specDeclaration (l : Literal) (type id : Id) :
    (Inst.value (specDeclaration l).1 type id (specDeclaration l).2).Rests [.type type] := by
  cases l with
  | bool b => cases b <;> simp [Inst.Rests, Inst.references, Inst.value, specDeclaration]
  | _ => simp [Inst.Rests, Inst.references, Inst.value, specDeclaration]

theorem addSpecialization_keeps (hJ : Building N J true strict) (hname : N name none ty) (specId : Word) {op : Op}
    (hop : op.isSpecialization) (id : Id) (htype : .type type ∈ need) {operands : List Word}
    (hrests : strict → (Inst.value op type id operands).Rests need) (hnew : m.globals.get? name = none)
    (hfinds : m.Finds none none ty type) : KeepsAt J [id] need (do
      addDeclaration (.value op type id operands)
      decorate id .SpecId [specId]
      modify fun m => { m with globals := m.globals.put name ⟨id, none, type⟩ }
      return id) (fun _ => []) (fun id => [.value id]) m := by
  intro held known hneed hm
  let inst := Inst.value op type id operands
  have hdeclared : J.Stands held (.value id :: known) { m with declarations := m.declarations ++ [inst] } :=
    hJ.specialize type operands hm hop fun hstrict => (hrests hstrict).mono hneed
  have hdecorate : Upholds J [.value id] (decorate id .SpecId [specId]) :=
    decorate_keeps hJ.toDeclaring .SpecId [specId] rfl fun _ => .inr ⟨.value id, mem_cons_self, rfl⟩
  have hdecorated := hdecorate.of_ok_nil rfl (by simp) hdeclared
  have hmem : inst ∈ m.declarations ++ [inst] := mem_append_right _ mem_cons_self
  refine hJ.global (e := ⟨id, none, type⟩) hdecorated ?_ hname
    ⟨hnew, nofun, hfinds.mono { Retains.refl m with }, ⟨inst, hmem, rfl, fun _ => ⟨rfl, hop⟩⟩, nofun⟩
  simp [Entity.known, hneed htype]

theorem declareSpecialization_steady (hJ : Building N J true strict) (hname : N name none ty) (specId : Word)
    (default : Literal) : Supplies J need (declareSpecialization name specId ty default) := by
  refine .get_bind fun m => ?_
  cases hold : m.globals.get? name with
  | some e =>
    intro held known _ hm
    exact J.drop (hJ.foundGlobal hm hold) (Subperm.refl _) (by simp [Entity.known])
  | none =>
    refine bind_at (declareType_steady hJ.toDeclaring ty m) fun type m₁ htype => ?_
    have hglobals : m₁.globals = m.globals := globals_of_declaring [] (fun J hJ => declareType_steady hJ ty) htype
    refine bind_at (freshId_keeps hJ.toDeclaring m₁) fun id m₂ hid => ?_
    obtain ⟨rfl, next, -, rfl⟩ := eq_of_freshId hid
    refine bind_at (addName_keeps hJ.toDeclaring (.held mem_cons_self) _) fun _ m₃ hm₃ => ?_
    cases hm₃
    refine addSpecialization_keeps hJ hname specId (isSpecialization_specDeclaration default) _
      (by simp) (fun _ => (rests_specDeclaration default type _).mono (by simp)) (hglobals ▸ hold)
      ((finds_of_ok htype).mono { Retains.refl m₁ with })

theorem declareFolded_steady (hJ : Building N J d) (type : Id) (op : Op) (operands : List Id) :
    Supplies J need (declareFolded type op operands) := by
  refine (freshId_keeps hJ.toDeclaring).bind fun id => ?_
  have hspecialize : Keeps J [id] ([] ++ need)
      (addDeclaration (.value .SpecConstantOp type id (Enumerated.number op :: operands)))
      (fun _ => []) (fun _ => [.value id]) :=
    fun _ _ _ _ hm => hJ.specialize type _ hm rfl nofun
  exact hspecialize.bind fun _ => Steady.pure _ (by simp)

/-! ## Variables -/

/-- Declares a variable with an identifier that was handed out before. -/
def placeVariable (id : Id) (name : String) (storage : StorageClass) (ty : Ty) : Build Declared := do
  let type ← declareTypeWith storage.layout? none ty
  let pointer ← declarePointer type storage
  let inst := Inst.value .Variable pointer id [Enumerated.number storage]
  let entity : Entity := ⟨id, some storage, type⟩
  if storage = .Function then
    return { entity, queued := some inst }
  addDeclaration inst
  modify fun m => { m with globals := m.globals.put name entity }
  return { entity }

theorem newVariable_keeps (hJ : Declaring J d strict) [ty.Allowed d]
    (hglobal : storage ≠ .Function → Building N J d strict) (hname : N name (some storage) ty)
    (hnew : storage ≠ .Function → m.globals.get? name = none) :
    KeepsAt J [] need (newVariable name storage ty) Declared.held Declared.known m := by
  refine bind_at (freshId_keeps hJ m) fun id m₁ hid => ?_
  obtain ⟨rfl, next, -, rfl⟩ := eq_of_freshId hid
  refine bind_at (addName_keeps hJ (.held mem_cons_self) _) fun _ m₂ hm₂ => ?_
  cases hm₂
  have hrest : ∀ (need : List Known) (id : Id) (m : Module), (storage ≠ .Function → m.globals.get? name = none) →
      KeepsAt J [id] need (placeVariable id name storage ty) Declared.held Declared.known m := by
    intro need id m hnew
    refine bind_at ((declareTypeWith_steady hJ _ _ ty _).frame [id] m) fun type m₁ htype => ?_
    refine bind_at ((declarePointer_steady hJ storage (by simp)).frame [id] m₁) fun pointer m₂ hpointer => ?_
    split
    case isTrue =>
      intro held known hneed hm
      have htype : .type type ∈ known := hneed (by simp)
      exact J.drop hm (Subperm.refl _) (by simp [Declared.known, htype])
    case isFalse hstorage =>
      have htypes := fun (J : Ledger Module) (hJ : Declaring J) => declareTypeWith_steady hJ storage.layout? none ty []
      have hpointers : ∀ J : Ledger Module, Declaring J → SuppliesType J [] (declarePointer type storage) :=
        fun J hJ => declarePointer_steady hJ storage nofun
      have hadmits : m₂.Admits name storage ty pointer type := by
        refine ⟨?_, hstorage, (finds_of_ok htype).mono (.of_declaring [] hpointers hpointer),
          declarePointer_ok hpointer⟩
        rw [globals_of_declaring [] hpointers hpointer, globals_of_declaring [] htypes htype]
        exact hnew hstorage
      intro held known hneed hm
      have htype : .type type ∈ known := hneed (by simp)
      refine J.drop ((hglobal hstorage).globalVariable id hm htype hname hadmits) (Subperm.refl _) ?_
      simp [Declared.known, Entity.known, htype]
  cases builtinNumber? name with
  | none => exact hrest _ _ _ hnew
  | some number =>
    refine bind_at (decorate_keeps hJ _ _ rfl (fun _ => .inl mem_cons_self) _) fun _ m₃ hm₃ => ?_
    cases hm₃
    exact hrest _ _ _ hnew

theorem declareVariable_keeps (hJ : Building N J d strict) {locals : Option Scope}
    (hlocals : ∀ name e, locals.bind (·.get? name) = some e → e.known ⊆ need) [ty.Allowed d]
    (hname : N name (some storage) ty) :
    Keeps J [] need (declareVariable locals name storage ty) Declared.held Declared.known := by
  refine .get_bind fun m => ?_
  dsimp only
  split
  case h_1 e hold =>
    intro held known hneed hm
    by_cases hf : storage = StorageClass.Function
    · rw [if_pos (by simpa using hf)] at hold
      exact J.drop hm (Subperm.refl _) (append_subset.2 ⟨fun _ hk => hneed (hlocals name e hold hk), fun _ hk => hk⟩)
    · rw [if_neg (by simpa using hf)] at hold
      exact hJ.foundGlobal hm hold
  case h_2 hold =>
    split
    · exact (refuse_bind _ rfl) m
    · refine newVariable_keeps hJ.toDeclaring (fun _ => hJ) hname fun hf => ?_
      rw [if_neg (by simpa using hf)] at hold
      exact hold

theorem declareByRole_keeps (hJ : Building N J d strict) {locals : Option Scope}
    (hlocals : ∀ name e, locals.bind (·.get? name) = some e → e.known ⊆ need) {v : Variable} [v.outermost.ty.Allowed d]
    (hname : v.NamedIn N) : Keeps J [] need (declareByRole locals v) Declared.held Declared.known := by
  refine get_bind fun m => ?_
  split
  case h_1 e hold =>
    intro held known hneed hm
    rcases Option.or_eq_some_iff.1 hold with hl | ⟨-, hg⟩
    · exact J.drop hm (Subperm.refl _) (append_subset.2 ⟨fun _ hk => hneed (hlocals _ e hl hk), fun _ hk => hk⟩)
    · exact hJ.foundGlobal hm hg
  case h_2 =>
    split
    · exact (refuse_bind _ rfl) m
    · refine get_bind (fun m => ?_) m
      exact declareVariable_keeps hJ hlocals (hname m.config.version) m

theorem declareTemporary_keeps (hJ : Declaring J d strict) (ty : Ty) [ty.Allowed d] :
    Keeps J [] need (declareTemporary ty) (fun p => [p.1]) (fun _ => []) := by
  refine (declareType_steady hJ ty).bind fun type => ?_
  refine (declarePointer_steady hJ _ (by simp)).bind fun pointer => ?_
  exact (freshId_keeps hJ).bind fun id => .pure _ (Subperm.refl _) (nil_subset _)

theorem nameMember_steady (hJ : Building N J d strict) {locals : Option Scope}
    (hlocals : ∀ scope, locals = some scope → scope.known ⊆ need) (outer : Id) (name : String) (index : Word) :
    Upholds J need (nameMember locals outer name index) := by
  refine get_bind fun m => ?_
  split
  · exact (Keeps.refuse rfl) m
  case h_2 outerName hname =>
  intro held known hneed hm
  have houter : .value outer ∈ known ∨ ∃ name, m.variableNameOf? none outer = some name := by
    rcases Option.or_eq_some_iff.1 hname with hlocal | ⟨-, hother⟩
    · obtain ⟨scope, hscope, hlocal⟩ := Option.bind_eq_some_iff.1 hlocal
      obtain ⟨e, he, hid⟩ := exists_of_keyOf? hlocal
      exact .inl (hneed (hlocals scope hscope (mem_flatMap.2 ⟨e, he, by simp [Entity.known, eq_of_beq hid]⟩)))
    · exact .inr ⟨outerName, hother⟩
  have hstart : J.Stands [] known m := J.drop hm nil_subperm (fun _ hk => hk)
  rw [Action.get_bind]
  cases hnew : m.memberVariables.get? (outerName ++ "::" ++ name) with
  | some entry => exact hm
  | none =>
  refine bind_at (freshId_keeps hJ.toDeclaring m) (fun id m₁ hfresh => ?_) held known hneed hm
  obtain ⟨rfl, next, -, rfl⟩ := eq_of_freshId hfresh
  refine bind_at ((declareLiteral_steady hJ.toDeclaring (.uint index)).frame [m.bound] _) fun _ m₂ hrun => ?_
  have hsame := (variables_of_declaring [] (fun _ hJ => declareLiteral_steady hJ (.uint index)) hrun).2
  intro held known' _ hs
  exact J.drop (hJ.member hs mem_cons_self ⟨hsame ▸ hnew, m, known, hstart, rfl, hsame.symm, houter⟩)
    (sublist_append_right _ _).subperm (fun _ hk => hk)

/-! ## The module as a whole -/

theorem bindResource_steady (hJ : Declaring J) (id : Id) (binding set : Word) :
    Upholds J need (bindResource id binding set) :=
  (decorate_keeps hJ _ _ rfl nofun).bind fun _ => decorate_keeps hJ _ _ rfl nofun

theorem bindBuffer_steady (hJ : Declaring J) (name : String) (binding set : Word)
    (mark : Decoration) : Upholds J need (bindBuffer name binding set mark) := by
  refine .get_bind fun m => ?_
  split
  · exact (refuse rfl) m
  · refine ((bindResource_steady hJ _ _ _).bind fun _ => .get_bind fun m => ?_) m
    split
    · refine ((modify_steady hJ fun _ => ?_).bind fun _ => decorate_keeps hJ _ _ rfl nofun) m
      rfl
    · exact Steady.done _ m

theorem addCapability_steady (hJ : Declaring J d) (c : Capability) : Upholds J need (addCapability c) := by
  refine Steady.modifies fun held known m hm => ?_
  dsimp only
  split
  · exact hm
  · exact hJ.alike (hJ.note (.effect .Capability [Enumerated.number c]) hm rfl ⟨nofun, rfl⟩ nofun nofun) rfl

theorem addExtension_steady (hJ : Declaring J) (name : String) : Upholds J need (addExtension name) := by
  refine Steady.modifies fun held known m hm => ?_
  split
  · exact hm
  · exact hJ.alike (hJ.note { op := .Extension, name := some name } hm rfl ⟨nofun, rfl⟩ nofun nofun) rfl

theorem addRequirements_steady (hJ : Declaring J) (r : Requirements) : Upholds J need (addRequirements r) :=
  Steady.forM (fun c _ => addCapability_steady hJ c) _ _

theorem addModes_stands (hJ : Declaring J) {held : List Id} {known : List Known} (function : Id)
    (modes : List (ExecutionMode × List Word)) : ∀ {m : Module}, J.Stands held known m → J.Stands held known { m with
      executionModes := m.executionModes ++ modes.map (fun p => modeInst function p.1 p.2) } := by
  induction modes with
  | nil =>
    intro m hm
    simpa using hm
  | cons p modes ih =>
    intro m hm
    have hfirst := hJ.note (modeInst function p.1 p.2) hm rfl ⟨nofun, rfl⟩ nofun nofun
    have hrest := ih hfirst
    simpa [insert, modeInst, Inst.effect, Op.section] using hrest

theorem addExecutionMode_steady (hJ : Declaring J) (mode : ExecutionMode) (operands : List Word) :
    Upholds J need (addExecutionMode mode operands) := by
  refine Steady.modifies fun held known m hm => ?_
  split
  case h_1 function _ => exact addModes_stands hJ function [(mode, operands)] hm
  case h_2 => exact hJ.alike hm rfl

theorem setEntryPoint_steady (hJ : Declaring J) (function : Id) (name : String) (inputs outputs : List Id) :
    Upholds J need (setEntryPoint function name inputs outputs) := by
  refine (Steady.modifies fun held known m hm => hJ.note {
    op := .EntryPoint
    resultType := some (Enumerated.number m.config.executionModel)
    result := some function
    name := some name
    operands := inputs ++ outputs } hm rfl ⟨nofun, rfl⟩ nofun nofun).bind fun _ => ?_
  have hmodes : ∀ need : List Known, Upholds J need (modify fun m : Module => { m with
      executionModes := m.executionModes ++ m.pendingModes.map (fun p => modeInst function p.1 p.2)
      pendingModes := [] }) := fun _ =>
    Steady.modifies fun _ _ m hm => hJ.alike (addModes_stands hJ function m.pendingModes hm) rfl
  refine Keeps.get_bind fun m => ?_
  split
  · refine (Keeps.get_bind fun m => ?_) m
    exact ((addExecutionMode_steady hJ _ _).bind fun _ => hmodes _) m
  · exact hmodes _ m

theorem functionNamed_steady (hJ : Building N J d strict) (name : String) :
    Steady J need (functionNamed name) (fun id => [.function name id]) :=
  findOrMake_steady (fun hm h => hJ.foundFunction hm h) fun _ hname =>
    freshId_bind_keepsAt fun _ hm hadd => ⟨_, _, rfl, hJ.named hm hname hadd⟩

theorem openParams_keeps (hJ : Declaring J true strict) :
    ∀ (params : List Variable) (locals : Scope) (need : List Known), (∀ e ∈ locals.values, .type e.type ∈ need) →
      Keeps J [] need (openParams locals params) (fun p => p.1.map (·.2))
        (fun p => p.2.types ++ (p.1.map (·.1)).map .type)
  | [], locals, need, h => by
    refine .pure _ (Subperm.refl _) fun k hk => ?_
    rw [map_nil, map_nil, append_nil] at hk
    obtain ⟨e, he, rfl⟩ := mem_map.1 hk
    exact h e he
  | param :: params, locals, need, h => by
    refine (declareType_steady hJ _).bind fun valueType => ?_
    refine (passedAs_steady hJ _ (by simp)).bind fun type => ?_
    refine (freshId_keeps hJ).bind fun id => ?_
    refine (addName_keeps hJ (.held mem_cons_self)).bind fun _ => ?_
    refine ((openParams_keeps hJ params _ _ fun e he => ?_).frame [id]).bind fun p => ?_
    · rcases mem_cons.1 (values_put_subset _ _ _ he) with rfl | he
      · simp
      · simp [h e he]
    · refine .pure _ ?_ (by simp +contextual)
      exact (perm_append_singleton id _).symm.subperm

theorem openFunction_keeps (hJ : Building N J true strict) (name : String) (ret : Ty) (params : List Variable) :
    Keeps J [] need (openFunction name ret params) (fun f => f.function.ids) (fun f => f.locals.types) := by
  refine (functionNamed_steady hJ name).bind fun id => ?_
  refine (declareType_steady hJ.toDeclaring ret).bind fun returnType => ?_
  refine (openParams_keeps hJ.toDeclaring params ∅ _ nofun).bind fun p => ?_
  refine ((declareSignature_steady hJ.toDeclaring fun _ => ?_).frame (p.1.map (·.2))).bind fun _ => ?_
  · simp
  refine (addName_keeps hJ.toDeclaring (.function (by simp))).bind fun _ => ?_
  refine .pure _ ?_ ?_
  · simpa [Function.ids, results] using Subperm.refl (p.1.map (·.2))
  · intro k hk
    simp [hk]

/-! ### What is begun -/

/-- The entity that the name of the parameter stands for, and the type under which it is passed. -/
structure Enters (m : Module) (param : Variable) (type : Id) (e : Entity) : Prop where
  storage : e.storage = if param.isByReference then some .Function else none
  finds : m.Finds none none param.ty e.type
  passed : if param.isByReference then m.pointers.get? (e.type, .Function) = some type
    else type = e.type

/-- Parameters of those types and identifiers take their names from the first scope to the second. -/
inductive Opens (m : Module) : Scope → List Variable → List (Id × Id) → Scope → Prop
  | nil (locals : Scope) : m.Opens locals [] [] locals
  | cons {locals scope : Scope} {param : Variable} {params : List Variable} {type : Id} {e : Entity}
      {ids : List (Id × Id)} (enters : m.Enters param type e)
      (rest : m.Opens (locals.put param.name e) params ids scope) :
      m.Opens locals (param :: params) ((type, e.id) :: ids) scope

variable {m' : Module}

theorem Enters.mono {param : Variable} (h : m.Enters param type e) (hm : m.Retains m') : m'.Enters param type e := by
  refine ⟨h.storage, h.finds.mono hm, ?_⟩
  have hpassed := h.passed
  split at hpassed
  · exact (if_pos ‹_›).mpr (hm.pointers _ _ hpassed)
  · exact (if_neg ‹_›).mpr hpassed

theorem Opens.mono (h : m.Opens locals params ids scope) (hm : m.Retains m') : m'.Opens locals params ids scope := by
  induction h with
  | nil => exact .nil _
  | cons enters _ ih => exact .cons (enters.mono hm) ih

theorem Opens.entity (h : m.Opens locals params ids scope) (he : scope.get? name = some e) : locals.get? name = some e ∨
      ∃ param ∈ params, ∃ type, param.name = name ∧ (type, e.id) ∈ ids ∧ m.Enters param type e := by
  induction h with
  | nil => exact .inl he
  | cons enters _ ih =>
    rcases ih he with hput | ⟨param, hparam, type, hname, hmem, hlater⟩
    · rcases eq_or_get?_of_get?_put hput with ⟨rfl, rfl⟩ | hold
      · exact .inr ⟨_, mem_cons_self, _, rfl, mem_cons_self, enters⟩
      · exact .inl hold
    · exact .inr ⟨param, mem_cons_of_mem _ hparam, type, hname, mem_cons_of_mem _ hmem, hlater⟩

theorem Opens.id_mem (h : m.Opens locals params ids scope) (he : e ∈ scope.values) :
    e ∈ locals.values ∨ e.id ∈ ids.map (·.2) := by
  induction h with
  | nil => exact .inl he
  | cons _ _ ih =>
    rcases ih he with he | hid
    · rcases mem_cons.1 (values_put_subset _ _ _ he) with rfl | he
      · exact .inr mem_cons_self
      · exact .inl he
    · exact .inr (mem_cons_of_mem _ hid)

theorem passedAs_ok {param : Variable} {valueType : Id} (h : passedAs param valueType m = (.ok type, m')) :
    if param.isByReference then m'.pointers.get? (valueType, .Function) = some type
    else type = valueType := by
  unfold passedAs at h
  split at h
  · exact (if_pos ‹_›).mpr (declarePointer_ok h)
  · exact (if_neg ‹_›).mpr (pure_ok h).1.symm

theorem openParams_opens : ∀ {params : List Variable} {locals scope : Scope} {ids : List (Id × Id)} {m m' : Module},
      openParams locals params m = (.ok (ids, scope), m') → m.Retains m' ∧ m'.Opens locals params ids scope
  | [], locals, scope, ids, m, m', h => by
    obtain ⟨hpair, rfl⟩ := pure_ok h
    obtain ⟨rfl, rfl⟩ := Prod.mk.inj hpair
    exact ⟨.refl _, .nil _⟩
  | param :: params, locals, scope, ids, m, m', h => by
    obtain ⟨valueType, m₁, hvalueType, h⟩ := bind_ok h
    obtain ⟨type, m₂, htype, h⟩ := bind_ok h
    obtain ⟨id, m₃, hid, h⟩ := bind_ok h
    obtain ⟨_, m₄, hdebug, h⟩ := bind_ok h
    obtain ⟨⟨ids', scope'⟩, m₅, hrest, h⟩ := bind_ok h
    obtain ⟨hpair, rfl⟩ := pure_ok h
    obtain ⟨rfl, rfl⟩ := Prod.mk.inj hpair
    obtain ⟨rfl, next, -, rfl⟩ := eq_of_freshId hid
    cases hdebug
    have hdeclared : m.Retains m₁ := .of_declaring [] (fun J hJ => declareType_steady hJ param.ty) hvalueType
    have hpassed : m₁.Retains m₂ :=
      .of_declaring [.type valueType] (fun J hJ => passedAs_steady hJ param mem_cons_self) htype
    obtain ⟨hrestored, hopens⟩ := openParams_opens hrest
    have hlater : m₂.Retains m₅ := { hrestored with }
    have henters : m₂.Enters param type ⟨m₂.bound, _, valueType⟩ :=
      ⟨rfl, (finds_of_ok hvalueType).mono hpassed, passedAs_ok htype⟩
    exact ⟨(hdeclared.trans hpassed).trans hlater, .cons (henters.mono hlater) hopens⟩

theorem functionNamed_ok (h : functionNamed name m = (.ok id, m')) : m'.functionIds.get? name = some id :=
  findOrMake_finds (fun _ => get?_put_self _ _ _) h

/-- The function is begun: it is known by its name and has parameters, but no blocks. -/
structure Begins (m : Module) (name : String) (ret : Ty) (params : List Variable) (f : FunctionScope) : Prop where
  isEmpty : f.function = { f.function with name, control := 0, queued := [], blocks := [] }
  returns : m.Finds none none ret f.function.returnType
  opens : m.Opens ∅ params f.function.params f.locals
  signature : m.functionTypes.get? (f.function.returnType :: f.function.params.map (·.1)) = some f.function.functionType
  named : m.functionIds.get? name = some f.function.id
  debug : .nameOf f.function.id name ∈ m.debug

theorem openFunction_begins (h : openFunction name ret params m = (.ok f, m')) : m'.Begins name ret params f := by
  obtain ⟨id, m₁, hid, h⟩ := bind_ok h
  obtain ⟨returnType, m₂, hret, h⟩ := bind_ok h
  obtain ⟨⟨ids, locals⟩, m₃, hparams, h⟩ := bind_ok h
  obtain ⟨functionType, m₄, htype, h⟩ := bind_ok h
  obtain ⟨_, hdebug, rfl⟩ := bind_pure_ok h
  cases hdebug
  have hreturned : m₁.Retains m₂ := .of_declaring [] (fun J hJ => declareType_steady hJ ret) hret
  obtain ⟨hretains, hopens⟩ := openParams_opens hparams
  have hsigned : m₃.Retains m₄ := .of_declaring [] (fun J hJ => declareSignature_steady hJ nofun) htype
  have hsignature := declareSignature_ok htype
  have hlater : m₂.Retains m₄ := hretains.trans hsigned
  exact {
    isEmpty := rfl
    returns := (finds_of_ok hret).mono { hlater with }
    opens := hopens.mono { hsigned with }
    signature := hsignature
    named := (hreturned.trans hlater).functionIds name id (functionNamed_ok hid)
    debug := mem_append_right _ mem_cons_self }

theorem Begins.entity (h : m.Begins name ret params f) {n : String} (he : f.locals.get? n = some e) :
    ∃ param ∈ params, ∃ type, param.name = n ∧ (type, e.id) ∈ f.function.params ∧ m.Enters param type e :=
  (h.opens.entity he).resolve_left nofun

theorem Begins.id_mem (h : m.Begins name ret params f) (he : e ∈ f.locals.values) :
    e.id ∈ f.function.params.map (·.2) :=
  (h.opens.id_mem he).resolve_left nofun

theorem freshBlock_keeps (hJ : Declaring J) : Keeps J [] need freshBlock Block.ids (fun _ => []) :=
  (freshId_keeps hJ).bind fun _ => .pure _ (Subperm.refl _) (nil_subset _)

theorem declareGlobals_steady (hJ : Building N J) :
    ∀ (vs : List Variable), (∀ v ∈ vs, v.NamedIn N) → ∀ (ids : List Id) (need : List Known),
      Upholds J need (declareGlobals ids vs)
  | [], _, _, _ => .done _
  | v :: vs, hvs, ids, need => by
    obtain ⟨hv, hvs⟩ := forall_mem_cons.1 hvs
    have hdeclare : Keeps J [] need (declareByRole none v) Declared.held Declared.known :=
      declareByRole_keeps hJ (by simp) hv
    have hsteady : Upholds J need (declareByRole none v) :=
      hdeclare.weaken (fun _ => nil_subperm) (fun _ => nil_subset _)
    exact Steady.bind hsteady fun _ => declareGlobals_steady hJ vs hvs _ _

theorem declareInterface_steady (hJ : Building N J) {r : Requirements}
    (hr : ∀ v ∈ r.inputs.values ++ r.outputs.values, v.NamedIn N) : Upholds J need (declareInterface r) := by
  obtain ⟨hinputs, houtputs⟩ := forall_mem_append.1 hr
  refine (declareGlobals_steady hJ _ hinputs _ _).bind fun inputs => ?_
  exact (declareGlobals_steady hJ _ houtputs _ _).bind fun outputs => Steady.done _

end Module

end Shader
