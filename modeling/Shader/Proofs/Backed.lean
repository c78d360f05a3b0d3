import Shader.Proofs.Registry

/-!
# Declarations behind what is found

What a module finds by what it is has an instruction behind it: a type is declared with the types of its
parts, a literal with its bits, a pointer type with its storage class and its pointee, and a name that
stands for storage is that of a variable or a parameter with such a type.
-/

namespace Shader

open Action OrderedMap

variable {m m' : Module}

variable {id : Id}

namespace Module

variable {key : TypeIdentity} {param : Variable} {type : Id}

/-! ## Types -/

/-- The type of the parameter, or the type of pointers to it. -/
def Passes (m : Module) (param : Variable) (type : Id) : Prop :=
  ∃ valueType, m.Finds none none param.ty valueType ∧
    if param.isByReference then m.pointers.get? (valueType, .Function) = some type
    else type = valueType

theorem Passes.mono (h : m.Passes param type) (hm : m.Retains m') : m'.Passes param type := by
  obtain ⟨valueType, hfinds, htype⟩ := h
  refine ⟨valueType, hfinds.mono hm, ?_⟩
  split
  case isTrue hreference =>
    rw [if_pos hreference] at htype
    exact hm.pointers _ _ htype
  case isFalse hvalue => rwa [if_neg hvalue] at htype

theorem Opens.passes {params : List Variable} {locals scope : Scope} {ids : List (Id × Id)}
    (h : m.Opens locals params ids scope) : List.Forall₂ m.Passes params (ids.map (·.1)) := by
  induction h with
  | nil => exact .nil
  | cons enters _ ih => exact .cons ⟨_, enters.finds, enters.passed⟩ ih

/-- The type of the key is declared with the types of its parts, and is a signature, if it is that of a
function. -/
def HasParts (m : Module) : TypeIdentity → Id → Prop
  | .plain .void, id => .defining .TypeVoid id [] ∈ m.declarations
  | .plain (.scalar s), id => .defining (scalarDeclaration s).1 id (scalarDeclaration s).2 ∈ m.declarations
  | .plain (.vector s n), id =>
    ∃ component, m.Finds none none (.scalar s) component ∧ .defining .TypeVector id [component, n] ∈ m.declarations
  | .plain (.matrix s columns rows), id =>
    ∃ column, m.Finds none none (.vector s rows) column ∧ .defining .TypeMatrix id [column, columns] ∈ m.declarations
  | .plain (.struct _ layout members), id =>
    ∃ types, List.Forall₂ (fun (member : Member) type =>
        m.Finds (some layout) member.arrayStride member.ty type) members types ∧
      .defining .TypeStruct id types ∈ m.declarations
  | .array element (some n) _, id =>
    ∃ length, m.literals.get? (.uint n) = some length ∧ .defining .TypeArray id [element, length] ∈ m.declarations
  | .array element none _, id => .defining .TypeRuntimeArray id [element] ∈ m.declarations
  | .tuple members, id => .defining .TypeStruct id members ∈ m.declarations
  | .plain (.image c), id =>
    ∃ texel, m.Finds none none (.scalar c.sampled) texel ∧
      .defining .TypeImage id (imageOperands texel c) ∈ m.declarations
  | .plain (.sampledImage c), id =>
    ∃ image, m.Finds none none (.image c) image ∧ .defining .TypeSampledImage id [image] ∈ m.declarations
  | .plain (.sampler false), id => .defining .TypeSampler id [] ∈ m.declarations
  | .plain (.function ret params), id =>
    ∃ type types, m.Finds none none ret type ∧ List.Forall₂ m.Passes params types ∧
      m.functionTypes.get? (type :: types) = some id
  | .plain (.array ..), _ | .plain (.sampler true), _ => True

theorem HasParts.mono (h : m.HasParts key id) (hm : m.Retains m')
    (hdeclarations : m.declarations <+: m'.declarations) : m'.HasParts key id := by
  have hpart : ∀ {ty : Ty} {inst : Id → Inst}, (∃ part, m.Finds none none ty part ∧ inst part ∈ m.declarations) →
      ∃ part, m'.Finds none none ty part ∧ inst part ∈ m'.declarations := by
    rintro ty inst ⟨part, hfinds, hmem⟩
    exact ⟨part, hfinds.mono hm, hdeclarations.subset hmem⟩
  unfold HasParts at h ⊢
  split at h
  case h_3 | h_4 | h_9 | h_10 => exact hpart h
  case h_5 =>
    obtain ⟨types, hfinds, hmem⟩ := h
    exact ⟨types, hfinds.imp fun _ _ hfinds => hfinds.mono hm, hdeclarations.subset hmem⟩
  case h_6 =>
    obtain ⟨length, hlength, hmem⟩ := h
    exact ⟨length, hm.literals _ _ hlength, hdeclarations.subset hmem⟩
  case h_12 =>
    obtain ⟨type, types, htype, htypes, hsignature⟩ := h
    exact ⟨type, types, htype.mono hm, htypes.imp fun _ _ hpasses => hpasses.mono hm, hm.functionTypes _ _ hsignature⟩
  case h_13 | h_14 => trivial
  all_goals exact hdeclarations.subset h

theorem cachedType_new {make : Build Id} (h : cachedType key make m = (.ok id, m'))
    (hnew : m.types.get? key = none) (hmissing : Upholds (.lacking key) [] make) :
    ∃ m₁, make m = (.ok id, m₁) ∧ m₁.Retains m' ∧ m'.declarations = m₁.declarations := by
  rcases findOrMake_ok h with ⟨hfound, -⟩ | ⟨-, m₁, hmake, rfl⟩
  · cases hnew.symm.trans hfound
  · have hm₁ : (Ledger.lacking key).Stands [] [] m₁ := hmissing.of_ok_nil hmake (List.nil_subset _) hnew
    refine ⟨m₁, hmake, { Retains.refl m₁ with types := fun key' id' h' => ?_ }, rfl⟩
    exact get?_put_of_get? _ hm₁ h'

theorem declareMembers_finds (layout : MemoryLayout) : ∀ {members : List Member} {types : List Id} {m m' : Module},
      declareMembers layout members m = (.ok types, m') →
      List.Forall₂ (fun (member : Member) type =>
        m'.Finds (some layout) member.arrayStride member.ty type) members types
  | [], types, m, m', h => by
    obtain ⟨rfl, rfl⟩ := pure_ok h
    exact .nil
  | ⟨name, ty, offset, stride⟩ :: members, types, m, m', h => by
    obtain ⟨type, m₁, htype, h⟩ := bind_ok h
    obtain ⟨rest, hrest, rfl⟩ := bind_pure_ok h
    refine .cons ((finds_of_ok htype).mono ?_) (declareMembers_finds layout hrest)
    exact .of_declaring [] (fun J hJ => declareMembers_steady hJ layout members [] fun _ => rfl) hrest

theorem passedAs_passes {valueType : Id} (hfinds : m.Finds none none param.ty valueType)
    (h : passedAs param valueType m = (.ok type, m')) : m'.Passes param type := by
  have hretains : m.Retains m' :=
    .of_declaring [.type valueType] (fun J hJ => passedAs_steady hJ param List.mem_cons_self) h
  exact ⟨valueType, hfinds.mono hretains, passedAs_ok h⟩

theorem declareParam_passes (h : declareParam param m = (.ok type, m')) : m'.Passes param type := by
  cases param <;> rw [declareParam] at h
  all_goals
    obtain ⟨valueType, m₁, hvalueType, hpassed⟩ := bind_ok h
    exact passedAs_passes (finds_of_ok hvalueType) hpassed

theorem declareParams_passes : ∀ {params : List Variable} {types : List Id} {m m' : Module},
      declareParams params m = (.ok types, m') → List.Forall₂ m'.Passes params types
  | [], types, m, m', h => by
    obtain ⟨rfl, rfl⟩ := pure_ok h
    exact .nil
  | v :: params, types, m, m', h => by
    obtain ⟨type, m₁, htype, h⟩ := bind_ok h
    obtain ⟨rest, hrest, rfl⟩ := bind_pure_ok h
    refine .cons ((declareParam_passes htype).mono ?_) (declareParams_passes hrest)
    exact .of_declaring [] (fun J hJ => declareParams_steady hJ params [] fun _ => rfl) hrest

theorem decorateStride_ok {id' : Id} {stride : Option Word} (h : (do
      if let some stride := stride then decorate id .ArrayStride [stride]
      return id : Build Id) m = (.ok id', m')) :
    id = id' ∧ m.Retains m' ∧ m.declarations = m'.declarations := by
  cases stride with
  | none =>
    obtain ⟨rfl, rfl⟩ := pure_ok h
    exact ⟨rfl, .refl _, rfl⟩
  | some stride =>
    obtain ⟨_, hdecorate, rfl⟩ := bind_pure_ok h
    cases hdecorate
    exact ⟨rfl, { Retains.refl m with }, rfl⟩

theorem declareArray_hasParts {element : Id} {length stride : Option Word}
    (hnew : m.types.get? (.array element length stride) = none)
    (h : declareArray element length stride m = (.ok id, m')) : m'.HasParts (.array element length stride) id := by
  obtain ⟨m₁, hmake, hretains, hdeclarations⟩ := cachedType_new h hnew (makeArray_lacking nofun)
  cases length with
  | none =>
    obtain ⟨id', m₂, hdefine, hmake⟩ := bind_ok hmake
    obtain ⟨rfl, -, hsame⟩ := decorateStride_ok hmake
    show _ ∈ m'.declarations
    rw [hdeclarations, ← hsame]
    exact mem_of_define hdefine
  | some n =>
    obtain ⟨count, m₃, hliteral, hmake⟩ := bind_ok hmake
    obtain ⟨id', m₂, hdefine, hmake⟩ := bind_ok hmake
    obtain ⟨rfl, hlater, hsame⟩ := decorateStride_ok hmake
    refine ⟨count, ?_, ?_⟩
    · have hdefined : m₃.Retains m₂ :=
        .of_define hdefine
      exact (hdefined.trans (hlater.trans hretains)).literals _ _ (declareLiteral_ok hliteral)
    · rw [hdeclarations, ← hsame]
      exact mem_of_define hdefine

theorem cachedType_defines {op : Op} {operands : List Word} (h : cachedType key (define op operands) m = (.ok id, m'))
    (hnew : m.types.get? key = none) : .defining op id operands ∈ m'.declarations := by
  obtain ⟨m₁, hdefine, -, hdeclarations⟩ := cachedType_new h hnew (define_lacking _ _)
  rw [hdeclarations]
  exact mem_of_define hdefine

theorem cachedType_hasPart {op : Op} {operands : Id → List Word} {ty : Ty} (hnew : m.types.get? key = none)
    (h : cachedType key (declareType ty >>= fun part => define op (operands part)) m = (.ok id, m'))
    (hmissing : Upholds (.lacking key) [] (declareType ty)) :
    ∃ part, m'.Finds none none ty part ∧ .defining op id (operands part) ∈ m'.declarations := by
  obtain ⟨m₁, hmake, hretains, hdeclarations⟩ := cachedType_new h hnew
    (Steady.bind hmissing fun _ => define_lacking _ _)
  obtain ⟨part, m₂, hpart, hdefine⟩ := bind_ok hmake
  have hdefined : m₂.Retains m₁ := .of_define hdefine
  refine ⟨part, finds_later hpart (hdefined.trans hretains), ?_⟩
  rw [hdeclarations]
  exact mem_of_define hdefine

theorem hasParts_of_new (hnew : m.types.get? key = none)
    (h : declareKey key m = (.ok id, m')) : m'.HasParts key id := by
  cases key with
  | tuple members => exact cachedType_defines h hnew
  | array element length stride => exact declareArray_hasParts hnew h
  | plain ty =>
    cases ty with
    | void => exact cachedType_defines h hnew
    | scalar s => exact cachedType_defines h hnew
    | vector s n => exact cachedType_hasPart hnew h (declareScalar_lacking (by rintro ⟨⟩))
    | matrix s columns rows => exact cachedType_hasPart hnew h (declareVector_lacking (by rintro ⟨⟩) (by rintro ⟨⟩))
    | image c => exact cachedType_hasPart hnew h (declareScalar_lacking (by rintro ⟨⟩))
    | sampledImage c => exact cachedType_hasPart hnew h (declareImage_lacking (by rintro ⟨⟩) (by rintro ⟨⟩))
    | sampler compares =>
      cases compares with
      | false => exact cachedType_defines h hnew
      | true => trivial
    | struct name layout members =>
      have hsize : sizeOf members < sizeOf (Ty.struct name layout members) := by
        rw [Ty.struct.sizeOf_spec]
        omega
      obtain ⟨m₁, hmake, hretains, hdeclarations⟩ := cachedType_new h hnew
        (Steady.bind (declareMembers_lacking layout members _ hsize) fun types =>
          defineStruct_lacking name layout members types)
      obtain ⟨types, m₂, htypes, hdefine⟩ := bind_ok hmake
      have hdefined : m₂.Retains m₁ :=
        .of_declaring [] (fun J hJ => defineStruct_steady hJ name layout members False.elim) hdefine
      refine ⟨types, (declareMembers_finds layout htypes).imp fun _ _ hfinds =>
        hfinds.mono (hdefined.trans hretains), ?_⟩
      rw [hdeclarations]
      obtain ⟨id', m₃, hstruct, hdefine⟩ := bind_ok hdefine
      obtain ⟨_, m₄, hname, hdefine⟩ := bind_ok hdefine
      obtain ⟨_, hdescribe, rfl⟩ := bind_pure_ok hdefine
      have hmem := mem_of_define hstruct
      cases hname
      have hnoted := describeMembers_noted hdescribe
      rw [hnoted]
      exact hmem
    | function ret params =>
      have hsize : sizeOf ret < sizeOf (Ty.function ret params) ∧ sizeOf params < sizeOf (Ty.function ret params) := by
        rw [Ty.function.sizeOf_spec]
        omega
      obtain ⟨m₁, hmake, hretains, -⟩ := cachedType_new h hnew
        (Steady.bind (declareTypeWith_lacking none none ret _ hsize.1) fun _ =>
          Steady.bind (declareParams_lacking params _ hsize.2) fun _ => declareSignature_lacking _ _)
      obtain ⟨type, m₂, htype, hmake⟩ := bind_ok hmake
      obtain ⟨types, m₃, htypes, hmake⟩ := bind_ok hmake
      have hparams : m₂.Retains m₃ :=
        .of_declaring [] (fun J hJ => declareParams_steady hJ params [] fun _ => rfl) htypes
      have hsignature : m₃.Retains m₁ := .of_declaring [] (fun J hJ => declareSignature_steady hJ False.elim) hmake
      refine ⟨type, types, finds_later htype (hparams.trans (hsignature.trans hretains)), ?_, ?_⟩
      · exact (declareParams_passes htypes).imp fun _ _ hpasses => hpasses.mono (hsignature.trans hretains)
      · exact hretains.functionTypes _ _ (declareSignature_ok hmake)
    | array => trivial

/-! ## Modules -/

/-- Types, pointers and constants are declared with the parts that they are found by, and names of
variables stand for pointers to their types. -/
structure Backed (m : Module) : Prop where
  types : ∀ key id, m.types.get? key = some id → m.HasParts key id
  pointers : ∀ pointee storage id, m.pointers.get? (pointee, storage) = some id →
    .defining .TypePointer id [Enumerated.number storage, pointee] ∈ m.declarations
  functionTypes : ∀ key id, m.functionTypes.get? key = some id → .defining .TypeFunction id key ∈ m.declarations
  literals : ∀ l id, m.literals.get? l = some id →
    ∃ type, m.types.get? (.plain (.scalar l.scalar)) = some type ∧ l.inst type id ∈ m.declarations
  composites : ∀ constituents type id, m.composites.get? (constituents, type) = some id →
    .value .ConstantComposite type id constituents ∈ m.declarations
  globals : ∀ name e storage, m.globals.get? name = some e → e.storage = some storage →
    ∃ pointer, .value .Variable pointer e.id [Enumerated.number storage] ∈ m.declarations ∧
      m.pointers.get? (e.type, storage) = some pointer

theorem new_backed (config : Config) : (new config).Backed where
  types _ _ h := by cases h
  pointers _ _ _ h := by cases h
  functionTypes _ _ h := by cases h
  literals _ _ h := by cases h
  composites _ _ _ h := by cases h
  globals _ _ _ h := by cases h

namespace Backed

theorem extend (h : m.Backed) (hm : m.Retains m') (hdeclarations : m.declarations <+: m'.declarations)
    (htypes : ∀ key id, m'.types.get? key = some id → m.types.get? key = some id ∨ m'.HasParts key id)
    (hpointers : ∀ pointee storage id, m'.pointers.get? (pointee, storage) = some id →
      m.pointers.get? (pointee, storage) = some id ∨
        .defining .TypePointer id [Enumerated.number storage, pointee] ∈ m'.declarations)
    (hfunctionTypes : ∀ key id, m'.functionTypes.get? key = some id →
      m.functionTypes.get? key = some id ∨ .defining .TypeFunction id key ∈ m'.declarations)
    (hliterals : ∀ l id, m'.literals.get? l = some id → m.literals.get? l = some id ∨
      ∃ type, m'.types.get? (.plain (.scalar l.scalar)) = some type ∧ l.inst type id ∈ m'.declarations)
    (hcomposites : ∀ constituents type id, m'.composites.get? (constituents, type) = some id →
      m.composites.get? (constituents, type) = some id ∨
        .value .ConstantComposite type id constituents ∈ m'.declarations)
    (hglobals : ∀ name e, m'.globals.get? name = some e → m.globals.get? name = some e ∨
      ∀ storage, e.storage = some storage → ∃ pointer,
        .value .Variable pointer e.id [Enumerated.number storage] ∈ m'.declarations ∧
          m'.pointers.get? (e.type, storage) = some pointer) : m'.Backed where
  types key id hid := by
    rcases htypes key id hid with hold | hnew
    · exact (h.types key id hold).mono hm hdeclarations
    · exact hnew
  pointers pointee storage id hid := by
    rcases hpointers pointee storage id hid with hold | hnew
    · exact hdeclarations.subset (h.pointers pointee storage id hold)
    · exact hnew
  functionTypes key id hid := by
    rcases hfunctionTypes key id hid with hold | hnew
    · exact hdeclarations.subset (h.functionTypes key id hold)
    · exact hnew
  literals l id hid := by
    rcases hliterals l id hid with hold | hnew
    · obtain ⟨type, htype, hmem⟩ := h.literals l id hold
      exact ⟨type, hm.types _ _ htype, hdeclarations.subset hmem⟩
    · exact hnew
  composites constituents type id hid := by
    rcases hcomposites constituents type id hid with hold | hnew
    · exact hdeclarations.subset (h.composites constituents type id hold)
    · exact hnew
  globals name e storage he hstorage := by
    rcases hglobals name e he with hold | hnew
    · obtain ⟨pointer, hmem, hpointer⟩ := h.globals name e storage hold hstorage
      exact ⟨pointer, hdeclarations.subset hmem, hm.pointers _ _ hpointer⟩
    · exact hnew storage hstorage

theorem grow (h : m.Backed) (hm : m.Grown m') (hsame : m'.findings = m.findings) : m'.Backed := by
  simp only [findings, Prod.mk.injEq] at hsame
  obtain ⟨htypes, hpointers, hfunctionTypes, hliterals, hcomposites, hglobals⟩ := hsame
  exact h.extend hm.toRetains hm.declarations (fun _ _ hid => .inl (htypes ▸ hid))
    (fun _ _ _ hid => .inl (hpointers ▸ hid)) (fun _ _ hid => .inl (hfunctionTypes ▸ hid))
    (fun _ _ hid => .inl (hliterals ▸ hid)) (fun _ _ _ hid => .inl (hcomposites ▸ hid))
    (fun _ _ he => .inl (hglobals ▸ he))

theorem remember (h : m.Backed) {P : Module → Prop} (hm' : m.Remembers P id m') : m'.Backed := by
  have hgrown := (Grown.refl m).remember hm'
  refine h.extend hgrown.toRetains hgrown.declarations (fun key type htype => ?_)
    (fun pointee storage type htype => ?_) (fun key type htype => ?_) (fun l type hl => ?_)
    (fun constituents type id hid => ?_) (fun name e he => ?_)
  · refine (hm'.newType key type htype).imp_right fun hnew => ?_
    obtain ⟨m₀, -, hmissing, hrun⟩ := hnew
    exact hasParts_of_new hmissing hrun
  · exact (hm'.newPointer pointee storage type htype).imp_right (hgrown.declarations.subset ·)
  · exact (hm'.newSignature key type htype).imp_right (hgrown.declarations.subset ·)
  · rw [hm'.same] at hl
    exact .inl hl
  · rw [hm'.same] at hid
    exact .inl hid
  · rw [hm'.same] at he
    exact .inl he

end Backed

theorem lasting_backed : Lasting .any Backed where
  grow := Backed.grow
  remember h hm' := h.remember hm'
  literal {m l type id} h hlacks hmem := by
    have hm := (Grown.refl m).putLiteral id hlacks.literal
    refine h.extend hm.toRetains hm.declarations (fun _ _ hid => .inl hid) (fun _ _ _ hid => .inl hid)
      (fun _ _ hid => .inl hid) (fun l' id hid => ?_) (fun _ _ _ hid => .inl hid) (fun _ _ he => .inl he)
    rcases eq_or_get?_of_get?_put hid with ⟨rfl, rfl⟩ | hold
    · exact .inr ⟨type, hlacks.type, hmem⟩
    · exact .inl hold
  composite {m _ _ id} h hnew hmem := by
    have hm := (Grown.refl m).putComposite id hnew
    refine h.extend hm.toRetains hm.declarations (fun _ _ hid => .inl hid) (fun _ _ _ hid => .inl hid)
      (fun _ _ hid => .inl hid) (fun _ _ hid => .inl hid) (fun _ _ id hid => ?_) (fun _ _ he => .inl he)
    rcases eq_or_get?_of_get?_put hid with ⟨heq, rfl⟩ | hold
    · cases heq
      exact .inr hmem
    · exact .inl hold
  global {m _ _ e} h _ hnew := by
    have hm := (Grown.refl m).putGlobal e hnew.isNew
    refine h.extend hm.toRetains hm.declarations (fun _ _ hid => .inl hid)
      (fun _ _ _ hid => .inl hid) (fun _ _ hid => .inl hid) (fun _ _ hid => .inl hid)
      (fun _ _ _ hid => .inl hid) fun name' e' he' => ?_
    rcases eq_or_get?_of_get?_put he' with ⟨rfl, rfl⟩ | hold
    · exact .inr hnew.points
    · exact .inl hold

end Module

theorem running_backed : Running (.keeping Module.Backed) (fun _ => True) where
  building := Module.lasting_backed.building
  closed {_ _ m} functions h :=
    have hm : m.Retains { m with functions } := { Module.Retains.refl m with }
    h.extend hm List.prefix_rfl (fun _ _ hid => .inl hid) (fun _ _ _ hid => .inl hid)
      (fun _ _ hid => .inl hid) (fun _ _ hid => .inl hid) (fun _ _ _ hid => .inl hid)
      (fun _ _ he => .inl he)

/-! ## Functions -/

/-- Local names that stand for storage are those of parameters and queued variables. -/
def FunctionScope.Backed (m : Module) (f : FunctionScope) : Prop :=
  ∀ name e storage, f.locals.get? name = some e → e.storage = some storage → storage = .Function ∧
    ∃ pointer, m.pointers.get? (e.type, .Function) = some pointer ∧
      ((pointer, e.id) ∈ f.function.params ∨ .localVariable pointer e.id ∈ f.function.queued)

namespace FunctionScope.Backed

variable {f : FunctionScope}

theorem mono (h : f.Backed m) (hm : m.Retains m') : f.Backed m' := by
  intro name e storage he hstorage
  obtain ⟨hfunction, pointer, hpointer, hdefined⟩ := h name e storage he hstorage
  exact ⟨hfunction, pointer, hm.pointers _ _ hpointer, hdefined⟩

theorem queue (h : f.Backed m) (inst : Inst) : (f.queue inst).Backed m := by
  intro name e storage he hstorage
  obtain ⟨hfunction, pointer, hpointer, hdefined⟩ := h name e storage he hstorage
  exact ⟨hfunction, pointer, hpointer, hdefined.imp_right (List.mem_append_left _)⟩

theorem take (h : f.Backed m) (name : String) {e : Entity} {pointer : Id} (hstorage : e.storage = some .Function)
    (hpointer : m.pointers.get? (e.type, .Function) = some pointer) :
    (f.take name ⟨e, some (.localVariable pointer e.id)⟩).Backed m := by
  intro name' e' storage' he' hstorage'
  rcases eq_or_get?_of_get?_put he' with ⟨-, rfl⟩ | hold
  · refine ⟨Option.some.inj (hstorage'.symm.trans hstorage), pointer, hpointer, .inr ?_⟩
    exact List.mem_append_right _ List.mem_cons_self
  · exact h.queue _ name' e' storage' hold hstorage'

end FunctionScope.Backed

theorem housing_backed (N : Names) : Housing N fun m f => f.Backed m where
  mono hm h := h.mono hm
  queue _ _ h := h.queue _
  take h _ _ hstorage hpointer := h.take _ hstorage hpointer

theorem Module.Begins.backed {name : String} {ret : Ty} {params : List Variable}
    {f : FunctionScope} (h : m.Begins name ret params f) : f.Backed m := by
  intro n e storage he hs
  obtain ⟨param, -, type, -, hmem, henters⟩ := h.entity he
  have hstorage := henters.storage
  have hpassed := henters.passed
  split at hstorage
  · rw [if_pos ‹_›] at hpassed
    exact ⟨Option.some.inj (hs.symm.trans hstorage), type, hpassed, .inl hmem⟩
  · cases hs.symm.trans hstorage

namespace Workbench

variable {w w' : Workbench} {op : Operation}

/-- The module finds only what is declared, and so do functions under construction. -/
structure Backed (w : Workbench) : Prop where
  module : w.module.Backed
  functions : ∀ f ∈ w.functions.things, f.Backed w.module

theorem Reachable.backed {config : Config} (h : w.Reachable config) : w.Backed := by
  have hmodule : w.Stands (.keeping Module.Backed) (fun _ => True) := by
    induction h with
    | start => exact ⟨Module.new_backed config, fun _ _ => trivial⟩
    | perform _ builds _ ih =>
      exact (perform_change builds).stands running_backed (fun h => h) Module.lasting_backed.stepwise.mark ih
  refine ⟨hmodule.ledger, ?_⟩
  clear hmodule
  induction h with
  | start => exact fun _ hf => nomatch hf
  | perform _ builds _ ih =>
    exact (perform_change builds).scopes (housing_backed _) (fun _ hbegins => hbegins.backed) ih

end Workbench

end Shader
