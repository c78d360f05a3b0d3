import Shader.Proofs.Ledger
import Shader.Proofs.Ordered

/-!
# Looking up and making

What a module declares once is looked up first, and made and remembered if it is missing. A type is not
among those that it is made of, so it is still missing when it is remembered.
-/

namespace Shader

open Action OrderedMap

variable {need : List Known} {m m' : Module} {id : Id} {make : Build Id} {find : Module → Option Id}
  {keep : Id → Module → Module} {s : Scalar}

/-- Modules that differ at most in what only tells about them, or is kept beside the sections. -/
def Module.Noted (m m' : Module) : Prop :=
  m' = { m with
    capabilities := m'.capabilities
    extensions := m'.extensions
    memoryModel := m'.memoryModel
    entryPoint := m'.entryPoint
    executionModes := m'.executionModes
    debug := m'.debug
    decorations := m'.decorations
    memberVariables := m'.memberVariables
    blockTypes := m'.blockTypes
    capabilitySet := m'.capabilitySet
    extensionSet := m'.extensionSet
    pendingModes := m'.pendingModes
    intermediates := m'.intermediates
    busyIntermediates := m'.busyIntermediates }

theorem Module.Noted.trans {m₁ m₂ m₃ : Module} (h : m₁.Noted m₂) (h' : m₂.Noted m₃) : m₁.Noted m₃ := by
  unfold Noted at *
  rw [h', h]

/-- The type is not declared yet. -/
def Ledger.lacking (key : TypeIdentity) : Ledger Module := .keeping (·.types.get? key = none)

namespace Module

variable {op : Op} {operands : List Word}

/-! ## Basic steps -/

theorem freshId_ok {next : Id} (h : Word.add m.bound 1 = .ok next) :
    freshId m = (.ok m.bound, { m with bound := next }) := by
  unfold freshId
  rw [get_bind, h]
  rfl

theorem freshId_error {o : Overflow} (h : Word.add m.bound 1 = .error o) : freshId m = (.error (.overflow o), m) := by
  unfold freshId
  rw [get_bind, h]
  rfl

/-- A fresh identifier is the old bound, and only the bound changes. -/
theorem eq_of_freshId (h : freshId m = (.ok id, m')) :
    id = m.bound ∧ ∃ next, Word.add m.bound 1 = .ok next ∧ m' = { m with bound := next } := by
  cases hadd : Word.add m.bound 1 with
  | error o =>
    rw [freshId_error hadd] at h
    cases h
  | ok next =>
    rw [freshId_ok hadd] at h
    cases h
    exact ⟨rfl, next, rfl, rfl⟩

theorem eq_of_defineValue {type : Id} (h : defineValue op type operands m = (.ok id, m')) :
    id = m.bound ∧ ∃ next, Word.add m.bound 1 = .ok next ∧ m' = { m with
      bound := next, declarations := m.declarations ++ [.value op type m.bound operands] } := by
  obtain ⟨fresh, m₁, hfresh, h⟩ := bind_ok h
  obtain ⟨_, hadd, rfl⟩ := bind_pure_ok h
  obtain ⟨rfl, next, hnext, rfl⟩ := eq_of_freshId hfresh
  exact ⟨rfl, next, hnext, (congrArg Prod.snd hadd).symm⟩

theorem eq_of_define (h : define op operands m = (.ok id, m')) :
    id = m.bound ∧ ∃ next, Word.add m.bound 1 = .ok next ∧ m' = { m with
      bound := next, declarations := m.declarations ++ [.defining op m.bound operands] } := by
  obtain ⟨id', m₁, hid, h⟩ := bind_ok h
  obtain ⟨_, hdeclare, rfl⟩ := bind_pure_ok h
  obtain ⟨rfl, next, hnext, rfl⟩ := eq_of_freshId hid
  cases hdeclare
  exact ⟨rfl, next, hnext, rfl⟩

theorem define_ok {next : Id} (h : Word.add m.bound 1 = .ok next) (op : Op) (operands : List Word) :
    define op operands m = (.ok m.bound, { m with
      bound := next, declarations := m.declarations ++ [.defining op m.bound operands] }) := by
  unfold define
  rw [bind_apply_ok (freshId_ok h)]
  rfl

theorem define_error {o : Overflow} (h : Word.add m.bound 1 = .error o) (op : Op)
    (operands : List Word) : define op operands m = (.error (.overflow o), m) := by
  unfold define
  rw [bind_apply_error (freshId_error h)]

theorem mem_of_define (h : define op operands m = (.ok id, m')) : .defining op id operands ∈ m'.declarations := by
  obtain ⟨rfl, next, -, rfl⟩ := eq_of_define h
  exact List.mem_append_right _ List.mem_cons_self

theorem freshId_bind_snd {f : Id → Build Id} (hf : ∀ id m, ∃ declarations, (f id m).2 = { m with declarations })
    (m : Module) : ∃ bound declarations, ((freshId >>= f) m).2 = { m with bound, declarations } := by
  cases hadd : Word.add m.bound 1 with
  | error o => exact ⟨m.bound, m.declarations, by rw [bind_apply_error (freshId_error hadd)]⟩
  | ok next =>
    rw [bind_apply_ok (freshId_ok hadd)]
    exact ⟨next, hf _ _⟩

theorem define_snd (op : Op) (operands : List Word) (m : Module) :
    ∃ bound declarations, (define op operands m).2 = { m with bound, declarations } :=
  freshId_bind_snd (fun _ _ => ⟨_, rfl⟩) m

theorem defineValue_snd (op : Op) (type : Id) (operands : List Word) (m : Module) :
    ∃ bound declarations, (defineValue op type operands m).2 = { m with bound, declarations } :=
  freshId_bind_snd (fun _ _ => ⟨_, rfl⟩) m

/-! ## What is looked up first -/

section

variable {J : Ledger Module}

theorem findOrMake_steady {gains : Id → List Known}
    (hfind : ∀ {held known m id}, J.Stands held known m → find m = some id → J.Stands held (gains id ++ known) m)
    (hmake : ∀ m, find m = none → KeepsAt J [] need (make >>= fun id => modify (keep id) >>= fun _
      => pure id) (fun _ => []) gains m) : Steady J need (findOrMake find keep make) gains := by
  refine Keeps.get_bind fun m => ?_
  cases hm : find m with
  | none => exact hmake m hm
  | some id => exact fun held known _ hs => hfind hs hm

/-- Either found, with the module left alone, or made and kept. -/
theorem findOrMake_ok (h : findOrMake find keep make m = (.ok id, m')) :
    find m = some id ∧ m' = m ∨ find m = none ∧ ∃ m₁, make m = (.ok id, m₁) ∧ m' = keep id m₁ := by
  unfold findOrMake at h
  rw [get_bind] at h
  cases hm : find m with
  | some found =>
    rw [hm] at h
    obtain ⟨rfl, rfl⟩ := pure_ok h
    exact .inl ⟨rfl, rfl⟩
  | none =>
    rw [hm] at h
    obtain ⟨made, m₁, hmake, h⟩ := bind_ok h
    obtain ⟨_, hkeep, rfl⟩ := bind_pure_ok h
    cases hkeep
    exact .inr ⟨rfl, m₁, hmake, rfl⟩

/-- What was found or made is found from then on. -/
theorem findOrMake_finds (hkeep : ∀ m₁, find (keep id m₁) = some id)
    (h : findOrMake find keep make m = (.ok id, m')) : find m' = some id := by
  rcases findOrMake_ok h with ⟨hfound, rfl⟩ | ⟨-, m₁, -, rfl⟩
  · exact hfound
  · exact hkeep m₁

theorem findOrMake_of_none {n : Module} (hfind : find m = none) (hmake : make m = (.ok id, n)) :
    findOrMake find keep make m = (.ok id, keep id n) := by
  unfold findOrMake
  rw [get_bind, hfind]
  dsimp only
  rw [bind_apply_ok hmake]
  rfl

theorem findOrMake_of_some (hfind : find m = some id) : findOrMake find keep make m = (.ok id, m) := by
  unfold findOrMake
  rw [get_bind, hfind]
  rfl

theorem strideIn_steady (layout : Option MemoryLayout) (explicit : Option Word)
    (element : Ty) : Upholds J need (strideIn layout explicit element) := by
  unfold strideIn
  split
  · exact Steady.done _
  · split
    · exact Steady.done _
    · exact (Steady.checked _).bind fun _ => Steady.done _
    · exact Steady.done _

end

theorem cachedType_ok {key : TypeIdentity} (h : cachedType key make m = (.ok id, m')) : m'.types.get? key = some id :=
  findOrMake_finds (fun _ => get?_put_self _ _ _) h

theorem declarePointer_ok {pointee : Id} {storage : StorageClass}
    (h : declarePointer pointee storage m = (.ok id, m')) :
    m'.pointers.get? (pointee, storage) = some id :=
  findOrMake_finds (fun _ => get?_put_self _ _ _) h

theorem declareSignature_ok {ret : Id} {params : List Id} (h : declareSignature ret params m = (.ok id, m')) :
    m'.functionTypes.get? (ret :: params) = some id :=
  findOrMake_finds (fun _ => get?_put_self _ _ _) h

theorem declareScalar_literals (h : declareScalar s m = (.ok id, m')) : m'.literals = m.literals := by
  have hdefine : ∀ {op operands r m₁}, define op operands m = (r, m₁) → m₁.literals = m.literals := by
    intro op operands r m₁ hrun
    obtain ⟨bound, declarations, hsnd⟩ := define_snd op operands m
    rw [hrun] at hsnd
    obtain rfl : m₁ = _ := hsnd
    rfl
  rcases findOrMake_ok h with ⟨-, rfl⟩ | ⟨-, m₁, hmake, rfl⟩
  · rfl
  · have hliterals := hdefine hmake
    exact hliterals

/-! ## Types that stay missing -/

section

variable {α : Type} {key : TypeIdentity}

theorem lacking_of_types {x : Build α} (h : ∀ m : Module, (x m).2.types = m.types) : Upholds (.lacking key) need x := by
  intro m held known _ (hm : m.types.get? key = none)
  have hx : (x m).2.types.get? key = none := by rw [h m, hm]
  rcases hrun : x m with ⟨_ | a, m'⟩ <;> rw [hrun] at hx
  · exact ⟨trivial, hx⟩
  · exact hx

theorem define_lacking (op : Op) (operands : List Word) : Upholds (.lacking key) need (define op operands) := by
  refine lacking_of_types fun m => ?_
  obtain ⟨bound, declarations, h⟩ := define_snd op operands m
  rw [h]

theorem findOrMake_lacking (hkeep : ∀ id (m : Module), m.types.get? key = none → (keep id m).types.get? key = none)
    (hmake : Upholds (.lacking key) need make) : Upholds (.lacking key) need (findOrMake find keep make) := by
  refine findOrMake_steady (fun hm _ => hm) fun m _ => ?_
  refine (Steady.bind hmake fun id => (Steady.modifies fun _ _ m hm => ?_).bind fun _ => Steady.done _) m
  exact hkeep id m hm

theorem cachedType_lacking {key' : TypeIdentity} (hne : key' ≠ key) (hmake : Upholds (.lacking key) need make) :
    Upholds (.lacking key) need (cachedType key' make) := by
  refine findOrMake_lacking (fun id m hm => ?_) hmake
  rw [get?_put_of_ne _ _ hne, hm]

theorem declareScalar_lacking (h : .plain (.scalar s) ≠ key) : Upholds (.lacking key) need (declareScalar s) :=
  cachedType_lacking h (define_lacking _ _)

theorem declareLiteral_lacking {l : Literal} (h : .plain (.scalar l.scalar) ≠ key) :
    Upholds (.lacking key) need (declareLiteral l) := by
  refine findOrMake_lacking (fun _ _ hm => hm) ((declareScalar_lacking h).bind fun type => ?_)
  refine lacking_of_types fun m => ?_
  obtain ⟨bound, declarations, hrun⟩ := defineValue_snd (literalDeclaration l).1 type (literalDeclaration l).2 m
  rw [hrun]

theorem declareVector_lacking {n : Word} (h : .plain (.vector s n) ≠ key) (hscalar : .plain (.scalar s) ≠ key) :
    Upholds (.lacking key) need (declareVector s n) :=
  cachedType_lacking h ((declareScalar_lacking hscalar).bind fun _ => define_lacking _ _)

theorem declareImage_lacking {c : ImageConfig} (h : .plain (.image c) ≠ key)
    (hscalar : .plain (.scalar c.sampled) ≠ key) : Upholds (.lacking key) need (declareImage c) :=
  cachedType_lacking h ((declareScalar_lacking hscalar).bind fun _ => define_lacking _ _)

theorem declarePointer_lacking (pointee : Id) (storage : StorageClass) :
    Upholds (.lacking key) need (declarePointer pointee storage) :=
  findOrMake_lacking (fun _ _ hm => hm) (define_lacking _ _)

theorem declareSignature_lacking (ret : Id) (params : List Id) :
    Upholds (.lacking key) need (declareSignature ret params) :=
  findOrMake_lacking (fun _ _ hm => hm) (define_lacking _ _)

theorem describeMember_noted (m₀ : Module) (struct : Id) (layout : MemoryLayout) (index : Word) (m : Member) :
    Upholds (.keeping m₀.Noted) need (describeMember struct layout index m) := by
  have hmodify : ∀ {f : Module → Module} {need : List Known}, (∀ m : Module, m.Noted (f m)) →
      Upholds (.keeping m₀.Noted) need (modify f : Build Unit) :=
    fun hf => Steady.modifies fun _ _ m hm => hm.trans (hf m)
  refine Steady.bind (hmodify fun _ => rfl) fun _ => ?_
  refine Steady.bind (hmodify fun _ => rfl) fun _ => ?_
  split
  · refine (Steady.checked _).bind fun _ => ?_
    exact Steady.bind (hmodify fun _ => rfl) fun _ => hmodify fun _ => rfl
  · exact Steady.done _

theorem describeMembers_noted_steady (m₀ : Module) (struct : Id) (layout : MemoryLayout) :
    ∀ (members : List Member) (index : Word) (need : List Known),
      Upholds (.keeping m₀.Noted) need (describeMembers struct layout index members)
  | [], _, _ => (Steady.checked _).bind fun _ => Steady.done _
  | m :: ms, index, _ =>
    (Steady.checked _).bind fun next =>
      (describeMember_noted m₀ struct layout index m).bind fun _ =>
        describeMembers_noted_steady m₀ struct layout ms next _

/-- Describing members changes nothing that declarations are found by. -/
theorem describeMembers_noted {struct : Id} {layout : MemoryLayout} {index : Word} {members : List Member}
    {r : Except Fault Unit} (h : describeMembers struct layout index members m = (r, m')) : m.Noted m' := by
  have hnoted := (describeMembers_noted_steady m struct layout members index []).after_nil
    (List.nil_subset []) (show (Ledger.keeping m.Noted).Stands [] [] m from rfl)
  rw [h] at hnoted
  exact hnoted

theorem describeMembers_lacking (struct : Id) (layout : MemoryLayout) (members : List Member)
    (index : Word) : Upholds (.lacking key) need (describeMembers struct layout index members) :=
  lacking_of_types fun m => by rw [describeMembers_noted (m := m) rfl]

theorem defineStruct_lacking (name : String) (layout : MemoryLayout) (members : List Member) (types : List Id) :
    Upholds (.lacking key) need (defineStruct name layout members types) := by
  refine (define_lacking _ _).bind fun id => ?_
  refine (lacking_of_types fun _ => rfl).bind fun _ => ?_
  exact (describeMembers_lacking _ _ _ _).bind fun _ => Steady.done _

theorem makeArray_lacking {element : Id} {length stride : Option Word} (h : .plain (.scalar .uint) ≠ key) :
    Upholds (.lacking key) need (do
      let id ← match length with
        | some n => do
          let n ← declareLiteral (.uint n)
          define .TypeArray [element, n]
        | none => define .TypeRuntimeArray [element]
      if let some stride := stride then decorate id .ArrayStride [stride]
      return id : Build Id) := by
  have hdecorated : ∀ (id : Id) (need : List Known), Upholds (.lacking key) need (do
      if let some stride := stride then decorate id .ArrayStride [stride]
      return id : Build Id) := by
    intro id need
    cases stride with
    | none => exact Steady.done _
    | some stride => exact (lacking_of_types fun _ => rfl).bind fun _ => Steady.done _
  cases length with
  | none => exact (define_lacking _ _).bind fun id => hdecorated id _
  | some n =>
    refine Steady.bind (declareLiteral_lacking h) fun _ => ?_
    exact (define_lacking _ _).bind fun id => hdecorated id _

end

section

variable {t : Ty}

theorem plain_ne_of_sizeOf {ty : Ty} (h : sizeOf ty < sizeOf t) : TypeIdentity.plain ty ≠ .plain t := by
  intro heq
  rw [TypeIdentity.plain.inj heq] at h
  exact Nat.lt_irrefl _ h

theorem sizeOf_sampled_lt (c : ImageConfig) : sizeOf (Ty.scalar c.sampled) < sizeOf (Ty.image c) := by
  cases c
  simp
  omega

theorem passedAs_lacking (param : Variable) (type : Id) (need : List Known) :
    Upholds (.lacking (.plain t)) need (passedAs param type) := by
  unfold passedAs
  split
  · exact declarePointer_lacking _ _
  · exact Steady.done _

mutual

/-- Declaring a smaller type does not declare this one. -/
theorem declareTypeWith_lacking (layout : Option MemoryLayout) (explicit : Option Word) :
    ∀ (ty : Ty) (need : List Known), sizeOf ty < sizeOf t →
      Upholds (.lacking (.plain t)) need (declareTypeWith layout explicit ty)
  | .void, _, h => cachedType_lacking (plain_ne_of_sizeOf h) (define_lacking _ _)
  | .scalar s, _, h => declareScalar_lacking (plain_ne_of_sizeOf h)
  | .vector s n, _, h => by
    refine declareVector_lacking (plain_ne_of_sizeOf h) (plain_ne_of_sizeOf ?_)
    simp at h ⊢
    omega
  | .matrix s columns rows, _, h => by
    refine cachedType_lacking (plain_ne_of_sizeOf h) ((declareVector_lacking
      (plain_ne_of_sizeOf ?_) (plain_ne_of_sizeOf ?_)).bind fun _ => define_lacking _ _)
    all_goals
      simp at h ⊢
      omega
  | .array element length, _, h => by
    have helement : sizeOf element < sizeOf t := by
      simp at h
      omega
    refine (declareTypeWith_lacking layout none element _ helement).bind fun type => ?_
    refine (strideIn_steady _ _ _).bind fun stride => ?_
    have hlength : TypeIdentity.plain (.scalar .uint) ≠ .plain t := by
      rintro ⟨⟩
      cases element <;> simp at h <;> omega
    have hkey : TypeIdentity.array type length stride ≠ .plain t := nofun
    exact cachedType_lacking hkey (makeArray_lacking hlength)
  | .struct name layout members, _, h => by
    refine cachedType_lacking (plain_ne_of_sizeOf h) ?_
    refine (declareMembers_lacking layout members _ ?_).bind fun types => defineStruct_lacking name layout members types
    simp at h
    omega
  | .image c, _, h =>
    declareImage_lacking (plain_ne_of_sizeOf h) (plain_ne_of_sizeOf (Nat.lt_trans (sizeOf_sampled_lt c) h))
  | .sampledImage c, _, h => by
    have himage : sizeOf (Ty.image c) < sizeOf t := by simpa using h
    exact cachedType_lacking (plain_ne_of_sizeOf h) ((declareImage_lacking
      (plain_ne_of_sizeOf himage) (plain_ne_of_sizeOf (Nat.lt_trans (sizeOf_sampled_lt c) himage))).bind
      fun _ => define_lacking _ _)
  | .sampler _, _, h => by
    refine cachedType_lacking (plain_ne_of_sizeOf ?_) (define_lacking _ _)
    simpa using h
  | .function ret params, _, h => by
    refine cachedType_lacking (plain_ne_of_sizeOf h) ?_
    refine (declareTypeWith_lacking none none ret _ ?_).bind fun ret => ?_
    · simp at h
      omega
    · refine (declareParams_lacking params _ ?_).bind fun params => declareSignature_lacking ret params
      simp at h
      omega

theorem declareMembers_lacking (layout : MemoryLayout) :
    ∀ (members : List Member) (need : List Known), sizeOf members < sizeOf t →
      Upholds (.lacking (.plain t)) need (declareMembers layout members)
  | [], _, _ => Steady.done _
  | ⟨_, ty, _, stride⟩ :: ms, _, h => by
    have hty : sizeOf ty < sizeOf t ∧ sizeOf ms < sizeOf t := by
      simp at h
      omega
    refine (declareTypeWith_lacking (some layout) stride ty _ hty.1).bind fun type => ?_
    exact (declareMembers_lacking layout ms _ hty.2).bind fun types => Steady.done _

theorem declareParam_lacking : ∀ (v : Variable) (need : List Known), sizeOf v < sizeOf t →
      Upholds (.lacking (.plain t)) need (declareParam v)
  | .root name ty roles, _, h => by
    refine (declareTypeWith_lacking none none ty _ ?_).bind fun type => passedAs_lacking _ type _
    simp at h
    omega
  | .member outer index name ty, _, h => by
    refine (declareTypeWith_lacking none none ty _ ?_).bind fun type => passedAs_lacking _ type _
    simp at h
    omega

theorem declareParams_lacking : ∀ (params : List Variable) (need : List Known), sizeOf params < sizeOf t →
      Upholds (.lacking (.plain t)) need (declareParams params)
  | [], _, _ => Steady.done _
  | v :: vs, _, h => by
    have hv : sizeOf v < sizeOf t ∧ sizeOf vs < sizeOf t := by
      simp at h
      omega
    refine (declareParam_lacking v _ hv.1).bind fun type => ?_
    exact (declareParams_lacking vs _ hv.2).bind fun types => Steady.done _

end

end

end Module

end Shader
