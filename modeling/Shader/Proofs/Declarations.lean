import Shader.Module.Binary
import Shader.Proofs.Doubles
import Shader.Proofs.Lookup

/-!
# What declarations of types and literals do to a ledger

A declaration of a type or of a literal hands out an identifier, declares and remembers a type, defines
a literal, or adds to the sections that only tell about a module. A ledger that stands through these
stands through every declaration of a type.
-/

namespace Shader

open Action List OrderedMap

variable {id : Id}

theorem Enumerated.number_injective {α : Type} [Enumerated α]
    (hread : ∀ a : α, ofNumber? (number a) = some a) {a b : α} (h : number a = number b) : a = b := by
  have hb := hread b
  rw [← h, hread a] at hb
  exact Option.some.inj hb

theorem StorageClass.ofNumber?_number (c : StorageClass) : Enumerated.ofNumber? (Enumerated.number c) = some c := by
  cases c <;> rfl

/-! ## Kinds of instructions -/

def Op.isType : Op → Bool
  | .TypeVoid | .TypeBool | .TypeInt | .TypeFloat | .TypeVector | .TypeMatrix | .TypeImage
  | .TypeSampler | .TypeSampledImage | .TypeArray | .TypeRuntimeArray | .TypeStruct | .TypePointer
  | .TypeFunction => true
  | _ => false

/-- Whether the instruction declares a type of which others may have the same parts. -/
def Op.isAggregateType : Op → Bool
  | .TypeArray | .TypeRuntimeArray | .TypeStruct => true
  | _ => false

variable {op : Op} {m m' : Module} {operands : List Word} {key : TypeIdentity} {P : Module → Prop}
  {known known' : List Known}

theorem Op.isType_of_isAggregateType (h : op.isAggregateType) : op.isType := by
  revert h
  unfold isAggregateType
  split <;> simp [isType]

/-- Whether the instruction declares a constant that is fixed from the start. -/
def Op.isFixedConstant : Op → Bool
  | .ConstantTrue | .ConstantFalse | .Constant | .ConstantComposite => true
  | _ => false

/-- Whether the instruction declares a constant that is set, or computed, at specialization. -/
def Op.isSpecialization : Op → Bool
  | .SpecConstantTrue | .SpecConstantFalse | .SpecConstant | .SpecConstantOp => true
  | _ => false

/-- The declaration of a literal. -/
def Literal.inst (value : Literal) (type id : Id) : Inst :=
  .value (Module.literalDeclaration value).1 type id (Module.literalDeclaration value).2

theorem Literal.inst_isFixedConstant (l : Literal) (type id : Id) : (l.inst type id).op.isFixedConstant := by
  cases l with
  | bool b => cases b <;> rfl
  | _ => rfl

/-- The type in which the decoration places elements or a member, if it is one that does. -/
def Inst.lays? (inst : Inst) : Option Id :=
  match inst.op, inst.operands with
  | .Decorate, [id, d, _] => if d = Enumerated.number Decoration.ArrayStride then some id else none
  | .MemberDecorate, id :: _ :: d :: _ =>
    if d = Enumerated.number Decoration.Offset ∨ d = Enumerated.number Decoration.ColMajor ∨
      d = Enumerated.number Decoration.MatrixStride then some id else none
  | _, _ => none

namespace Inst

/-- The identifiers that a declaration refers to: its type, and those operands that are no numbers. -/
def references (inst : Inst) : List Id :=
  inst.resultType.toList ++
    match inst.op with
    | .TypeInt | .TypeFloat | .Constant | .SpecConstant => []
    | .TypeVector | .TypeMatrix | .TypeImage => inst.operands.take 1
    | .TypePointer | .Variable | .SpecConstantOp => inst.operands.drop 1
    | _ => inst.operands

/-- The identifiers that a name or a decoration is about. -/
def targets (inst : Inst) : List Id :=
  match inst.op with
  | .Name => inst.result.toList
  | .MemberName => inst.resultType.toList
  | .Decorate | .MemberDecorate => inst.operands.take 1
  | _ => []

/-- What the instruction is about is held or known. -/
def Aims (inst : Inst) (held : List Id) (known : List Known) : Prop :=
  ∀ id ∈ inst.targets, id ∈ held ∨ ∃ k ∈ known, k.id = id

/-- What the instruction refers to is known. -/
def Rests (inst : Inst) (known : List Known) : Prop := ∀ id ∈ inst.references, .value id ∈ known ∨ .type id ∈ known

theorem Aims.mono {inst : Inst} {held held' : List Id} (h : inst.Aims held known)
    (hheld : held ⊆ held') (hknown : known ⊆ known') : inst.Aims held' known' := by
  intro id hid
  rcases h id hid with hid | ⟨k, hk, rfl⟩
  · exact .inl (hheld hid)
  · exact .inr ⟨k, hknown hk, rfl⟩

theorem Rests.mono {inst : Inst} (h : inst.Rests known) (hknown : known ⊆ known') : inst.Rests known' :=
  fun id hid => (h id hid).imp (hknown ·) (hknown ·)

end Inst

/-- Whether a section only tells about the module, and defines nothing. -/
def Module.Section.isNote : Section → Bool
  | .imports | .declarations => false
  | _ => true

/-- An instruction that only tells about the module: it has its fields and gives no name. -/
structure Inst.Remark (inst : Inst) : Prop where
  notName : inst.op ≠ .Name
  fits : inst.matchShape = .ok ()

/-! ## Ledgers of modules -/

/-- Modules that differ at most in what they keep to build sections, apart from what is found again. -/
def Module.Alike (m m' : Module) : Prop :=
  m' = { m with
    blockTypes := m'.blockTypes
    capabilitySet := m'.capabilitySet
    extensionSet := m'.extensionSet
    pendingModes := m'.pendingModes
    intermediates := m'.intermediates
    busyIntermediates := m'.busyIntermediates }

theorem Module.Alike.noted (h : m.Alike m') : m.Noted m' := by
  unfold Noted
  rw [h]

theorem Module.noted_insert (m : Module) {s : Section} (h : s.isNote) (inst : Inst) : m.Noted (m.insert s inst) := by
  cases s <;> cases h <;> rfl

/-- The identifiers of all types that the module finds. -/
def Module.typeIds (m : Module) : List Id := m.types.values ++ (m.pointers.values ++ m.functionTypes.values)

/-- Declares the type with this key. -/
def Module.declareKey : TypeIdentity → Build Id
  | .plain ty => declareType ty
  | .array element length stride => declareArray element length stride
  | .tuple members => declareTuple members

/-- The second module finds what the first does, and perhaps one type more, just declared. -/
structure Module.Remembers (m : Module) (P : Module → Prop) (id : Id) (m' : Module) : Prop where
  same : m' = { m with
    types := m'.types, pointers := m'.pointers, functionTypes := m'.functionTypes }
  typeIds : m'.typeIds ⊆ id :: m.typeIds
  types : ∀ key type, m.types.get? key = some type → m'.types.get? key = some type
  pointers : ∀ key type, m.pointers.get? key = some type → m'.pointers.get? key = some type
  functionTypes : ∀ key type, m.functionTypes.get? key = some type → m'.functionTypes.get? key = some type
  newType : ∀ key type, m'.types.get? key = some type → m.types.get? key = some type ∨
    ∃ m₀, P m₀ ∧ m₀.types.get? key = none ∧ declareKey key m₀ = (.ok type, m')
  newPointer : ∀ pointee storage type, m'.pointers.get? (pointee, storage) = some type →
    m.pointers.get? (pointee, storage) = some type ∨
      .defining .TypePointer type [Enumerated.number storage, pointee] ∈ m.declarations
  newSignature : ∀ key type, m'.functionTypes.get? key = some type →
    m.functionTypes.get? key = some type ∨ .defining .TypeFunction type key ∈ m.declarations

theorem Module.Remembers.imp {Q : Module → Prop} (h : m.Remembers P id m')
    (hPQ : ∀ m₀, P m₀ → Q m₀) : m.Remembers Q id m' := by
  refine { h with newType := fun key type htype => ?_ }
  refine (h.newType key type htype).imp_right fun hnew => ?_
  obtain ⟨m₀, hm₀, hnew⟩ := hnew
  exact ⟨m₀, hPQ m₀ hm₀, hnew⟩

/-- The opcode and operands of a type that is no aggregate, with its parts found under their own keys. -/
inductive Module.Spells (m : Module) : TypeIdentity → Op → List Word → Prop where
  | void : m.Spells (.plain .void) .TypeVoid []
  | scalar {s : Scalar} {op : Op} {operands : List Word} (spelled : scalarDeclaration s = (op, operands)) :
      m.Spells (.plain (.scalar s)) op operands
  | vector {s : Scalar} {n component : Word} (part : m.types.get? (.plain (.scalar s)) = some component) :
      m.Spells (.plain (.vector s n)) .TypeVector [component, n]
  | matrix {s : Scalar} {columns rows column : Word} (part : m.types.get? (.plain (.vector s rows)) = some column) :
      m.Spells (.plain (.matrix s columns rows)) .TypeMatrix [column, columns]
  | image {c : ImageConfig} {texel : Id} (part : m.types.get? (.plain (.scalar c.sampled)) = some texel) :
      m.Spells (.plain (.image c)) .TypeImage (imageOperands texel c)
  | sampledImage {c : ImageConfig} {image : Id} (part : m.types.get? (.plain (.image c)) = some image) :
      m.Spells (.plain (.sampledImage c)) .TypeSampledImage [image]
  | sampler : m.Spells (.plain (.sampler false)) .TypeSampler []

theorem Module.Spells.mono (h : m.Spells key op operands)
    (hm : ∀ key id, m.types.get? key = some id → m'.types.get? key = some id) : m'.Spells key op operands := by
  cases h with
  | void => exact .void
  | scalar spelled => exact .scalar spelled
  | vector part => exact .vector (hm _ _ part)
  | matrix part => exact .matrix (hm _ _ part)
  | image part => exact .image (hm _ _ part)
  | sampledImage part => exact .sampledImage (hm _ _ part)
  | sampler => exact .sampler

/-- The type is found again by the opcode and the operands of its declaration. -/
inductive Module.Files (m : Module) (id : Id) : Op → List Word → Prop where
  | type {key : TypeIdentity} {op : Op} {operands : List Word} (spells : m.Spells key op operands)
      (found : m.types.get? key = some id) : m.Files id op operands
  | pointer {pointee : Id} {storage : StorageClass} (found : m.pointers.get? (pointee, storage) = some id) :
      m.Files id .TypePointer [Enumerated.number storage, pointee]
  | signature {key : List Id} (found : m.functionTypes.get? key = some id) : m.Files id .TypeFunction key

/-- A literal that is not there yet, though its type is. -/
structure Module.Lacks (m : Module) (l : Literal) (type : Id) : Prop where
  literal : m.literals.get? l = none
  type : m.types.get? (.plain (.scalar l.scalar)) = some type

/-- The identifier is the last one handed out, to a module with the property that found the same
types. -/
def Module.Recent (m : Module) (P : Module → Prop) (id : Id) : Prop :=
  ∃ m₀, P m₀ ∧ m₀.bound = id ∧ Word.add id 1 = .ok m.bound ∧ m.types = m₀.types

theorem Module.Recent.imp {Q : Module → Prop} (h : m.Recent P id) (hPQ : ∀ m₀, P m₀ → Q m₀) : m.Recent Q id := by
  obtain ⟨m₀, hm₀, hrest⟩ := h
  exact ⟨m₀, hPQ m₀ hm₀, hrest⟩

/-- What can be called by a name: an identifier that nothing defines yet, a type, or the function of
that name. -/
inductive Nameable (held : List Id) (known : List Known) (id : Id) (name : String) : Prop where
  | held (mem : id ∈ held)
  | type (mem : .type id ∈ known)
  | function (mem : .function name id ∈ known)

theorem Nameable.mono {held held' : List Id} {name : String} (h : Nameable held known id name) (hheld : held ⊆ held')
    (hknown : known ⊆ known') : Nameable held' known' id name := by
  cases h with
  | held mem => exact .held (hheld mem)
  | type mem => exact .type (hknown mem)
  | function mem => exact .function (hknown mem)

/-- A ledger that stands through what declarations do beside declaring types. -/
structure Recording (J : Ledger Module) : Prop where
  alike : ∀ {held known} {m m' : Module}, J.Stands held known m → m.Alike m' → J.Stands held known m'
  name : ∀ {held known} {m : Module} {id : Id} {name : String}, J.Stands held known m → Nameable held known id name →
    J.Stands held known { m with debug := m.debug ++ [.nameOf id name] }
  fresh : ∀ {held known} {m : Module} {next : Id}, J.Stands held known m → Word.add m.bound 1 = .ok next →
    J.Stands (m.bound :: held) known { m with bound := next }
  remember : ∀ {held known} {m m' : Module} {id : Id},
    J.Stands held known m → .type id ∈ known → m.Remembers (J.Stands [] []) id m' →
    J.Stands held known m'
  foundType : ∀ {held known} {m : Module} {id : Id},
    J.Stands held known m → id ∈ m.typeIds → J.Stands held (.type id :: known) m := by
    exact fun h _ => h
  literal : ∀ {held known} {m : Module} {next type : Id} (l : Literal),
    J.Stands held known m → .type type ∈ known → m.Lacks l type → Word.add m.bound 1 = .ok next →
    J.Stands held (.value m.bound :: known) { m with
      bound := next
      declarations := m.declarations ++ [l.inst type m.bound]
      literals := m.literals.put l m.bound }
  foundLiteral : ∀ {held known} {m : Module} {l : Literal} {id : Id},
    J.Stands held known m → m.literals.get? l = some id → J.Stands held (.value id :: known) m := by
    exact fun h _ => h

/-- A ledger that stands through declarations, with doubles or without. If it is strict, they refer to
what is known. -/
structure Declaring (J : Ledger Module) (d : Bool := true) (strict : Prop := False) : Prop extends Recording J where
  note : ∀ {held known} {m : Module} (inst : Inst), J.Stands held known m → inst.op.section.isNote → inst.Remark →
    (∀ id, inst.lays? = some id → m.Recent (J.Stands [] []) id) →
    (strict → inst.Aims held known) → J.Stands held known (m.insert inst.op.section inst)
  aggregate : ∀ {held known} {m : Module} {id : Id} {op : Op}
    (operands : List Word), J.Stands (id :: held) known m → op.isAggregateType →
    (strict → (Inst.defining op id operands).Rests known) → J.Stands held (.type id :: known)
      { m with declarations := m.declarations ++ [.defining op id operands] }
  share : ∀ {held known} {m m' : Module} {next : Id} {op : Op}
    {operands : List Word}, J.Stands held known m → op.isType → Word.add m.bound 1 = .ok next →
    Module.Remembers { m with
      bound := next, declarations := m.declarations ++ [.defining op m.bound operands] }
      (J.Stands [] []) m.bound m' →
    m'.Files m.bound op operands → (op = .TypeFloat → operands.head? = some 64 → d) →
    (strict → (Inst.defining op m.bound operands).Rests known) →
    J.Stands held (.type m.bound :: known) m'

/-- The same for the single steps of such declarations, whatever comes before and after them. -/
structure Stepwise (J : Ledger Module) : Prop extends Recording J where
  note : ∀ {held known} {m : Module} (inst : Inst), J.Stands held known m → inst.op.section.isNote → inst.Remark →
    J.Stands held known (m.insert inst.op.section inst)
  type : ∀ {held known} {m : Module} {id : Id} {op : Op}
    (operands : List Word), J.Stands (id :: held) known m → op.isType →
    J.Stands held (.type id :: known) { m with declarations := m.declarations ++ [.defining op id operands] }

theorem Stepwise.declaring {J : Ledger Module} (hJ : Stepwise J) : Declaring J where
  toRecording := hJ.toRecording
  note inst h hs hinst _ _ := hJ.note inst h hs hinst
  aggregate operands h hop _ := hJ.type operands h (Op.isType_of_isAggregateType hop)
  share h hop hnext hm' _ _ _ :=
    hJ.remember (hJ.type _ (hJ.fresh h hnext) hop) mem_cons_self hm'

/-- The ledger stands, and `id` was handed out last, for a type that is not remembered yet. -/
def Ledger.recent (J : Ledger Module) (id : Id) : Ledger Module where
  Stands held known m := J.Stands held known m ∧ m.Recent (J.Stands [] []) id
  Ends := J.Ends
  drop h hheld hknown := ⟨J.drop h.1 hheld hknown, h.2⟩
  ends := J.ends

namespace Module

variable {J : Ledger Module} {d : Bool} {strict : Prop} {need : List Known}

section

variable (hJ : Declaring J d strict) {make : Build Id}

include hJ

/-! ## Basic steps -/

omit hJ in
theorem freshId_bind_keepsAt {α : Type} {f : Id → Build α} {gains : α → List Known}
    (hf : ∀ {held known next}, need ⊆ known → J.Stands held known m → Word.add m.bound 1 = .ok next →
      ∃ a m', f m.bound { m with bound := next } = (.ok a, m') ∧ J.Stands held (gains a ++ known) m') :
    KeepsAt J [] need (freshId >>= f) (fun _ => []) gains m := by
  intro held known hneed hm
  cases hadd : Word.add m.bound 1 with
  | error o =>
    rw [bind_apply_error (freshId_error hadd)]
    exact ⟨J.ends rfl, hm⟩
  | ok next =>
    obtain ⟨a, m', hrun, hafter⟩ := hf hneed hm hadd
    rw [bind_apply_ok (freshId_ok hadd), hrun]
    exact hafter

theorem modify_steady {f : Module → Module} (hf : ∀ m : Module, m.Alike (f m)) : Upholds J need (modify f) :=
  Steady.modifies fun _ _ m hm => hJ.alike hm (hf m)

theorem freshId_keeps : Keeps J [] need freshId (fun id => [id]) (fun _ => []) := by
  intro m held known _ hm
  cases hadd : Word.add m.bound 1 with
  | error o =>
    rw [freshId_error hadd]
    exact ⟨J.ends rfl, hm⟩
  | ok next =>
    rw [freshId_ok hadd]
    exact hJ.fresh hm hadd

theorem addName_keeps {takes : List Id} {name : String} (h : Nameable takes need id name) :
    Keeps J takes need (addDebug (.nameOf id name)) (fun _ => takes) (fun _ => []) :=
  fun _ _ _ hneed hm => hJ.name hm (h.mono (subset_append_left _ _) hneed)

theorem decorate_keeps {takes : List Id} (d : Decoration) (operands : List Word)
    (hlays : (Inst.effect .Decorate ([id, Enumerated.number d] ++ operands)).lays? = none)
    (hid : strict → id ∈ takes ∨ ∃ k ∈ need, k.id = id) :
    Keeps J takes need (decorate id d operands) (fun _ => takes) (fun _ => []) := by
  intro _ _ _ hneed hm
  refine hJ.note (.effect .Decorate _) hm rfl ⟨nofun, rfl⟩ (fun id' hid' => ?_) fun hstrict => ?_
  · rw [hlays] at hid'
    cases hid'
  · refine .mono (fun i hi => ?_) (subset_append_left _ _) hneed
    exact mem_singleton.1 hi ▸ hid hstrict

theorem define_steady (hop : op.isAggregateType) (operands : List Word)
    (hrests : strict → ∀ id, (Inst.defining op id operands).Rests need) : SuppliesType J need (define op operands) := by
  refine (freshId_keeps hJ).bind fun id => ?_
  have hdeclare : Keeps J [id] ([] ++ need) (addDeclaration (.defining op id operands))
      (fun _ => []) (fun _ => [.type id]) := fun _ _ _ hneed hm =>
    hJ.aggregate operands hm hop fun hstrict => (hrests hstrict id).mono hneed
  exact hdeclare.bind fun _ => Steady.pure _ (by simp)

/-- A type that is looked up first, and else declared and remembered. It is still missing after it was
declared. -/
theorem findOrDeclare_steady {find : Module → Option Id} {keep : Id → Module → Module}
    (hfind : ∀ {m id}, find m = some id → id ∈ m.typeIds)
    (hkeep : ∀ (m m₁ : Module) (id : Id), J.Stands [] [] m → find m = none → make m = (.ok id, m₁) →
      find m₁ = none → m₁.Remembers (J.Stands [] []) id (keep id m₁))
    (hmissing : ∀ m, find m = none → find (make m).2 = none)
    (hmake : SuppliesType J need make) :
    SuppliesType J need (findOrMake find keep make) := by
  refine findOrMake_steady (fun hm h => hJ.foundType hm (hfind h)) fun m hm held known hneed hs => ?_
  have hstart : J.Stands [] [] m := J.drop hs (nil_subperm) (nil_subset _)
  refine Keeps.bind_at (hmake m) (fun id m₁ hrun => ?_) held known hneed hs
  have hm₁ : find m₁ = none := by
    have hfound := hmissing m hm
    rw [hrun] at hfound
    exact hfound
  intro held known hneed hstands
  exact J.drop (hJ.remember hstands (hneed (by simp)) (hkeep m m₁ id hstart hm hrun hm₁)) (Subperm.refl _)
    (append_subset.2 ⟨fun k hk => hneed (by simp [mem_singleton.1 hk]), fun _ hk => hk⟩)

omit hJ in
theorem remembers_put {m₁ : Module} (hm : P m) (hnew : m.types.get? key = none)
    (hkey : declareKey key = cachedType key make) (hrun : make m = (.ok id, m₁)) (hm₁ : m₁.types.get? key = none) :
    m₁.Remembers P id { m₁ with types := m₁.types.put key id } := by
  refine ⟨rfl, ?_, fun _ _ h => get?_put_of_get? id hm₁ h, fun _ _ h => h, fun _ _ h => h,
    fun key' type h => ?_, fun _ _ _ h => .inl h, fun _ _ h => .inl h⟩
  · have hvalues := values_put_subset m₁.types key id
    simp only [typeIds]
    grind
  · rcases eq_or_get?_of_get?_put h with ⟨rfl, rfl⟩ | hold
    · exact .inr ⟨m, hm, hnew, hkey ▸ findOrMake_of_none hnew hrun⟩
    · exact .inl hold

theorem cachedType_steady (hkey : declareKey key = cachedType key make) (hmissing : Upholds (.lacking key) [] make)
    (hmake : SuppliesType J need make) : SuppliesType J need (cachedType key make) := by
  refine findOrDeclare_steady hJ (fun h => ?_) (fun m m₁ id hstart hm hrun hm₁ => ?_) (fun m hm => ?_) hmake
  · exact mem_append_left _ (mem_values h)
  · exact remembers_put hstart hm hkey hrun hm₁
  · have hlacks : (Ledger.lacking key).Stands [] [] m := hm
    exact hmissing.after_nil (nil_subset []) hlacks

/-! ## Types that are declared and remembered at once -/

theorem defineShared_keeps {keep : Id → Module → Module} (hop : op.isType)
    (hdouble : op = .TypeFloat → operands.head? = some 64 → d)
    (hrests : strict → (Inst.defining op m.bound operands).Rests need)
    (hkeep : ∀ m₁, define op operands m = (.ok m.bound, m₁) → m₁.Remembers (J.Stands [] []) m.bound
      (keep m.bound m₁) ∧ (keep m.bound m₁).Files m.bound op operands) :
    KeepsAt J [] need (define op operands >>= fun id => modify (keep id) >>= fun _ => pure id)
      (fun _ => []) (fun id => [.type id]) m := by
  intro held known hneed hm
  cases hadd : Word.add m.bound 1 with
  | error o =>
    rw [bind_apply_error (define_error hadd op operands)]
    exact ⟨J.ends rfl, hm⟩
  | ok next =>
    have hdefine := define_ok hadd op operands
    obtain ⟨hremembers, hfiles⟩ := hkeep _ hdefine
    rw [bind_apply_ok hdefine]
    exact hJ.share hm hop hadd hremembers hfiles hdouble fun hstrict => (hrests hstrict).mono hneed

omit hJ in
theorem rests_part {part : Id} (h : (Inst.defining op id operands).references = [part]) :
    (Inst.defining op id operands).Rests [.type part] := by
  intro i hi
  rw [h] at hi
  exact .inr (mem_singleton.1 hi ▸ mem_cons_self)

theorem sharedType_steady {α : Type} {x : Build α} {gains : α → List Known} {operands : α → List Word} (hop : op.isType)
    (hdouble : ∀ a, op = .TypeFloat → (operands a).head? = some 64 → d)
    (hkey : declareKey key = cachedType key (x >>= fun a => define op (operands a)))
    (hmissing : Upholds (.lacking key) [] x) (hspells : ∀ {m m₁ a}, x m = (.ok a, m₁) → m₁.Spells key op (operands a))
    (hrests : ∀ a id, (Inst.defining op id (operands a)).Rests (gains a)) (hx : Steady J need x gains) :
    SuppliesType J need (cachedType key (x >>= fun a => define op (operands a))) := by
  refine findOrMake_steady (fun hm h => hJ.foundType hm ?_) fun m hm held known hneed hs => ?_
  · exact mem_append_left _ (mem_values h)
  have hstart : J.Stands [] [] m := J.drop hs (nil_subperm) (nil_subset _)
  rw [bind_assoc]
  refine Keeps.bind_at (hx m) (fun a m₁ hrun => ?_) held known hneed hs
  have hlacks : (Ledger.lacking key).Stands [] [] m := hm
  have hm₁ : m₁.types.get? key = none := hmissing.of_ok_nil hrun (nil_subset []) hlacks
  refine defineShared_keeps hJ hop (hdouble a)
    (fun _ => (hrests a _).mono (subset_append_left _ _)) fun m₂ hdefine => ?_
  have hmake : (x >>= fun a => define op (operands a)) m = (.ok m₁.bound, m₂) := by
    rw [bind_apply_ok hrun, hdefine]
  have htypes : m₂.types = m₁.types := by
    obtain ⟨-, next, -, rfl⟩ := eq_of_define hdefine
    rfl
  rw [← htypes] at hm₁
  refine ⟨remembers_put hstart hm hkey hmake hm₁, .type ((hspells hrun).mono fun _ _ h => ?_) (get?_put_self _ _ _)⟩
  exact get?_put_of_get? _ hm₁ (htypes ▸ h)

theorem sharedDefinition_steady (hop : op.isType) (hdouble : op = .TypeFloat → operands.head? = some 64 → d)
    (hkey : declareKey key = cachedType key (define op operands)) (hspells : ∀ m : Module, m.Spells key op operands)
    (hrests : ∀ id, (Inst.defining op id operands).Rests []) :
    SuppliesType J need (cachedType key (define op operands)) := by
  have h : SuppliesType J need (cachedType key ((pure () : Build Unit) >>= fun _ => define op operands)) :=
    sharedType_steady hJ hop (fun _ => hdouble) (by rw [pure_bind, hkey]) (.done _)
      (fun _ => hspells _) (fun _ => hrests) (.done _)
  rwa [pure_bind] at h

theorem declareVoid_steady : SuppliesType J need declareVoid :=
  sharedDefinition_steady hJ rfl nofun rfl (fun _ => .void) fun _ => nofun

theorem declareScalar_steady (s : Scalar) [h : (Ty.scalar s).Allowed d] : SuppliesType J need (declareScalar s) := by
  refine sharedDefinition_steady hJ ?_ ?_ rfl (fun _ => .scalar rfl) fun _ _ hid => ?_
  · cases s <;> rfl
  · cases s with
    | double => exact fun _ _ => h.allowed rfl
    | _ => nofun
  · cases s <;> cases hid

theorem declareVector_steady (s : Scalar) [(Ty.scalar s).Allowed d] (n : Word) :
    SuppliesType J need (declareVector s n) :=
  sharedType_steady hJ rfl nofun rfl (declareScalar_lacking nofun) (fun h => .vector (cachedType_ok h))
    (fun _ _ => rests_part rfl) (declareScalar_steady hJ s)

theorem declareMatrix_steady (s : Scalar) [(Ty.scalar s).Allowed d]
    (columns rows : Word) : SuppliesType J need (declareMatrix s columns rows) :=
  sharedType_steady hJ rfl nofun rfl (declareVector_lacking nofun nofun) (fun h => .matrix (cachedType_ok h))
    (fun _ _ => rests_part rfl) (declareVector_steady hJ s rows)

theorem declareImage_steady (c : ImageConfig) [(Ty.scalar c.sampled).Allowed d] :
    SuppliesType J need (declareImage c) :=
  sharedType_steady hJ rfl nofun rfl (declareScalar_lacking nofun) (fun h => .image (cachedType_ok h))
    (fun _ _ => rests_part rfl) (declareScalar_steady hJ _)

theorem declareSampledImage_steady (c : ImageConfig)
    [(Ty.scalar c.sampled).Allowed d] : SuppliesType J need (declareSampledImage c) :=
  sharedType_steady hJ rfl nofun rfl (declareImage_lacking nofun nofun)
    (fun h => .sampledImage (cachedType_ok h)) (fun _ _ => rests_part rfl) (declareImage_steady hJ c)

theorem declareSampler_steady : SuppliesType J need declareSampler :=
  sharedDefinition_steady hJ rfl nofun rfl (fun _ => .sampler) fun _ => nofun

theorem declarePointer_steady {pointee : Id} (storage : StorageClass) (hpointee : strict → .type pointee ∈ need) :
    SuppliesType J need (declarePointer pointee storage) := by
  refine findOrMake_steady (fun hm h => hJ.foundType hm ?_) fun m hm =>
    defineShared_keeps hJ rfl nofun (fun hstrict => (rests_part rfl).mono (by simpa using hpointee hstrict))
      fun m₁ hdefine => ⟨⟨rfl, ?_, fun _ _ h => h, ?_, fun _ _ h => h, fun _ _ h => .inl h, ?_,
        fun _ _ h => .inl h⟩, .pointer (get?_put_self _ _ _)⟩
  · exact mem_append_right _ (mem_append_left _ (mem_values h))
  · have hvalues := values_put_subset m₁.pointers (pointee, storage) m.bound
    simp only [typeIds]
    grind
  · obtain ⟨-, next, -, rfl⟩ := eq_of_define hdefine
    exact fun _ _ h => get?_put_of_get? _ hm h
  · intro pointee' storage' type h
    rcases eq_or_get?_of_get?_put h with ⟨heq, rfl⟩ | hold
    · cases heq
      exact .inr (mem_of_define hdefine)
    · exact .inl hold

omit hJ in
theorem rests_parts {parts : List Id} (h : (Inst.defining op id parts).references = parts)
    (hparts : parts.map .type ⊆ need) : (Inst.defining op id parts).Rests need :=
  fun _ hi => .inr (hparts (mem_map_of_mem (h ▸ hi)))

theorem declareSignature_steady {ret : Id} {params : List Id} (htypes : strict → (ret :: params).map .type ⊆ need) :
    SuppliesType J need (declareSignature ret params) := by
  refine findOrMake_steady (fun hm h => hJ.foundType hm ?_) fun m hm =>
    defineShared_keeps hJ rfl nofun (fun hstrict => rests_parts rfl (htypes hstrict)) fun m₁ hdefine =>
      ⟨⟨rfl, ?_, fun _ _ h => h, fun _ _ h => h, ?_, fun _ _ h => .inl h, fun _ _ _ h => .inl h, ?_⟩,
        .signature (get?_put_self _ _ _)⟩
  · exact mem_append_right _ (mem_append_right _ (mem_values h))
  · have hvalues := values_put_subset m₁.functionTypes (ret :: params) m.bound
    simp only [typeIds]
    grind
  · obtain ⟨-, next, -, rfl⟩ := eq_of_define hdefine
    exact fun _ _ h => get?_put_of_get? _ hm h
  · intro key type h
    rcases eq_or_get?_of_get?_put h with ⟨rfl, rfl⟩ | hold
    · exact .inr (mem_of_define hdefine)
    · exact .inl hold

theorem defineLiteral_steady {l : Literal} {type : Id} (htype : .type type ∈ need) (hlacks : m.Lacks l type) :
    KeepsAt J [] need (defineValue (literalDeclaration l).1 type (literalDeclaration l).2 >>= fun id =>
        modify (fun m => { m with literals := m.literals.put l id }) >>= fun _ => pure id)
      (fun _ => []) (fun id => [.value id]) m := by
  unfold defineValue
  simp only [bind_assoc]
  exact freshId_bind_keepsAt fun hneed hm hadd => ⟨_, _, rfl, hJ.literal l hm (hneed htype) hlacks hadd⟩

theorem declareLiteral_steady (l : Literal) [(Ty.scalar l.scalar).Allowed d] : Supplies J need (declareLiteral l) := by
  refine findOrMake_steady (fun hm hl => hJ.foundLiteral hm hl) fun m hm => ?_
  rw [bind_assoc]
  refine Keeps.bind_at (declareScalar_steady hJ _ m) fun type m₁ hrun => ?_
  refine defineLiteral_steady hJ (by simp) ⟨?_, cachedType_ok hrun⟩
  rw [declareScalar_literals hrun]
  exact hm

/-! ## Types that were declared last -/

section

variable {α : Type} {x : Build α} {gains : α → List Known}

omit hJ in
theorem keepsAt_of_recent (h : Steady (J.recent id) need x gains)
    (hm : m.Recent (J.Stands [] []) id) : KeepsAt J [] need x (fun _ => []) gains m := by
  intro held known hneed hs
  have hx := h m held known hneed ⟨hs, hm⟩
  rcases hrun : x m with ⟨_ | a, m'⟩ <;> rw [hrun] at hx
  · exact ⟨hx.1, hx.2.1⟩
  · exact hx.1

omit hJ in
theorem recent_modifies {f : Module → Module}
    (hf : ∀ {held known m}, (J.recent id).Stands held known m → (∀ k ∈ need, k ∈ known) → J.Stands held known (f m))
    (hsame : ∀ m, (f m).bound = m.bound ∧ (f m).types = m.types) : Upholds (J.recent id) need (modify f) := by
  intro m held known hneed hm
  obtain ⟨m₀, hm₀, hid, hbound, htypes⟩ := hm.2
  refine ⟨hf hm fun _ hk => hneed hk, m₀, hm₀, hid, ?_, (hsame m).2.trans htypes⟩
  rw [hbound, ← (hsame m).1]

theorem defineDescribed_steady (hop : op.isAggregateType) (operands : List Word)
    (hrests : strict → ∀ id, (Inst.defining op id operands).Rests need) {rest : Id → Build α}
    (hrest : ∀ id, Steady (J.recent id) (.type id :: need) (rest id) gains) :
    Steady J need (define op operands >>= rest) gains := by
  intro m held known hneed hm
  refine Keeps.bind_at (define_steady hJ hop operands hrests m)
    (fun id m₁ hrun => keepsAt_of_recent (hrest id) ?_) held known hneed hm
  obtain ⟨rfl, next, hnext, rfl⟩ := eq_of_define hrun
  exact ⟨m, J.drop hm nil_subperm (nil_subset _), rfl, hnext, rfl⟩

theorem addDecoration_recent {inst : Inst} (hsection : inst.op.section = .decorations)
    (hinst : inst.Remark) (hlays : ∀ id', inst.lays? = some id' → id' = id) (haims : inst.Aims [] need) :
    Upholds (J.recent id) need (addDecoration inst) := by
  refine recent_modifies (fun {held known m} hm hneed => ?_) fun _ => ⟨rfl, rfl⟩
  have h := hJ.note inst hm.1 (hsection ▸ rfl) hinst (fun id' hid' => hlays id' hid' ▸ hm.2)
    fun _ => haims.mono (nil_subset _) fun k => hneed k
  rw [hsection] at h
  exact h

omit hJ in
theorem eq_of_lays_decorate {d : Word} {id' : Id}
    (h : (Inst.effect .Decorate ([id, d] ++ operands)).lays? = some id') : id' = id := by
  cases operands with
  | nil => cases h
  | cons a operands =>
    cases operands with
    | nil =>
      replace h : (if d = Enumerated.number Decoration.ArrayStride then some id else none) = some id' := h
      split at h <;> cases h
      rfl
    | cons => cases h

omit hJ in
theorem eq_of_lays_decorateMember {index d : Word} {id' : Id}
    (h : (Inst.effect .MemberDecorate ([id, index, d] ++ operands)).lays? = some id') : id' = id := by
  replace h : (if d = Enumerated.number Decoration.Offset ∨ d = Enumerated.number Decoration.ColMajor ∨
    d = Enumerated.number Decoration.MatrixStride then some id else none) = some id' := h
  split at h <;> cases h
  rfl

omit hJ in
theorem aims_type (hid : .type id ∈ need) {inst : Inst} (h : inst.targets = [id]) : inst.Aims [] need :=
  fun _ hi => .inr ⟨_, hid, (mem_singleton.1 (h ▸ hi)).symm⟩

theorem decorate_recent (d : Decoration) (operands : List Word) (hid : .type id ∈ need) :
    Upholds (J.recent id) need (decorate id d operands) :=
  addDecoration_recent hJ rfl ⟨nofun, rfl⟩ (fun _ => eq_of_lays_decorate) (aims_type hid rfl)

theorem decorateMember_recent (index : Word) (d : Decoration) (operands : List Word) (hid : .type id ∈ need) :
    Upholds (J.recent id) need (decorateMember id index d operands) :=
  addDecoration_recent hJ rfl ⟨nofun, rfl⟩ (fun _ => eq_of_lays_decorateMember) (aims_type hid rfl)

theorem describeMember_recent (layout : MemoryLayout) (index : Word) (m : Member) (hid : .type id ∈ need) :
    Upholds (J.recent id) need (describeMember id layout index m) := by
  refine Steady.bind (recent_modifies (fun hm hneed => ?_) fun _ => ⟨rfl, rfl⟩) fun _ => ?_
  · exact hJ.note { op := .MemberName, resultType := some id, result := some index, name := some m.name }
      hm.1 rfl ⟨nofun, rfl⟩ nofun fun _ => (aims_type (hneed _ hid) rfl).mono (nil_subset _) fun _ h => h
  refine (decorateMember_recent hJ _ _ _ (by simp [hid])).bind fun _ => ?_
  split
  · refine (Steady.checked _).bind fun _ => ?_
    exact (decorateMember_recent hJ _ _ _ (by simp [hid])).bind fun _ => decorateMember_recent hJ _ _ _ (by simp [hid])
  · exact Steady.done _

theorem describeMembers_recent (layout : MemoryLayout) :
    ∀ (members : List Member) (index : Word) (need : List Known), .type id ∈ need →
      Upholds (J.recent id) need (describeMembers id layout index members)
  | [], _, _, _ => (Steady.checked _).bind fun _ => Steady.done _
  | m :: ms, index, _, hid =>
    (Steady.checked _).bind fun next =>
      (describeMember_recent hJ layout index m (by simp [hid])).bind fun _ =>
        describeMembers_recent layout ms next _ (by simp [hid])

end

/-! ## Arrays, structs and types in general -/

theorem declareTuple_steady {members : List Id} (hmembers : strict → members.map .type ⊆ need) :
    SuppliesType J need (declareTuple members) :=
  cachedType_steady hJ rfl (define_lacking _ _)
    (define_steady hJ rfl _ fun hstrict _ => rests_parts rfl (hmembers hstrict))

theorem declareArray_steady {element : Id} (length stride : Option Word) (helement : strict → .type element ∈ need) :
    SuppliesType J need (declareArray element length stride) := by
  refine cachedType_steady hJ rfl (makeArray_lacking nofun) ?_
  have hplain : ∀ (id : Id) (need : List Known), SuppliesType (J.recent id) (.type id :: need) (pure id) := fun id need => .pure _ (by simp)
  have hstrided : ∀ (stride : Word) (id : Id) (need : List Known), SuppliesType (J.recent id) (.type id :: need)
      (decorate id .ArrayStride [stride] >>= fun _ => pure id) := fun stride id need =>
    (decorate_recent hJ _ _ (by simp)).bind fun _ => Steady.pure _ (by simp)
  cases length with
  | none =>
    refine defineDescribed_steady hJ rfl _ (fun hstrict _ => rests_parts rfl (by
      simpa using helement hstrict)) fun id => ?_
    cases stride with
    | none => exact hplain id _
    | some stride => exact hstrided stride id _
  | some n =>
    refine (declareLiteral_steady hJ _).bind fun length =>
      defineDescribed_steady hJ rfl _ (fun hstrict _ i hi => ?_) fun id => ?_
    · rcases mem_cons.1 hi with rfl | hi
      · exact .inr (by simp [helement hstrict])
      · exact .inl (by simp [mem_singleton.1 hi])
    · cases stride with
      | none => exact hplain id _
      | some stride => exact hstrided stride id _

theorem defineStruct_steady (name : String) (layout : MemoryLayout) (members : List Member) {types : List Id}
    (htypes : strict → types.map .type ⊆ need) : SuppliesType J need (defineStruct name layout members types) := by
  refine defineDescribed_steady hJ rfl _ (fun hstrict _ => rests_parts rfl (htypes hstrict)) fun id => ?_
  refine Steady.bind (recent_modifies (fun hm hknown => ?_) fun _ => ⟨rfl, rfl⟩) fun _ => ?_
  · exact hJ.name hm.1 (.type (hknown _ (by simp)))
  · exact (describeMembers_recent hJ _ _ _ _ (by simp)).bind fun _ => Steady.pure _ (by simp)

theorem passedAs_steady (param : Variable) {type : Id} (htype : .type type ∈ need) :
    SuppliesType J need (passedAs param type) := by
  unfold passedAs
  split
  · exact declarePointer_steady hJ _ fun _ => htype
  · exact .pure _ (by simpa using htype)

end

mutual

theorem declareTypeWith_steady (hJ : Declaring J d strict) (layout : Option MemoryLayout) (explicit : Option Word) :
    ∀ (ty : Ty) (need : List Known) [ty.Allowed d], SuppliesType J need (declareTypeWith layout explicit ty)
  | .void, _, _ => declareVoid_steady hJ
  | .scalar s, _, _ => declareScalar_steady hJ s
  | .vector s n, _, h => by
    have : (Ty.scalar s).Allowed d := ⟨h.allowed⟩
    exact declareVector_steady hJ s n
  | .matrix s columns rows, _, h => by
    have : (Ty.scalar s).Allowed d := ⟨h.allowed⟩
    exact declareMatrix_steady hJ s columns rows
  | .array element length, _, h => by
    have : element.Allowed d := ⟨h.allowed⟩
    refine (declareTypeWith_steady hJ layout none element _).bind fun type => ?_
    exact (strideIn_steady _ _ _).bind fun stride => declareArray_steady hJ length stride (by simp)
  | .struct name layout members, _, h => by
    refine cachedType_steady hJ rfl ?_ ?_
    · refine (declareMembers_lacking layout members _ ?_).bind fun types =>
        defineStruct_lacking name layout members types
      rw [Ty.struct.sizeOf_spec]
      omega
    · exact (declareMembers_steady hJ layout members _ h.allowed).bind fun types =>
        defineStruct_steady hJ name layout members fun _ => subset_append_left _ _
  | .image c, _, h => by
    have : (Ty.scalar c.sampled).Allowed d := ⟨h.allowed⟩
    exact declareImage_steady hJ c
  | .sampledImage c, _, h => by
    have : (Ty.scalar c.sampled).Allowed d := ⟨h.allowed⟩
    exact declareSampledImage_steady hJ c
  | .sampler _, _, _ => declareSampler_steady hJ
  | .function ret params, _, h => by
    refine cachedType_steady hJ rfl ?_ ?_
    · refine (declareTypeWith_lacking none none ret _ ?_).bind fun ret =>
        (declareParams_lacking params _ ?_).bind fun params => declareSignature_lacking ret params
      all_goals
        rw [Ty.function.sizeOf_spec]
        omega
    · have : ret.Allowed d := ⟨fun hret => h.allowed (Bool.or_eq_true_iff.2 (.inl hret))⟩
      refine (declareTypeWith_steady hJ none none ret _).bind fun ret => ?_
      exact (declareParams_steady hJ params _ fun hparams =>
        h.allowed (Bool.or_eq_true_iff.2 (.inr hparams))).bind fun params => declareSignature_steady hJ (by simp)

theorem declareMembers_steady (hJ : Declaring J d strict) (layout : MemoryLayout) :
    ∀ (members : List Member) (need : List Known), (Member.anyDeclaresDouble members → d) →
      Steady J need (declareMembers layout members) (fun types => types.map .type)
  | [], _, _ => .pure _ (nil_subset _)
  | ⟨_, ty, _, stride⟩ :: ms, _, h => by
    have : ty.Allowed d := ⟨fun hty => h (Bool.or_eq_true_iff.2 (.inl hty))⟩
    refine (declareTypeWith_steady hJ (some layout) stride ty _).bind fun type => ?_
    exact (declareMembers_steady hJ layout ms _ fun hms =>
      h (Bool.or_eq_true_iff.2 (.inr hms))).bind fun types => Steady.pure _ (by simp)

theorem declareParam_steady (hJ : Declaring J d strict) : ∀ (v : Variable) (need : List Known), (v.declaresDouble → d) →
      SuppliesType J need (declareParam v)
  | .root name ty roles, _, h => by
    have : ty.Allowed d := ⟨h⟩
    exact (declareTypeWith_steady hJ none none ty _).bind fun type => passedAs_steady hJ _ (by simp)
  | .member outer index name ty, _, h => by
    have : ty.Allowed d := ⟨h⟩
    exact (declareTypeWith_steady hJ none none ty _).bind fun type => passedAs_steady hJ _ (by simp)

theorem declareParams_steady (hJ : Declaring J d strict) :
    ∀ (params : List Variable) (need : List Known), (Variable.anyDeclaresDouble params → d) →
      Steady J need (declareParams params) (fun types => types.map .type)
  | [], _, _ => .pure _ (nil_subset _)
  | v :: vs, _, h => by
    refine (declareParam_steady hJ v _ fun hv => h (Bool.or_eq_true_iff.2 (.inl hv))).bind fun type => ?_
    exact (declareParams_steady hJ vs _ fun hvs =>
      h (Bool.or_eq_true_iff.2 (.inr hvs))).bind fun types => Steady.pure _ (by simp)

end

theorem declareType_steady (hJ : Declaring J d strict) (ty : Ty) [ty.Allowed d] :
    SuppliesType J need (declareType ty) :=
  declareTypeWith_steady hJ none none ty need

end Module

end Shader
