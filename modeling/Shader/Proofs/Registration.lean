import Shader.Proofs.Filed

/-!
# Registrations last

Types, signatures and constants are declared once and found from then on: whatever is built after that,
declaring the same once more yields the same identifier and changes nothing. Different constants have
different identifiers, where the types of composites are compared by what is declared of them.
-/

namespace Shader

open Action Module

variable {m : Module} {id : Id} {ty : Ty}

mutual

/-- The type without what its declaration does not show, of samplers and of parameters. -/
def Ty.canonical : Ty → Ty
  | .array element length => .array element.canonical length
  | .sampler _ => .sampler false
  | .function ret params => .function ret.canonical (Variable.canonicalAll params)
  | ty => ty

/-- A parameter without its name and its roles but one: whether it is passed by reference. -/
def Variable.canonical : Variable → Variable
  | .root name ty roles => .root "" ty.canonical { outParameter := (Variable.root name ty roles).isByReference }
  | .member outer index name ty =>
    .root "" ty.canonical { outParameter := (Variable.member outer index name ty).isByReference }

def Variable.canonicalAll : List Variable → List Variable
  | [] => []
  | v :: vs => v.canonical :: Variable.canonicalAll vs

end

theorem Variable.canonical_eq (v : Variable) :
    v.canonical = .root "" v.ty.canonical { outParameter := v.isByReference } := by
  cases v <;> rw [canonical] <;> rfl

theorem Variable.canonical_inj {v v' : Variable} : v.canonical = v'.canonical ↔
      v.ty.canonical = v'.ty.canonical ∧ v.isByReference = v'.isByReference := by
  simp [canonical_eq]

namespace Module

/-! ## Types that are found -/

theorem strideIn_none (element : Ty) : strideIn none none element = pure none := by
  unfold strideIn
  split <;> rfl

/-- How a type is found outside of layouts: by itself, by its elements or by its signature. -/
inductive FoundAs (m : Module) : Ty → Id → Prop where
  | plain {ty : Ty} {id : Id} (own : (TypeIdentity.plain ty.canonical).isOwn)
      (found : m.types.get? (.plain ty.canonical) = some id) : m.FoundAs ty id
  | array {element : Ty} {length : Option Word} {part id : Id} (finds : m.Finds none none element part)
      (found : m.types.get? (.array part length none) = some id) : m.FoundAs (.array element length) id
  | function {ret : Ty} {params : List Variable} {type id : Id} {types : List Id}
      (finds : m.Finds none none ret type) (passes : List.Forall₂ m.Passes params types)
      (found : m.functionTypes.get? (type :: types) = some id) : m.FoundAs (.function ret params) id

theorem Finds.foundAs (hm : m.Backed) (h : m.Finds none none ty id) : m.FoundAs ty id := by
  cases ty with
  | array element length =>
    obtain ⟨part, stride, hstride, hpart, hid⟩ := h.array
    rw [strideIn_none] at hstride
    obtain ⟨rfl, -⟩ := pure_ok hstride
    exact .array hpart hid
  | function ret params =>
    obtain ⟨type, types, htype, htypes, hid⟩ := hm.types _ id (cachedType_ok h)
    exact .function htype htypes hid
  | _ => exact .plain rfl (cachedType_ok h)

theorem HasParts.declared {key : TypeIdentity} (hkey : key.isOwn) (h : m.HasParts key id) :
    ∃ op operands, .defining op id operands ∈ m.declarations ∧ op ≠ .TypeFunction ∧ op ≠ .TypePointer := by
  unfold HasParts at h
  split at h
  case h_2 s => exact ⟨_, _, h, by cases s <;> simp [scalarDeclaration]⟩
  case h_12 | h_13 | h_14 => cases hkey
  case h_3 | h_4 | h_5 | h_6 | h_9 | h_10 =>
    obtain ⟨_, -, hmem⟩ := h
    exact ⟨_, _, hmem, by simp⟩
  all_goals exact ⟨_, _, h, by simp⟩

namespace Exact

variable (hm : m.Exact)

include hm

theorem inst_unique {inst inst' : Inst} (hinst : inst ∈ m.declarations) (hid : inst.result = some id)
    (hinst' : inst' ∈ m.declarations) (hid' : inst'.result = some id) : inst = inst' := by
  have hfound := declaration?_of_mem hm.nodup hinst hid
  rw [declaration?_of_mem hm.nodup hinst' hid'] at hfound
  exact (Option.some.inj hfound).symm

theorem not_mem_of_own {key : TypeIdentity} (hkey : key.isOwn) (h : m.types.get? key = some id)
    {op : Op} (hop : op = .TypeFunction ∨ op = .TypePointer) (operands : List Word) :
    .defining op id operands ∉ m.declarations := by
  intro hmem
  obtain ⟨op', operands', hmem', hfunction, hpointer⟩ := (hm.backed.types _ id h).declared hkey
  have hsame : op' = op := congrArg Inst.op (hm.inst_unique hmem' rfl hmem rfl)
  subst hsame
  exact hop.elim hfunction hpointer

theorem not_pointer (h : m.Finds none none ty id) (operands : List Word) :
    .defining .TypePointer id operands ∉ m.declarations := by
  cases h.foundAs hm.backed with
  | plain own found => exact hm.not_mem_of_own own found (.inr rfl) operands
  | array _ found => exact hm.not_mem_of_own rfl found (.inr rfl) operands
  | function _ _ found =>
    intro hmem
    cases hm.inst_unique (hm.backed.functionTypes _ id found) rfl hmem rfl

theorem pointee_unique {pointee pointee' pointer : Id} {storage storage' : StorageClass}
    (h : m.pointers.get? (pointee, storage) = some pointer)
    (h' : m.pointers.get? (pointee', storage') = some pointer) : pointee = pointee' := by
  have hsame := hm.inst_unique (hm.backed.pointers _ _ _ h) rfl (hm.backed.pointers _ _ _ h') rfl
  have hoperands := congrArg Inst.operands hsame
  simp only [Inst.defining, List.cons.injEq, and_true] at hoperands
  exact hoperands.2

theorem signature_unique {key key' : List Id} (h : m.functionTypes.get? key = some id)
    (h' : m.functionTypes.get? key' = some id) : key = key' :=
  congrArg Inst.operands (hm.inst_unique (hm.backed.functionTypes _ _ h) rfl (hm.backed.functionTypes _ _ h') rfl)

theorem eq_iff_of_own {ty' : Ty} {id' : Id} (hown : (TypeIdentity.plain ty.canonical).isOwn)
    (h : m.Finds none none ty id) (h' : m.Finds none none ty' id') : id = id' ↔ ty.canonical = ty'.canonical := by
  have hfound : m.types.get? (.plain ty.canonical) = some id := by
    cases h.foundAs hm.backed with
    | plain _ found => exact found
    | array | function => cases hown
  cases h'.foundAs hm.backed with
  | plain own' found' =>
    refine ⟨fun heq => ?_, fun heq => ?_⟩
    · subst heq
      exact TypeIdentity.plain.inj (hm.apart _ _ _ hown own' hfound found')
    · rw [heq, found'] at hfound
      exact (Option.some.inj hfound).symm
  | array _ found' =>
    refine ⟨fun heq => ?_, fun heq => ?_⟩
    · subst heq
      cases hm.apart _ _ _ hown rfl hfound found'
    · rw [heq, Ty.canonical] at hown
      cases hown
  | function _ _ found' =>
    refine ⟨fun heq => ?_, fun heq => ?_⟩
    · subst heq
      exact absurd (hm.backed.functionTypes _ _ found') (hm.not_mem_of_own hown hfound (.inl rfl) _)
    · rw [heq, Ty.canonical] at hown
      cases hown

theorem eq_iff_passes {v v' : Variable} {type type' : Id}
    (hty : ∀ {id id' : Id}, m.Finds none none v.ty id → m.Finds none none v'.ty id' →
      (id = id' ↔ v.ty.canonical = v'.ty.canonical))
    (h : m.Passes v type) (h' : m.Passes v' type') : type = type' ↔ v.canonical = v'.canonical := by
  obtain ⟨value, hvalue, htype⟩ := h
  obtain ⟨value', hvalue', htype'⟩ := h'
  rw [Variable.canonical_inj, ← hty hvalue hvalue']
  cases hreference : v.isByReference <;> cases hreference' : v'.isByReference <;>
    simp only [hreference, hreference', if_true, Bool.false_eq_true, if_false] at htype htype'
  · rw [htype, htype']
    simp
  · subst htype
    refine ⟨fun heq => ?_, fun heq => absurd heq.2 Bool.false_ne_true⟩
    exact absurd (hm.backed.pointers _ _ _ (heq ▸ htype')) (hm.not_pointer hvalue _)
  · subst htype'
    refine ⟨fun heq => ?_, fun heq => absurd heq.2.symm Bool.false_ne_true⟩
    exact absurd (hm.backed.pointers _ _ _ (heq ▸ htype)) (hm.not_pointer hvalue' _)
  · refine ⟨fun heq => ⟨hm.pointee_unique htype (heq ▸ htype'), rfl⟩, fun heq => ?_⟩
    rw [heq.1, htype'] at htype
    exact (Option.some.inj htype).symm

end Exact

mutual

/-- Types have one identifier outside of layouts if and only if they show the same of themselves. -/
theorem Exact.eq_iff_canonical (hm : m.Exact) : ∀ {ty ty' : Ty} {id id' : Id},
    m.Finds none none ty id → m.Finds none none ty' id' → (id = id' ↔ ty.canonical = ty'.canonical)
  | .array element length, ty', id, id', h, h' => by
    cases h.foundAs hm.backed with
    | plain own => cases own
    | array finds found =>
      cases h'.foundAs hm.backed with
      | plain own' found' => exact (eq_comm.trans (hm.eq_iff_of_own own' h' h)).trans eq_comm
      | array finds' found' =>
        have hpart := hm.eq_iff_canonical finds finds'
        rw [Ty.canonical, Ty.canonical, Ty.array.injEq, ← hpart]
        refine ⟨fun heq => ?_, fun heq => ?_⟩
        · subst heq
          obtain ⟨hparts, hlengths, -⟩ := TypeIdentity.array.inj (hm.apart _ _ _ rfl rfl found found')
          exact ⟨hparts, hlengths⟩
        · rw [heq.1, heq.2, found'] at found
          exact (Option.some.inj found).symm
      | function _ _ found' =>
        -- No identifier is declared both as an array and as a function.
        refine ⟨fun heq => ?_, fun heq => ?_⟩
        · subst heq
          exact absurd (hm.backed.functionTypes _ _ found') (hm.not_mem_of_own rfl found (.inl rfl) _)
        · cases heq
  | .function ret params, ty', id, id', h, h' => by
    cases h.foundAs hm.backed with
    | plain own => cases own
    | function finds passes found =>
      cases h'.foundAs hm.backed with
      | plain own' found' => exact (eq_comm.trans (hm.eq_iff_of_own own' h' h)).trans eq_comm
      | array _ found' =>
        refine ⟨fun heq => ?_, fun heq => ?_⟩
        · subst heq
          exact absurd (hm.backed.functionTypes _ _ found) (hm.not_mem_of_own rfl found' (.inl rfl) _)
        · cases heq
      | function finds' passes' found' =>
        have hret := hm.eq_iff_canonical finds finds'
        have hparams := hm.eq_iff_canonicalAll passes passes'
        rw [Ty.canonical, Ty.canonical, Ty.function.injEq, ← hret, ← hparams, ← List.cons.injEq]
        refine ⟨fun heq => ?_, fun heq => ?_⟩
        · subst heq
          exact hm.signature_unique found found'
        · rw [heq, found'] at found
          exact (Option.some.inj found).symm
  | .void, _, _, _, h, h' | .scalar _, _, _, _, h, h' | .vector .., _, _, _, h, h'
  | .matrix .., _, _, _, h, h' | .struct .., _, _, _, h, h' | .image _, _, _, _, h, h'
  | .sampledImage _, _, _, _, h, h' | .sampler _, _, _, _, h, h' => hm.eq_iff_of_own rfl h h'

theorem Exact.eq_iff_canonicalParam (hm : m.Exact) : ∀ {v v' : Variable} {type type' : Id},
    m.Passes v type → m.Passes v' type' → (type = type' ↔ v.canonical = v'.canonical)
  | .root _ ty _, _, _, _, h, h' =>
    hm.eq_iff_passes (fun hid => hm.eq_iff_canonical (show m.Finds none none ty _ from hid)) h h'
  | .member _ _ _ ty, _, _, _, h, h' =>
    hm.eq_iff_passes (fun hid => hm.eq_iff_canonical (show m.Finds none none ty _ from hid)) h h'

theorem Exact.eq_iff_canonicalAll (hm : m.Exact) : ∀ {vs vs' : List Variable} {types types' : List Id},
    List.Forall₂ m.Passes vs types → List.Forall₂ m.Passes vs' types' →
    (types = types' ↔ Variable.canonicalAll vs = Variable.canonicalAll vs')
  | [], vs', types, types', h, h' => by
    cases h
    cases h' <;> simp [Variable.canonicalAll]
  | v :: vs, vs', types, types', h, h' => by
    cases h with
    | cons hv hvs =>
      cases h' with
      | nil => simp [Variable.canonicalAll]
      | cons hv' hvs' =>
        rw [Variable.canonicalAll, Variable.canonicalAll, List.cons.injEq, List.cons.injEq,
          hm.eq_iff_canonicalParam hv hv', hm.eq_iff_canonicalAll hvs hvs']

end

end Module

/-! ## Registrations -/

/-- What can be registered in a module. -/
inductive Registration where
  | type (ty : Ty) (layout : Option MemoryLayout) (stride : Option Word)
  | pointer (pointee : Id) (storage : StorageClass)
  | signature (ret : Id) (params : List Id)
  | tuple (members : List Id)
  | literal (value : Literal)
  | composite (constituents : List Id) (ty : Ty)

namespace Registration

/-- Registers it, or finds it. -/
def declare : Registration → Build Id
  | .type ty layout stride => declareTypeWith layout stride ty
  | .pointer pointee storage => declarePointer pointee storage
  | .signature ret params => declareSignature ret params
  | .tuple members => declareTuple members
  | .literal value => declareLiteral value
  | .composite constituents ty => declareComposite constituents ty

/-- The identifiers that have to be there before. -/
def refers : Registration → List Id
  | .composite constituents _ => constituents
  | _ => []

/-- The constant that is registered, if it is one: a literal, or constituents and what their type shows
of itself. -/
def constant? : Registration → Option (Literal ⊕ List Id × Ty)
  | .literal value => some (.inl value)
  | .composite constituents ty => some (.inr (constituents, ty.canonical))
  | _ => none

variable {r r' : Registration} {m₁ m' : Module} {id' : Id}

theorem declare_later (h : r.declare m = (.ok id, m₁)) (hlater : m₁.Retains m') : r.declare m' = (.ok id, m') := by
  cases r with
  | type ty layout stride => exact finds_later h hlater
  | pointer pointee storage => exact findOrMake_of_some (hlater.pointers _ _ (declarePointer_ok h))
  | signature ret params => exact findOrMake_of_some (hlater.functionTypes _ _ (declareSignature_ok h))
  | tuple members => exact cachedType_found (hlater.types _ _ (cachedType_ok h))
  | literal value => exact findOrMake_of_some (hlater.literals _ _ (declareLiteral_ok h))
  | composite constituents ty =>
    obtain ⟨type, hfinds, hid⟩ := declareComposite_ok h
    have hfound : declareType ty m' = (.ok type, m') := hfinds.mono hlater
    show (declareType ty >>= _) m' = _
    rw [bind_apply_ok hfound]
    exact findOrMake_of_some (hlater.composites _ _ hid)

theorem change (r : Registration) (w : Workbench) :
    w.Change (.composite r.refers .void) { w with module := (r.declare w.module).2 } := by
  cases r with
  | type ty layout stride => exact .ofBuild fun _ hJ => declareTypeWith_steady hJ.toDeclaring layout stride ty _
  | pointer pointee storage => exact .ofBuild fun _ hJ => declarePointer_steady hJ.toDeclaring storage nofun
  | signature ret params => exact .ofBuild fun _ hJ => declareSignature_steady hJ.toDeclaring nofun
  | tuple members => exact .ofBuild fun _ hJ => declareTuple_steady hJ.toDeclaring nofun
  | literal value => exact .ofBuild fun _ hJ => declareLiteral_steady hJ.toDeclaring value
  | composite constituents ty =>
    refine .built _ (constituents.map .value) w.requirements (fun J hJ => ?_) (List.subset_append_left _ _)
    exact Steady.forget (declareComposite_steady hJ (fun _ hk => hk) ty)

end Registration

theorem Module.Exact.eq_iff_constant {m : Module} (hm : m.Exact) {r r' : Registration} {id id' : Id}
    {k k' : Literal ⊕ List Id × Ty} (h : r.declare m = (.ok id, m)) (h' : r'.declare m = (.ok id', m))
    (hk : r.constant? = some k) (hk' : r'.constant? = some k') : id = id' ↔ k = k' := by
  have hmixed : ∀ {l : Literal} {constituents : List Id} {type type' id : Id}, l.inst type id ∈ m.declarations →
      .value .ConstantComposite type' id constituents ∉ m.declarations := by
    intro l constituents type type' id hmem hmem'
    have hscalar := l.inst_isScalarConstant type id
    rw [hm.inst_unique hmem rfl hmem' rfl] at hscalar
    cases hscalar
  cases r with
  | type | pointer | signature | tuple => cases hk
  | literal l =>
    cases hk
    have hl := declareLiteral_ok h
    obtain ⟨type, htype, hmem⟩ := hm.backed.literals _ _ hl
    cases r' with
    | type | pointer | signature | tuple => cases hk'
    | literal l' =>
      cases hk'
      have hl' := declareLiteral_ok h'
      obtain ⟨type', htype', hmem'⟩ := hm.backed.literals _ _ hl'
      rw [Sum.inl.injEq]
      refine ⟨fun heq => ?_, fun heq => ?_⟩
      · subst heq
        have hsame := hm.inst_unique hmem rfl hmem' rfl
        cases congrArg Inst.resultType hsame
        have hscalar := TypeIdentity.plain.inj (hm.apart _ _ _ rfl rfl htype htype')
        exact Literal.eq_of_declaration (Ty.scalar.inj hscalar)
          (Prod.ext (congrArg Inst.op hsame) (congrArg Inst.operands hsame))
      · rw [heq, hl'] at hl
        exact (Option.some.inj hl).symm
    | composite constituents ty =>
      cases hk'
      obtain ⟨type', -, hid'⟩ := declareComposite_ok h'
      refine ⟨fun heq => ?_, fun heq => nomatch heq⟩
      exact absurd (hm.backed.composites _ _ _ hid') (heq ▸ hmixed hmem)
  | composite constituents ty =>
    cases hk
    obtain ⟨type, hfinds, hid⟩ := declareComposite_ok h
    have hmem := hm.backed.composites _ _ _ hid
    cases r' with
    | type | pointer | signature | tuple => cases hk'
    | literal l' =>
      cases hk'
      obtain ⟨type', -, hmem'⟩ := hm.backed.literals _ _ (declareLiteral_ok h')
      refine ⟨fun heq => ?_, fun heq => nomatch heq⟩
      exact absurd hmem (heq ▸ hmixed hmem')
    | composite constituents' ty' =>
      cases hk'
      obtain ⟨type', hfinds', hid'⟩ := declareComposite_ok h'
      have hmem' := hm.backed.composites _ _ _ hid'
      rw [Sum.inr.injEq, Prod.mk.injEq, ← hm.eq_iff_canonical hfinds hfinds']
      refine ⟨fun heq => ?_, fun heq => ?_⟩
      · subst heq
        have hsame := hm.inst_unique hmem rfl hmem' rfl
        exact ⟨congrArg Inst.operands hsame, Option.some.inj (congrArg Inst.resultType hsame)⟩
      · rw [heq.1, heq.2, hid'] at hid
        exact (Option.some.inj hid).symm

/-! ## Runs -/

theorem Workbench.run_retains (w : Workbench) (ops : List Operation) (hops : ∀ op ∈ ops, op.builds) :
    w.module.Retains (w.run ops).module :=
  run_keeps (P := fun w' => w.module.Retains w'.module)
    (fun hchange hw => hw.trans hchange.retains) ops hops (.refl w.module)

/-- What was registered is found after every further run, under the same identifier. Two constants have
the same one exactly if they are the same literal, or have the same constituents and types that show the
same. -/
theorem run_registers_once (config : Config) (before after : List Operation)
    (hbefore : ∀ op ∈ before, op.builds) (hafter : ∀ op ∈ after, op.builds) {r : Registration} {id : Id}
    {m : Module} (h : r.declare ((Workbench.start config).run before).module = (.ok id, m)) :
    let w := Workbench.run { (Workbench.start config).run before with module := m } after
    r.declare w.module = (.ok id, w.module) ∧
      ∀ (r' : Registration) (id' : Id) (m' : Module) (k k' : Literal ⊕ List Id × Ty),
        r'.declare w.module = (.ok id', m') → r.constant? = some k → r'.constant? = some k' →
        (id = id' ↔ k = k') := by
  intro w
  have hexact := (Workbench.start_exact config).run before hbefore
  have hregistered := hexact.change (r.change _)
  rw [h] at hregistered
  have hw : w.Exact := hregistered.run after hafter
  have hlater : m.Retains w.module :=
    Workbench.run_retains { (Workbench.start config).run before with module := m } after hafter
  refine ⟨Registration.declare_later h hlater, ?_⟩
  intro r' id' m' k k' h' hk hk'
  have hw' := hw.change (r'.change w)
  rw [h'] at hw'
  have hretains := (r'.change w).retains
  rw [h'] at hretains
  exact hw'.module.eq_iff_constant (Registration.declare_later h (hlater.trans hretains))
    (Registration.declare_later h' (.refl m')) hk hk'

/-- Zero is found again after a lowering that fails, and negative zero differs from it. -/
theorem zero_registers_once :
    let zero : Registration := .literal (.float 0)
    let minusZero : Registration := .literal (.float 0x80000000)
    let w₀ := (Workbench.start {}).run [.literal (.uint 0)]
    let w := Workbench.run { w₀ with module := (zero.declare w₀.module).2 } Operation.storing
    (∀ op ∈ [Operation.literal (.uint 0)], op.builds) ∧ (∀ op ∈ Operation.storing, op.builds) ∧
      ∃ id id' m', zero.declare w₀.module = (.ok id, (zero.declare w₀.module).2) ∧
        zero.declare w.module = (.ok id, w.module) ∧ minusZero.declare w.module = (.ok id', m') ∧
        id ≠ id' := by
  intro zero minusZero w₀ w
  have hbefore : ∀ op ∈ [Operation.literal (.uint 0)], op.builds := by decide
  have hafter : ∀ op ∈ Operation.storing, op.builds := by decide
  have hok : (zero.declare w₀.module).1.isOk := by decide +kernel
  have hok' : (minusZero.declare w.module).1.isOk := by decide +kernel
  obtain ⟨id, h⟩ := exists_ok hok
  obtain ⟨id', h'⟩ := exists_ok hok'
  obtain ⟨hlasts, hdiffers⟩ := run_registers_once {} _ _ hbefore hafter h
  refine ⟨hbefore, hafter, id, id', _, h, hlasts, h', ?_⟩
  rw [Ne, hdiffers minusZero id' _ _ _ h' rfl rfl]
  decide

/-- Composites of different types share an identifier where the types are declared alike. -/
theorem samplers_share_composites : Ty.sampler true ≠ .sampler false ∧
      ∃ id m m', declareComposite [] (.sampler true) (Workbench.start {}).module = (.ok id, m) ∧
        declareComposite [] (.sampler false) m = (.ok id, m') := by
  have hid : (declareComposite [] (.sampler true) (Workbench.start {}).module).1.toOption =
      some 3 := by decide +kernel
  have hid' : (declareComposite [] (.sampler false)
      (declareComposite [] (.sampler true) (Workbench.start {}).module).2).1.toOption =
      some 3 := by decide +kernel
  have hpair : ∀ {x : Build Id} {m : Module}, (x m).1.toOption = some 3 → x m = (.ok 3, (x m).2) := by
    intro x m h
    rcases hx : x m with ⟨_ | id, m'⟩ <;> rw [hx] at h <;> cases h
    rfl
  exact ⟨nofun, 3, _, _, hpair hid, hpair hid'⟩

end Shader
