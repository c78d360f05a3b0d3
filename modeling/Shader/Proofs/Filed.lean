import Shader.Proofs.Identity

/-!
# Declarations are found by what they say

Types that are no aggregates, and constants, are declared and remembered at once. Every declaration of
one is found again by its opcode and its operands, and so none is made twice.
-/

namespace Shader

open Module

variable {m : Module} {inst : Inst} {op : Op} {operands : List Word}

theorem Dim.ofNumber?_number (d : Dim) : Enumerated.ofNumber? (Enumerated.number d) = some d := by
  cases d <;> rfl

theorem ImageFormat.ofNumber?_number (f : ImageFormat) : Enumerated.ofNumber? (Enumerated.number f) = some f := by
  cases f <;> rfl

theorem Word.ofBool_injective {a b : Bool} (h : Word.ofBool a = Word.ofBool b) : a = b := by
  revert h
  cases a <;> cases b <;> decide

/-! ## Declarations -/

/-- Types that may be declared only once. -/
def Op.isUniqueType : Op → Bool
  | .TypeVoid | .TypeBool | .TypeInt | .TypeFloat | .TypeVector | .TypeMatrix | .TypeImage
  | .TypeSampler | .TypeSampledImage | .TypeOpaque | .TypePointer | .TypeFunction => true
  | _ => false

namespace Module

/-- Constants that the module finds by their value or by their constituents. -/
inductive FilesConstant (m : Module) : Inst → Prop where
  | literal {l : Literal} {type id : Id} (part : m.types.get? (.plain (.scalar l.scalar)) = some type)
      (found : m.literals.get? l = some id) : m.FilesConstant (l.inst type id)
  | composite {constituents : List Id} {type id : Id} (found : m.composites.get? (constituents, type) = some id) :
      m.FilesConstant (.value .ConstantComposite type id constituents)

/-- If the instruction declares a type that is no aggregate, or a constant, it is found by what it
says. -/
structure Accounts (m : Module) (inst : Inst) : Prop where
  type : inst.op.isUniqueType → ∃ id, inst.result = some id ∧ m.Files id inst.op inst.operands
  constant : inst.op.isFixedConstant → m.FilesConstant inst

/-- The module finds each of its declarations. -/
def Filed (m : Module) : Prop := ∀ inst ∈ m.declarations, m.Accounts inst

section

variable {m' : Module}

theorem Files.mono {id : Id} (h : m.Files id op operands) (hm : m.Retains m') : m'.Files id op operands := by
  cases h with
  | type spells found => exact .type (spells.mono hm.types) (hm.types _ _ found)
  | pointer found => exact .pointer (hm.pointers _ _ found)
  | signature found => exact .signature (hm.functionTypes _ _ found)

theorem FilesConstant.mono (h : m.FilesConstant inst) (hm : m.Retains m') : m'.FilesConstant inst := by
  cases h with
  | literal part found => exact .literal (hm.types _ _ part) (hm.literals _ _ found)
  | composite found => exact .composite (hm.composites _ _ found)

theorem Accounts.mono (h : m.Accounts inst) (hm : m.Retains m') : m'.Accounts inst where
  type hop := by
    obtain ⟨id, hid, hfiles⟩ := h.type hop
    exact ⟨id, hid, hfiles.mono hm⟩
  constant hop := (h.constant hop).mono hm

theorem Accounts.other (htype : inst.op.isUniqueType = false)
    (hconstant : inst.op.isFixedConstant = false) : m.Accounts inst where
  type hop := by simp [htype] at hop
  constant hop := by simp [hconstant] at hop

end

theorem cataloguing_filed : Cataloguing .any Accounts where
  mono hm h := h.mono hm
  aggregate _ hop := by
    refine .other ?_ ?_
    all_goals
      revert hop
      unfold Op.isAggregateType
      split <;> simp [Inst.defining, Op.isUniqueType, Op.isFixedConstant]
  shared hop hfiles _ := by
    refine ⟨fun _ => ⟨_, rfl, hfiles⟩, fun hfixed => ?_⟩
    have hother := Op.isFixedConstant_of_isType hop
    exact absurd hfixed (by simpa [Inst.defining] using hother)
  literal {_ l type id} htype hl := by
    refine ⟨fun hunique => ?_, fun _ => .literal htype hl⟩
    have hscalar := l.inst_isScalarConstant type id
    revert hunique hscalar
    cases (l.inst type id).op <;> simp [Op.isUniqueType, Op.isScalarConstant]
  composite hfound := ⟨nofun, fun _ => .composite hfound⟩
  specialize _ _ hop := by
    refine .other ?_ ?_
    all_goals
      revert hop
      unfold Op.isSpecialization
      split <;> simp [Inst.value, Op.isUniqueType, Op.isFixedConstant]
  global _ _ _ := .other rfl rfl

end Module

/-! ## What says the same is found once -/

namespace Module

theorem imageOperands_injective {texel texel' : Id} {c c' : ImageConfig}
    (h : imageOperands texel c = imageOperands texel' c')
    (hsampled : texel = texel' → c.sampled = c'.sampled) : c = c' := by
  obtain ⟨sampled, dim, format, arrayed, ms, depth, storage⟩ := c
  obtain ⟨sampled', dim', format', arrayed', ms', depth', storage'⟩ := c'
  simp only [imageOperands, List.cons.injEq, and_true] at h
  obtain ⟨htexel, hdim, hdepth, harrayed, hms, hstorage, hformat⟩ := h
  have hstorage : storage = storage' := by
    cases storage <;> cases storage' <;> simp at hstorage ⊢
  rw [show sampled = sampled' from hsampled htexel, Enumerated.number_injective Dim.ofNumber?_number hdim,
    Enumerated.number_injective ImageFormat.ofNumber?_number hformat, Word.ofBool_injective hdepth,
    Word.ofBool_injective harrayed, Word.ofBool_injective hms, hstorage]

theorem scalarDeclaration_injective {s s' : Scalar} (h : scalarDeclaration s = scalarDeclaration s') : s = s' := by
  revert h
  cases s <;> cases s' <;> decide

theorem Spells.key_unique (hm : m.Apart) {key key' : TypeIdentity} (h : m.Spells key op operands)
    (h' : m.Spells key' op operands) : key = key' := by
  have hpart : ∀ {ty ty' : Ty} {id : Id}, (TypeIdentity.plain ty).isOwn → (TypeIdentity.plain ty').isOwn →
      m.types.get? (.plain ty) = some id → m.types.get? (.plain ty') = some id → ty = ty' :=
    fun hown hown' hty hty' => TypeIdentity.plain.inj (hm _ _ _ hown hown' hty hty')
  have hscalar : ∀ {s op operands}, scalarDeclaration s = (op, operands) →
      op = .TypeBool ∨ op = .TypeInt ∨ op = .TypeFloat := by
    intro s op operands hs
    cases s <;> cases hs <;> simp
  cases h with
  | void =>
    cases h' with
    | void => rfl
    | scalar spelled => simpa using hscalar spelled
  | scalar spelled =>
    cases h' with
    | scalar spelled' => rw [scalarDeclaration_injective (spelled.trans spelled'.symm)]
    | _ => simpa using hscalar spelled
  | vector part =>
    cases h' with
    | vector part' => cases hpart rfl rfl part part'; rfl
    | scalar spelled => simpa using hscalar spelled
  | matrix part =>
    cases h' with
    | matrix part' => cases hpart rfl rfl part part'; rfl
    | scalar spelled => simpa using hscalar spelled
  | @image c texel part =>
    -- The operands have to be a variable before cases can tell what else may have them.
    generalize hoperands : imageOperands texel c = operands at h'
    cases h' with
    | @image c' texel' part' =>
      rw [imageOperands_injective hoperands fun htexel => ?_]
      subst htexel
      exact Ty.scalar.inj (hpart rfl rfl part part')
    | scalar spelled => simpa using hscalar spelled
  | sampledImage part =>
    cases h' with
    | sampledImage part' => cases hpart rfl rfl part part'; rfl
    | scalar spelled => simpa using hscalar spelled
  | sampler =>
    cases h' with
    | sampler => rfl
    | scalar spelled => simpa using hscalar spelled

theorem Files.id_unique (hm : m.Apart) {id id' : Id} (h : m.Files id op operands)
    (h' : m.Files id' op operands) : id = id' := by
  have hneither : ∀ {key op operands}, m.Spells key op operands → op ≠ .TypePointer ∧ op ≠ .TypeFunction := by
    intro key op operands hspells
    cases hspells with
    | @scalar s _ _ spelled => cases s <;> cases spelled <;> simp
    | _ => simp
  cases h with
  | type spells found =>
    cases h' with
    | type spells' found' =>
      rw [spells.key_unique hm spells', found'] at found
      exact (Option.some.inj found).symm
    | pointer => simpa using hneither spells
    | signature => simpa using hneither spells
  | @pointer pointee storage found =>
    generalize hoperands : [Enumerated.number storage, pointee] = operands at h'
    cases h' with
    | type spells' => simpa using hneither spells'
    | pointer found' =>
      obtain ⟨hstorage, rfl⟩ : _ ∧ pointee = _ := by simpa using hoperands
      rw [Enumerated.number_injective StorageClass.ofNumber?_number hstorage, found'] at found
      exact (Option.some.inj found).symm
  | signature found =>
    cases h' with
    | type spells' => simpa using hneither spells'
    | signature found' =>
      rw [found'] at found
      exact (Option.some.inj found).symm

end Module

theorem Literal.eq_of_declaration {l l' : Literal} (hscalar : l.scalar = l'.scalar)
    (hspelled : literalDeclaration l = literalDeclaration l') : l = l' := by
  cases l <;> cases l' <;> simp only [scalar, reduceCtorEq] at hscalar
  case bool.bool b b' => cases b <;> cases b' <;> simp [literalDeclaration] at hspelled ⊢
  case double.double bits bits' =>
    simp only [literalDeclaration, words, Prod.mk.injEq, true_and, List.cons.injEq, and_true] at hspelled
    obtain ⟨hlow, hhigh⟩ := hspelled
    have hlow := congrArg UInt32.toNat hlow
    have hhigh := congrArg UInt32.toNat hhigh
    congr 1
    rw [← UInt64.toNat_inj]
    simp [Nat.shiftRight_eq_div_pow] at hlow hhigh
    have := bits.toNat_lt
    have := bits'.toNat_lt
    omega
  case int.int n n' =>
    simp only [literalDeclaration, words, Prod.mk.injEq, true_and, List.cons.injEq, and_true] at hspelled
    exact congrArg (fun word => int (.ofUInt32 word)) hspelled
  all_goals
    simp [literalDeclaration, words] at hspelled ⊢
    exact hspelled

namespace Module

theorem FilesConstant.result_unique (hm : m.Apart) {inst' : Inst} (h : m.FilesConstant inst)
    (h' : m.FilesConstant inst') (hop : inst.op = inst'.op) (htype : inst.resultType = inst'.resultType)
    (hoperands : inst.operands = inst'.operands) : inst.result = inst'.result := by
  have hother : ∀ (l : Literal) (type id : Id), (l.inst type id).op ≠ .ConstantComposite := by
    intro l type id heq
    have hscalar := l.inst_isScalarConstant type id
    rw [heq] at hscalar
    cases hscalar
  cases h with
  | @literal l type id part found =>
    cases h' with
    | @literal l' type' id' part' found' =>
      cases htype
      have hscalar : l.scalar = l'.scalar := Ty.scalar.inj (TypeIdentity.plain.inj (hm _ _ _ rfl rfl part part'))
      have hl : l = l' := Literal.eq_of_declaration hscalar (Prod.ext hop hoperands)
      rw [hl, found'] at found
      exact found.symm
    | composite => exact absurd hop (hother l type id)
  | composite found =>
    cases h' with
    | literal => exact absurd hop.symm (hother _ _ _)
    | composite found' =>
      cases htype
      cases hoperands
      rw [found'] at found
      exact found.symm

theorem nodup_map_of_results {α : Type} {decls : List Inst} (hnodup : (results decls).Nodup)
    {p : Inst → Bool} {f : Inst → α} (hdefines : ∀ inst ∈ decls, p inst → ∃ id, inst.result = some id)
    (hsame : ∀ inst ∈ decls, ∀ inst' ∈ decls, p inst → p inst' → f inst = f inst' →
      inst.result = inst'.result) : ((decls.filter p).map f).Nodup := by
  refine List.pairwise_map.2 (List.pairwise_filter.2 ?_)
  refine (List.pairwise_filterMap.1 hnodup).imp_of_mem fun {inst inst'} hinst hinst' hdiffer hp hp' heq => ?_
  obtain ⟨id, hid⟩ := hdefines inst hinst hp
  have hid' := (hsame inst hinst inst' hinst' hp hp' heq).symm.trans hid
  exact hdiffer id hid id hid' rfl

theorem Filed.nodup (hm : m.Filed) (hapart : m.Apart) (hnodup : (results m.declarations).Nodup) :
    ((m.declarations.filter (·.op.isUniqueType)).map fun inst => (inst.op, inst.operands)).Nodup ∧
    ((m.declarations.filter (·.op.isFixedConstant)).map fun inst =>
      (inst.op, inst.resultType, inst.operands)).Nodup := by
  constructor
  · refine nodup_map_of_results hnodup (fun inst hinst hop => ?_) ?_
    · obtain ⟨id, hid, -⟩ := (hm inst hinst).type hop
      exact ⟨id, hid⟩
    · intro inst hinst inst' hinst' hop hop' heq
      obtain ⟨hops, hoperands⟩ := Prod.mk.inj heq
      obtain ⟨id, hid, hfiles⟩ := (hm inst hinst).type hop
      obtain ⟨id', hid', hfiles'⟩ := (hm inst' hinst').type hop'
      rw [← hops, ← hoperands] at hfiles'
      rw [hid, hid', hfiles.id_unique hapart hfiles']
  · refine nodup_map_of_results hnodup (fun inst hinst hop => ?_) ?_
    · cases (hm inst hinst).constant hop <;> exact ⟨_, rfl⟩
    · intro inst hinst inst' hinst' hop hop' heq
      obtain ⟨hops, hrest⟩ := Prod.mk.inj heq
      obtain ⟨htypes, hoperands⟩ := Prod.mk.inj hrest
      exact ((hm inst hinst).constant hop).result_unique hapart ((hm inst' hinst').constant hop') hops htypes hoperands

end Module

theorem Workbench.run_filed (config : Config) (ops : List Operation) (hops : ∀ op ∈ ops, op.builds) :
    ((start config).run ops).module.Filed :=
  run_keeps (P := (·.module.Filed)) (fun hchange =>
    hchange.catalogues cataloguing_filed fun _ _ _ _ => trivial) ops hops fun _ h => nomatch h

/-- No two declarations of constants say the same, nor two of types unless they are aggregates. -/
theorem run_declares_once (config : Config) (ops : List Operation) (hops : ∀ op ∈ ops, op.builds) :
    let decls := ((Workbench.start config).run ops).module.declarations
    ((decls.filter (·.op.isUniqueType)).map fun inst => (inst.op, inst.operands)).Nodup ∧
    ((decls.filter (·.op.isFixedConstant)).map fun inst => (inst.op, inst.resultType, inst.operands)).Nodup := by
  have hexact := ((Workbench.start_exact config).run ops hops).module
  exact (Workbench.run_filed config ops hops).nodup hexact.apart hexact.nodup

/-- Samplers, functions and literals that differ in what declarations do not show. -/
def Operation.sharing : List Operation :=
  let parameter (name : String) : Variable := .root name (.sampledImage { sampled := .float }) {}
  [.type (.sampler true) none, .type (.sampler false) none, .type (.function .void [parameter "a"]) none,
    .type (.function .void [parameter "b"]) (some .std140), .literal (.int 1), .literal (.uint 1),
    .literal (.int 1), .composite [1, 1] (.vector .int 2), .composite [1, 1] (.vector .int 2)]

theorem sharing_declares_once : (∀ op ∈ Operation.sharing, op.builds) ∧
      let decls := ((Workbench.start {}).run Operation.sharing).module.declarations
      ((decls.filter (·.op.isUniqueType)).map fun inst => (inst.op, inst.operands)).Nodup ∧
      ((decls.filter (·.op.isFixedConstant)).map fun inst => (inst.op, inst.resultType, inst.operands)).Nodup :=
  ⟨by decide, run_declares_once {} Operation.sharing (by decide)⟩

end Shader
