import Shader.Proofs.Execution
import Shader.Proofs.Selection

/-!
# Pointers and what they point to

The type of a pointer gives the storage class and the pointee, and indices lead from the pointee to its
parts. Once nothing is left to be declared, loads and paths are to be of the types that are read there.
-/

namespace Shader

open List

variable {id type : Id} {s : Lowerer} {pointer : Id}

/-! ## Reading declarations -/

namespace Module

/-- The storage class and the pointee of a pointer type. -/
def pointee? (m : Module) (type : Id) : Option (Word × Id) := do
  let inst ← declaration? m.declarations type
  match inst.op, inst.operands with
  | .TypePointer, [storage, pointee] => some (storage, pointee)
  | _, _ => none

def number? (m : Module) (id : Id) : Option Word :=
  match scalarConstant? m.declarations id with
  | some (.word n) => some n
  | _ => none

/-- The type of the member that a constant names, or of any element. -/
def partAt? (m : Module) (type index : Id) : Option Id := do
  let inst ← declaration? m.declarations type
  match inst.op with
  | .TypeStruct => do inst.operands[(← m.number? index).toNat]?
  | .TypeVector | .TypeMatrix | .TypeArray | .TypeRuntimeArray => inst.operands.head?
  | _ => none

/-- The type at the end of a path of indices. -/
def reach? (m : Module) (type : Id) (indices : List Id) : Option Id := indices.foldlM m.partAt? type

theorem reach?_snoc (m : Module) (type : Id) (indices : List Id) (index : Id) :
    m.reach? type (indices ++ [index]) = (m.reach? type indices).bind (m.partAt? · index) := by
  unfold reach?
  rw [foldlM_append]
  cases indices.foldlM m.partAt? type with
  | none => rfl
  | some part => simp

variable {m : Module} {layout : Option MemoryLayout} {explicit : Option Word} {ty : Ty}

theorem Finds.array {element : Ty} {length : Option Word} (h : m.Finds layout explicit (.array element length) id) :
    ∃ type stride, strideIn layout explicit element m = (.ok stride, m) ∧
      m.Finds layout none element type ∧ m.types.get? (.array type length stride) = some id := by
  obtain ⟨type, m₁, htype, hrest⟩ := Action.bind_ok h
  obtain ⟨stride, m₂, hstride, harray⟩ := Action.bind_ok hrest
  obtain ⟨rfl, hsame⟩ := strideIn_snd hstride m
  have hretains : m₂.Retains m := .of_declaring [] (fun J hJ => declareArray_steady hJ length stride nofun) harray
  exact ⟨type, stride, hsame, finds_later htype hretains, cachedType_ok harray⟩

theorem Finds.anywhere (hty : ∀ element length, ty ≠ .array element length) (h : m.Finds layout explicit ty id)
    (layout' : Option MemoryLayout) (explicit' : Option Word) : m.Finds layout' explicit' ty id := by
  obtain ⟨key, hcached⟩ := exists_cached hty
  obtain ⟨make, hmake⟩ := hcached layout explicit
  obtain ⟨make', hmake'⟩ := hcached layout' explicit'
  unfold Finds at h ⊢
  rw [hmake] at h
  rw [hmake']
  exact cachedType_found (cachedType_ok h)

section

variable (hm : m.Backed) (hnodup : (results m.declarations).Nodup)

include hm hnodup

theorem pointee?_of_pointer {storage : StorageClass} (h : m.pointers.get? (type, storage) = some pointer) :
    m.pointee? pointer = some (Enumerated.number storage, type) := by
  unfold pointee?
  rw [declaration?_of_mem hnodup (hm.pointers type storage pointer h) rfl]
  rfl

theorem part_of_member {name : String} {own : MemoryLayout} {members : List Member} {member : Member}
    {i : Word} {index : Id} (h : m.Finds layout explicit (.struct name own members) id)
    (hmember : members[i.toNat]? = some member) (hindex : m.number? index = some i) :
    ∃ part, m.partAt? id index = some part ∧ m.Finds (some own) member.arrayStride member.ty part := by
  obtain ⟨types, hfinds, hmem⟩ := hm.types _ id (cachedType_ok h)
  obtain ⟨hlt, rfl⟩ := List.getElem?_eq_some_iff.1 hmember
  have hlength := hfinds.length_eq
  refine ⟨types[i.toNat], ?_, List.Forall₂.get hfinds hlt (by omega)⟩
  unfold partAt?
  rw [declaration?_of_mem hnodup hmem rfl, Option.bind_eq_bind, Option.bind_some]
  show ((m.number? index).bind fun n => types[n.toNat]?) = _
  rw [hindex, Option.bind_some, getElem?_eq_getElem]

theorem part_of_element {i : Expr} {ty' : Ty} (h : m.Finds layout explicit ty id)
    (hinto : (Step.index i).into? ty = some ty') (index : Id) :
    ∃ part, m.partAt? id index = some part ∧ m.Finds layout none ty' part := by
  have hpart : ∀ {op : Op} {part : Id} {rest : List Id},
      op ∈ [.TypeVector, .TypeMatrix, .TypeArray, .TypeRuntimeArray] →
      .defining op id (part :: rest) ∈ m.declarations → m.partAt? id index = some part := by
    intro op part rest hop hmem
    unfold partAt?
    rw [declaration?_of_mem hnodup hmem rfl, Option.bind_eq_bind, Option.bind_some]
    simp only [mem_cons, not_mem_nil, or_false] at hop
    rcases hop with rfl | rfl | rfl | rfl <;> rfl
  cases ty with
  | vector s n =>
    cases hinto
    obtain ⟨component, hfinds, hmem⟩ := hm.types _ id (cachedType_ok h)
    exact ⟨component, hpart (by simp) hmem, hfinds⟩
  | matrix s columns rows =>
    cases hinto
    obtain ⟨column, hfinds, hmem⟩ := hm.types _ id (cachedType_ok h)
    exact ⟨column, hpart (by simp) hmem, hfinds⟩
  | array element length =>
    cases hinto
    obtain ⟨type, stride, -, hfinds, htype⟩ := h.array
    have hparts := hm.types _ id htype
    cases length with
    | none => exact ⟨type, hpart (by simp) hparts, hfinds⟩
    | some n =>
      obtain ⟨count, -, hmem⟩ := hparts
      exact ⟨type, hpart (by simp) hmem, hfinds⟩
  | _ => cases hinto

end

theorem number?_of_literal (hm : m.Sound) (hnodup : (results m.declarations).Nodup) {n : Word}
    (h : m.literals.get? (.uint n) = some id) : m.number? id = some n := by
  obtain ⟨type, hmem⟩ := hm.literals _ id h
  unfold number?
  rw [scalarConstant?_of_literal rfl hnodup hmem]
  rfl

end Module

/-! ## Definitions -/

def typedResults (insts : List Inst) : List (Id × Option Id) :=
  insts.filterMap fun inst => inst.result.map (·, inst.resultType)

theorem typedResults_map_fst (insts : List Inst) : (typedResults insts).map Prod.fst = results insts := by
  simp [typedResults, results, map_filterMap, Function.comp_def]

namespace Lowerer

/-- All that declarations, and parameters, variables and instructions of the function define, with
its type. -/
def definitions (s : Lowerer) : List (Id × Option Id) :=
  s.func.function.params.map (fun p => (p.2, some p.1)) ++
    typedResults (s.module.declarations ++ s.func.function.queued ++
      s.func.function.blocks.flatMap Block.instructions ++ s.block.instructions)

/-- The types with which an identifier is defined. -/
def resultTypes (s : Lowerer) (id : Id) : List (Option Id) := (s.definitions.filter fun d => d.1 = id).map Prod.snd

theorem Types.mem_definitions (h : s.Types id type) : (id, some type) ∈ s.definitions := by
  rcases h with hparam | ⟨inst, hmem, hresult, htype⟩
  · exact mem_append_left _ (mem_map.2 ⟨(type, id), hparam, rfl⟩)
  · refine mem_append_right _ (mem_filterMap.2 ⟨inst, ?_, by rw [hresult, htype]; rfl⟩)
    rcases mem_append.1 hmem with hmem | hmem
    · simp [hmem]
    · simp [hmem]

theorem Final.count_definitions (h : s.Final) (id : Id) : (s.definitions.map Prod.fst).count id ≤ 1 := by
  have hblocks : ∀ blocks : List Block,
      (results (blocks.flatMap Block.instructions)).count id ≤ (blocks.flatMap Block.ids).count id := by
    intro blocks
    induction blocks with
    | nil => exact Nat.le_refl 0
    | cons b blocks ih =>
      rw [flatMap_cons, flatMap_cons, results_append, Block.ids, count_append, count_append, count_cons]
      omega
  have honce := h.1.once id
  have hfunction := hblocks s.func.function.blocks
  have hparams : (s.func.function.params.map fun p => (p.2, some p.1)).map Prod.fst =
      s.func.function.params.map (·.2) := by
    rw [map_map]
    rfl
  simp only [Module.ids, Function.ids, Block.ids, count_append, count_cons] at honce
  simp only [definitions, map_append, hparams, typedResults_map_fst, results_append, count_append]
  omega

theorem Final.resultTypes_of_mem (h : s.Final) (hid : (id, some type) ∈ s.definitions) :
    s.resultTypes id = [some type] := by
  have hmem : (id, some type) ∈ s.definitions.filter fun d => d.1 = id := mem_filter.2 ⟨hid, by simp⟩
  have hlength : (s.definitions.filter fun d => d.1 = id).length ≤ 1 := by
    have hcount := h.count_definitions id
    rw [count_eq_countP, countP_map, countP_eq_length_filter] at hcount
    exact hcount
  obtain ⟨d, hd⟩ := length_eq_one_iff.1 (Nat.le_antisymm hlength (length_pos_of_mem hmem))
  rw [hd] at hmem
  rw [resultTypes, hd, ← mem_singleton.1 hmem]
  rfl

end Lowerer

/-! ## Typed pointers -/

/-- The type of an identifier that is defined once. -/
def Lowerer.typeOf? (s : Lowerer) (id : Id) : Option Id :=
  match s.resultTypes id with
  | [type] => type
  | _ => none

/-- The storage class and the type of what an identifier points to. -/
def Lowerer.pointeeOf? (s : Lowerer) (id : Id) : Option (Word × Id) := (s.typeOf? id).bind s.module.pointee?

/-- A load is of its pointer's pointee, and a path of the type that its indices lead to, in the same
storage. -/
structure Inst.PointerTyped (s : Lowerer) (inst : Inst) : Prop where
  load : inst.op = .Load → ∃ pointer storage pointee, inst.operands = [pointer] ∧
    s.pointeeOf? pointer = some (storage, pointee) ∧ inst.resultType = some pointee
  accessChain : inst.op = .AccessChain → ∃ base indices storage pointee reached pointer,
    inst.operands = base :: indices ∧ s.pointeeOf? base = some (storage, pointee) ∧
      s.module.reach? pointee indices = some reached ∧
      inst.resultType = some pointer ∧ s.module.pointee? pointer = some (storage, reached)

namespace Lowerer

def Typed (s : Lowerer) (id type : Id) : Prop :=
  s.Types id type ∨ ∃ inst ∈ s.func.function.queued, inst.result = some id ∧ inst.resultType = some type

/-- The identifier is a pointer into the storage class, to this type. -/
def Points (s : Lowerer) (id : Id) (storage : StorageClass) (type : Id) : Prop :=
  ∃ pointer, s.Typed id pointer ∧ s.module.pointers.get? (type, storage) = some pointer

variable {Γ : Context} {t : Lowerer} {storage : StorageClass}

theorem Typed.mono (h : s.Typed id type) (hs : s.Extends t) : t.Typed id type := by
  rcases h with h | ⟨inst, hmem, hinst⟩
  · exact .inl (h.mono hs)
  · exact .inr ⟨inst, hs.queued.subset hmem, hinst⟩

theorem Points.mono (h : s.Points id storage type) (hs : s.Extends t) : t.Points id storage type :=
  let ⟨pointer, hid, hpointer⟩ := h
  ⟨pointer, hid.mono hs, hs.module.toRetains.pointers _ _ hpointer⟩

theorem Typed.typeOf? (h : s.Typed id type) (hs : s.Final) : s.typeOf? id = some type := by
  have hmem : (id, some type) ∈ s.definitions := by
    rcases h with h | ⟨inst, hmem, hresult, htype⟩
    · exact h.mem_definitions
    · refine mem_append_right _ (mem_filterMap.2 ⟨inst, ?_, by rw [hresult, htype]; rfl⟩)
      simp [hmem]
  rw [Lowerer.typeOf?, hs.resultTypes_of_mem hmem]

namespace Consistent

variable (h : s.Consistent Γ)

include h

theorem pointee? (hpointer : s.module.pointers.get? (type, storage) = some pointer) :
    s.module.pointee? pointer = some (Enumerated.number storage, type) :=
  Module.pointee?_of_pointer h.module h.final.nodup_declarations hpointer

theorem pointeeOf? (hid : s.Points id storage type) : s.pointeeOf? id = some (Enumerated.number storage, type) := by
  obtain ⟨pointer, htyped, hpointer⟩ := hid
  rw [Lowerer.pointeeOf?, htyped.typeOf? h.final, Option.bind_some, h.pointee? hpointer]

theorem load_typed (hid : s.Points id storage type) (result : Id) :
    (Inst.value .Load type result [id]).PointerTyped s :=
  ⟨fun _ => ⟨id, _, type, rfl, h.pointeeOf? hid, rfl⟩, nofun⟩

theorem accessChain_typed {indices : List Id} {reached : Id} (hid : s.Points id storage type)
    (hreach : s.module.reach? type indices = some reached)
    (hpointer : s.module.pointers.get? (reached, storage) = some pointer) (result : Id) :
    (Inst.value .AccessChain pointer result (id :: indices)).PointerTyped s :=
  ⟨nofun, fun _ => ⟨id, indices, _, type, reached, pointer, rfl, h.pointeeOf? hid, hreach, rfl, h.pointee? hpointer⟩⟩

end Consistent

end Lowerer

end Shader
