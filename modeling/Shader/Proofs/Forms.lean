import Mathlib.Data.List.Count
import Shader.Proofs.Placed

/-!
# Types are read back from a module

A type is read from declarations and decorations alone, by following the identifiers of its parts. What
is read has no names, tells no samplers apart, and shows parameters that are passed by reference as
pointers. A type that was declared, now or long before, is read as it should be.
-/

namespace Shader

open List

variable {m : Module} {own : List Inst}

/-! ## Reading -/

/-- What declarations and decorations show of a type, with all that decorates it. -/
inductive Form where
  | void
  | scalar (s : Scalar)
  | vector (s : Scalar) (size : Word)
  | matrix (s : Scalar) (columns rows : Word)
  | array (element : Form) (length : Option Word) (strides : List Word)
  | struct (members : List Form) (places : List Placing)
  | image (config : ImageConfig)
  | sampledImage (config : ImageConfig)
  | sampler
  | function (ret : Form) (params : List Form)
  | pointer (storage : StorageClass) (pointee : Form)

def Word.bool? (w : Word) : Option Bool :=
  if w = 0 then some false else if w = 1 then some true else none

/-- The properties of an image, from the operands of its type. -/
def imageConfig? (texel : Form) (operands : List Word) : Option ImageConfig :=
  match texel, operands with
  | .scalar sampled, [dim, depth, arrayed, ms, use, format] => do
    return {
      sampled
      dim := ← Enumerated.ofNumber? dim
      format := ← Enumerated.ofNumber? format
      arrayed := ← Word.bool? arrayed
      ms := ← Word.bool? ms
      depth := ← Word.bool? depth
      storage := ← Word.bool? (use - 1) }
  | _, _ => none

/-- The length of an array, from the constant that gives it. -/
def length? (decls : List Inst) (id : Id) : Option Word :=
  match scalarConstant? decls id with
  | some (.word n) => some n
  | _ => none

/-- What a declaration of a type says, if `read` reads the types of its parts. -/
def Inst.form? (decls decorations : List Inst) (read : Id → Option Form) (id : Id) (inst : Inst) :
    Option Form :=
  match inst.op, inst.operands with
  | .TypeVoid, [] => some .void
  | .TypeBool, [] => some (.scalar .bool)
  | .TypeInt, [32, 1] => some (.scalar .int)
  | .TypeInt, [32, 0] => some (.scalar .uint)
  | .TypeFloat, [32] => some (.scalar .float)
  | .TypeFloat, [64] => some (.scalar .double)
  | .TypeVector, [component, size] =>
    match read component with
    | some (.scalar s) => some (.vector s size)
    | _ => none
  | .TypeMatrix, [column, columns] =>
    match read column with
    | some (.vector s rows) => some (.matrix s columns rows)
    | _ => none
  | .TypeArray, [element, length] => do
    return .array (← read element) (some (← length? decls length)) (strides decorations id)
  | .TypeRuntimeArray, [element] => do
    return .array (← read element) none (strides decorations id)
  | .TypeStruct, members => do
    return .struct (← members.mapM read) ((range members.length).map fun i => placing decorations id (.ofNat i))
  | .TypeImage, texel :: operands => do
    return .image (← imageConfig? (← read texel) operands)
  | .TypeSampledImage, [image] =>
    match read image with
    | some (.image config) => some (.sampledImage config)
    | _ => none
  | .TypeSampler, [] => some .sampler
  | .TypeFunction, ret :: params => do
    return .function (← read ret) (← params.mapM read)
  | .TypePointer, [storage, pointee] => do
    return .pointer (← Enumerated.ofNumber? storage) (← read pointee)
  | _, _ => none

/-- Reads a type from declarations and decorations, through so many levels at most. -/
def readForm (decls decorations : List Inst) : Nat → Id → Option Form
  | 0, _ => none
  | depth + 1, id => (declaration? decls id).bind (Inst.form? decls decorations (readForm decls decorations depth) id)

/-! ## What should be read -/

mutual

/-- What should be read of a type, where the setting gives strides. -/
def Ty.form (σ : Setting) : Ty → Form
  | .void => .void
  | .scalar s => .scalar s
  | .vector s size => .vector s size
  | .matrix s columns rows => .matrix s columns rows
  | .array element length => .array (element.form ⟨σ.layout, none⟩) length (σ.arrayStride element).toList
  | .struct _ layout members => .struct (Member.forms layout members) (members.map (·.placing layout))
  | .image config => .image config
  | .sampledImage config => .sampledImage config
  | .sampler _ => .sampler
  | .function ret params => .function (ret.form {}) (Variable.forms params)

def Member.forms (layout : MemoryLayout) : List Member → List Form
  | [] => []
  | ⟨_, ty, _, stride⟩ :: members => ty.form ⟨some layout, stride⟩ :: Member.forms layout members

/-- What should be read of a parameter. -/
def Variable.form : Variable → Form
  | .root name ty roles =>
    if (Variable.root name ty roles).isByReference then .pointer .Function (ty.form {}) else ty.form {}
  | .member outer index name ty =>
    if (Variable.member outer index name ty).isByReference then .pointer .Function (ty.form {})
    else ty.form {}

def Variable.forms : List Variable → List Form
  | [] => []
  | v :: vs => v.form :: Variable.forms vs

end

mutual

/-- How deep the declarations of a type go. -/
def Ty.depth : Ty → Nat
  | .void | .scalar _ | .sampler _ => 1
  | .vector .. | .image _ => 2
  | .matrix .. | .sampledImage _ => 3
  | .array element _ => element.depth + 1
  | .struct _ _ members => Member.depths members + 1
  | .function ret params => max ret.depth (Variable.depths params) + 1

def Member.depths : List Member → Nat
  | [] => 0
  | ⟨_, ty, _, _⟩ :: members => max ty.depth (Member.depths members)

def Variable.depth : Variable → Nat
  | .root _ ty _ | .member _ _ _ ty => ty.depth + 1

def Variable.depths : List Variable → Nat
  | [] => 0
  | v :: vs => max v.depth (Variable.depths vs)

end

theorem imageConfig?_imageOperands (texel : Id) (c : ImageConfig) :
    imageConfig? (.scalar c.sampled) (Module.imageOperands texel c).tail = some c := by
  have hbool : ∀ b, Word.bool? (Word.ofBool b) = some b := by decide
  have huse : Word.bool? ((if c.storage then 2 else 1) - 1) = some c.storage := by
    cases c.storage <;> rfl
  simp [imageConfig?, Module.imageOperands, Dim.ofNumber?_number, ImageFormat.ofNumber?_number, hbool, huse]

namespace Module

/-! ## The two are the same -/

section

variable (hm : m.Exact) (hplaced : ∀ key id, m.types.get? key = some id → key.PlacedBy own id) {s : Scalar}
  {form : Form}

include hm

theorem readForm_of_mem {inst : Inst} {id : Id} (hmem : inst ∈ m.declarations) (hid : inst.result = some id)
    (own : List Inst) (depth : Nat) : readForm m.declarations own (depth + 1) id =
      inst.form? m.declarations own (readForm m.declarations own depth) id := by
  rw [readForm, declaration?_of_mem hm.nodup hmem hid]
  rfl

theorem length?_of_literal {n : Word} {id : Id} (h : m.literals.get? (.uint n) = some id) :
    length? m.declarations id = some n := by
  obtain ⟨type, -, hmem⟩ := hm.backed.literals _ id h
  unfold length?
  rw [scalarConstant?_of_literal rfl hm.nodup hmem]
  rfl

variable {layout : Option MemoryLayout} {explicit : Option Word} {id : Id} {depth : Nat}

omit hm in
theorem Finds.plain {ty : Ty} (hty : (TypeIdentity.plain ty).isOwn) (h : m.Finds layout explicit ty id) :
    m.types.get? (.plain ty) = some id :=
  Setting.types_of_finds (σ := ⟨layout, explicit⟩) hty h

theorem reads_scalar (h : m.Finds layout explicit (.scalar s) id) :
    readForm m.declarations own (depth + 1) id = some (.scalar s) := by
  have hmem := hm.backed.types _ id (h.plain rfl)
  rw [readForm_of_mem hm hmem rfl]
  cases s <;> rfl

theorem reads_vector {n : Word} (h : m.Finds layout explicit (.vector s n) id) :
    readForm m.declarations own (depth + 2) id = some (.vector s n) := by
  obtain ⟨component, hcomponent, hmem⟩ := hm.backed.types _ id (h.plain rfl)
  have hread : readForm m.declarations own (depth + 1) component = some (.scalar s) := reads_scalar hm hcomponent
  rw [readForm_of_mem hm hmem rfl]
  simp only [Inst.form?, Inst.defining, hread]

theorem reads_matrix {columns rows : Word} (h : m.Finds layout explicit (.matrix s columns rows) id) :
    readForm m.declarations own (depth + 3) id = some (.matrix s columns rows) := by
  obtain ⟨column, hcolumn, hmem⟩ := hm.backed.types _ id (h.plain rfl)
  have hread : readForm m.declarations own (depth + 2) column = some (.vector s rows) := reads_vector hm hcolumn
  rw [readForm_of_mem hm hmem rfl]
  simp only [Inst.form?, Inst.defining, hread]

theorem reads_image {c : ImageConfig} (h : m.Finds layout explicit (.image c) id) :
    readForm m.declarations own (depth + 2) id = some (.image c) := by
  obtain ⟨texel, htexel, hmem⟩ := hm.backed.types _ id (h.plain rfl)
  have hread : readForm m.declarations own (depth + 1) texel = some (.scalar c.sampled) := reads_scalar hm htexel
  have hconfig := imageConfig?_imageOperands texel c
  rw [readForm_of_mem hm hmem rfl]
  simp only [Inst.form?, Inst.defining, imageOperands, tail_cons] at hconfig ⊢
  simp [hread, hconfig]

theorem reads_sampledImage {c : ImageConfig} (h : m.Finds layout explicit (.sampledImage c) id) :
    readForm m.declarations own (depth + 3) id = some (.sampledImage c) := by
  obtain ⟨image, himage, hmem⟩ := hm.backed.types _ id (h.plain rfl)
  have hread : readForm m.declarations own (depth + 2) image = some (.image c) := reads_image hm himage
  rw [readForm_of_mem hm hmem rfl]
  simp only [Inst.form?, Inst.defining, hread]

theorem reads_sampler {compares : Bool} (h : m.Finds layout explicit (.sampler compares) id) :
    readForm m.declarations own (depth + 1) id = some .sampler := by
  have hmem := hm.backed.types _ id (cachedType_ok h)
  rw [readForm_of_mem hm hmem rfl]
  rfl

include hplaced

theorem reads_array {element : Ty} {length : Option Word} (h : m.Finds layout explicit (.array element length) id)
    (hread : ∀ {part : Id}, m.Finds layout none element part → readForm m.declarations own depth
      part = some form) : readForm m.declarations own (depth + 1) id =
      some (.array form length (Setting.arrayStride ⟨layout, explicit⟩ element).toList) := by
  obtain ⟨part, hpart, htype⟩ := Setting.finds_array (σ := ⟨layout, explicit⟩) h
  have hstrides := hplaced _ id htype
  have hparts := hm.backed.types _ id htype
  rw [TypeIdentity.PlacedBy] at hstrides
  cases length with
  | none =>
    rw [readForm_of_mem hm hparts rfl]
    simp [Inst.form?, Inst.defining, hread hpart, hstrides]
  | some n =>
    obtain ⟨count, hcount, hmem⟩ := hparts
    rw [readForm_of_mem hm hmem rfl]
    simp [Inst.form?, Inst.defining, hread hpart, hstrides, length?_of_literal hm hcount]

theorem reads_struct {name : String} {own' : MemoryLayout} {members : List Member} {forms : List Form}
    (h : m.Finds layout explicit (.struct name own' members) id)
    (hread : ∀ {types : List Id}, Forall₂ (fun (member : Member) type =>
        m.Finds (some own') member.arrayStride member.ty type) members types →
      types.mapM (readForm m.declarations own depth) = some forms) :
    readForm m.declarations own (depth + 1) id = some (.struct forms (members.map (·.placing own'))) := by
  have htype := h.plain rfl
  obtain ⟨types, htypes, hmem⟩ := hm.backed.types _ id htype
  have hplaces : (range types.length).map (fun i => placing own id (.ofNat i)) = members.map (·.placing own') := by
    refine ext_getElem (by simp [htypes.length_eq]) fun i hi hi' => ?_
    rw [length_map] at hi'
    simp only [getElem_map, getElem_range]
    exact hplaced _ id htype i _ (getElem?_eq_getElem hi')
  rw [readForm_of_mem hm hmem rfl]
  simp [Inst.form?, Inst.defining, hread htypes, hplaces]

omit hplaced in
theorem reads_function {ret : Ty} {params : List Variable} {forms : List Form}
    (h : m.Finds layout explicit (.function ret params) id)
    (hret : ∀ {type : Id}, m.Finds none none ret type → readForm m.declarations own depth type = some form)
    (hparams : ∀ {types : List Id}, Forall₂ m.Passes params types → types.mapM (readForm
      m.declarations own depth) = some forms) :
    readForm m.declarations own (depth + 1) id = some (.function form forms) := by
  obtain ⟨type, types, htype, htypes, hid⟩ := hm.backed.types _ id (cachedType_ok h)
  rw [readForm_of_mem hm (hm.backed.functionTypes _ id hid) rfl]
  simp [Inst.form?, Inst.defining, hret htype, hparams htypes]

omit hplaced in
theorem reads_passed {v : Variable} {type : Id} (h : m.Passes v type)
    (hread : ∀ {value : Id} {n : Nat}, depth ≤ n → m.Finds none none v.ty value → readForm
      m.declarations own n value = some form) : readForm m.declarations own (depth + 1) type =
      some (if v.isByReference then .pointer .Function form else form) := by
  obtain ⟨value, hvalue, htype⟩ := h
  cases hreference : v.isByReference with
  | true =>
    rw [hreference, if_pos rfl] at htype
    rw [readForm_of_mem hm (hm.backed.pointers _ _ type htype) rfl]
    simp [Inst.form?, Inst.defining, hread (Nat.le_refl depth) hvalue, StorageClass.ofNumber?_number]
  | false =>
    -- The value is read with one level to spare, which a pointer would have used.
    rw [hreference, if_neg Bool.false_ne_true] at htype
    rw [htype, hread (Nat.le_succ depth) hvalue]
    rfl

-- Three of the four use the hypotheses only through one another.
set_option linter.unusedSectionVars false in
mutual

theorem readForm_of_finds : ∀ (ty : Ty) (σ : Setting) {id : Id} {depth : Nat}, m.Finds σ.layout σ.stride ty id →
      ty.depth ≤ depth → readForm m.declarations own depth id = some (ty.form σ)
  | .void, σ, id, depth + 1, h, _ => by
    have hmem := hm.backed.types _ id (h.plain rfl)
    rw [readForm_of_mem hm hmem rfl]
    rfl
  | .scalar s, σ, id, depth + 1, h, _ => reads_scalar hm h
  | .vector s n, σ, id, depth + 2, h, _ => reads_vector hm h
  | .matrix s columns rows, σ, id, depth + 3, h, _ => reads_matrix hm h
  | .image c, σ, id, depth + 2, h, _ => reads_image hm h
  | .sampledImage c, σ, id, depth + 3, h, _ => reads_sampledImage hm h
  | .sampler compares, σ, id, depth + 1, h, _ => reads_sampler hm h
  | .array element length, σ, id, depth + 1, h, hdepth => by
    rw [Ty.depth] at hdepth
    refine reads_array hm hplaced h fun hpart => ?_
    exact readForm_of_finds element ⟨σ.layout, none⟩ hpart (by omega)
  | .struct name layout members, σ, id, depth + 1, h, hdepth => by
    rw [Ty.depth] at hdepth
    refine reads_struct hm hplaced h fun htypes => ?_
    exact mapM_of_members members htypes (by omega)
  | .function ret params, σ, id, depth + 1, h, hdepth => by
    rw [Ty.depth] at hdepth
    refine reads_function hm h (fun htype => ?_) fun htypes => ?_
    · exact readForm_of_finds ret {} htype (by omega)
    · exact mapM_of_params params htypes (by omega)

theorem mapM_of_members : ∀ (members : List Member) {layout : MemoryLayout} {types : List Id} {depth : Nat},
      Forall₂ (fun (member : Member) type => m.Finds (some layout) member.arrayStride member.ty type) members types →
      Member.depths members ≤ depth →
      types.mapM (readForm m.declarations own depth) = some (Member.forms layout members)
  | [], layout, types, depth, h, _ => by
    cases h
    rfl
  | ⟨name, ty, offset, stride⟩ :: members, layout, types, depth, h, hdepth => by
    rw [Member.depths] at hdepth
    cases h with
    | cons htype hrest =>
      rw [mapM_cons, readForm_of_finds ty ⟨some layout, stride⟩ htype (by omega),
        mapM_of_members members hrest (by omega), Member.forms]
      rfl

theorem readForm_of_passes : ∀ (v : Variable) {type : Id} {depth : Nat}, m.Passes v type → v.depth ≤ depth →
      readForm m.declarations own depth type = some v.form
  | .root name ty roles, type, depth + 1, h, hdepth => by
    rw [Variable.depth] at hdepth
    rw [Variable.form, reads_passed hm h fun hdepth' hvalue => readForm_of_finds ty {} hvalue (by omega)]
  | .member outer index name ty, type, depth + 1, h, hdepth => by
    rw [Variable.depth] at hdepth
    rw [Variable.form, reads_passed hm h fun hdepth' hvalue => readForm_of_finds ty {} hvalue (by omega)]

theorem mapM_of_params : ∀ (params : List Variable) {types : List Id} {depth : Nat}, Forall₂ m.Passes params types →
      Variable.depths params ≤ depth →
      types.mapM (readForm m.declarations own depth) = some (Variable.forms params)
  | [], types, depth, h, _ => by
    cases h
    rfl
  | v :: vs, types, depth, h, hdepth => by
    rw [Variable.depths] at hdepth
    cases h with
    | cons htype hrest =>
      rw [mapM_cons, readForm_of_passes v htype (by omega), mapM_of_params vs hrest (by omega), Variable.forms]
      rfl

end

end

theorem diff_perm {decorations marks own : List Inst} (h : decorations.Perm (own ++ marks)) :
    (decorations.diff marks).Perm own := by
  refine perm_iff_count.2 fun inst => ?_
  rw [count_diff, h.count_eq, count_append]
  omega

end Module

/-- Types are laid out by those decorations that no operation was told to add. -/
theorem Workbench.run_declares (config : Config) (ops : List Operation)
    (hops : ∀ op ∈ ops, op.builds) {σ : Setting} {ty : Ty} {id : Id} {m : Module}
    (h : Module.declareTypeWith σ.layout σ.stride ty ((start config).run ops).module = (.ok id, m)) :
    m.Exact ∧ ∀ key type, m.types.get? key = some type →
      key.PlacedBy (m.decorations.diff (ops.flatMap Operation.marks)) type := by
  let r : Registration := .type ty σ.layout σ.stride
  let w := (start config).run ops
  have hchange := r.change w
  have hexact := (((start_exact config).run ops hops).change hchange).module
  have hplaced : (Ledger.placed (ops.flatMap Operation.marks)).Stands _ _ (r.declare w.module).2 :=
    (hchange.stands (running_placed _) (fun hm => ⟨hm.1.refers _, hm.2⟩) (fun hinst _ => absurd hinst not_mem_nil)
      (run_placed ops hops (start_placed config))).ledger
  rw [show r.declare w.module = (.ok id, m) from h] at hexact hplaced
  obtain ⟨own, hown, htypes⟩ := hplaced.2
  exact ⟨hexact, fun key type htype => (htypes key type htype).perm (Module.diff_perm hown.split)⟩

/-- A declared type is read back from declarations and from decorations that no operation was told to add. -/
theorem run_reads_types_back (config : Config) (ops : List Operation) (hops : ∀ op ∈ ops, op.builds)
    {σ : Setting} {ty : Ty} {id : Id} {m : Module}
    (h : Module.declareTypeWith σ.layout σ.stride ty ((Workbench.start config).run ops).module =
      (.ok id, m)) {depth : Nat} (hdepth : ty.depth ≤ depth) :
    readForm m.declarations (m.decorations.diff (ops.flatMap Operation.marks)) depth id = some (ty.form σ) := by
  obtain ⟨hexact, hplaced⟩ := Workbench.run_declares config ops hops h
  exact Module.readForm_of_finds hexact hplaced ty σ (Module.finds_of_ok h) hdepth

/-- Strides of the array, of a member and of the layout, in structs with matrices and doubles. -/
def Ty.records : Ty :=
  .array (.struct "Record" .std140 [⟨"transforms", .array (.matrix .float 3 3) (some 4), 0, some 64⟩,
    ⟨"weight", .scalar .double, 256, none⟩]) (some 8)

def Operation.decorating : List Operation :=
  [.type .records (some .std430), .decorate 11 .ArrayStride [7], .decorateMember 9 0 .Offset [1]]

theorem records_read_back : (∀ op ∈ Operation.decorating, op.builds) ∧ Ty.records.depth ≤ 6 ∧
      ∃ id m, Module.declareTypeWith (some .std430) none .records
          ((Workbench.start {}).run Operation.decorating).module = (.ok id, m) ∧
        readForm m.declarations (m.decorations.diff (Operation.decorating.flatMap Operation.marks)) 6
          id = some (.array (.struct [.array (.matrix .float 3 3) (some 4) [64], .scalar .double]
              [⟨[[0]], [[]], [[16]]⟩, ⟨[[256]], [], []⟩])
            (some 8) [272]) := by
  have hbuilds : ∀ op ∈ Operation.decorating, op.builds := by decide
  have hdepth : Ty.records.depth ≤ 6 := by decide
  have hok : (Module.declareTypeWith (some .std430) none .records
      ((Workbench.start {}).run Operation.decorating).module).1.isOk := by decide +kernel
  obtain ⟨id, h⟩ := Action.exists_ok hok
  exact ⟨hbuilds, hdepth, id, _, h, @run_reads_types_back {} _ hbuilds ⟨some .std430, none⟩ _ _ _ h _ hdepth⟩

end Shader
