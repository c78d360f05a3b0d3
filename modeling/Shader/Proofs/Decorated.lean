import Shader.Proofs.Forms
import Shader.Proofs.Layout

/-!
# Scalars where decorations put them

Decorations tell where the scalars of a struct are, in the layout of the closest struct. But the room of
a struct within another one is worked out in the layout of that other one. It is enough wherever the
nested struct takes no more room in its own layout, and may be too small for `std140` in `std430`.
-/

namespace Shader

/-! ## Scalars of what was read -/

/-- The offset of a member that was given exactly one. -/
def Placing.offset? (p : Placing) : Option Word :=
  match p.offsets with
  | [[offset]] => some offset
  | _ => none

/-- The distance of columns, if it was given once for matrices that are stored by columns. -/
def Placing.columnStride? (p : Placing) : Option Word :=
  match p.columnMajor, p.matrixStrides with
  | [[]], [[stride]] => some stride
  | _, _ => none

mutual

/-- The scalars of a value, if every decoration is there once. -/
def Form.leaves? (columns : Option Word) : Form → Option (List Leaf)
  | .scalar s => some [⟨s, 0⟩]
  | .vector s n => some (vectorLeaves s n)
  | .matrix s count rows => columns.map fun stride => repeated count stride (vectorLeaves s rows)
  | .array element (some n) [stride] => (element.leaves? columns).map (repeated n stride)
  | .struct members places => (Form.memberLeaves? members places).map List.flatten
  | _ => none

/-- The scalars of members, each at the offset that its decorations give. -/
def Form.memberLeaves? : List Form → List Placing → Option (List (List Leaf))
  | [], [] => some []
  | form :: forms, place :: places => do
    let offset ← place.offset?
    let first ← form.leaves? place.columnStride?
    return first.map (.move offset.toNat) :: (← Form.memberLeaves? forms places)
  | _, _ => none

end

theorem Member.columnStride?_placing (layout : MemoryLayout) (m : Member) :
    (m.placing layout).columnStride? = m.matrixStride? layout := by
  unfold Placing.columnStride? placing
  cases m.matrixStride? layout <;> rfl

section

variable {sizes : Word → Prop} {layouts : MemoryLayout → Prop} {layout : MemoryLayout} {ty : Ty}

theorem Ty.LaidOut.innermost_isOpaque (h : ty.LaidOut sizes layouts) : ty.innermost.isOpaque = false := by
  induction h with
  | scalar | vector | matrix => rfl
  | array _ _ ih => exact ih
  | struct _ _ placed =>
    obtain ⟨ms, -, rfl⟩ := structOf_ok placed
    rfl

theorem Ty.memberLeaves?_of_placed {members : List (String × Ty)} (hmembers : ∀ m ∈ members, ∀ {columns : Option Word},
      (m.2.innermost.isMatrix → columns = (m.2.innermost.matrixStride layout).toOption) →
      ∀ {leaves : List Leaf}, m.2.leaves layout = .ok leaves →
        (m.2.form ⟨some layout, none⟩).leaves? columns = some leaves)
    {start : Word} {ms : List Member} (h : placeMembers layout start members = .ok ms)
    {leaves : List (List Leaf)} (hleaves : Member.leaves layout ms = .ok leaves) :
    Form.memberLeaves? (Member.forms layout ms) (ms.map (·.placing layout)) = some leaves ∧
      leaves.length = members.length := by
  induction members generalizing start ms leaves with
  | nil =>
    cases h
    cases hleaves
    exact ⟨by rw [Member.forms, List.map_nil, Form.memberLeaves?], rfl⟩
  | cons m members ih =>
    obtain ⟨size, align, offset, next, ms, -, -, -, hrest, rfl⟩ := placeMembers_cons h
    obtain ⟨hfirst, hothers⟩ := List.forall_mem_cons.1 hmembers
    obtain ⟨first, hparts, hleaves⟩ := Inst.bind_eq_ok_iff.1 hleaves
    obtain ⟨rest, hrest', hleaves⟩ := Inst.bind_eq_ok_iff.1 hleaves
    cases hleaves
    obtain ⟨hforms, hlength⟩ := ih hothers hrest hrest'
    refine ⟨?_, congrArg (· + 1) hlength⟩
    rw [Member.forms, List.map_cons, Form.memberLeaves?, Member.columnStride?_placing,
      hfirst (fun hmatrix => by rw [Member.matrixStride?, if_pos hmatrix]) hparts, hforms]
    rfl

theorem Ty.LaidOut.form_leaves (h : ty.LaidOut sizes layouts) {columns : Option Word}
    (hcolumns : ty.innermost.isMatrix → columns = (ty.innermost.matrixStride layout).toOption) {leaves : List Leaf}
    (hleaves : ty.leaves layout = .ok leaves) : (ty.form ⟨some layout, none⟩).leaves? columns = some leaves := by
  induction h generalizing layout columns leaves with
  | scalar | vector =>
    cases hleaves
    rw [form, Form.leaves?]
  | matrix =>
    obtain ⟨stride, hstride, rfl⟩ := leaves_matrix hleaves
    rw [form, Form.leaves?, hcolumns rfl]
    simp [innermost, matrixStride, hstride, Except.toOption]
  | @array element length helement ih =>
    obtain ⟨size, align, stride, parts, hextent, hstride, hparts, rfl⟩ := leaves_array hleaves
    replace hstride : element.arrayStride layout = .ok stride := by rwa [arrayStride, hextent]
    have hshown : Setting.arrayStride ⟨some layout, none⟩ element = some stride := by
      simp [Setting.arrayStride, helement.innermost_isOpaque, hstride, Except.toOption]
    rw [form, hshown, Option.toList_some, Form.leaves?, ih hcolumns hparts]
    rfl
  | struct _ _ placed ih =>
    obtain ⟨ms, hplaced, rfl⟩ := structOf_ok placed
    obtain ⟨parts, hparts, rfl⟩ := leaves_struct hleaves
    rw [form, Form.leaves?, (memberLeaves?_of_placed (fun m hm => ih m hm) hplaced hparts).1]
    rfl

end

/-- Where every struct keeps to its room, the scalars of different members do not overlap, where
decorations put them after any run of building operations. -/
theorem run_members_apart (config : Config) (ops : List Operation) (hops : ∀ op ∈ ops, op.builds) {name : String}
    {layout : MemoryLayout} {members : List (String × Ty)} {ty : Ty}
    (hmembers : ∀ m ∈ members, m.2.LaidOut (fun _ => True) (fun _ => True))
    (hty : Ty.structOf name layout members = .ok ty) (hroomy : ∀ m ∈ members, m.2.isRoomy layout) {id : Id} {m : Module}
    (h : Module.declareType ty ((Workbench.start config).run ops).module = (.ok id, m)) :
    ∃ forms places leaves, readForm m.declarations (m.decorations.diff (ops.flatMap Operation.marks)) ty.depth id =
        some (.struct forms places) ∧
      Form.memberLeaves? forms places = some leaves ∧ leaves.length = members.length ∧
      leaves.Pairwise fun ls ls' => ∀ l ∈ ls, ∀ l' ∈ ls', l.Apart l' := by
  obtain ⟨hexact, hplaced⟩ := Workbench.run_declares config ops hops (σ := ⟨none, none⟩) h
  have hread := Module.readForm_of_finds hexact hplaced ty ⟨none, none⟩ (Module.finds_of_ok h) le_rfl
  obtain ⟨ms, hms, rfl⟩ := Ty.structOf_ok hty
  obtain ⟨leaves, last, widest, hleaves, -, -, hfit⟩ := Ty.placeMembers_fit
    (fun m hm _ _ hroom hextent => (hmembers m hm).fit hroom hextent) 1 hms
    (Member.areRoomy_iff.2 (Ty.placeMembers_forall (P := (·.isRoomy layout)) hms hroomy))
  obtain ⟨hforms, hlength⟩ := Ty.memberLeaves?_of_placed (fun m hm => (hmembers m hm).form_leaves) hms hleaves
  exact ⟨_, _, leaves, hread.trans (by rw [Ty.form]), hforms, hlength, (List.pairwise_flatten.1 hfit.apart).2⟩

def Ty.inner (layout : MemoryLayout) : Ty := .struct "Inner" layout [⟨"a", .array (.scalar .float) (some 2), 0, none⟩]

def Ty.innerAndMore (layout : MemoryLayout) : List (String × Ty) := [("inner", .inner layout), ("v", .vector .float 4)]

def Ty.outer (layout own : MemoryLayout) (offset : Word) : Ty :=
  .struct "Outer" layout [⟨"inner", .inner own, 0, none⟩, ⟨"v", .vector .float 4, offset, none⟩]

theorem Ty.innerAndMore_laidOut (layout : MemoryLayout) :
    ∀ m ∈ innerAndMore layout, m.2.LaidOut (fun _ => True) (fun _ => True) := by
  have hinner : structOf "Inner" layout [("a", .array (.scalar .float) (some 2))] = .ok (inner layout) := by
    cases layout <;> rfl
  have hlaid : ∀ m ∈ [("a", Ty.array (.scalar .float) (some 2))], m.2.LaidOut (fun _ => True) (fun _ => True) :=
    List.forall_mem_singleton.2 (.array 2 (.scalar .float))
  exact List.forall_mem_cons.2 ⟨.struct trivial hlaid hinner, List.forall_mem_singleton.2 (.vector .float trivial)⟩

theorem inner_members_apart : Ty.structOf "Outer" .std140 (Ty.innerAndMore .std430) = .ok (.outer .std140 .std430 32) ∧
      (∀ m ∈ Ty.innerAndMore .std430, m.2.isRoomy .std140) ∧
      ∃ id m, Module.declareType (.outer .std140 .std430 32) (Workbench.start {}).module = (.ok id, m) ∧
        ∃ forms places leaves, readForm m.declarations m.decorations 4 id = some (.struct forms places) ∧
          Form.memberLeaves? forms places = some leaves ∧ leaves.length = 2 ∧
          leaves.Pairwise fun ls ls' => ∀ l ∈ ls, ∀ l' ∈ ls', l.Apart l' := by
  have hty : Ty.structOf "Outer" .std140 (Ty.innerAndMore .std430) = .ok (.outer .std140 .std430 32) := rfl
  have hroomy : ∀ m ∈ Ty.innerAndMore .std430, m.2.isRoomy .std140 := by decide +kernel
  have hok : (Module.declareType (.outer .std140 .std430 32) (Workbench.start {}).module).1.isOk := by
    decide +kernel
  obtain ⟨id, h⟩ := Action.exists_ok hok
  exact ⟨hty, hroomy, id, _, h, run_members_apart {} [] (by decide) (Ty.innerAndMore_laidOut _) hty hroomy h⟩

/-- The array takes 32 bytes, but 8 are left for it: the vector starts at the second element. -/
theorem inner_members_overlap : (∀ m ∈ Ty.innerAndMore .std140, m.2.LaidOut (fun _ => True) (fun _ => True)) ∧
      Ty.structOf "Outer" .std430 (Ty.innerAndMore .std140) = .ok (.outer .std430 .std140 16) ∧
      ∃ id m, Module.declareType (.outer .std430 .std140 16) (Workbench.start {}).module = (.ok id, m) ∧
        ∃ forms places leaves, readForm m.declarations m.decorations 4 id = some (.struct forms places) ∧
          Form.memberLeaves? forms places = some leaves ∧
          ¬ leaves.Pairwise fun ls ls' => ∀ l ∈ ls, ∀ l' ∈ ls', l.Apart l' := by
  have hok : (Module.declareType (.outer .std430 .std140 16) (Workbench.start {}).module).1.isOk := by
    decide +kernel
  obtain ⟨id, h⟩ := Action.exists_ok hok
  obtain ⟨hexact, hplaced⟩ := Workbench.run_declares {} [] (by decide) (σ := ⟨none, none⟩) h
  exact ⟨Ty.innerAndMore_laidOut _, rfl, id, _, h, _, _, _,
    Module.readForm_of_finds hexact hplaced _ ⟨none, none⟩ (Module.finds_of_ok h) (by decide), rfl,
    by decide +kernel⟩

end Shader
