import Shader.Proofs.Registration

/-!
# Where elements and members are placed

Decorations say how far the elements of an array and the columns of a matrix are apart, and at which
offset a member begins. A type gets those that it needs right after it was declared, each of them once,
and no others later on, except for decorations that a caller adds.
-/

namespace Shader

open Action List Word

variable {own added : List Inst} {id : Id} {m m' : Module} {inst : Inst}

/-! ## What decorations say -/

/-- The stride that a decoration gives to a type. -/
def Inst.stride? (type : Id) (inst : Inst) : Option Word :=
  match inst.op, inst.operands with
  | .Decorate, [target, d, stride] =>
    if target = type ∧ d = Enumerated.number Decoration.ArrayStride then some stride else none
  | _, _ => none

/-- The operands of a decoration of a member. -/
def Inst.memberOperands? (struct index : Word) (d : Decoration) (inst : Inst) : Option (List Word) :=
  match inst.op, inst.operands with
  | .MemberDecorate, target :: i :: d' :: operands =>
    if target = struct ∧ i = index ∧ d' = Enumerated.number d then some operands else none
  | _, _ => none

/-- What is said about the place of a member: the operands of its decorations of each kind. -/
structure Placing where
  offsets : List (List Word)
  columnMajor : List (List Word)
  matrixStrides : List (List Word)
deriving DecidableEq

def strides (decorations : List Inst) (type : Id) : List Word := decorations.filterMap (·.stride? type)

/-- All that decorations say of a member. -/
def placing (decorations : List Inst) (struct index : Word) : Placing where
  offsets := decorations.filterMap (·.memberOperands? struct index .Offset)
  columnMajor := decorations.filterMap (·.memberOperands? struct index .ColMajor)
  matrixStrides := decorations.filterMap (·.memberOperands? struct index .MatrixStride)

/-- The distance of columns in a member, if it is a matrix or an array of matrices. -/
def Member.matrixStride? (layout : MemoryLayout) (member : Member) : Option Word :=
  if member.ty.innermost.isMatrix then (member.ty.innermost.matrixStride layout).toOption else none

/-- What decorations should say of a member. -/
def Member.placing (layout : MemoryLayout) (member : Member) : Placing where
  offsets := [[member.offset]]
  columnMajor := ((member.matrixStride? layout).map fun _ => []).toList
  matrixStrides := ((member.matrixStride? layout).map fun stride => [stride]).toList

/-- What is read from a decoration concerns only the type that it lays out. -/
def Concerns {α : Type} (type : Id) (f : Inst → Option α) : Prop := ∀ inst a, f inst = some a → inst.lays? = some type

theorem Inst.stride?_concerns (type : Id) : Concerns type (stride? type) := by
  intro inst stride h
  unfold stride? at h
  split at h
  case h_1 target d stride' hop hoperands =>
    split at h <;> cases h
    case isTrue hsame => simp [lays?, hop, hoperands, hsame]
  case h_2 => cases h

theorem Inst.memberOperands?_concerns (struct index : Word) {d : Decoration}
    (hd : d = .Offset ∨ d = .ColMajor ∨ d = .MatrixStride) : Concerns struct (memberOperands? struct index d) := by
  intro inst operands h
  unfold memberOperands? at h
  split at h
  case h_1 target i d' operands' hop hoperands =>
    split at h <;> cases h
    case isTrue hsame =>
      obtain ⟨rfl, rfl, rfl⟩ := hsame
      rcases hd with rfl | rfl | rfl <;> simp [lays?, hop, hoperands]
  case h_2 => cases h

theorem Concerns.filterMap_eq_nil {α : Type} {type : Id} {f : Inst → Option α} (hf : Concerns type f) (hown : ∀ inst ∈ own, inst.lays? ≠ some type) : own.filterMap f = [] := by
  refine filterMap_eq_nil_iff.2 fun inst hinst => ?_
  cases h : f inst with
  | none => rfl
  | some a => exact absurd (hf inst a h) (hown inst hinst)

section

variable {type : Id}

theorem strides_append (hown : ∀ inst ∈ own, inst.lays? ≠ some type) :
    strides (own ++ added) type = strides added type := by
  unfold strides
  rw [filterMap_append, (Inst.stride?_concerns type).filterMap_eq_nil hown, nil_append]

theorem strides_append_left (hadded : ∀ inst ∈ added, inst.lays? ≠ some type) :
    strides (own ++ added) type = strides own type := by
  unfold strides
  rw [filterMap_append, (Inst.stride?_concerns type).filterMap_eq_nil hadded, append_nil]

theorem placing_append (hown : ∀ inst ∈ own, inst.lays? ≠ some type) (index : Word) :
    placing (own ++ added) type index = placing added type index := by
  have hnil : ∀ d : Decoration, (d = .Offset ∨ d = .ColMajor ∨ d = .MatrixStride) →
      own.filterMap (·.memberOperands? type index d) = [] :=
    fun d hd => (Inst.memberOperands?_concerns type index hd).filterMap_eq_nil hown
  simp [placing, hnil]

theorem placing_append_left (hadded : ∀ inst ∈ added, inst.lays? ≠ some type) (index : Word) :
    placing (own ++ added) type index = placing own type index := by
  have hnil : ∀ d : Decoration, (d = .Offset ∨ d = .ColMajor ∨ d = .MatrixStride) →
      added.filterMap (·.memberOperands? type index d) = [] :=
    fun d hd => (Inst.memberOperands?_concerns type index hd).filterMap_eq_nil hadded
  simp [placing, hnil]

theorem eq_toList_of_perm {α : Type} {o : Option α} {l : List α} (h : l.Perm o.toList) : l = o.toList := by
  cases o with
  | none => exact h.eq_nil
  | some a => exact perm_singleton.1 h

end

/-! ## Types in their places -/

/-- The decorations give the type of the key the places that it needs. -/
def TypeIdentity.PlacedBy (own : List Inst) (id : Id) : TypeIdentity → Prop
  | .array _ _ stride => strides own id = stride.toList
  | .plain (.struct _ layout members) => ∀ i member, members[i]? = some member →
    placing own id (.ofNat i) = member.placing layout
  | _ => True

namespace TypeIdentity.PlacedBy

variable {own' : List Inst} {key : TypeIdentity}

theorem append (h : key.PlacedBy added id) (hown : ∀ inst ∈ own, inst.lays? ≠ some id) :
    key.PlacedBy (own ++ added) id := by
  unfold PlacedBy at h ⊢
  split at h
  · rw [strides_append hown]
    exact h
  · intro i member hmember
    rw [placing_append hown]
    exact h i member hmember
  · trivial

theorem append_left (h : key.PlacedBy own id) (hadded : ∀ inst ∈ added, inst.lays? ≠ some id) :
    key.PlacedBy (own ++ added) id := by
  unfold PlacedBy at h ⊢
  split at h
  · rw [strides_append_left hadded]
    exact h
  · intro i member hmember
    rw [placing_append_left hadded]
    exact h i member hmember
  · trivial

theorem perm (h : key.PlacedBy own id) (hown : own'.Perm own) : key.PlacedBy own' id := by
  unfold PlacedBy at h ⊢
  split at h
  · refine eq_toList_of_perm ?_
    rw [← h]
    exact hown.filterMap _
  · intro i member hmember
    have hplacing := h i member hmember
    have hsame : ∀ (d : Decoration) {o : Option (List Word)},
        own.filterMap (·.memberOperands? id (.ofNat i) d) = o.toList →
        own'.filterMap (·.memberOperands? id (.ofNat i) d) = o.toList :=
      fun d o ho => eq_toList_of_perm (ho ▸ hown.filterMap _)
    have hoffsets := hsame .Offset (o := some [member.offset]) (congrArg Placing.offsets hplacing)
    have hcolumns := hsame .ColMajor (congrArg Placing.columnMajor hplacing)
    have hstrides := hsame .MatrixStride (congrArg Placing.matrixStrides hplacing)
    unfold Shader.placing
    rw [hoffsets, hcolumns, hstrides]
    rfl
  · trivial

end TypeIdentity.PlacedBy

/-- The decorations of a member. -/
def Member.marks (struct : Id) (layout : MemoryLayout) (index : Word) (member : Member) : List Inst :=
  .effect .MemberDecorate [struct, index, Enumerated.number Decoration.Offset, member.offset] ::
    match member.matrixStride? layout with
    | some stride =>
      [.effect .MemberDecorate [struct, index, Enumerated.number Decoration.ColMajor],
        .effect .MemberDecorate [struct, index, Enumerated.number Decoration.MatrixStride, stride]]
    | none => []

def Member.marksFrom (struct : Id) (layout : MemoryLayout) : Nat → List Member → List Inst
  | _, [] => []
  | index, member :: members => member.marks struct layout (.ofNat index) ++ marksFrom struct layout (index + 1) members

theorem Word.ofNat_ne {i j : Nat} (hi : i < UInt32.size) (hj : j < UInt32.size) (h : i ≠ j) :
    UInt32.ofNat i ≠ .ofNat j := by
  intro heq
  have hsame := congrArg UInt32.toNat heq
  rw [UInt32.toNat_ofNat_of_lt' hi, UInt32.toNat_ofNat_of_lt' hj] at hsame
  exact h hsame

theorem Inst.memberOperands?_effect (struct index target i d' : Word) (d : Decoration) (operands : List Word) :
    (effect .MemberDecorate (target :: i :: d' :: operands)).memberOperands? struct index d =
      if target = struct ∧ i = index ∧ d' = Enumerated.number d then some operands else none := rfl

namespace Member

variable (struct : Id) (layout : MemoryLayout)

theorem placing_marks (index : Word) (member : Member) :
    Shader.placing (member.marks struct layout index) struct index = member.placing layout := by
  have hoffset : Enumerated.number Decoration.Offset ≠ Enumerated.number Decoration.ColMajor ∧
      Enumerated.number Decoration.Offset ≠ Enumerated.number Decoration.MatrixStride ∧
      Enumerated.number Decoration.ColMajor ≠ Enumerated.number Decoration.MatrixStride := by decide
  unfold marks placing
  cases member.matrixStride? layout <;>
    simp [Shader.placing, Inst.memberOperands?_effect, hoffset, hoffset.1.symm, hoffset.2.1.symm, hoffset.2.2.symm]

theorem memberOperands?_marks {index i : Word} (hi : i ≠ index) (member : Member) (d : Decoration) :
    (member.marks struct layout i).filterMap (·.memberOperands? struct index d) = [] := by
  unfold marks
  cases member.matrixStride? layout <;> simp [Inst.memberOperands?_effect, hi]

theorem memberOperands?_marksFrom {index : Nat} (d : Decoration) :
    ∀ {members : List Member} {i : Nat}, index < i → i + members.length < UInt32.size →
      (marksFrom struct layout i members).filterMap (·.memberOperands? struct (.ofNat index) d) = []
  | [], _, _, _ => rfl
  | member :: members, i, hi, hsize => by
    rw [length_cons] at hsize
    have hne : UInt32.ofNat i ≠ .ofNat index := ofNat_ne (by omega) (by omega) (by omega)
    rw [marksFrom, filterMap_append, memberOperands?_marks struct layout hne,
      memberOperands?_marksFrom d (by omega) (by omega)]
    rfl

theorem placing_marksFrom {member : Member} :
    ∀ {members : List Member} {index i : Nat}, members[i]? = some member → index + members.length < UInt32.size →
      Shader.placing (marksFrom struct layout index members) struct (.ofNat (index + i)) = member.placing layout
  | [], _, _, h, _ => by simp at h
  | first :: members, index, 0, h, hsize => by
    rw [length_cons] at hsize
    cases h
    have hrest : ∀ d : Decoration, (marksFrom struct layout (index + 1) members).filterMap
        (·.memberOperands? struct (.ofNat index) d) = [] :=
      fun d => memberOperands?_marksFrom struct layout d (Nat.lt_succ_self index) (by omega)
    rw [← placing_marks struct layout (.ofNat index), Nat.add_zero, marksFrom]
    simp only [Shader.placing, filterMap_append, hrest, append_nil]
  | first :: members, index, i + 1, h, hsize => by
    rw [length_cons] at hsize
    rw [getElem?_cons_succ] at h
    have hi : i < members.length := (List.getElem?_eq_some_iff.1 h).1
    have hne : UInt32.ofNat index ≠ .ofNat (index + (i + 1)) := ofNat_ne (by omega) (by omega) (by omega)
    have hplacing : Shader.placing (marksFrom struct layout (index + 1) members) struct
        (.ofNat (index + 1 + i)) = member.placing layout := placing_marksFrom h (by omega)
    rw [show index + 1 + i = index + (i + 1) by omega] at hplacing
    rw [← hplacing, marksFrom]
    simp only [Shader.placing, filterMap_append, memberOperands?_marks struct layout hne, nil_append]

end Member

/-! ## Decorations of members -/

namespace Module

section

variable {struct : Id} {layout : MemoryLayout}

theorem describeMember_ok {index : Word} {member : Member}
    (h : describeMember struct layout index member m = (.ok (), m')) :
    m'.decorations = m.decorations ++ member.marks struct layout index := by
  obtain ⟨_, m₁, hname, h⟩ := bind_ok h
  cases hname
  obtain ⟨_, m₂, hoffset, h⟩ := bind_ok h
  cases hoffset
  unfold Member.marks Member.matrixStride?
  split at h
  case isTrue hmatrix =>
    obtain ⟨stride, m₃, hchecked, h⟩ := bind_ok h
    obtain ⟨hstride, rfl⟩ := Build.checked_ok hchecked
    obtain ⟨_, m₄, hcolumns, h⟩ := bind_ok h
    cases hcolumns
    cases h
    rw [if_pos hmatrix, hstride]
    simp [Except.toOption]
  case isFalse hmatrix =>
    cases h
    rw [if_neg hmatrix]
    rfl

theorem describeMembers_ok : ∀ {members : List Member} {index : Word} {m m' : Module},
      describeMembers struct layout index members m = (.ok (), m') →
      m'.decorations = m.decorations ++ Member.marksFrom struct layout index.toNat members ∧
        index.toNat + members.length < UInt32.size
  | [], index, m, m', h => by
    obtain ⟨next, m₁, hchecked, h⟩ := bind_ok h
    obtain ⟨-, rfl⟩ := Build.checked_ok hchecked
    cases h
    exact ⟨(append_nil _).symm, index.toNat_lt⟩
  | member :: members, index, m, m', h => by
    obtain ⟨next, m₁, hchecked, h⟩ := bind_ok h
    obtain ⟨hnext, rfl⟩ := Build.checked_ok hchecked
    obtain ⟨_, m₂, hmember, h⟩ := bind_ok h
    obtain ⟨hrest, hsize⟩ := describeMembers_ok h
    have hsucc : next.toNat = index.toNat + 1 := add_ok hnext
    rw [hsucc] at hrest hsize
    refine ⟨?_, by rw [length_cons]; omega⟩
    rw [hrest, describeMember_ok hmember, Member.marksFrom, UInt32.ofNat_toNat, append_assoc]

end

/-! ## Decorations of callers and others -/

/-- The decorations are those that callers added, and others, which lay out types from before. -/
structure Apportions (m : Module) (marks own : List Inst) : Prop where
  split : m.decorations.Perm (own ++ marks)
  below : ∀ inst ∈ own, ∀ id, inst.lays? = some id → id < m.bound

section

variable {marks : List Inst}

namespace Apportions

theorem grow (h : m.Apportions marks own) (hdecorations : m'.decorations = m.decorations)
    (hbound : m.bound ≤ m'.bound) : m'.Apportions marks own where
  split := hdecorations ▸ h.split
  below inst hinst id hid := UInt32.lt_of_lt_of_le (h.below inst hinst id hid) hbound

theorem note (h : m.Apportions marks own) (hinst : ∀ id, inst.lays? = some id → id < m.bound)
    (hdecorations : m'.decorations = m.decorations ++ [inst]) (hbound : m.bound ≤ m'.bound) :
    m'.Apportions marks (own ++ [inst]) where
  split := by
    rw [hdecorations, append_assoc, singleton_append]
    refine (h.split.append_right [inst]).trans ?_
    rw [append_assoc]
    exact (perm_append_singleton inst marks).append_left own
  below i hi id hid := by
    refine UInt32.lt_of_lt_of_le ?_ hbound
    rcases mem_append.1 hi with hold | hnew
    · exact h.below i hold id hid
    · exact hinst id (mem_singleton.1 hnew ▸ hid)

theorem mark (h : m.Apportions marks own) {more : List Inst} (hdecorations : m'.decorations = m.decorations ++ more)
    (hbound : m.bound ≤ m'.bound) : m'.Apportions (marks ++ more) own where
  split := by
    rw [hdecorations, ← append_assoc]
    exact h.split.append_right more
  below inst hinst id hid := UInt32.lt_of_lt_of_le (h.below inst hinst id hid) hbound

theorem unique {own' : List Inst} (h : m.Apportions marks own)
    (h' : m.decorations.Perm (own' ++ marks)) : own.Perm own' :=
  (perm_append_right_iff marks).1 (h.split.symm.trans h')

theorem unlaid (h : m.Apportions marks own) (hid : m.bound ≤ id) : ∀ inst ∈ own, inst.lays? ≠ some id := by
  intro inst hinst hlays
  exact UInt32.lt_irrefl _ (UInt32.lt_of_lt_of_le (h.below inst hinst id hlays) hid)

end Apportions

theorem insert_bound (m : Module) (s : Section) (inst : Inst) : (m.insert s inst).bound = m.bound := by
  cases s <;> rfl

theorem insert_types (m : Module) (s : Section) (inst : Inst) : (m.insert s inst).types = m.types := by
  cases s <;> rfl

theorem insert_decorations (m : Module) {s : Section} (hs : s ≠ .decorations) (inst : Inst) :
    (m.insert s inst).decorations = m.decorations := by
  cases s <;> first | exact absurd rfl hs | rfl

theorem Apportions.insert (h : m.Apportions marks own) (hinst : ∀ id, inst.lays? = some id → id < m.bound) :
    ∃ added, (m.insert inst.op.section inst).Apportions marks (own ++ added) ∧ ∀ i ∈ added, i = inst := by
  have hbound := UInt32.le_of_eq (insert_bound m inst.op.section inst).symm
  by_cases hsection : inst.op.section = .decorations
  · rw [hsection] at hbound ⊢
    exact ⟨[inst], h.note hinst rfl hbound, fun i hi => mem_singleton.1 hi⟩
  · refine ⟨[], ?_, fun i hi => absurd hi not_mem_nil⟩
    rw [append_nil]
    exact h.grow (insert_decorations m hsection inst) hbound

theorem Recent.lt {P : Module → Prop} (h : m.Recent P id) : id < m.bound := by
  obtain ⟨m₀, -, -, hbound, -⟩ := h
  exact lt_of_add_one hbound

theorem declaring_apportioned (marks : List Inst) : Declaring (.keeping fun m => ∃ own, m.Apportions marks own) where
  alike {_ _ m m'} h ha := by
    obtain ⟨own, h⟩ := h
    rw [ha]
    exact ⟨own, h.grow rfl (UInt32.le_refl _)⟩
  note {_ _ m} inst h _ _ hrecent _ := by
    obtain ⟨own, h⟩ := h
    obtain ⟨added, h, -⟩ := h.insert fun id hid => (hrecent id hid).lt
    exact ⟨own ++ added, h⟩
  name h _ := h.imp fun _ h => h.grow rfl (UInt32.le_refl _)
  fresh h hnext := h.imp fun _ h => h.grow rfl (le_of_add_one hnext)
  aggregate _ h _ _ := h.imp fun _ h => h.grow rfl (UInt32.le_refl _)
  remember h _ hm' := by
    rw [hm'.same]
    exact h.imp fun _ h => h.grow rfl (UInt32.le_refl _)
  share h _ hnext hm' _ _ _ := by
    rw [hm'.same]
    exact h.imp fun _ h => h.grow rfl (le_of_add_one hnext)
  literal _ h _ _ hnext := h.imp fun _ h => h.grow rfl (le_of_add_one hnext)

/-! ## New types -/

theorem unlaid_of_define {op : Op} {operands : List Word} (h : ∃ own, m.Apportions marks own)
    (hdefine : define op operands m = (.ok id, m')) :
    ∃ own, m'.decorations.Perm (own ++ marks) ∧ ∀ inst ∈ own, inst.lays? ≠ some id := by
  obtain ⟨rfl, next, -, rfl⟩ := eq_of_define hdefine
  obtain ⟨own, h⟩ := h
  exact ⟨own, h.split, h.unlaid (UInt32.le_refl _)⟩

theorem placed_of_unlaid {key : TypeIdentity}
    (h : ∃ own, m.decorations.Perm (own ++ marks) ∧ ∀ inst ∈ own, inst.lays? ≠ some id)
    (hdecorations : m'.decorations = m.decorations ++ added) (hadded : key.PlacedBy added id) :
    ∃ own, m'.decorations.Perm (own ++ marks) ∧ key.PlacedBy own id := by
  obtain ⟨own, hsplit, hunlaid⟩ := h
  refine ⟨own ++ added, ?_, hadded.append hunlaid⟩
  rw [hdecorations, append_assoc]
  refine (hsplit.append_right added).trans ?_
  rw [append_assoc]
  exact perm_append_comm.append_left own

theorem decorateStride_decorations {id' : Id} {stride : Option Word} (h : (do
      if let some stride := stride then decorate id .ArrayStride [stride]
      return id : Build Id) m = (.ok id', m')) :
    m'.decorations = m.decorations ++ stride.toList.map fun stride =>
      .effect .Decorate [id, Enumerated.number Decoration.ArrayStride, stride] := by
  cases stride with
  | none =>
    cases h
    exact (append_nil _).symm
  | some stride =>
    obtain ⟨_, m₁, hdecorate, h⟩ := bind_ok h
    cases h
    cases hdecorate
    rfl

theorem array_placed {element : Id} {length stride : Option Word}
    (hm : ∃ own, m.Apportions marks own) (hnew : m.types.get? (.array element length stride) = none)
    (h : declareArray element length stride m = (.ok id, m')) :
    ∃ own, m'.decorations.Perm (own ++ marks) ∧ (TypeIdentity.array element length stride).PlacedBy own id := by
  rcases findOrMake_ok h with ⟨hfound, -⟩ | ⟨-, m₁, hmake, rfl⟩
  · cases hnew.symm.trans hfound
  have hplaced : ∀ {op : Op} {operands : List Word} {m₀ m₂ : Module} {id' : Id},
      (∃ own, m₀.Apportions marks own) → define op operands m₀ = (.ok id', m₂) →
      (do
        if let some stride := stride then decorate id' .ArrayStride [stride]
        return id' : Build Id) m₂ = (.ok id, m₁) →
      ∃ own, m₁.decorations.Perm (own ++ marks) ∧ (TypeIdentity.array element length stride).PlacedBy own id := by
    intro op operands m₀ m₂ id' hm₀ hdefine hmake
    obtain ⟨rfl, -, -⟩ := decorateStride_ok hmake
    refine placed_of_unlaid (unlaid_of_define hm₀ hdefine) (decorateStride_decorations hmake) ?_
    cases stride with
    | none => rfl
    | some stride => simp [TypeIdentity.PlacedBy, strides, Inst.stride?, Inst.effect]
  cases length with
  | none =>
    obtain ⟨id', m₂, hdefine, hmake⟩ := bind_ok hmake
    exact hplaced hm hdefine hmake
  | some n =>
    obtain ⟨count, m₃, hliteral, hmake⟩ := bind_ok hmake
    obtain ⟨id', m₂, hdefine, hmake⟩ := bind_ok hmake
    have hkeeps : Steady _ [] _ _ := declareLiteral_steady (declaring_apportioned marks) (.uint n)
    exact hplaced (hkeeps.keeping hm (congrArg Prod.snd hliteral)) hdefine hmake

theorem struct_placed {name : String} {layout : MemoryLayout} {members : List Member}
    (hm : ∃ own, m.Apportions marks own) (hnew : m.types.get? (.plain (.struct name layout members)) = none)
    (h : declareType (.struct name layout members) m = (.ok id, m')) : ∃ own, m'.decorations.Perm (own ++ marks) ∧
      (TypeIdentity.plain (.struct name layout members)).PlacedBy own id := by
  rcases findOrMake_ok h with ⟨hfound, -⟩ | ⟨-, m₁, hmake, rfl⟩
  · cases hnew.symm.trans hfound
  obtain ⟨types, m₂, htypes, hmake⟩ := bind_ok hmake
  have hm₂ := (declareMembers_steady (declaring_apportioned marks) layout members [] fun _ => rfl).keeping
    hm (congrArg Prod.snd htypes)
  obtain ⟨id', m₃, hdefine, hmake⟩ := bind_ok hmake
  obtain ⟨_, m₄, hname, hmake⟩ := bind_ok hmake
  obtain ⟨_, hdescribe, rfl⟩ := bind_pure_ok hmake
  cases hname
  obtain ⟨hdecorations, hsize⟩ := describeMembers_ok hdescribe
  refine placed_of_unlaid (unlaid_of_define hm₂ hdefine) hdecorations fun i member hmember => ?_
  have hplacing := Member.placing_marksFrom id' layout hmember hsize
  rwa [UInt32.toNat_zero, Nat.zero_add] at hplacing

theorem placed_of_new {key : TypeIdentity} (hm : ∃ own, m.Apportions marks own) (hnew : m.types.get? key = none)
    (h : declareKey key m = (.ok id, m')) (hm' : m'.Apportions marks own) : key.PlacedBy own id := by
  have hperm : (∃ own', m'.decorations.Perm (own' ++ marks) ∧ key.PlacedBy own' id) → key.PlacedBy own id := by
    rintro ⟨own', hsplit, hplaced⟩
    exact hplaced.perm (hm'.unique hsplit)
  cases key with
  | tuple members => trivial
  | array element length stride => exact hperm (array_placed hm hnew h)
  | plain ty =>
    cases ty with
    | struct name layout members => exact hperm (struct_placed hm hnew h)
    | _ => trivial

/-! ## Modules -/

/-- The types that are found have the decorations they need, besides those that callers added. -/
def Placed (marks : List Inst) (m : Module) : Prop :=
  ∃ own, m.Apportions marks own ∧ ∀ key id, m.types.get? key = some id → key.PlacedBy own id

namespace Placed

theorem grow (h : m.Placed marks) (hdecorations : m'.decorations = m.decorations)
    (htypes : m'.types = m.types) (hbound : m.bound ≤ m'.bound) : m'.Placed marks := by
  obtain ⟨own, hown, hplaced⟩ := h
  exact ⟨own, hown.grow hdecorations hbound, fun key id hid => hplaced key id (htypes ▸ hid)⟩

theorem mark (h : m.Placed marks) {more : List Inst} (hdecorations : m'.decorations = m.decorations ++ more)
    (htypes : m'.types = m.types) (hbound : m.bound ≤ m'.bound) : m'.Placed (marks ++ more) := by
  obtain ⟨own, hown, hplaced⟩ := h
  exact ⟨own, hown.mark hdecorations hbound, fun key id hid => hplaced key id (htypes ▸ hid)⟩

theorem insert (h : m.Placed marks)
    (hinst : ∀ id, inst.lays? = some id → m.Recent (fun m₀ => ∀ key type, m₀.types.get? key = some
      type → type < m₀.bound) id) : (m.insert inst.op.section inst).Placed marks := by
  obtain ⟨own, hown, hplaced⟩ := h
  obtain ⟨added, hadded, hsame⟩ := hown.insert fun id hid => (hinst id hid).lt
  refine ⟨own ++ added, hadded, fun key id hid => (hplaced key id ?_).append_left fun i hi hlays => ?_⟩
  · rwa [insert_types] at hid
  · rw [hsame i hi] at hlays
    obtain ⟨m₀, hbelow, rfl, -, htypes⟩ := hinst id hlays
    rw [insert_types, htypes] at hid
    exact UInt32.lt_irrefl _ (hbelow key _ hid)

theorem remember (h : m.Placed marks) {P : Module → Prop} (hP : ∀ m₀, P m₀ → ∃ own, m₀.Apportions marks own)
    (hm' : m.Remembers P id m') : m'.Placed marks := by
  obtain ⟨own, hown, hplaced⟩ := h
  have hown' : m'.Apportions marks own := by
    rw [hm'.same]
    exact hown.grow rfl (UInt32.le_refl _)
  refine ⟨own, hown', fun key type htype => ?_⟩
  rcases hm'.newType key type htype with hold | ⟨m₀, hm₀, hmissing, hrun⟩
  · exact hplaced key type hold
  · exact placed_of_new (hP m₀ hm₀) hmissing hrun hown'

end Placed

end

end Module

/-- Structs and arrays have the decorations of their layouts, and those in `marks`. -/
def Ledger.placed (marks : List Inst) : Ledger Module where
  Stands held known m := Orderly held known m ∧ m.Placed marks
  drop h hheld hknown := ⟨Ledger.orderly.drop h.1 hheld hknown, h.2⟩

theorem attached_placed (marks : List Inst) : Attached (Module.Placed marks) where
  grow := .grow
  insert h _ hrecent := h.insert fun id hid => (hrecent id hid).imp fun _ h₀ _ _ htype => h₀.type_lt htype
  remember hm' h := h.remember (fun _ h₀ => h₀.2.imp fun _ h => h.1) hm'

theorem running_placed (marks : List Inst) : Running (.placed marks) (fun _ => True) :=
  (attached_placed marks).running rfl

namespace Workbench

variable {w w' : Workbench} {marks : List Inst}

theorem perform_placed {op : Operation} (hop : op.builds) (hw : w.Stands (.placed marks) (fun _ => True)) :
    (w.perform op).2.Stands (.placed (marks ++ op.marks)) (fun _ => True) := by
  have hrefers : ∀ {held known}, (Ledger.placed marks).Stands held known w.module →
      (Ledger.placed marks).Stands held (op.refers.map .value ++ known) w.module :=
    fun hm => ⟨hm.1.refers _, hm.2⟩
  have hother : op.marks = [] → (w.perform op).2.Stands (.placed (marks ++ op.marks)) (fun _ => True) := by
    intro hmarks
    rw [hmarks, append_nil]
    refine (perform_change hop).stands (running_placed marks) hrefers (fun hinst _ => ?_) hw
    rw [hmarks] at hinst
    cases hinst
  -- The two operations that add a decoration of the caller leave all else as it is.
  have hmarked : ∀ inst : Inst, inst.op.section = .decorations → inst.Remark →
      Stands (.placed (marks ++ [inst])) (fun _ => True)
        { w with module := { w.module with decorations := w.module.decorations ++ [inst] } } := by
    intro inst hsection hinst
    have hnoted := stepwise_orderly.note inst hw.ledger.1 (hsection ▸ rfl) hinst
    rw [hsection] at hnoted
    exact ⟨⟨hnoted, hw.ledger.2.mark rfl rfl (UInt32.le_refl _)⟩, hw.scopes⟩
  cases op with
  | decorate => exact hmarked _ rfl ⟨nofun, rfl⟩
  | decorateMember => exact hmarked _ rfl ⟨nofun, rfl⟩
  | _ => exact hother rfl

theorem run_placed (ops : List Operation) (hops : ∀ op ∈ ops, op.builds)
    (hw : w.Stands (.placed marks) (fun _ => True)) :
    (w.run ops).Stands (.placed (marks ++ ops.flatMap Operation.marks)) (fun _ => True) := by
  induction ops generalizing w marks with
  | nil => simpa [run] using hw
  | cons op ops ih =>
    obtain ⟨hop, hops⟩ := forall_mem_cons.1 hops
    have hrest := ih hops (perform_placed hop hw)
    rw [flatMap_cons, ← append_assoc]
    exact hrest

theorem start_placed (config : Config) : (start config).Stands (.placed []) (fun _ => True) := by
  have hown : (start config).module.Apportions [] [] := ⟨Perm.refl _, fun _ h => nomatch h⟩
  refine ⟨⟨(start_orderly config).ledger, [], hown, fun key id hid => ?_⟩, fun _ _ => trivial⟩
  cases hid

end Workbench

end Shader
