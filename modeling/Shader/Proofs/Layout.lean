import Mathlib.Algebra.Group.Nat.Defs
import Mathlib.Order.Bounds.Basic
import Shader.Proofs.Encoding
import Shader.Proofs.Run

/-!
# Scalars in a buffer

Where the scalars of a value in a buffer are follows from offsets and strides, in the layout of the
struct that they are in. The size and the alignment of a type are worked out on their own. Both agree:
scalars are aligned, keep within the size and do not overlap, as long as structs take no more room in
their own layout than in the layout around them.
-/

namespace Shader

open List Inst Word

variable {align : Word} {layout : MemoryLayout} {ty : Ty} {layouts : MemoryLayout → Prop} {start : Word}

/-! ## Word arithmetic -/

namespace Word

theorem mul_ok {a b c : Word} (h : mul a b = .ok c) : c.toNat = a.toNat * b.toNat := by
  unfold mul at h
  split at h
  · cases h
    rw [UInt32.toNat_mul, Nat.mod_eq_of_lt (by assumption)]
  · cases h

variable {x y : Word}

theorem toNat_divCeil (hy : 1 < y.toNat) : (divCeil x y).toNat =
      if x.toNat % y.toNat = 0 then x.toNat / y.toNat else x.toNat / y.toNat + 1 := by
  have hzero : x % y = 0 ↔ x.toNat % y.toNat = 0 := by
    rw [← UInt32.toNat_inj, UInt32.toNat_mod]
    rfl
  have hquotient : x.toNat / y.toNat + 1 < 4294967296 := by
    have hx := x.toNat_lt
    have hhalf : x.toNat / y.toNat ≤ x.toNat / 2 := Nat.div_le_div_left hy (by decide)
    omega
  unfold divCeil
  split
  case isTrue h => rw [if_pos (hzero.1 h), UInt32.toNat_div]
  case isFalse h =>
    rw [if_neg (mt hzero.2 h), UInt32.toNat_add, UInt32.toNat_div]
    exact Nat.mod_eq_of_lt hquotient

theorem roundUp_isLeast (h : roundUp x align = .ok y) (halign : 0 < align.toNat) :
    IsLeast {o | align.toNat ∣ o ∧ x.toNat ≤ o} y.toNat := by
  unfold roundUp at h
  split at h
  case isTrue hle =>
    cases h
    have hone : align.toNat = 1 := by
      have := UInt32.le_iff_toNat_le.1 hle
      have : (1 : Word).toNat = 1 := rfl
      omega
    exact ⟨⟨hone ▸ Nat.one_dvd _, le_rfl⟩, fun o ho => ho.2⟩
  case isFalse hle =>
    have hone : 1 < align.toNat := by simpa [UInt32.lt_iff_toNat_lt] using hle
    have hdivide := Nat.div_add_mod x.toNat align.toNat
    have hrest := Nat.mod_lt x.toNat halign
    rw [mul_ok h, toNat_divCeil hone]
    refine ⟨⟨Nat.dvd_mul_left _ _, ?_⟩, ?_⟩
    · split
      · rw [Nat.mul_comm]
        omega
      · rw [Nat.add_mul, Nat.mul_comm]
        omega
    · rintro o ⟨⟨k, rfl⟩, hk⟩
      rw [Nat.mul_comm align.toNat k]
      refine Nat.mul_le_mul_right _ ?_
      split
      · exact Nat.div_le_of_le_mul hk
      · refine Nat.lt_of_mul_lt_mul_left (a := align.toNat) ?_
        omega

theorem le_roundUp (h : roundUp x align = .ok y) : x.toNat ≤ y.toNat := by
  rcases Nat.eq_zero_or_pos align.toNat with hzero | hpos
  · obtain rfl : align = 0 := UInt32.toNat_inj.1 hzero
    cases h
    exact le_rfl
  · exact (roundUp_isLeast h hpos).1.2

end Word

namespace MemoryLayout

variable {a b : Word}

theorem le_roundAlign (h : layout.roundAlign a = .ok b) : a.toNat ≤ b.toNat := by
  cases layout with
  | std140 => exact le_roundUp h
  | std430 =>
    cases h
    exact le_rfl

theorem roundAlign_pow (h : layout.roundAlign a = .ok b) (ha : a.toNat.isPowerOfTwo) :
    b.toNat.isPowerOfTwo ∧ a.toNat ∣ b.toNat := by
  cases layout with
  | std430 =>
    cases h
    exact ⟨ha, Nat.dvd_refl _⟩
  | std140 =>
    have hleast := roundUp_isLeast h (by decide)
    obtain ⟨k, hk⟩ := ha
    rcases Nat.le_total k 4 with hsmall | hlarge
    · have hle : 2 ^ k ≤ 2 ^ 4 := Nat.pow_le_pow_right (by decide) hsmall
      have hb : b.toNat = 2 ^ 4 := by
        refine hleast.unique ⟨⟨Nat.dvd_refl _, hk ▸ hle⟩, fun o ⟨hdvd, hle'⟩ => ?_⟩
        exact Nat.le_of_dvd (Nat.lt_of_lt_of_le (hk ▸ Nat.two_pow_pos k) hle') hdvd
      exact ⟨⟨4, hb⟩, by rw [hk, hb]; exact Nat.pow_dvd_pow 2 hsmall⟩
    · have hdvd : (16 : Word).toNat ∣ a.toNat := by
        rw [hk]
        exact Nat.pow_dvd_pow 2 hlarge
      have hb : b.toNat = a.toNat := hleast.unique ⟨⟨hdvd, le_rfl⟩, fun o ho => ho.2⟩
      exact ⟨⟨k, hb.trans hk⟩, hb ▸ Nat.dvd_refl _⟩

end MemoryLayout

/-! ## Leaves -/

/-- A scalar at its address in memory. -/
structure Leaf where
  scalar : Scalar
  address : Nat
deriving DecidableEq, Repr

variable {ms : List Member} {s : Scalar} {name : String} {l : Leaf} {n stride rows : Word}
  {members : List (String × Ty)}

namespace Leaf

/-- The bytes that the scalar takes. -/
def size (l : Leaf) : Nat := l.scalar.size.toNat

/-- The address after the scalar. -/
def stop (l : Leaf) : Nat := l.address + l.size

/-- The scalars do not overlap. -/
def Apart (l l' : Leaf) : Prop := l.stop ≤ l'.address ∨ l'.stop ≤ l.address

instance (l l' : Leaf) : Decidable (l.Apart l') := inferInstanceAs (Decidable (_ ∨ _))

def move (distance : Nat) (l : Leaf) : Leaf := { l with address := distance + l.address }

@[simp] theorem size_move (distance : Nat) (l : Leaf) : (l.move distance).size = l.size := rfl

@[simp] theorem address_move (distance : Nat) (l : Leaf) : (l.move distance).address = distance + l.address := rfl

@[simp] theorem stop_move (distance : Nat) (l : Leaf) : (l.move distance).stop = distance + l.stop := Nat.add_assoc ..

theorem apart_move {distance : Nat} {l' : Leaf} : (l.move distance).Apart (l'.move distance) ↔ l.Apart l' := by
  simp [Apart]

end Leaf

/-- The leaves of elements at equal distances. -/
def repeated (count stride : Word) (leaves : List Leaf) : List Leaf :=
  (range count.toNat).flatMap fun i => leaves.map (.move (i * stride.toNat))

def vectorLeaves (s : Scalar) (n : Word) : List Leaf := repeated n s.size [⟨s, 0⟩]

mutual

/-- The scalars of a type, each at its address. -/
def Ty.leaves (layout : MemoryLayout) : Ty → Checked (List Leaf)
  | .scalar s => .ok [⟨s, 0⟩]
  | .vector s n => .ok (vectorLeaves s n)
  | .matrix s columns rows => do
    let stride ← (Ty.matrix s columns rows).matrixStride layout
    return repeated columns stride (vectorLeaves s rows)
  | .array element length => do
    let stride ← element.arrayStride layout
    return repeated (length.getD 0) stride (← element.leaves layout)
  | .struct _ own members => do return (← Member.leaves own members).flatten
  | .void | .image _ | .sampledImage _ | .sampler _ | .function .. => .ok []

def Member.leaves (layout : MemoryLayout) : List Member → Checked (List (List Leaf))
  | [] => .ok []
  | ⟨_, ty, offset, _⟩ :: ms => do
    let first ← ty.leaves layout
    return first.map (.move offset.toNat) :: (← Member.leaves layout ms)

end

theorem mem_repeated {count : Word} {leaves : List Leaf} : l ∈ repeated count stride leaves ↔
      ∃ i < count.toNat, ∃ part ∈ leaves, part.move (i * stride.toNat) = l := by
  simp [repeated]

theorem size_of_mem_vectorLeaves (h : l ∈ vectorLeaves s n) : l.size = s.size.toNat ∧ s.size.toNat ∣ l.address := by
  obtain ⟨i, -, part, hpart, rfl⟩ := mem_repeated.1 h
  cases mem_singleton.1 hpart
  exact ⟨rfl, Nat.dvd_mul_left _ _⟩

namespace Ty

variable {leaves : List Leaf}

theorem leaves_matrix {columns : Word} (h : (matrix s columns rows).leaves layout = .ok leaves) :
    ∃ stride, columnStride s rows layout = .ok stride ∧ leaves = repeated columns stride (vectorLeaves s rows) := by
  obtain ⟨stride, hstride, h⟩ := bind_eq_ok_iff.1 h
  cases h
  exact ⟨stride, hstride, rfl⟩

theorem leaves_array {element : Ty} {length : Option Word} (h : (array element length).leaves layout = .ok leaves) :
    ∃ size align stride parts, element.extent layout = .ok (size, align) ∧
      strideOf layout size align = .ok stride ∧ element.leaves layout = .ok parts ∧
      leaves = repeated (length.getD 0) stride parts := by
  obtain ⟨stride, hstride, h⟩ := bind_eq_ok_iff.1 h
  obtain ⟨⟨size, align⟩, hextent, hstride⟩ := bind_eq_ok_iff.1 hstride
  obtain ⟨parts, hparts, h⟩ := bind_eq_ok_iff.1 h
  cases h
  exact ⟨size, align, stride, parts, hextent, hstride, hparts, rfl⟩

theorem leaves_struct {own : MemoryLayout} {members : List Member}
    (h : (struct name own members).leaves layout = .ok leaves) :
    ∃ parts, Member.leaves own members = .ok parts ∧ leaves = parts.flatten := by
  obtain ⟨parts, hparts, h⟩ := bind_eq_ok_iff.1 h
  cases h
  exact ⟨parts, hparts, rfl⟩

end Ty

theorem Member.mem_leaves {leaves : List (List Leaf)}
    (h : Member.leaves layout ms = .ok leaves) (hl : l ∈ leaves.flatten) :
    ∃ m ∈ ms, ∃ parts, m.ty.leaves layout = .ok parts ∧ ∃ part ∈ parts, part.move m.offset.toNat = l := by
  induction ms generalizing leaves with
  | nil =>
    cases h
    cases hl
  | cons m ms ih =>
    obtain ⟨name, ty, offset, stride⟩ := m
    obtain ⟨first, hfirst, h⟩ := bind_eq_ok_iff.1 h
    obtain ⟨rest, hrest, h⟩ := bind_eq_ok_iff.1 h
    cases h
    rw [flatten_cons, mem_append] at hl
    rcases hl with hl | hl
    · obtain ⟨part, hpart, rfl⟩ := mem_map.1 hl
      exact ⟨_, mem_cons_self, first, hfirst, part, hpart, rfl⟩
    · obtain ⟨m, hm, hparts⟩ := ih hrest hl
      exact ⟨m, mem_cons_of_mem _ hm, hparts⟩

/-- Leaves that lie between `start` and `stop` and do not overlap. -/
structure Fit (start stop : Nat) (leaves : List Leaf) : Prop where
  inside : ∀ l ∈ leaves, start ≤ l.address ∧ l.stop ≤ stop
  apart : leaves.Pairwise Leaf.Apart

namespace Fit

variable {start start' stop stop' : Nat} {leaves leaves' : List Leaf}

theorem nil (start stop : Nat) : Fit start stop [] := ⟨by simp, .nil⟩

theorem single (s : Scalar) : Fit 0 s.size.toNat [⟨s, 0⟩] := ⟨by simp [Leaf.stop, Leaf.size], pairwise_singleton _ _⟩

theorem mono (h : Fit start stop leaves) (hstart : start' ≤ start) (hstop : stop ≤ stop') : Fit start' stop' leaves :=
  ⟨fun l hl => ⟨hstart.trans (h.inside l hl).1, (h.inside l hl).2.trans hstop⟩, h.apart⟩

theorem move (h : Fit start stop leaves) (distance : Nat) :
    Fit (distance + start) (distance + stop) (leaves.map (.move distance)) := by
  refine ⟨forall_mem_map.2 fun l hl => ?_, ?_⟩
  · obtain ⟨hstart, hstop⟩ := h.inside l hl
    simp only [Leaf.address_move, Leaf.stop_move]
    omega
  · exact pairwise_map.2 (h.apart.imp Leaf.apart_move.2)

theorem append (h : Fit start stop leaves) (h' : Fit stop stop' leaves') (hstart : start ≤ stop)
    (hstop : stop ≤ stop') : Fit start stop' (leaves ++ leaves') where
  inside := forall_mem_append.2 ⟨(h.mono le_rfl hstop).inside, (h'.mono hstart le_rfl).inside⟩
  apart := pairwise_append.2 ⟨h.apart, h'.apart, fun l hl l' hl' => .inl ((h.inside l hl).2.trans (h'.inside l' hl').1)⟩

theorem repeated {size : Nat} (h : Fit 0 size leaves) (count stride : Word) (hsize : size ≤ stride.toNat) :
    Fit 0 (count.toNat * stride.toNat) (repeated count stride leaves) := by
  unfold Shader.repeated
  induction count.toNat with
  | zero => simpa using nil 0 0
  | succ n ih =>
    rw [range_succ, flatMap_append, flatMap_singleton, Nat.add_mul, Nat.one_mul]
    refine ih.append ?_ (Nat.zero_le _) (Nat.le_add_right _ _)
    exact (h.move (n * stride.toNat)).mono le_rfl (Nat.add_le_add_left hsize _)

end Fit

theorem vectorLeaves_fit (s : Scalar) (n : Word) : Fit 0 (n.toNat * s.size.toNat) (vectorLeaves s n) :=
  (Fit.single s).repeated n s.size le_rfl

/-! ## Sizes and alignments -/

theorem vectorExtent_ok {size : Word} (h : vectorExtent s n = .ok (size, align)) :
    size.toNat = n.toNat * s.size.toNat ∧ align.toNat = s.size.toNat * if n = 3 then 4 else n.toNat := by
  obtain ⟨size', hsize, h⟩ := bind_eq_ok_iff.1 h
  obtain ⟨align', halign, h⟩ := bind_eq_ok_iff.1 h
  cases h
  rw [mul_ok hsize, mul_ok halign, Nat.mul_comm, apply_ite UInt32.toNat]
  exact ⟨rfl, rfl⟩

theorem columnStride_ok (h : columnStride s rows layout = .ok stride) :
    ∃ size align, vectorExtent s rows = .ok (size, align) ∧ layout.roundAlign align = .ok stride := by
  obtain ⟨⟨size, align⟩, hextent, h⟩ := bind_eq_ok_iff.1 h
  exact ⟨size, align, hextent, h⟩

theorem strideOf_ok {size : Word} (h : strideOf layout size align = .ok stride) :
    ∃ rounded, layout.roundAlign align = .ok rounded ∧ roundUp size rounded = .ok stride :=
  bind_eq_ok_iff.1 h

namespace Ty

variable {size : Word}

theorem extent_matrix {columns : Word} (h : (matrix s columns rows).extent layout = .ok (size, align)) :
    columnStride s rows layout = .ok align ∧ size.toNat = columns.toNat * align.toNat := by
  obtain ⟨stride, hstride, h⟩ := bind_eq_ok_iff.1 h
  obtain ⟨whole, hwhole, h⟩ := bind_eq_ok_iff.1 h
  cases h
  exact ⟨hstride, by rw [mul_ok hwhole, Nat.mul_comm]⟩

theorem extent_array {element : Ty} {length : Option Word}
    (h : (array element length).extent layout = .ok (size, align)) :
    ∃ partSize partAlign stride, element.extent layout = .ok (partSize, partAlign) ∧
      strideOf layout partSize partAlign = .ok stride ∧ element.arrayStride layout = .ok stride ∧
      size.toNat = (length.getD 0).toNat * stride.toNat ∧ layout.roundAlign partAlign = .ok align := by
  obtain ⟨⟨partSize, partAlign⟩, hpart, h⟩ := bind_eq_ok_iff.1 h
  obtain ⟨stride, hstride, h⟩ := bind_eq_ok_iff.1 h
  obtain ⟨whole, hwhole, h⟩ := bind_eq_ok_iff.1 h
  obtain ⟨rounded, hrounded, h⟩ := bind_eq_ok_iff.1 h
  cases h
  refine ⟨partSize, partAlign, stride, hpart, hstride, ?_, by rw [mul_ok hwhole, Nat.mul_comm], hrounded⟩
  rw [arrayStride, hpart]
  exact hstride

theorem extent_struct {own : MemoryLayout} {members : List Member}
    (h : (struct name own members).extent layout = .ok (size, align)) :
    ∃ last widest, Member.extent layout (0, 1) members = .ok (last, widest) ∧
      layout.roundAlign widest = .ok align ∧ roundUp last align = .ok size := by
  obtain ⟨⟨last, widest⟩, hlast, h⟩ := bind_eq_ok_iff.1 h
  obtain ⟨rounded, hrounded, h⟩ := bind_eq_ok_iff.1 h
  obtain ⟨whole, hwhole, h⟩ := bind_eq_ok_iff.1 h
  cases h
  exact ⟨last, widest, hlast, hrounded, hwhole⟩

end Ty

theorem Member.extent_cons {offset : Word} {stride : Option Word}
    {acc r : Word × Word} : Member.extent layout acc (⟨name, ty, offset, stride⟩ :: ms) = .ok r ↔
      ∃ size align next, ty.extent layout = .ok (size, align) ∧ add offset size = .ok next ∧
        Member.extent layout (next, max acc.2 align) ms = .ok r := by
  rw [Member.extent]
  simp only [bind_eq_ok_iff, Prod.exists]
  grind

theorem Ty.placeMembers_cons {rest : List (String × Ty)} (h : placeMembers layout start ((name, ty) :: rest) = .ok ms) :
    ∃ size align offset next ms', ty.extent layout = .ok (size, align) ∧
      roundUp start align = .ok offset ∧ add offset size = .ok next ∧
      placeMembers layout next rest = .ok ms' ∧ ms = ⟨name, ty, offset, none⟩ :: ms' := by
  obtain ⟨⟨size, align⟩, hextent, h⟩ := bind_eq_ok_iff.1 h
  obtain ⟨offset, hoffset, h⟩ := bind_eq_ok_iff.1 h
  obtain ⟨next, hnext, h⟩ := bind_eq_ok_iff.1 h
  obtain ⟨ms', hrest, h⟩ := bind_eq_ok_iff.1 h
  cases h
  exact ⟨size, align, offset, next, ms', hextent, hoffset, hnext, hrest, rfl⟩

theorem Ty.structOf_ok (h : structOf name layout members = .ok ty) :
    ∃ ms, placeMembers layout 0 members = .ok ms ∧ ty = .struct name layout ms := by
  obtain ⟨ms, hms, h⟩ := bind_eq_ok_iff.1 h
  cases h
  exact ⟨ms, hms, rfl⟩

/-! ## Types in layouts -/

/-- Types of a known size, of certain vectors, matrices and layouts. -/
inductive Ty.LaidOut (sizes : Word → Prop) (layouts : MemoryLayout → Prop) : Ty → Prop where
  | scalar (s : Scalar) : LaidOut sizes layouts (.scalar s)
  | vector (s : Scalar) {n : Word} (size : sizes n) : LaidOut sizes layouts (.vector s n)
  | matrix (s : Scalar) {columns rows : Word} (width : sizes columns) (height : sizes rows) :
      LaidOut sizes layouts (.matrix s columns rows)
  | array {element : Ty} (length : Word) (elements : LaidOut sizes layouts element) :
      LaidOut sizes layouts (.array element (some length))
  | struct {name : String} {layout : MemoryLayout} {members : List (String × Ty)} {ty : Ty}
      (allowed : layouts layout) (parts : ∀ m ∈ members, LaidOut sizes layouts m.2)
      (placed : Ty.structOf name layout members = .ok ty) : LaidOut sizes layouts ty

mutual

/-- Whether every struct ends, in its own layout, within the size that it has in the layout around it. -/
def Ty.isRoomy (layout : MemoryLayout) : Ty → Bool
  | .array element _ => element.isRoomy layout
  | .struct name own members =>
    Member.areRoomy own members &&
      match Member.extent own (0, 1) members, (Ty.struct name own members).extent layout with
      | .ok (last, _), .ok (size, _) => last ≤ size
      | _, _ => true
  | _ => true

def Member.areRoomy (layout : MemoryLayout) : List Member → Bool
  | [] => true
  | ⟨_, ty, _, _⟩ :: ms => ty.isRoomy layout && Member.areRoomy layout ms

end

theorem Ty.placeMembers_forall {P : Ty → Prop}
    (h : placeMembers layout start members = .ok ms) (hmembers : ∀ m ∈ members, P m.2) : ∀ m ∈ ms, P m.ty := by
  induction members generalizing start ms with
  | nil =>
    cases h
    exact forall_mem_nil _
  | cons m members ih =>
    obtain ⟨size, align, offset, next, ms, -, -, -, hrest, rfl⟩ := placeMembers_cons h
    obtain ⟨hfirst, hothers⟩ := forall_mem_cons.1 hmembers
    exact forall_mem_cons.2 ⟨hfirst, ih hrest hothers⟩

theorem Member.areRoomy_iff : Member.areRoomy layout ms ↔ ∀ m ∈ ms, m.ty.isRoomy layout := by
  induction ms with
  | nil => simp [Member.areRoomy]
  | cons m ms ih =>
    obtain ⟨name, ty, offset, stride⟩ := m
    simp [Member.areRoomy, ih]

section

variable {sizes : Word → Prop} {size : Word}

/-- Members that are placed one after the other do not overlap if the scalars of each keep within its
size. -/
theorem Ty.placeMembers_fit (hfit : ∀ m ∈ members, ∀ {size align}, m.2.isRoomy layout →
      m.2.extent layout = .ok (size, align) →
      ∃ leaves, m.2.leaves layout = .ok leaves ∧ Fit 0 size.toNat leaves)
    (acc : Word) (h : placeMembers layout start members = .ok ms) (hroomy : Member.areRoomy layout ms) :
    ∃ leaves last widest, Member.leaves layout ms = .ok leaves ∧
      Member.extent layout (start, acc) ms = .ok (last, widest) ∧ start.toNat ≤ last.toNat ∧
      Fit start.toNat last.toNat leaves.flatten := by
  induction members generalizing start acc ms with
  | nil =>
    cases h
    exact ⟨[], start, acc, by rw [Member.leaves], by rw [Member.extent], le_rfl, .nil _ _⟩
  | cons m members ih =>
    obtain ⟨size, align, offset, next, ms, hextent, hoffset, hnext, hrest, rfl⟩ := placeMembers_cons h
    rw [Member.areRoomy, Bool.and_eq_true] at hroomy
    obtain ⟨first, hfirst, hfits⟩ := hfit _ mem_cons_self hroomy.1 hextent
    obtain ⟨leaves, last, widest, hleaves, hlast, hle, hothers⟩ :=
      ih (fun m hm => hfit m (mem_cons_of_mem _ hm)) (max acc align) hrest hroomy.2
    have hstart := le_roundUp hoffset
    have hstop := add_ok hnext
    refine ⟨first.map (.move offset.toNat) :: leaves, last, widest, ?_, ?_, by omega, ?_⟩
    · rw [Member.leaves, hfirst, hleaves]
      rfl
    · exact Member.extent_cons.2 ⟨size, align, next, hextent, hnext, hlast⟩
    · refine Fit.append ?_ hothers (by omega) hle
      exact (hfits.move offset.toNat).mono hstart hstop.ge

theorem Ty.LaidOut.fit (h : ty.LaidOut sizes layouts) (hroomy : ty.isRoomy layout)
    (hextent : ty.extent layout = .ok (size, align)) :
    ∃ leaves, ty.leaves layout = .ok leaves ∧ Fit 0 size.toNat leaves := by
  induction h generalizing layout size align with
  | scalar s =>
    cases hextent
    exact ⟨_, by rw [leaves], .single s⟩
  | vector s =>
    refine ⟨_, by rw [leaves], ?_⟩
    rw [(vectorExtent_ok hextent).1]
    exact vectorLeaves_fit s _
  | @matrix s columns rows =>
    obtain ⟨hstride, hsize⟩ := extent_matrix hextent
    refine ⟨repeated columns align (vectorLeaves s rows), ?_, ?_⟩
    · rw [leaves, matrixStride, hstride]
      rfl
    · obtain ⟨columnSize, columnAlign, hcolumn, hround⟩ := columnStride_ok hstride
      have hwide := (vectorExtent_ok hcolumn).2
      have hle := MemoryLayout.le_roundAlign hround
      rw [hsize]
      refine (vectorLeaves_fit s rows).repeated columns align (le_trans ?_ hle)
      rw [hwide, Nat.mul_comm]
      refine Nat.mul_le_mul_left _ ?_
      split
      case isTrue hthree => simp [hthree]
      case isFalse => exact le_rfl
  | array length _ ih =>
    obtain ⟨partSize, partAlign, stride, hpart, hstrideOf, hstride, hsize, -⟩ := extent_array hextent
    obtain ⟨parts, hparts, hfit⟩ := ih hroomy hpart
    obtain ⟨rounded, -, hround⟩ := strideOf_ok hstrideOf
    refine ⟨repeated length stride parts, ?_, ?_⟩
    · rw [leaves, hstride, hparts]
      rfl
    · rw [hsize]
      exact hfit.repeated length stride (le_roundUp hround)
  | struct _ _ placed ih =>
    obtain ⟨ms, hplaced, rfl⟩ := structOf_ok placed
    rw [isRoomy, Bool.and_eq_true] at hroomy
    obtain ⟨parts, last, widest, hleaves, hlast, -, hfit⟩ := placeMembers_fit (fun m hm => ih m hm) 1 hplaced hroomy.1
    have hroom := hroomy.2
    rw [hlast, hextent] at hroom
    refine ⟨parts.flatten, ?_, hfit.mono le_rfl (UInt32.le_iff_toNat_le.1 (of_decide_eq_true hroom))⟩
    rw [leaves, hleaves]
    rfl

theorem Ty.LaidOut.isRoomy (h : ty.LaidOut sizes (· = layout)) : ty.isRoomy layout := by
  induction h with
  | scalar | vector | matrix => rfl
  | array _ _ ih => exact ih
  | @struct name own members ty allowed _ placed ih =>
    obtain ⟨ms, hplaced, rfl⟩ := structOf_ok placed
    obtain rfl : own = layout := allowed
    rw [Ty.isRoomy, Bool.and_eq_true]
    refine ⟨?_, ?_⟩
    · exact Member.areRoomy_iff.2 (placeMembers_forall (P := fun ty => ty.isRoomy own) hplaced ih)
    · split
      case h_1 last widest size align hlast hextent =>
        obtain ⟨last', widest', hlast', -, hround⟩ := extent_struct hextent
        rw [hlast] at hlast'
        cases hlast'
        exact decide_eq_true (UInt32.le_iff_toNat_le.2 (le_roundUp hround))
      · rfl

end

/-! ## Alignment -/

/-- Sizes that vectors and matrices can have. -/
def IsDimension (n : Word) : Prop := 1 ≤ n ∧ n ≤ 4

instance (n : Word) : Decidable (IsDimension n) := inferInstanceAs (Decidable (_ ∧ _))

theorem Scalar.size_pow (s : Scalar) : s.size.toNat.isPowerOfTwo := by
  cases s with
  | double => exact ⟨3, rfl⟩
  | _ => exact ⟨2, rfl⟩

theorem IsDimension.pow (h : IsDimension n) : (if n = 3 then 4 else n.toNat).isPowerOfTwo := by
  have hone : 1 ≤ n.toNat := UInt32.le_iff_toNat_le.1 h.1
  have hfour : n.toNat ≤ 4 := UInt32.le_iff_toNat_le.1 h.2
  have hthree : n = 3 ↔ n.toNat = 3 := UInt32.toNat_inj.symm
  simp only [hthree]
  obtain hn | hn | hn | hn : n.toNat = 1 ∨ n.toNat = 2 ∨ n.toNat = 3 ∨ n.toNat = 4 := by omega
  all_goals rw [hn]
  exacts [⟨0, rfl⟩, ⟨1, rfl⟩, ⟨2, rfl⟩, ⟨2, rfl⟩]

theorem vectorExtent_pow {size : Word} (h : vectorExtent s n = .ok (size, align))
    (hn : IsDimension n) : align.toNat.isPowerOfTwo ∧ s.size.toNat ∣ align.toNat := by
  obtain ⟨i, hi⟩ := s.size_pow
  obtain ⟨j, hj⟩ := hn.pow
  rw [(vectorExtent_ok h).2]
  refine ⟨⟨i + j, ?_⟩, Nat.dvd_mul_right _ _⟩
  rw [hi, hj, Nat.pow_add]

theorem dvd_of_pow_le {x y : Nat} (hx : x.isPowerOfTwo) (hy : y.isPowerOfTwo) (h : x ≤ y) : x ∣ y := by
  obtain ⟨i, rfl⟩ := hx
  obtain ⟨j, rfl⟩ := hy
  exact Nat.pow_dvd_pow 2 ((Nat.pow_le_pow_iff_right (by decide)).1 h)

theorem dvd_max {a b : Word} (ha : a.toNat.isPowerOfTwo) (hb : b.toNat.isPowerOfTwo) :
    (max a b).toNat.isPowerOfTwo ∧ a.toNat ∣ (max a b).toNat ∧ b.toNat ∣ (max a b).toNat := by
  have hmax : max a b = if a ≤ b then b else a := rfl
  rw [hmax]
  split
  case isTrue h => exact ⟨hb, dvd_of_pow_le ha hb (UInt32.le_iff_toNat_le.1 h), Nat.dvd_refl _⟩
  case isFalse h =>
    have hle : b ≤ a := UInt32.le_of_lt (UInt32.not_le.1 h)
    exact ⟨ha, Nat.dvd_refl _, dvd_of_pow_le hb ha (UInt32.le_iff_toNat_le.1 hle)⟩

theorem Member.extent_pow (hms : ∀ m ∈ ms, ∀ {size align}, m.ty.extent layout = .ok (size, align) →
      align.toNat.isPowerOfTwo) {acc r : Word × Word} (hacc : acc.2.toNat.isPowerOfTwo)
    (h : Member.extent layout acc ms = .ok r) : r.2.toNat.isPowerOfTwo ∧ acc.2.toNat ∣ r.2.toNat ∧
      ∀ m ∈ ms, ∃ size align, m.ty.extent layout = .ok (size, align) ∧ align.toNat ∣ r.2.toNat := by
  induction ms generalizing acc with
  | nil =>
    cases h
    exact ⟨hacc, Nat.dvd_refl _, fun _ hm => absurd hm not_mem_nil⟩
  | cons m ms ih =>
    obtain ⟨name, ty, offset, stride⟩ := m
    obtain ⟨size, align, next, hextent, -, hrest⟩ := Member.extent_cons.1 h
    obtain ⟨hfirst, hothers⟩ := forall_mem_cons.1 hms
    obtain ⟨hpow, hbefore, halign⟩ := dvd_max hacc (hfirst hextent)
    obtain ⟨hwidest, hdvd, hmembers⟩ := ih hothers hpow hrest
    exact ⟨hwidest, Nat.dvd_trans hbefore hdvd, forall_mem_cons.2
      ⟨⟨size, align, hextent, Nat.dvd_trans halign hdvd⟩, hmembers⟩⟩

section

variable {around : MemoryLayout} {size : Word} {leaves : List Leaf}

theorem Ty.LaidOut.align_pow (h : ty.LaidOut IsDimension layouts)
    (hextent : ty.extent layout = .ok (size, align)) : align.toNat.isPowerOfTwo := by
  induction h generalizing size align with
  | scalar s =>
    cases hextent
    exact s.size_pow
  | vector s hn => exact (vectorExtent_pow hextent hn).1
  | matrix s _ hrows =>
    obtain ⟨columnSize, columnAlign, hcolumn, hround⟩ := columnStride_ok (extent_matrix hextent).1
    exact (MemoryLayout.roundAlign_pow hround (vectorExtent_pow hcolumn hrows).1).1
  | array length _ ih =>
    obtain ⟨partSize, partAlign, stride, hpart, -, -, -, hround⟩ := extent_array hextent
    exact (MemoryLayout.roundAlign_pow hround (ih hpart)).1
  | struct _ _ placed ih =>
    obtain ⟨ms, hplaced, rfl⟩ := structOf_ok placed
    obtain ⟨last, widest, hlast, hround, -⟩ := extent_struct hextent
    have hmembers := placeMembers_forall (P := fun ty => ∀ {size align : Word},
      ty.extent layout = .ok (size, align) → align.toNat.isPowerOfTwo) hplaced (fun m hm => ih m hm)
    exact (MemoryLayout.roundAlign_pow hround (Member.extent_pow hmembers ⟨0, rfl⟩ hlast).1).1

end

/-! ## Members in their places -/

mutual

/-- Each member of a struct is at the first place after the last one that its alignment allows. -/
def Ty.InPlace : Ty → Prop
  | .array element _ => element.InPlace
  | .struct _ layout members => Member.InPlace layout 0 members
  | _ => True

def Member.InPlace (layout : MemoryLayout) (start : Nat) : List Member → Prop
  | [] => True
  | ⟨_, ty, offset, _⟩ :: ms =>
    ty.InPlace ∧ ∃ size align, ty.extent layout = .ok (size, align) ∧
      IsLeast {o | align.toNat ∣ o ∧ start ≤ o} offset.toNat ∧
      Member.InPlace layout (offset.toNat + size.toNat) ms

end

theorem Member.InPlace.aligned {start : Nat} (h : Member.InPlace layout start ms) : ∀ m ∈ ms, ∃ size align,
      m.ty.extent layout = .ok (size, align) ∧ align.toNat ∣ m.offset.toNat := by
  induction ms generalizing start with
  | nil => exact forall_mem_nil _
  | cons m ms ih =>
    obtain ⟨name, ty, offset, stride⟩ := m
    obtain ⟨-, size, align, hextent, hleast, hrest⟩ := h
    exact forall_mem_cons.2 ⟨⟨size, align, hextent, hleast.1.1⟩, ih hrest⟩

section

variable {size : Word} {leaves : List Leaf}

theorem Ty.placeMembers_inPlace (hmembers : ∀ m ∈ members, m.2.LaidOut IsDimension layouts ∧ m.2.InPlace)
    (h : placeMembers layout start members = .ok ms) : Member.InPlace layout start.toNat ms := by
  induction members generalizing start ms with
  | nil =>
    cases h
    trivial
  | cons m members ih =>
    obtain ⟨size, align, offset, next, ms, hextent, hoffset, hnext, hrest, rfl⟩ := placeMembers_cons h
    obtain ⟨⟨hlaid, hin⟩, hothers⟩ := forall_mem_cons.1 hmembers
    obtain ⟨k, hk⟩ := hlaid.align_pow hextent
    have hpositive : 0 < align.toNat := hk ▸ Nat.two_pow_pos k
    refine ⟨hin, size, align, hextent, roundUp_isLeast hoffset hpositive, ?_⟩
    rw [← add_ok hnext]
    exact ih hothers hrest

theorem Ty.LaidOut.inPlace (h : ty.LaidOut IsDimension layouts) : ty.InPlace := by
  induction h with
  | scalar | vector | matrix =>
    rw [InPlace]
    · trivial
    all_goals simp
  | array _ _ ih => exact ih
  | struct _ hparts placed ih =>
    obtain ⟨ms, hplaced, rfl⟩ := structOf_ok placed
    exact placeMembers_inPlace (fun m hm => ⟨hparts m hm, ih m hm⟩) hplaced

/-- Scalars are aligned to their sizes, of which the alignment in any layout is a multiple. -/
def Ty.Aligned (ty : Ty) : Prop :=
  ∀ ⦃around : MemoryLayout⦄ ⦃leaves : List Leaf⦄, ty.leaves around = .ok leaves → ∀ l ∈ leaves,
    l.size ∣ l.address ∧ ∀ ⦃layout : MemoryLayout⦄ ⦃size align : Word⦄,
      ty.extent layout = .ok (size, align) → l.size ∣ align.toNat

theorem Ty.LaidOut.aligned (h : ty.LaidOut IsDimension layouts) : ty.Aligned := by
  induction h with
  | scalar s =>
    intro around leaves hleaves
    cases hleaves
    refine forall_mem_singleton.2 ⟨Nat.dvd_zero _, fun layout size align hextent => ?_⟩
    cases hextent
    exact Nat.dvd_refl _
  | vector s hn =>
    intro around leaves hleaves l hl
    cases hleaves
    obtain ⟨hsize, haddress⟩ := size_of_mem_vectorLeaves hl
    rw [hsize]
    exact ⟨haddress, fun _ _ _ hextent => (vectorExtent_pow hextent hn).2⟩
  | @matrix s columns rows _ hrows =>
    have hcolumn : ∀ {layout : MemoryLayout} {stride : Word},
        columnStride s rows layout = .ok stride → s.size.toNat ∣ stride.toNat := by
      intro layout stride hstride
      obtain ⟨size, align, hextent, hround⟩ := columnStride_ok hstride
      obtain ⟨hpow, hdvd⟩ := vectorExtent_pow hextent hrows
      exact Nat.dvd_trans hdvd (MemoryLayout.roundAlign_pow hround hpow).2
    intro around leaves hleaves l hl
    obtain ⟨stride, hstride, rfl⟩ := leaves_matrix hleaves
    obtain ⟨i, -, part, hpart, rfl⟩ := mem_repeated.1 hl
    obtain ⟨hsize, haddress⟩ := size_of_mem_vectorLeaves hpart
    rw [Leaf.size_move, Leaf.address_move, hsize]
    refine ⟨Nat.dvd_add (Nat.dvd_trans (hcolumn hstride) (Nat.dvd_mul_left _ _)) haddress, ?_⟩
    exact fun _ _ _ hextent => hcolumn (extent_matrix hextent).1
  | array length helement ih =>
    intro around leaves hleaves l hl
    obtain ⟨size, align, stride, parts, hextent, hstrideOf, hparts, rfl⟩ := leaves_array hleaves
    obtain ⟨i, -, part, hpart, rfl⟩ := mem_repeated.1 hl
    obtain ⟨haddress, halign⟩ := ih hparts part hpart
    refine ⟨Nat.dvd_add (Nat.dvd_trans ?_ (Nat.dvd_mul_left _ _)) haddress, fun _ _ _ hextent => ?_⟩
    · obtain ⟨rounded, hround, hstride⟩ := strideOf_ok hstrideOf
      obtain ⟨⟨k, hk⟩, hdvd⟩ := MemoryLayout.roundAlign_pow hround (helement.align_pow hextent)
      have hmultiple := (roundUp_isLeast hstride (hk ▸ Nat.two_pow_pos k)).1.1
      exact Nat.dvd_trans (halign hextent) (Nat.dvd_trans hdvd hmultiple)
    · obtain ⟨_, _, _, hextent, -, -, -, hround⟩ := extent_array hextent
      have hrounded := MemoryLayout.roundAlign_pow hround (helement.align_pow hextent)
      exact Nat.dvd_trans (halign hextent) hrounded.2
  | struct allowed hparts placed ih =>
    have hin := (LaidOut.struct allowed hparts placed).inPlace
    obtain ⟨ms, hplaced, rfl⟩ := structOf_ok placed
    intro around leaves hleaves l hl
    obtain ⟨memberLeaves, hmemberLeaves, rfl⟩ := leaves_struct hleaves
    obtain ⟨m, hm, parts, hparts', part, hpart, rfl⟩ := Member.mem_leaves hmemberLeaves hl
    obtain ⟨haddress, halign⟩ := placeMembers_forall hplaced ih m hm hparts' part hpart
    obtain ⟨size, align, hextent, hoffset⟩ := hin.aligned m hm
    refine ⟨Nat.dvd_add (Nat.dvd_trans (halign hextent) hoffset) haddress, fun _ _ _ hextent => ?_⟩
    obtain ⟨last, widest, hlast, hround, -⟩ := extent_struct hextent
    obtain ⟨hpow, -, hdvd⟩ := Member.extent_pow
      (fun m hm _ _ => (placeMembers_forall hplaced hparts m hm).align_pow) ⟨0, rfl⟩ hlast
    obtain ⟨size, align, hextent, hwidest⟩ := hdvd m hm
    exact Nat.dvd_trans (halign hextent) (Nat.dvd_trans hwidest (MemoryLayout.roundAlign_pow hround hpow).2)

/-- In a type placed by one layout, alignments are powers of two, members are at the first places that
they allow, and scalars are aligned, within the type and apart. -/
theorem extent_sound {layout : MemoryLayout} {size align : Word} {ty : Ty}
    (h : ty.LaidOut IsDimension (· = layout)) (hextent : ty.extent layout = .ok (size, align)) :
    align.toNat.isPowerOfTwo ∧ ty.InPlace ∧ ∃ leaves, ty.leaves layout = .ok leaves ∧ ∀ base, align.toNat ∣ base →
        (∀ l ∈ leaves.map (Leaf.move base), l.size ∣ l.address ∧ base ≤ l.address ∧ l.stop ≤ base + size.toNat) ∧
        (leaves.map (Leaf.move base)).Pairwise Leaf.Apart := by
  obtain ⟨leaves, hleaves, hfit⟩ := h.fit h.isRoomy hextent
  refine ⟨h.align_pow hextent, h.inPlace, leaves, hleaves, fun base hbase => ?_⟩
  have hmoved := hfit.move base
  refine ⟨fun l hl => ⟨?_, hmoved.inside l hl⟩, hmoved.apart⟩
  obtain ⟨part, hpart, rfl⟩ := mem_map.1 hl
  obtain ⟨haddress, halign⟩ := h.aligned hleaves part hpart
  exact Nat.dvd_add (Nat.dvd_trans (halign hextent) hbase) haddress

end

def Ty.light : Ty :=
  .struct "Light" .std140 [⟨"color", .vector .float 3, 0, none⟩, ⟨"range", .scalar .float, 12, none⟩,
    ⟨"axes", .matrix .float 2 3, 16, none⟩]

def Ty.scene : Ty :=
  .struct "Scene" .std140 [⟨"time", .scalar .float, 0, none⟩, ⟨"lights", .array .light (some 2), 16, none⟩,
    ⟨"origin", .vector .double 3, 128, none⟩, ⟨"flag", .scalar .bool, 152, none⟩]

theorem Ty.light_laidOut : light.LaidOut IsDimension (· = .std140) := by
  refine @LaidOut.struct _ _ "Light" .std140 [("color", .vector .float 3), ("range", .scalar .float),
    ("axes", .matrix .float 2 3)] _ rfl ?_ rfl
  simp only [forall_mem_cons]
  exact ⟨.vector _ (by decide), .scalar _, .matrix _ (by decide) (by decide), forall_mem_nil _⟩

theorem Ty.scene_laidOut : scene.LaidOut IsDimension (· = .std140) := by
  refine @LaidOut.struct _ _ "Scene" .std140 [("time", .scalar .float), ("lights", .array .light (some 2)),
    ("origin", .vector .double 3), ("flag", .scalar .bool)] _ rfl ?_ rfl
  simp only [forall_mem_cons]
  exact ⟨.scalar _, .array 2 light_laidOut, .vector _ (by decide), .scalar _, forall_mem_nil _⟩

theorem scene_extent_sound :
    Ty.scene.LaidOut IsDimension (· = .std140) ∧ Ty.scene.extent .std140 = .ok (160, 32) ∧ 32 ∣ 64 ∧
      Ty.scene.InPlace ∧ ∃ leaves, Ty.scene.leaves .std140 = .ok leaves ∧ leaves.length = 25 ∧
        (∀ l ∈ leaves.map (Leaf.move 64), l.size ∣ l.address ∧ 64 ≤ l.address ∧ l.stop ≤ 64 + 160) ∧
        (leaves.map (Leaf.move 64)).Pairwise Leaf.Apart := by
  have hextent : Ty.scene.extent .std140 = .ok (160, 32) := rfl
  have hbase : 32 ∣ 64 := by decide
  obtain ⟨-, hin, leaves, hleaves, hsound⟩ := extent_sound Ty.scene_laidOut hextent
  have hcount : (Ty.scene.leaves .std140).toOption.map length = some 25 := by decide +kernel
  rw [hleaves] at hcount
  exact ⟨Ty.scene_laidOut, hextent, hbase, hin, leaves, hleaves, Option.some.inj hcount, hsound 64 hbase⟩

end Shader
