import Shader.Proofs.Defined
import Shader.Proofs.Unique

/-!
# Building on a module that was read

A module that is read hands out identifiers from the bound of its header on. They are new if the bound
is not zero and lies above all that the module defines, which nothing checks. What building adds is
defined under identifiers that it handed out, and under no others.
-/

namespace Shader

open List

variable {id next : Id}

namespace Module

theorem mem_values_foldl {step : OrderedMap String Id → Function → OrderedMap String Id}
    (hstep : ∀ ids f, ∀ id ∈ (step ids f).values, id ∈ ids.values ∨ id = f.id)
    (functions : List Function) (ids : OrderedMap String Id) :
    ∀ id ∈ (functions.foldl step ids).values, id ∈ ids.values ∨ id ∈ functions.map (·.id) := by
  induction functions generalizing ids with
  | nil => exact fun _ => .inl
  | cons f functions ih =>
    intro id hid
    rcases ih (step ids f) id hid with hold | hnew
    · rcases hstep ids f id hold with hold | rfl
      · exact .inl hold
      · exact .inr mem_cons_self
    · exact .inr (mem_cons_of_mem _ hnew)

theorem mem_restoreNames (m : Module) (hid : id ∈ m.restoreNames.functionIds.values) :
    id ∈ m.functionIds.values ∨ id ∈ m.restoreNames.functions.map (·.id) := by
  have hfunctions : m.restoreNames.functions.map (·.id) = m.functions.map (·.id) := by
    simp [restoreNames]
  rw [hfunctions]
  refine mem_values_foldl (fun ids f id hid => ?_) m.functions m.functionIds id hid
  split at hid
  · rcases mem_cons.1 (OrderedMap.values_put_subset _ _ _ hid) with rfl | hold
    · exact .inr rfl
    · exact .inl hold
  · exact .inl hid

theorem ofWords_names {words : List Word} {m : Module} (h : ofWords words = .ok m) :
    (∃ p, Header.read words = .ok p ∧ m.bound = p.1.bound) ∧ m.globals = ∅ ∧
      ∀ id ∈ m.functionIds.values, id ∈ m.functions.map (·.id) := by
  obtain ⟨p, hheader, h⟩ := Inst.bind_eq_ok_iff.1 h
  obtain ⟨r, hread, h⟩ := Inst.bind_eq_ok_iff.1 h
  have hsame := readAll_sameNames _ hread
  repeat' split at h
  all_goals cases h
  refine ⟨⟨p, hheader, hsame.bound⟩, hsame.globals, fun id hid => ?_⟩
  rcases mem_restoreNames r.module hid with hold | hnew
  · rw [hsame.functionIds] at hold
    cases hold
  · exact hnew

end Module

/-- All that is held or defined is among the old identifiers, or was handed out after them. -/
structure Issued (old : List Id) (first : Id) (held : List Id) (m : Module) : Prop where
  bound : first ≤ m.bound
  sourced : ∀ id ∈ held ++ m.ids, id ∈ old ∨ first ≤ id ∧ id < m.bound

namespace Issued

variable {old held held' : List Id} {first : Id} {m m' : Module}

theorem moved (h : Issued old first held m) (hids : held' ++ m'.ids ⊆ held ++ m.ids)
    (hbound : m'.bound = m.bound) : Issued old first held' m' where
  bound := hbound ▸ h.bound
  sourced id hid := hbound ▸ h.sourced id (hids hid)

theorem fresh (h : Issued old first held m) (hnext : Word.add m.bound 1 = .ok next) :
    Issued old first (m.bound :: held) { m with bound := next } where
  bound := UInt32.le_trans h.bound (Word.le_of_add_one hnext)
  sourced id hid := by
    have hlt := Word.lt_of_add_one hnext
    rcases mem_cons.1 hid with rfl | hid
    · exact .inr ⟨h.bound, hlt⟩
    · exact (h.sourced id hid).imp_right fun hrange => ⟨hrange.1, UInt32.lt_trans hrange.2 hlt⟩

end Issued

/-- What is defined is old or was handed out since `first`. -/
def Ledger.issued (old : List Id) (first : Id) : Ledger Module where
  Stands held _ m := Issued old first held m
  drop h hheld _ := h.moved (append_subset.2 ⟨subset_append_of_subset_left _ hheld.subset, subset_append_right _ _⟩) rfl

theorem tallying_issued (old : List Id) (first : Id) : Tallying (Issued old first) where
  moved h hcount hbound := h.moved (fun id hid =>
    count_pos_iff.1 (Nat.lt_of_lt_of_le (count_pos_iff.2 hid) (hcount id))) hbound
  fresh := Issued.fresh

theorem building_issued (old : List Id) (first : Id) : Building .any (.issued old first) :=
  (tallying_issued old first).building rfl

theorem running_issued (old : List Id) (first : Id) : Running (.issued old first) (fun _ => True) where
  building := building_issued old first
  closed _ h := h.moved (fun _ hi => hi) rfl

/-! ## What operations hand out -/

namespace Workbench

/-- The identifiers that operations hand out: they come one after the other, from the bound on. -/
def Issues (w : Workbench) (ops : List Operation) (id : Id) : Prop :=
  w.module.bound ≤ id ∧ id < (w.run ops).module.bound

variable {w : Workbench}

theorem perform_freshId (h : Word.add w.module.bound 1 = .ok next) :
    w.perform .freshId = (.ok (.id w.module.bound), { w with module := { w.module with bound := next } }) := by
  show Operation.yielding Module.freshId w = _
  unfold Operation.yielding
  rw [Work.bind_apply, Work.onModule_apply, Module.freshId_ok h]
  rfl

theorem run_freshIds (n : Nat) (h : w.module.bound.toNat + n < UInt32.size) :
    (w.run (replicate n .freshId)).module.bound.toNat = w.module.bound.toNat + n := by
  induction n generalizing w with
  | zero => rfl
  | succ n ih =>
    obtain ⟨next, hnext⟩ : ∃ next, Word.add w.module.bound 1 = .ok next := by
      refine ⟨w.module.bound + 1, if_pos ?_⟩
      show w.module.bound.toNat + 1 < UInt32.size
      omega
    have hbound := Word.add_ok hnext
    have hone : (1 : Word).toNat = 1 := rfl
    show ((w.perform .freshId).2.run _).module.bound.toNat = _
    rw [perform_freshId hnext, ih]
    · show next.toNat + n = _
      omega
    · show next.toNat + n < _
      omega

theorem exists_issues (h : w.module.bound ≤ id) (hid : id ≠ 0xFFFFFFFF) :
    ∃ ops : List Operation, (∀ op ∈ ops, op.builds) ∧ w.Issues ops id := by
  have hle : w.module.bound.toNat ≤ id.toNat := UInt32.le_iff_toNat_le.1 h
  have hlast : id.toNat + 1 < UInt32.size := by
    have hlt := id.toNat_lt_size
    have hne : id.toNat ≠ (0xFFFFFFFF : Id).toNat := fun heq => hid (UInt32.toNat_inj.1 heq)
    have hlast : (0xFFFFFFFF : Id).toNat + 1 = UInt32.size := rfl
    omega
  let n := id.toNat - w.module.bound.toNat + 1
  have hn : w.module.bound.toNat + n = id.toNat + 1 := by omega
  refine ⟨replicate n .freshId, fun op hop => ?_, h, ?_⟩
  · rw [eq_of_mem_replicate hop]
    rfl
  · rw [UInt32.lt_iff_toNat_lt, run_freshIds n (hn ▸ hlast), hn]
    exact Nat.lt_succ_self _

theorem Issues.ne_last {ops : List Operation} (h : w.Issues ops id) : id ≠ 0xFFFFFFFF := by
  rintro rfl
  have hlt := UInt32.lt_iff_toNat_lt.1 h.2
  have hsize := (w.run ops).module.bound.toNat_lt_size
  have hlast : (0xFFFFFFFF : Id).toNat + 1 = UInt32.size := rfl
  omega

theorem run_issued (ops : List Operation) (hops : ∀ op ∈ ops, op.builds) {old : List Id}
    (hold : ∀ id ∈ w.held ++ w.module.ids, id ∈ old) :
    ∀ id ∈ (w.run ops).held ++ (w.run ops).module.ids, id ∈ old ∨ w.Issues ops id := by
  have hstart : w.Stands (.issued old w.module.bound) (fun _ => True) :=
    ⟨⟨UInt32.le_refl _, fun id hid => .inl (hold id hid)⟩, fun _ _ => trivial⟩
  exact (run_keeps (fun hchange hw => hchange.stands (running_issued old w.module.bound)
    (fun hm => hm) ((tallying_issued old w.module.bound).stepwise rfl).mark hw) ops hops hstart).ledger.sourced

theorem subset_resultIds (w : Workbench)
    (hfunctions : ∀ id ∈ w.module.functionIds.values, id ∈ w.module.functions.map (·.id)) :
    ∀ id ∈ w.held ++ w.module.ids, id ∈ w.resultIds := by
  intro id hid
  have hheaders : ∀ id ∈ w.module.functions.map (·.id), id ∈ w.headers.map (·.2) := by
    intro id hid
    obtain ⟨f, hf, rfl⟩ := mem_map.1 hid
    exact mem_map.2 ⟨f.header, mem_append_left _ (mem_map_of_mem hf), rfl⟩
  simp only [Module.ids, resultIds, mem_append] at hid ⊢
  rcases hid with hheld | himport | hdeclared | hfound
  · exact .inr hheld
  · exact .inl (.inl (.inl himport))
  · exact .inl (.inl (.inr hdeclared))
  · exact .inl (.inr (hheaders id (hfunctions id hfound)))

end Workbench

theorem Operation.replaces_of_builds (op : Operation) (h : op.builds) : op.replaces = false := by
  cases op with
  | reload | load => cases h
  | _ => rfl

/-- Building on a module that was read hands out new identifiers only if and only if its bound is above
zero and above all that it defines. What building adds is defined under these. -/
theorem ofWords_issues_new_iff {words body : List Word} {header : Header} {m : Module}
    (hheader : Header.read words = .ok (header, body)) (hm : Module.ofWords words = .ok m) :
    let w : Workbench := { module := m }
    ((∀ ops : List Operation, (∀ op ∈ ops, op.replaces = false) → ∀ id, w.Issues ops id → 0 < id ∧ id ∉ w.resultIds) ↔
      0 < header.bound ∧ ∀ id ∈ w.resultIds, id ≠ 0xFFFFFFFF → id < header.bound) ∧
    ∀ ops : List Operation, (∀ op ∈ ops, op.builds) →
      ∀ id ∈ (w.run ops).held ++ (w.run ops).module.ids, id ∈ w.resultIds ∨ w.Issues ops id := by
  intro w
  obtain ⟨⟨p, hp, hbound⟩, -, hfunctions⟩ := Module.ofWords_names hm
  cases hheader.symm.trans hp
  have hfirst : w.module.bound = header.bound := hbound
  refine ⟨⟨fun hnew => ?_, ?_⟩, fun ops hops => Workbench.run_issued ops hops (w.subset_resultIds hfunctions)⟩
  · have hall : ∀ id, header.bound ≤ id → id ≠ 0xFFFFFFFF → 0 < id ∧ id ∉ w.resultIds := by
      intro id hle hlast
      obtain ⟨ops, hops, hissued⟩ := Workbench.exists_issues (hfirst ▸ hle) hlast
      exact hnew ops (fun op hop => op.replaces_of_builds (hops op hop)) id hissued
    refine ⟨UInt32.not_le.1 fun hzero => ?_, fun id hid hlast => UInt32.not_le.1 fun hle => ?_⟩
    · exact UInt32.lt_irrefl 0 (hall 0 hzero (by decide)).1
    · exact (hall id hle hlast).2 hid
  · rintro ⟨hpositive, habove⟩ ops - id hissued
    have hle : header.bound ≤ id := hfirst ▸ hissued.1
    refine ⟨UInt32.lt_of_lt_of_le hpositive hle, fun hid => ?_⟩
    exact UInt32.not_le.2 (habove id hid hissued.ne_last) hle

def Module.ofVoid (bound : Id) : Module := { bound, declarations := [.defining .TypeVoid 1 []] }

def Module.voidWords (bound : Word) : List Word := [Header.magic, 0x10000, 0, bound, 0, 0x20013, 1]

theorem voidWords_issues_new :
    let w : Workbench := { module := .ofVoid 2 }
    Header.read (Module.voidWords 2) = .ok (⟨0x10000, 0, 2, 0⟩, [0x20013, 1]) ∧
      Module.ofWords (Module.voidWords 2) = .ok w.module ∧ w.resultIds = [1] ∧
      ∀ ops : List Operation, (∀ op ∈ ops, op.replaces = false) →
        ∀ id, w.Issues ops id → 0 < id ∧ id ∉ w.resultIds := by
  have hheader : Header.read (Module.voidWords 2) = .ok (⟨0x10000, 0, 2, 0⟩, [0x20013, 1]) := rfl
  have hread : Module.ofWords (Module.voidWords 2) = .ok (.ofVoid 2) := by with_unfolding_all rfl
  refine ⟨hheader, hread, rfl, (ofWords_issues_new_iff hheader hread).1.2 ⟨by decide, ?_⟩⟩
  intro id hid _
  have hone : id = 1 := mem_singleton.1 hid
  rw [hone]
  decide

/-- Under a bound that is too low, the identifier of the type is handed out again. -/
theorem voidWords_issues_old :
    let w : Workbench := { module := .ofVoid 1 }
    Module.ofWords (Module.voidWords 1) = .ok w.module ∧ w.resultIds = [1] ∧
      (w.perform .freshId).1 = .ok (.id 1) ∧ w.Issues [.freshId] 1 :=
  ⟨by with_unfolding_all rfl, rfl, rfl, by decide, by decide⟩

end Shader
