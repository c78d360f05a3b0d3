import Shader.Proofs.Registry

/-!
# Lowering without instructions

The module grows and stays sound, and the function and the block stay as they are unless an instruction
is emitted.
-/

namespace Shader

open Action List Module

variable {α : Type} {s : Lowerer} {P : Progress}

variable {id : Id}

/-- From one state of lowering to another the module has grown, and nothing else has changed. -/
structure Lowerer.Settled (s s' : Lowerer) : Prop where
  func : s'.func = s.func
  block : s'.block = s.block
  sound : s'.module.Sound
  grown : s.module.Grown s'.module

theorem Lowerer.Settled.refl (h : s.module.Sound) : s.Settled s := ⟨rfl, rfl, h, .refl _⟩

theorem Lowerer.Settled.trans {s₁ s₂ s₃ : Lowerer} (h : s₁.Settled s₂) (h' : s₂.Settled s₃) : s₁.Settled s₃ :=
  ⟨h'.func.trans h.func, h'.block.trans h.block, h'.sound, h.grown.trans h'.grown⟩

theorem Lowerer.Settled.constantIn {s' : Lowerer} (h : s.Settled s')
    (hid : ConstantIn s.module.declarations id) : ConstantIn s'.module.declarations id :=
  hid.mono h.grown.declarations

theorem Lowerer.Settled.at_depth {s' : Lowerer} {inner : Nat} (h : Lowerer.Settled { s with depth := inner } s')
    (outer : Nat) : s.Settled { s' with depth := outer } :=
  ⟨h.func, h.block, h.sound, h.grown⟩

namespace Lower

variable {s' : Lowerer} {ty : Ty} {op : Op} {operands : List Word} {height : Nat} {e : Expr}

theorem onModule_settled {x : Build α} (need : List Known) {gives : α → List Id} {gains : α → List Known}
    (hx : ∀ J : Ledger Module, Building .any J → Keeps J [] need x gives gains)
    (hneed : ∀ k ∈ need, k.Below s.module.bound) (hs : s.module.Sound) {a : α}
    (h : onModule x s = (.ok a, s')) : s.Settled s' := by
  obtain ⟨hrun, hframe⟩ := onModule_ok h
  have hsound : Ledger.sound.Stands [] need (x s.module).2 :=
    (hx .sound building_sound).after_nil (fun _ hi => hi) ⟨hs, nofun, hneed⟩
  rw [hrun] at hsound
  refine ⟨?_, ?_, hsound.1, .of_keeps need hx hrun⟩
  · rw [hframe]
  · rw [hframe]

theorem declareType_settled (hs : s.module.Sound) {type : Id}
    (h : onModule (declareType ty) s = (.ok type, s')) : s.Settled s' :=
  onModule_settled [] (fun _ hJ => Module.declareType_steady hJ.toDeclaring ty) (fun _ hi => nomatch hi) hs h

theorem declareLiteral_settled {l : Literal} (hs : s.module.Sound)
    (h : onModule (declareLiteral l) s = (.ok id, s')) : s.Settled s' ∧ s'.module.literals.get? l = some id :=
  ⟨onModule_settled [] (fun _ hJ => Module.declareLiteral_steady hJ.toDeclaring l)
    (fun _ hi => nomatch hi) hs h, declareLiteral_ok (onModule_ok h).1⟩

theorem composite_settled {constituents : List Id} (hs : s.module.Sound)
    (hconstituents : ∀ c ∈ constituents, ConstantIn s.module.declarations c)
    (h : composite ty constituents true s = (.ok id, s')) : s.Settled s' ∧ ConstantIn s'.module.declarations id := by
  have h : onModule (declareComposite constituents ty) s = (.ok id, s') := h
  have hsettled := onModule_settled (constituents.map .value)
    (fun _ hJ => declareComposite_steady hJ (fun _ hi => hi) ty)
    (forall_mem_map.2 fun c hc => hs.lt_of_constantIn (hconstituents c hc)) hs h
  obtain ⟨type, -, hregistered⟩ := declareComposite_ok (onModule_ok h).1
  exact ⟨hsettled, hsettled.sound.constantIn_of_composite hregistered
    fun c hc => hsettled.constantIn (hconstituents c hc)⟩

/-! ## Instructions -/

/-- The instructions in the current block. -/
def count (s : Lowerer) : Nat := s.block.instructions.length

def atLeast (n : Nat) : Ledger Lowerer where
  Stands _ _ s := n ≤ count s
  drop h _ _ := h

theorem emitting_atLeast (n : Nat) : Emitting (atLeast n) where
  building s := .keeping (P := fun _ => n ≤ count s) fun _ h => h
  emit h _ _ _ := Nat.le_trans h (by simp [count, Block.push])
  effect h _ _ := Nat.le_trans h (by simp [count, Block.push])
  take _ h _ _ _ _ _ _ := h

theorem count_le {x : Lower α} (need : List Known) {gives : α → List Id}
    {gains : α → List Known} (hx : ∀ L : Ledger Lowerer, Emitting L → Keeps L [] need x gives gains)
    {r : Except Fault α} (h : x s = (r, s')) : count s ≤ count s' :=
  (hx _ (emitting_atLeast (count s))).keeping (Nat.le_refl _) (congrArg Prod.snd h)

theorem emitAs_count {type : Id} (h : emitAs op type operands s = (.ok id, s')) : count s < count s' := by
  obtain ⟨fresh, t, hfresh, h⟩ := bind_ok h
  obtain ⟨_, hpush, rfl⟩ := bind_pure_ok h
  cases hpush
  have hle : count s ≤ count t := count_le [] (fun _ hL => freshId_keeps hL) hfresh
  exact Nat.lt_of_le_of_lt hle (by simp [count, Block.push])

theorem emit_count (h : emit op ty operands s = (.ok id, s')) : count s < count s' := by
  obtain ⟨type, t, htype, h⟩ := bind_ok h
  have hle : count s ≤ count t := count_le [] (fun _ hL => declareType_steady hL ty) htype
  exact Nat.lt_of_le_of_lt hle (emitAs_count h)

/-- Whenever it succeeds, the lowering appends an instruction. -/
def Emits {α : Type} (x : Lower α) : Prop := ∀ ⦃s s' : Lowerer⦄ ⦃a : α⦄, x s = (.ok a, s') → count s < count s'

theorem emit_emits : Emits (emit op ty operands) := fun _ _ _ h => emit_count h

theorem Emits.refuse (e : BuildError) : Emits (Build.refuse e : Lower α) := fun _ _ _ h => (refuse_ok h).elim

theorem Emits.after {β : Type} {x : Lower α} {f : α → Lower β} (need : List Known) {gives : α → List Id}
    {gains : α → List Known} (hx : ∀ L : Ledger Lowerer, Emitting L → Keeps L [] need x gives gains)
    (hf : ∀ a, Emits (f a)) : Emits (x >>= f) := by
  intro s s' b h
  obtain ⟨a, t, ha, hb⟩ := bind_ok h
  exact Nat.lt_of_le_of_lt (count_le need hx ha) (hf a hb)

theorem Emits.bind {β : Type} {x : Lower α} {f : α → Lower β} (hx : Emits x)
    (hf : ∀ a, Emits (f a)) : Emits (x >>= f) := by
  intro s s' b h
  obtain ⟨a, t, ha, hb⟩ := bind_ok h
  exact Nat.lt_trans (hx ha) (hf a hb)

/-! ## Without instructions -/

/-- A kind of progress that takes no instruction, and what counts as a constant on the way. -/
structure Progress where
  Moves : Lowerer → Lowerer → Prop
  Constant : Lowerer → Id → Prop
  refl : ∀ {s : Lowerer}, s.module.Sound → Moves s s
  trans : ∀ {s t u : Lowerer}, Moves s t → Moves t u → Moves s u
  sound : ∀ {s t : Lowerer}, Moves s t → t.module.Sound
  block : ∀ {s t : Lowerer}, Moves s t → t.block = s.block
  mono : ∀ {s t : Lowerer}, Moves s t → ∀ {id : Id}, Constant s id → Constant t id
  declareType : ∀ {s t : Lowerer} {ty : Ty} {type : Id}, s.module.Sound →
    onModule (declareType ty) s = (.ok type, t) → Moves s t
  atDepth : ∀ {s t : Lowerer} {inner : Nat}, Moves { s with depth := inner } t →
    ∀ outer, Moves s { t with depth := outer }

/-- Given some constants, a step makes that kind of progress, and yields constants. -/
def Progress.Within (P : Progress) {α : Type} (need : List Id) (x : Lower α) (gains : α → List Id) : Prop :=
  ∀ ⦃s s' : Lowerer⦄ ⦃a : α⦄, s.module.Sound → (∀ i ∈ need, P.Constant s i) →
    x s = (.ok a, s') → P.Moves s s' ∧ ∀ i ∈ gains a, P.Constant s' i

namespace Progress.Within

variable {β : Type} {need : List Id} {x : Lower α} {gains : α → List Id}

theorem pure (a : α) (h : gains a ⊆ need) : P.Within need (Pure.pure a) gains := by
  intro s s' b hs hneed hrun
  obtain ⟨rfl, rfl⟩ := pure_ok hrun
  exact ⟨P.refl hs, fun i hi => hneed i (h hi)⟩

theorem refuse (e : BuildError) : P.Within need (Build.refuse e : Lower α) gains :=
  fun _ _ _ _ _ hrun => (refuse_ok hrun).elim

theorem checked (c : Checked α) : P.Within need (Build.checked c : Lower α) (fun _ => []) := by
  cases c with
  | error o => exact fun _ _ _ _ _ hrun => nomatch hrun
  | ok a => exact pure a (nil_subset _)

theorem bind {f : α → Lower β} {gains' : β → List Id} (hx : P.Within need x gains)
    (hf : ∀ a, P.Within (gains a ++ need) (f a) gains') : P.Within need (x >>= f) gains' := by
  intro s s' b hs hneed hrun
  obtain ⟨a, t, ha, hb⟩ := bind_ok hrun
  obtain ⟨hmoves, hgains⟩ := hx hs hneed ha
  have hmet : ∀ i ∈ gains a ++ need, P.Constant t i := fun i hi =>
    (mem_append.1 hi).elim (hgains i) fun hi => P.mono hmoves (hneed i hi)
  obtain ⟨hmoves', hgains'⟩ := hf a (P.sound hmoves) hmet hb
  exact ⟨P.trans hmoves hmoves', hgains'⟩

theorem mapM_mem {f : α → Lower Id} : ∀ {l : List α} {need : List Id},
      (∀ a ∈ l, ∀ need', need ⊆ need' → P.Within need' (f a) (fun id => [id])) →
      P.Within need (l.mapM f) (fun ids => ids)
  | [], need, _ => pure [] (nil_subset _)
  | a :: l, need, hf => by
    rw [mapM_cons]
    refine bind (hf a mem_cons_self need (fun _ hi => hi)) fun id => ?_
    refine bind (mapM_mem fun b hb need' h => ?_) fun ids => pure _ fun i hi => ?_
    · exact hf b (mem_cons_of_mem _ hb) need' fun i hi => h (mem_append_right _ hi)
    · simp only [mem_append, mem_cons] at hi ⊢
      tauto

end Progress.Within

/-- The condition is met and constants were reached without instructions, or it is not and one was taken. -/
def Progress.Outcome (P : Progress) (good : Prop) (ids : List Id) (s s' : Lowerer) : Prop :=
  (good ∧ P.Moves s s' ∧ ∀ i ∈ ids, P.Constant s' i) ∨ (¬ good ∧ count s < count s')

namespace Progress.Outcome

variable {good good' : Prop} {ids ids' : List Id} {t u : Lowerer}

theorem of_iff (h : P.Outcome good ids s t) (hiff : good ↔ good') : P.Outcome good' ids s t := by
  rwa [← hiff]

theorem and (h : P.Outcome good ids s t) (h' : good → P.Moves s t → (∀ i ∈ ids, P.Constant t i) →
    P.Outcome good' ids' t u) (hle : count t ≤ count u) : P.Outcome (good ∧ good') (ids ++ ids') s u := by
  rcases h with ⟨hgood, hmoves, hids⟩ | ⟨hbad, hlt⟩
  · rcases h' hgood hmoves hids with ⟨hgood', hmoves', hids'⟩ | ⟨hbad', hlt⟩
    · refine .inl ⟨⟨hgood, hgood'⟩, P.trans hmoves hmoves', fun i hi => ?_⟩
      exact (mem_append.1 hi).elim (fun hi => P.mono hmoves' (hids i hi)) (hids' i)
    · refine .inr ⟨fun hboth => hbad' hboth.2, ?_⟩
      rw [count, ← P.block hmoves]
      exact hlt
  · exact .inr ⟨fun hboth => hbad hboth.1, Nat.lt_of_lt_of_le hlt hle⟩

theorem weaken (h : P.Outcome good ids s t) (hids : ids' ⊆ ids) : P.Outcome good ids' s t :=
  h.imp_left fun h => ⟨h.1, h.2.1, fun i hi => h.2.2 i (hids hi)⟩

theorem of_within {x : Lower α} {need : List Id} {gains : α → List Id} {a : α}
    (hgood : good → P.Within need x gains) (hbad : ¬ good → Emits x) (hs : s.module.Sound)
    (hneed : ∀ i ∈ need, P.Constant s i) (h : x s = (.ok a, t)) : P.Outcome good (gains a) s t := by
  by_cases hcase : good
  · exact .inl ⟨hcase, hgood hcase hs hneed h⟩
  · exact .inr ⟨hcase, hbad hcase h⟩

end Progress.Outcome

theorem valueWithin_ok (h : (partsOf (lowerWithin height)).value e s = (.ok id, s')) :
    ∃ rest entity t, height = rest + 1 ∧
      node (partsOf (lowerWithin rest)) e .value { s with depth := s.depth + 1 } = (.ok entity, t) ∧
      load entity { t with depth := s.depth } = (.ok id, s') := by
  obtain ⟨entity, t', hentity, hload⟩ := bind_ok h
  obtain ⟨rest, t, hrest, -, hnode, rfl⟩ := lowerWithin_ok hentity
  exact ⟨rest, entity, t, hrest, hnode, hload⟩

theorem valueWithin_value {x : Parts → Lower Id}
    (hnode : ∀ parts, node parts e .value = x parts >>= fun id => value e.ty id)
    (h : (partsOf (lowerWithin height)).value e s = (.ok id, s')) : ∃ rest t u entity, height = rest + 1 ∧
      x (partsOf (lowerWithin rest)) { s with depth := s.depth + 1 } = (.ok id, t) ∧
      value e.ty id t = (.ok entity, u) ∧ s' = { u with depth := s.depth } := by
  obtain ⟨rest, entity, u, rfl, hrun, hload⟩ := valueWithin_ok h
  rw [hnode] at hrun
  obtain ⟨id', t, hx, hvalue⟩ := bind_ok hrun
  refine ⟨rest, t, u, entity, rfl, ?_⟩
  obtain ⟨type, htype, rfl⟩ := bind_pure_ok hvalue
  obtain ⟨rfl, rfl⟩ := pure_ok hload
  exact ⟨hx, hvalue, rfl⟩

theorem valued_outcome {good : Prop} {x : Parts → Lower Id}
    (hnode : ∀ parts, node parts e .value = x parts >>= fun id => value e.ty id)
    (hx : ∀ {rest : Nat} {t : Lowerer}, height = rest + 1 → x (partsOf (lowerWithin rest)) { s with
      depth := s.depth + 1 } = (.ok id, t) → P.Outcome good [id] { s with depth := s.depth + 1 } t)
    (h : (partsOf (lowerWithin height)).value e s = (.ok id, s')) : P.Outcome good [id] s s' := by
  obtain ⟨rest, t, u, entity, hrest, hrun, hvalue, rfl⟩ := valueWithin_value hnode h
  have hle : count t ≤ count u := count_le [.value id] (fun L hL => value_steady hL _ (by simp)) hvalue
  rcases hx hrest hrun with ⟨hgood, hmoves, hids⟩ | ⟨hbad, hlt⟩
  · obtain ⟨type, u', htype, hpure⟩ := bind_ok hvalue
    obtain ⟨rfl, rfl⟩ := pure_ok hpure
    have htyped : P.Moves t { u' with depth := s.depth } :=
      @Progress.atDepth P t u' t.depth (P.declareType (P.sound hmoves) htype) s.depth
    refine .inl ⟨hgood, P.atDepth (P.trans hmoves htyped) s.depth, fun i hi => ?_⟩
    exact P.mono htyped (hids i hi)
  · exact .inr ⟨hbad, Nat.lt_of_lt_of_le hlt hle⟩

end Lower

end Shader
