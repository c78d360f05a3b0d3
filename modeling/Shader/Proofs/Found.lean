import Shader.Proofs.Declarations

/-!
# What is declared is found again

Nothing that a module remembers is ever replaced. A type that was declared in some layout is found from
then on: declaring it once more yields the same identifier and changes nothing.
-/

namespace Shader

open Action

variable {m m' : Module} {m₁ : Module}

variable {id : Id}

namespace Module

variable {ty : Ty} {layout : Option MemoryLayout} {explicit : Option Word}

/-- `m'` finds all that `m` finds, under the same identifiers. -/
structure Retains (m m' : Module) : Prop where
  types : ∀ key id, m.types.get? key = some id → m'.types.get? key = some id
  pointers : ∀ key id, m.pointers.get? key = some id → m'.pointers.get? key = some id
  functionTypes : ∀ key id, m.functionTypes.get? key = some id → m'.functionTypes.get? key = some id
  literals : ∀ l id, m.literals.get? l = some id → m'.literals.get? l = some id
  composites : ∀ key id, m.composites.get? key = some id → m'.composites.get? key = some id
  globals : ∀ name e, m.globals.get? name = some e → m'.globals.get? name = some e
  functionIds : ∀ name id, m.functionIds.get? name = some id → m'.functionIds.get? name = some id

namespace Retains

theorem refl (m : Module) : m.Retains m :=
  ⟨fun _ _ h => h, fun _ _ h => h, fun _ _ h => h, fun _ _ h => h, fun _ _ h => h, fun _ _ h => h, fun _ _ h => h⟩

theorem trans {m₂ m₃ : Module} (h : m₁.Retains m₂) (h' : m₂.Retains m₃) : m₁.Retains m₃ where
  types key id hid := h'.types key id (h.types key id hid)
  pointers key id hid := h'.pointers key id (h.pointers key id hid)
  functionTypes key id hid := h'.functionTypes key id (h.functionTypes key id hid)
  literals l id hid := h'.literals l id (h.literals l id hid)
  composites key id hid := h'.composites key id (h.composites key id hid)
  globals name e he := h'.globals name e (h.globals name e he)
  functionIds name id hid := h'.functionIds name id (h.functionIds name id hid)

theorem noted (h : m.Noted m') : m.Retains m' := by
  rw [h]
  exact { refl m with }

theorem remembers {P : Module → Prop} (h : m.Remembers P id m') : m.Retains m' := by
  have htypes := h.types
  have hpointers := h.pointers
  have hfunctionTypes := h.functionTypes
  have hsame := h.same
  rw [hsame] at htypes hpointers hfunctionTypes ⊢
  exact { refl m with
    types := htypes, pointers := hpointers, functionTypes := hfunctionTypes }

theorem of_define {op : Op} {operands : List Word} (h : define op operands m = (.ok id, m')) : m.Retains m' := by
  obtain ⟨-, next, -, rfl⟩ := eq_of_define h
  exact { refl m with }

end Retains

theorem stepwise_retaining (m₀ : Module) : Stepwise (.keeping m₀.Retains) where
  alike h ha := h.trans (.noted ha.noted)
  note inst h hs _ := h.trans (.noted (noted_insert _ hs inst))
  name h _ := { h with }
  fresh h _ := { h with }
  type _ h _ := { h with }
  remember h _ hm' := h.trans (.remembers hm')
  literal _ h _ hlacks _ := { h with
    literals := fun l' id hl' => OrderedMap.get?_put_of_get? _ hlacks.literal (h.literals l' id hl') }

theorem stepwise_variables (globals : Scope) (members : OrderedMap String (Id × Id)) :
    Stepwise (.keeping fun m => m.globals = globals ∧ m.memberVariables = members) where
  alike {held known m m'} h ha := by
    rw [ha]
    exact h
  note inst h _ _ := by cases inst.op.section <;> exact h
  name h _ := h
  fresh h _ := h
  type _ h _ := h
  remember {held known m m' id} h _ hm' := by
    rw [hm'.same]
    exact h
  literal _ h _ _ _ := h

section

variable {α : Type} {x : Build α} (need : List Known) {gives : α → List Id} {gains : α → List Known}
  {r : Except Fault α}

theorem Retains.of_declaring
    (hx : ∀ J : Ledger Module, Declaring J → Keeps J [] need x gives gains) (h : x m = (r, m')) :
    m.Retains m' :=
  (hx _ (stepwise_retaining m).declaring).keeping (.refl m) (congrArg Prod.snd h)

theorem variables_of_declaring (hx : ∀ J : Ledger Module, Declaring J → Keeps J [] need x gives gains)
    (h : x m = (r, m')) : m'.globals = m.globals ∧ m'.memberVariables = m.memberVariables :=
  Keeps.keeping (P := fun m' => m'.globals = m.globals ∧ m'.memberVariables = m.memberVariables)
    (hx _ (stepwise_variables _ _).declaring) ⟨rfl, rfl⟩ (congrArg Prod.snd h)

theorem globals_of_declaring
    (hx : ∀ J : Ledger Module, Declaring J → Keeps J [] need x gives gains) (h : x m = (r, m')) :
    m'.globals = m.globals :=
  (variables_of_declaring need hx h).1

end

/-! ## Types -/

/-- Declaring the type changes nothing and yields `id`. -/
def Finds (m : Module) (layout : Option MemoryLayout) (explicit : Option Word) (ty : Ty) (id : Id) :
    Prop :=
  declareTypeWith layout explicit ty m = (.ok id, m)

/-- A type is found at one identifier only. -/
theorem Finds.unique {id' : Id} (h : m.Finds layout explicit ty id) (h' : m.Finds layout explicit ty id') : id = id' :=
  Except.ok.inj (congrArg Prod.fst (h.symm.trans h'))

theorem cachedType_found {key : TypeIdentity} {make : Build Id}
    (h : m.types.get? key = some id) : cachedType key make m = (.ok id, m) := findOrMake_of_some h

theorem exists_cached (h : ∀ element length, ty ≠ .array element length) :
    ∃ key, ∀ layout explicit, ∃ make, declareTypeWith layout explicit ty = cachedType key make := by
  cases ty with
  | array element length => exact absurd rfl (h element length)
  | struct => exact ⟨_, fun layout explicit => ⟨_, by rw [declareTypeWith]⟩⟩
  | function => exact ⟨_, fun layout explicit => ⟨_, by rw [declareTypeWith]⟩⟩
  | _ => exact ⟨_, fun layout explicit => ⟨_, by rw [declareTypeWith]; exact rfl⟩⟩

theorem strideIn_snd {element : Ty} {r : Except Fault (Option Word)} (h : strideIn layout explicit element m = (r, m'))
    (n : Module) : m' = m ∧ strideIn layout explicit element n = (r, n) := by
  unfold strideIn at h ⊢
  split at h
  case isTrue hopaque =>
    rw [if_pos hopaque]
    cases h
    exact ⟨rfl, rfl⟩
  case isFalse hopaque =>
    rw [if_neg hopaque]
    cases explicit with
    | some stride =>
      cases h
      exact ⟨rfl, rfl⟩
    | none =>
      cases layout with
      | none =>
        cases h
        exact ⟨rfl, rfl⟩
      | some layout =>
        cases hstride : element.arrayStride layout with
        | error o =>
          simp only [hstride] at h ⊢
          cases h
          exact ⟨rfl, rfl⟩
        | ok stride =>
          simp only [hstride] at h ⊢
          cases h
          exact ⟨rfl, rfl⟩

theorem finds_later_of_cached (hty : ∀ element length, ty ≠ .array element length)
    (h : declareTypeWith layout explicit ty m = (.ok id, m₁))
    (hlater : m₁.Retains m') : m'.Finds layout explicit ty id := by
  obtain ⟨key, hcached⟩ := exists_cached hty
  obtain ⟨make, hmake⟩ := hcached layout explicit
  rw [hmake] at h
  unfold Finds
  rw [hmake]
  exact cachedType_found (hlater.types _ _ (cachedType_ok h))

/-- A declared type is found in every later module. -/
theorem finds_later {m₁ : Module} : ∀ {ty : Ty} {explicit : Option Word} {id : Id},
      declareTypeWith layout explicit ty m = (.ok id, m₁) → m₁.Retains m' → m'.Finds layout explicit ty id
  | .array element length, explicit, id, h, hlater => by
    obtain ⟨type, m₂, helement, hrest⟩ := bind_ok h
    obtain ⟨stride, m₃, hstride, harray⟩ := bind_ok hrest
    obtain ⟨rfl, hstride'⟩ := strideIn_snd hstride m'
    have hretains : m₃.Retains m₁ := .of_declaring [] (fun J hJ => declareArray_steady hJ length stride nofun) harray
    have hfound : m'.Finds layout none element type := finds_later helement (hretains.trans hlater)
    unfold Finds
    rw [declareTypeWith, bind_apply_ok hfound, bind_apply_ok hstride']
    exact cachedType_found (hlater.types _ _ (cachedType_ok harray))
  | .void, _, _, h, hlater | .scalar _, _, _, h, hlater | .vector .., _, _, h, hlater
  | .matrix .., _, _, h, hlater | .struct .., _, _, h, hlater | .image _, _, _, h, hlater
  | .sampledImage _, _, _, h, hlater | .sampler _, _, _, h, hlater
  | .function .., _, _, h, hlater => finds_later_of_cached (by simp) h hlater

theorem finds_of_ok (h : declareTypeWith layout explicit ty m = (.ok id, m')) : m'.Finds layout explicit ty id :=
  finds_later h (.refl m')

theorem Finds.mono (h : m.Finds layout explicit ty id) (hlater : m.Retains m') : m'.Finds layout explicit ty id :=
  finds_later h hlater

end Module

end Shader
