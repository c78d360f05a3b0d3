import Mathlib.Data.List.Perm.Subperm
import Mathlib.Tactic.Tauto
import Shader.Lowering.Expression

/-!
# Ledgers of identifiers

Steps of construction hand out identifiers before they define them, and end early at many places. An
invariant of construction therefore speaks of two lists beside the state: `held`, identifiers that were
handed out and that nothing defines yet, and `known`, what was learned on the way. `Keeps J takes need x
gives gains` says that `x` uses up the held `takes`, relies on `need`, and on success adds `gives` to
the held and `gains` to the known; when it ends early, the ledger still stands without `takes`.
-/

namespace Shader

open List

variable {need : List Known} {σ α β : Type}

/-! ## Steps of construction -/

namespace Action

variable {x : Action σ α} {f : α → Action σ β} {s s' : σ} {a : α} {b : β}

theorem bind_apply (x : Action σ α) (f : α → Action σ β) (s : σ) : (x >>= f) s = match x s with
      | (.ok a, s') => f a s'
      | (.error e, s') => (.error e, s') := by
  show (match x s with | (a, s') => ExceptT.bindCont f a s') = _
  rcases x s with ⟨_ | a, s'⟩ <;> rfl

theorem bind_apply_ok (h : x s = (.ok a, s')) (f : α → Action σ β) : (x >>= f) s = f a s' := by
  rw [bind_apply, h]

theorem bind_apply_error {e : Fault} (h : x s = (.error e, s'))
    (f : α → Action σ β) : (x >>= f) s = (.error e, s') := by
  rw [bind_apply, h]

theorem get_bind (f : σ → Action σ β) (s : σ) : ((get : Action σ σ) >>= f) s = f s s := rfl

theorem bind_ok {s'' : σ} (h : (x >>= f) s = (.ok b, s'')) : ∃ a s', x s = (.ok a, s') ∧ f a s' = (.ok b, s'') := by
  rcases hx : x s with ⟨_ | a, s'⟩
  · rw [bind_apply_error hx] at h
    cases h
  · rw [bind_apply_ok hx] at h
    exact ⟨a, s', rfl, h⟩

theorem pure_ok {b : α} (h : (pure a : Action σ α) s = (.ok b, s')) : a = b ∧ s = s' := by
  cases h
  exact ⟨rfl, rfl⟩

theorem bind_pure_ok {g : α → β} (h : (x >>= fun a => pure (g a)) s = (.ok b, s')) :
    ∃ a, x s = (.ok a, s') ∧ g a = b := by
  obtain ⟨a, s₁, ha, h⟩ := bind_ok h
  obtain ⟨hb, rfl⟩ := pure_ok h
  exact ⟨a, ha, hb⟩

theorem exists_ok (h : (x s).1.isOk) : ∃ a, x s = (.ok a, (x s).2) := by
  rcases hrun : x s with ⟨_ | a, s'⟩
  · rw [hrun] at h
    cases h
  · exact ⟨a, rfl⟩

theorem refuse_ok {e : BuildError} (h : (Build.refuse e : Action σ α) s = (.ok a, s')) : False := by
  cases h

/-- Whenever the action succeeds, `P` holds of its result and of the state after it. -/
def Ensures (x : Action σ α) (P : α → σ → Prop) : Prop := ∀ s a s', x s = (.ok a, s') → P a s'

namespace Ensures

variable {P : α → σ → Prop} {x : Action σ β} {f : β → Action σ α}

theorem pure (h : ∀ s, P a s) : Ensures (Pure.pure a : Action σ α) P := by
  intro s b s' hb
  obtain ⟨rfl, -⟩ := pure_ok hb
  exact h s'

theorem bind (h : ∀ b, Ensures (f b) P) : Ensures (x >>= f) P := by
  intro s a s' ha
  obtain ⟨b, s₁, -, ha⟩ := bind_ok ha
  exact h b s₁ a s' ha

theorem refuse (e : BuildError) : Ensures (Build.refuse e : Action σ α) P := by
  intro s a s' ha
  cases ha

theorem refuse_bind (e : BuildError) (f : β → Action σ α) : Ensures (Build.refuse e >>= f) P := by
  intro s a s' ha
  cases ha

end Ensures

/-- Whenever the action succeeds, `P` holds of its result. -/
def Yields (x : Action σ α) (P : α → Prop) : Prop := Ensures x fun a _ => P a

namespace Yields

variable {P : α → Prop} {x : Action σ β} {f : β → Action σ α}

theorem pure (h : P a) : Yields (Pure.pure a : Action σ α) P := Ensures.pure fun _ => h

theorem bind (h : ∀ b, Yields (f b) P) : Yields (x >>= f) P := Ensures.bind h

theorem andThen {Q : β → Prop} (hx : Yields x Q) (hf : ∀ b, Q b → Yields (f b) P) : Yields (x >>= f) P := by
  intro s a s' ha
  obtain ⟨b, s₁, hb, ha⟩ := bind_ok ha
  exact hf b (hx s b s₁ hb) s₁ a s' ha

theorem holds {x : Action σ α} {p : Prop} (h : p) : Yields x fun _ => p := fun _ _ _ _ => h

theorem mapM_length (f : α → Action σ β) : ∀ l : List α, Yields (l.mapM f) (·.length = l.length)
  | [] => pure rfl
  | a :: l => by
    rw [mapM_cons]
    refine bind fun b => ?_
    intro s bs s' h
    obtain ⟨bs', s₁, hrest, h⟩ := bind_ok h
    obtain ⟨rfl, -⟩ := pure_ok h
    exact congrArg (· + 1) (mapM_length f l s bs' s₁ hrest)

end Yields

/-- `P` holds of every fault that the action ends with. -/
def Faults (x : Action σ α) (P : Fault → Prop) : Prop := ∀ s f, (x s).1 = .error f → P f

namespace Faults

variable {P : Fault → Prop} {x : Action σ β} {f : β → Action σ α}

theorem pure (a : α) : Faults (Pure.pure a : Action σ α) P := nofun

theorem bind (hx : Faults x P) (hf : ∀ b, Faults (f b) P) : Faults (x >>= f) P := by
  intro s fault h
  rcases hrun : x s with ⟨_ | b, t⟩
  · rw [bind_apply_error hrun] at h
    cases h
    exact hx s _ (congrArg Prod.fst hrun)
  · rw [bind_apply_ok hrun] at h
    exact hf b t _ h

theorem of_bind (hf : ∀ b, Faults (f b) P) {e : Fault} (h : ((x >>= f) s).1 = .error e)
    (he : ¬ P e) : (x s).1 = .error e := by
  rcases hrun : x s with ⟨_ | b, t⟩
  · rw [bind_apply_error hrun] at h
    cases h
    rfl
  · rw [bind_apply_ok hrun] at h
    exact absurd (hf b t _ h) he

end Faults

end Action

theorem Build.checked_ok {x : Checked α} {a : α} {s s' : σ}
    (h : (Build.checked x : Action σ α) s = (.ok a, s')) : x = .ok a ∧ s = s' := by
  cases x with
  | error o => cases h
  | ok b =>
    obtain ⟨rfl, rfl⟩ := Action.pure_ok h
    exact ⟨rfl, rfl⟩

/-! ## Ledgers -/

/-- What a step can learn of an identifier. What it means is up to the ledger. -/
inductive Known where
  /-- The identifier of a value or a variable. -/
  | value (id : Id)
  | type (id : Id)
  | function (name : String) (id : Id)

def Known.id : Known → Id
  | .value id | .type id | .function _ id => id

/-- Which names may be introduced, for a value or for a variable in some storage, and for which
types. -/
def Names : Type := String → Option StorageClass → Ty → Prop

def Names.any : Names := fun _ _ _ => True

/-- The variable may be declared under these names. -/
def Variable.NamedIn (N : Names) (v : Variable) : Prop :=
  ∀ version, N v.outermost.name (some (v.outermost.storageClass version)) v.outermost.ty

/-- Whether a fault is neither about how deep expressions nest nor about what can be assigned to. -/
def Fault.isOrdinary : Fault → Bool
  | .refused (.tooDeep _) | .refused (.notAssignable _) => false
  | _ => true

/-- A predicate on states, the identifiers held back and what is known of others, and one on faults. -/
structure Ledger (σ : Type) where
  Stands : List Id → List Known → σ → Prop
  Ends : Fault → Prop := fun _ => True
  drop : ∀ {held held' : List Id} {known known' : List Known} {s : σ}, Stands held known s →
    held'.Subperm held → known' ⊆ known → Stands held' known' s
  ends : ∀ {f : Fault}, f.isOrdinary → Ends f := by exact fun _ => trivial

/-- A ledger that looks at the state alone. -/
def Ledger.keeping (P : σ → Prop) : Ledger σ where
  Stands _ _ s := P s
  drop h _ _ := h

/-- Nothing is asked of states, but steps may end with such faults only. -/
def Ledger.ending (E : Fault → Prop) (hE : ∀ f : Fault, f.isOrdinary → E f) : Ledger σ where
  Stands _ _ _ := True
  Ends := E
  drop _ _ _ := trivial
  ends := hE _

/-- From this state the action keeps the ledger: it takes and gives identifiers, and tells what it found. -/
def KeepsAt (J : Ledger σ) (takes : List Id) (need : List Known) (x : Action σ α)
    (gives : α → List Id) (gains : α → List Known) (s : σ) : Prop :=
  ∀ held known, need ⊆ known → J.Stands (takes ++ held) known s →
    match x s with
    | (.ok a, s') => J.Stands (gives a ++ held) (gains a ++ known) s'
    | (.error f, s') => J.Ends f ∧ J.Stands held known s'

/-- The action keeps the ledger from every state. -/
def Keeps (J : Ledger σ) (takes : List Id) (need : List Known) (x : Action σ α)
    (gives : α → List Id) (gains : α → List Known) : Prop :=
  ∀ s, KeepsAt J takes need x gives gains s

/-- The action keeps the ledger and holds no identifiers. -/
abbrev Steady (J : Ledger σ) (need : List Known) (x : Action σ α) (gains : α → List Known) : Prop :=
  Keeps J [] need x (fun _ => []) gains

/-- The action keeps the ledger and tells nothing. -/
abbrev Upholds (J : Ledger σ) (need : List Known) (x : Action σ α) : Prop := Steady J need x fun _ => []

/-- The action keeps the ledger and yields the identifier of a type. -/
abbrev SuppliesType (J : Ledger σ) (need : List Known) (x : Action σ Id) : Prop := Steady J need x fun id => [.type id]

/-- The action keeps the ledger and yields the identifier of a value. -/
abbrev Supplies (J : Ledger σ) (need : List Known) (x : Action σ Id) : Prop := Steady J need x fun id => [.value id]

namespace Keeps

variable {J : Ledger σ} {takes held : List Id} {known : List Known} {x : Action σ α} {f : α → Action σ β} {s s' : σ}
  {a : α} {gives : α → List Id} {gains : α → List Known} {gives' : β → List Id} {gains' : β → List Known}

theorem of_ok (h : Keeps J takes need x gives gains) (hx : x s = (.ok a, s')) (hneed : need ⊆ known)
    (hs : J.Stands (takes ++ held) known s) : J.Stands (gives a ++ held) (gains a ++ known) s' := by
  have h1 := h s held known hneed hs
  rw [hx] at h1
  exact h1

theorem of_error (h : Keeps J takes need x gives gains) {e : Fault} (hx : x s = (.error e, s')) (hneed : need ⊆ known)
    (hs : J.Stands (takes ++ held) known s) : J.Ends e ∧ J.Stands held known s' := by
  have h1 := h s held known hneed hs
  rw [hx] at h1
  exact h1

theorem of_ok_nil (h : Keeps J [] need x gives gains) (hx : x s = (.ok a, s')) (hneed : need ⊆ known)
    (hs : J.Stands held known s) : J.Stands (gives a ++ held) (gains a ++ known) s' :=
  h.of_ok hx hneed hs

theorem after_nil (h : Keeps J [] need x gives gains) (hneed : need ⊆ known)
    (hs : J.Stands held known s) : J.Stands held known (x s).2 := by
  rcases hx : x s with ⟨_ | a, s'⟩
  · exact (h.of_error hx hneed hs).2
  · exact J.drop (h.of_ok hx hneed hs) (sublist_append_right _ _).subperm (subset_append_right _ _)

theorem keeping {P : σ → Prop} (h : Keeps (.keeping P) [] need x gives gains) (hs : P s)
    (hx : (x s).2 = s') : P s' := by
  have hafter : (Ledger.keeping P).Stands [] need (x s).2 := h.after_nil (fun _ hk => hk) hs
  rwa [hx] at hafter

theorem ends (h : Keeps J takes need x gives gains) (hs : J.Stands (takes ++ []) need s) {e : Fault}
    (hx : (x s).1 = .error e) : J.Ends e :=
  (h.of_error (Prod.ext hx rfl) (fun _ hk => hk) hs).1

theorem faults {E : Fault → Prop} {hE : ∀ f : Fault, f.isOrdinary → E f}
    (h : Keeps (.ending E hE) takes need x gives gains) : x.Faults E := fun _ _ hx => h.ends trivial hx

theorem pure (a : α) (hgives : (gives a).Subperm takes) (hgains : gains a ⊆ need) :
    Keeps J takes need (Pure.pure a) gives gains := by
  intro s held known hneed hs
  refine J.drop hs ((subperm_append_right held).2 hgives) ?_
  exact append_subset.2 ⟨fun i hi => hneed (hgains hi), fun i hi => hi⟩

theorem throw {f : Fault} (hf : J.Ends f) : Keeps J takes need (MonadExcept.throw f) gives gains := by
  intro s held known _ hs
  exact ⟨hf, J.drop hs (sublist_append_right _ _).subperm (fun _ hi => hi)⟩

theorem refuse {e : BuildError} (he : (Fault.refused e).isOrdinary) :
    Keeps J takes need (Build.refuse e) gives gains := throw (J.ends he)

theorem bind_at (hx : KeepsAt J takes need x gives gains s)
    (hf : ∀ a s', x s = (.ok a, s') → KeepsAt J (gives a) (gains a ++ need) (f a) gives' gains' s') :
    KeepsAt J takes need (x >>= f) gives' gains' s := by
  intro held known hneed hs
  have hmid := hx held known hneed hs
  rcases h1 : x s with ⟨e | a, s'⟩ <;> rw [h1] at hmid
  · rw [Action.bind_apply_error h1]
    exact hmid
  · rw [Action.bind_apply_ok h1]
    have hneed' : gains a ++ need ⊆ gains a ++ known :=
      append_subset.2 ⟨subset_append_left _ _, fun i hi => mem_append_right _ (hneed hi)⟩
    have hstep := hf a s' h1 held _ hneed' hmid
    rcases h2 : f a s' with ⟨e | b, s''⟩ <;> rw [h2] at hstep
    · exact ⟨hstep.1, J.drop hstep.2 (Subperm.refl _) (subset_append_right _ _)⟩
    · refine J.drop hstep (Subperm.refl _) ?_
      refine append_subset.2 ⟨subset_append_left _ _, fun i hi => ?_⟩
      exact mem_append_right _ (mem_append_right _ hi)

theorem bind_yields {P : α → Prop} (hx : Keeps J takes need x gives gains) (hyields : x.Yields P)
    (hf : ∀ a, P a → Keeps J (gives a) (gains a ++ need) (f a) gives' gains') :
    Keeps J takes need (x >>= f) gives' gains' :=
  fun s => bind_at (hx s) fun a s' h => hf a (hyields s a s' h) s'

theorem bind (hx : Keeps J takes need x gives gains)
    (hf : ∀ a, Keeps J (gives a) (gains a ++ need) (f a) gives' gains') :
    Keeps J takes need (x >>= f) gives' gains' :=
  hx.bind_yields (P := fun _ => True) (fun _ _ _ _ => trivial) (fun a _ => hf a)

theorem refuse_bind {e : BuildError} (f : α → Action σ β) (he : (Fault.refused e).isOrdinary) :
    Keeps J takes need (Build.refuse e >>= f) gives' gains' :=
  refuse he

theorem get_bind {f : σ → Action σ α} (h : ∀ s, KeepsAt J takes need (f s) gives gains s) :
    Keeps J takes need (get >>= f) gives gains := fun s => h s

theorem frame (extra : List Id) (h : Keeps J takes need x gives gains) :
    Keeps J (takes ++ extra) need x (fun a => gives a ++ extra) gains := by
  intro s held known hneed hs
  rw [append_assoc] at hs
  rcases hx : x s with ⟨e | a, s'⟩
  · obtain ⟨hends, hstands⟩ := h.of_error hx hneed hs
    exact ⟨hends, J.drop hstands (sublist_append_right _ _).subperm (fun _ hi => hi)⟩
  · have := h.of_ok hx hneed hs
    rw [← append_assoc] at this
    exact this

theorem weaken_at {gives' : α → List Id} {gains' : α → List Known}
    (h : KeepsAt J takes need x gives gains s) (hgives : ∀ a, (gives' a).Subperm (gives a))
    (hgains : ∀ a, gains' a ⊆ gains a ++ need) : KeepsAt J takes need x gives' gains' s := by
  intro held known hneed hs
  have hstands := h held known hneed hs
  rcases hx : x s with ⟨e | a, s'⟩ <;> rw [hx] at hstands
  · exact hstands
  · refine J.drop hstands ((subperm_append_right held).2 (hgives a)) ?_
    refine append_subset.2 ⟨fun i hi => ?_, subset_append_right _ _⟩
    rcases mem_append.1 (hgains a hi) with hi | hi
    · exact mem_append_left _ hi
    · exact mem_append_right _ (hneed hi)

theorem weaken {gives' : α → List Id} {gains' : α → List Known} (h : Keeps J takes need x gives gains)
    (hgives : ∀ a, (gives' a).Subperm (gives a)) (hgains : ∀ a, gains' a ⊆ gains a ++ need) :
    Keeps J takes need x gives' gains' :=
  fun s => weaken_at (h s) hgives hgains

end Keeps

/-! ## Steps that hold nothing back -/

namespace Steady

variable {J : Ledger σ} {x : Action σ α} {gains : α → List Known}

theorem pure (a : α) (hgains : gains a ⊆ need) : Steady J need (Pure.pure a) gains :=
  Keeps.pure a (Subperm.refl _) hgains

theorem done (a : α) : Upholds J need (Pure.pure a) := pure a (nil_subset _)

theorem known {id : Id} (h : .value id ∈ need) : Supplies J need (Pure.pure id) :=
  pure id (cons_subset.2 ⟨h, nil_subset _⟩)

theorem bind {f : α → Action σ β} {gives' : β → List Id} {gains' : β → List Known} (hx : Steady J need x gains)
    (hf : ∀ a, Keeps J [] (gains a ++ need) (f a) gives' gains') : Keeps J [] need (x >>= f) gives' gains' :=
  Keeps.bind hx hf

theorem modifies {f : σ → σ} (hf : ∀ (held : List Id) (known : List Known) (s : σ),
    J.Stands held known s → J.Stands held known (f s)) :
    Upholds J need (modify f) :=
  fun s held known _ hs => hf held known s hs

theorem forget (h : Steady J need x gains) : Upholds J need x :=
  h.weaken (fun _ => Subperm.refl _) (fun _ => nil_subset _)

theorem checked (c : Checked α) : Upholds J need (Build.checked c) := by
  cases c with
  | error o => exact Keeps.throw (J.ends rfl)
  | ok a => exact done a

theorem mapM_mem {f : α → Action σ Id} : ∀ {l : List α} {need : List Known},
      (∀ a ∈ l, ∀ need', need ⊆ need' → Supplies J need' (f a)) →
      Steady J need (l.mapM f) (fun ids => ids.map .value)
  | [], need, _ => pure [] (nil_subset _)
  | a :: l, need, hf => by
    rw [mapM_cons]
    refine bind (hf a mem_cons_self need (fun _ hi => hi)) fun id => ?_
    refine bind (mapM_mem fun b hb need' h => ?_) fun ids => pure _ fun i hi => ?_
    · exact hf b (mem_cons_of_mem _ hb) need' fun i hi => h (mem_append_right _ hi)
    · simp only [map_cons, mem_append, mem_cons, not_mem_nil] at hi ⊢
      tauto

theorem forM {f : α → Action σ PUnit} (hf : ∀ a need, Upholds J need (f a)) (l : List α) :
    ∀ need, Upholds J need (l.forM f) := by
  induction l with
  | nil => exact fun need => pure _ (nil_subset _)
  | cons a l ih => exact fun need => bind (hf a need) fun _ => ih _

end Steady

end Shader
