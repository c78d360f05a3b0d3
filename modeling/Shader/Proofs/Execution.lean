import Shader.Proofs.Settled
import Shader.Proofs.Typing
import Shader.Proofs.Unique

/-!
# Running what lowering emits

Instructions are run once lowering has come to its end, when all constants and local variables are
there. What a step of lowering means is therefore said for every later state: a machine that has the
constants and variables of that state runs what the step appended.
-/

namespace Shader

open Action List Module

variable {α : Type} {s s' : Lowerer} {x : Lower α} {device : Device} {σ : Machine} {names : List String} {st : Store}

/-- Expressions on the local variables can be lowered, whose names no global and no parameter has. -/
structure Lowerer.Ready (names : List String) (s : Lowerer) : Prop where
  sound : s.module.Sound
  inRange : HandedOut (s.func.function.ids ++ s.block.ids) s.func.locals.known s.module.bound
  globals : ∀ name ∈ names, s.module.globals.get? name = none
  placed : ∀ name ∈ names, ∀ e, s.func.locals.get? name = some e →
    e.storage = some .Function ∧ e.id ∈ results s.func.function.queued

theorem Lowerer.Ready.push (hs : s.Ready names) {inst : Inst} (h : ∀ id, inst.result = some id → id < s.module.bound) :
    Lowerer.Ready names { s with block := s.block.push inst } := by
  refine ⟨hs.sound, ⟨fun id hid => ?_, hs.inRange.known⟩, hs.globals, hs.placed⟩
  rw [Block.push_ids, ← append_assoc] at hid
  rcases mem_append.1 hid with hid | hid
  · exact hs.inRange.held id hid
  · obtain ⟨i, hi, hid⟩ := mem_filterMap.1 hid
    cases mem_singleton.1 hi
    exact h id hid

namespace Lower

variable (need : List Known) {gives : α → List Id} {gains : α → List Known}

theorem inRange_of_keeps (hx : ∀ L : Ledger Lowerer, Emitting L → Keeps L [] need x gives gains) (hs : s.module.Sound)
    (hrange : HandedOut (s.func.function.ids ++ s.block.ids) s.func.locals.known s.module.bound)
    (hneed : ∀ k ∈ need, k.Below s.module.bound) {a : α} (h : x s = (.ok a, s')) :
    s'.module.Sound ∧ HandedOut (s'.func.function.ids ++ s'.block.ids) s'.func.locals.known s'.module.bound ∧
      HandedOut (gives a) (gains a) s'.module.bound := by
  have hstart : (Ledger.sound.lowering fun _ => True).Stands [] need s := by
    refine ⟨⟨hs, ?_, forall_mem_append.2 ⟨hrange.known, hneed⟩⟩, trivial⟩
    rw [append_nil]
    exact hrange.held
  have hend := (hx _ running_sound.emitting).of_ok h (fun _ hk => hk) hstart
  obtain ⟨hheld, hgives⟩ := forall_mem_append.1 hend.1.2.held
  obtain ⟨hlocals, hknown⟩ := forall_mem_append.1 hend.1.2.known
  exact ⟨hend.1.1, ⟨hheld, hlocals⟩, (forall_mem_append.1 hgives).1, (forall_mem_append.1 hknown).1⟩

end Lower

/-! ## Machines -/

/-- A machine with the constants and local variables of a last state, which hold what the store
says. -/
structure Lowerer.Agrees (fin : Lowerer) (σ : Machine) (st : Store) : Prop where
  constants : ∀ id atoms, constant? fin.module.declarations id = some atoms → σ.registers id = some (.data atoms)
  pointers : ∀ id ∈ results fin.func.function.queued, σ.registers id = some (.pointer id none)
  memory : ∀ name e, fin.func.locals.get? name = some e →
    e.id ∈ results fin.func.function.queued → σ.memory e.id = (st name).map Literal.atom

variable {fin : Lowerer} {decls : List Inst} {atoms : List Atom} {type : Id} {a : Atom}

theorem mem_results_of_constant? {id : Id} (h : constant? decls id = some atoms) : id ∈ results decls := by
  obtain ⟨inst, hinst, -⟩ := Option.bind_eq_some_iff.1 h
  exact mem_filterMap.2 ⟨inst, mem_of_find?_eq_some hinst, by simpa using find?_some hinst⟩

theorem Lowerer.Agrees.define (h : fin.Agrees σ st) (hfin : fin.Final)
    {id : Id} (hid : id ∈ results fin.block.instructions) (r : Register) : fin.Agrees (σ.define id r) st := by
  have hcount := hfin.count_le id
  have hcode := count_pos_iff.2 hid
  refine ⟨fun i atoms hi => ?_, fun i hi => ?_, h.memory⟩
  · have hne : i ≠ id := by
      rintro rfl
      have := count_pos_iff.2 (mem_results_of_constant? hi)
      omega
    exact (Function.update_of_ne hne _ _).trans (h.constants i atoms hi)
  · have hne : i ≠ id := by
      rintro rfl
      have := count_pos_iff.2 hi
      omega
    exact (Function.update_of_ne hne _ _).trans (h.pointers i hi)

theorem Lowerer.Agrees.start (hfin : fin.Final) {memory : Id → List Atom}
    (hmemory : ∀ name e, fin.func.locals.get? name = some e → e.id ∈ results
      fin.func.function.queued → memory e.id = (st name).map Literal.atom) :
    fin.Agrees (.start fin.module.declarations (results fin.func.function.queued) memory) st where
  constants id atoms h := by
    have hcount := hfin.count_le id
    have hdecl := count_pos_iff.2 (mem_results_of_constant? h)
    have hvariable : id ∉ results fin.func.function.queued := fun hmem => by
      have := count_pos_iff.2 hmem
      omega
    exact (if_neg hvariable).trans (by rw [h]; rfl)
  pointers id h := if_pos h
  memory := hmemory

/-- The instructions between two states take one machine to the other and leave what was defined. -/
structure Machine.Runs (device : Device) (s s' : Lowerer) (σ σ' : Machine) : Prop where
  code : ∃ code, s'.block.instructions = s.block.instructions ++ code ∧ run? device code σ = some σ'
  kept : ∀ i, i < s.module.bound → σ'.registers i = σ.registers i

namespace Machine.Runs

variable {t u : Lowerer} {σ₁ σ₂ : Machine}

theorem of_block_eq (h : t.block = s.block) (σ : Machine) : Runs device s t σ σ :=
  ⟨⟨[], by rw [h, append_nil], rfl⟩, fun _ _ => rfl⟩

theorem trans (h : Runs device s t σ σ₁) (h' : Runs device t u σ₁ σ₂) (hext : s.Extends t) : Runs device s u σ σ₂ := by
  obtain ⟨code, hcode, hrun⟩ := h.code
  obtain ⟨code', hcode', hrun'⟩ := h'.code
  refine ⟨⟨code ++ code', ?_, ?_⟩, fun i hi => ?_⟩
  · rw [hcode', hcode, append_assoc]
  · rw [run?_append, hrun]
    exact hrun'
  · exact (h'.kept i (UInt32.lt_of_lt_of_le hi hext.module.bound)).trans (h.kept i hi)

end Machine.Runs

/-- What is known of an identifier at run time. -/
inductive Fact where
  | holds (id : Id) (atoms : List Atom)
  /-- It is a constant, which can be a constituent of others. -/
  | constant (id : Id) (atom : Atom)
  /-- It points to a local variable, or to a lane of it. -/
  | points (id : Id) (name : String) (lane : Option Word)

namespace Fact

def id : Fact → Id
  | holds id _ | constant id _ | points id _ _ => id

/-- The fact holds of a machine at the end of lowering. -/
def Holds (fin : Lowerer) (σ : Machine) : Fact → Prop
  | holds id atoms => σ.registers id = some (.data atoms)
  | constant id atom => scalarConstant? fin.module.declarations id = some atom
  | points id name lane => 0 < id ∧ ∃ e, fin.func.locals.get? name = some e ∧
      e.id ∈ results fin.func.function.queued ∧ σ.registers id = some (.pointer e.id lane)

theorem Holds.after {σ' : Machine} {f : Fact} (h : f.Holds fin σ)
    (hrun : Machine.Runs device s s' σ σ') (hid : f.id < s.module.bound) : f.Holds fin σ' := by
  cases f with
  | holds id atoms => exact (hrun.kept id hid).trans h
  | constant id atom => exact h
  | points id name lane =>
    obtain ⟨hpos, e, he, hqueued, hregister⟩ := h
    exact ⟨hpos, e, he, hqueued, (hrun.kept id hid).trans hregister⟩

end Fact

variable {known : List Fact}

/-! ## What steps of lowering mean -/

namespace Lower

/-- The code of a step takes machines that agree with `st` to ones that agree with `st'`, for which more
facts hold, and its result has the property `P`. -/
def Means {α : Type} (names : List String) (device : Device) (known : List Fact) (st : Store)
    (x : Lower α) (P : α → Prop) (gains : α → List Fact) (st' : Store) : Prop :=
  ∀ ⦃s s' : Lowerer⦄ ⦃a : α⦄, s.Ready names → (∀ f ∈ known, f.id < s.module.bound) → x s = (.ok a, s') →
    s.Extends s' ∧ s'.Ready names ∧ P a ∧ (∀ f ∈ gains a, f.id < s'.module.bound) ∧
    ∀ ⦃fin : Lowerer⦄ ⦃σ : Machine⦄, fin.Final → s'.Extends fin → fin.Agrees σ st → (∀ f ∈ known, f.Holds fin σ) →
      ∃ σ', Machine.Runs device s s' σ σ' ∧ fin.Agrees σ' st' ∧ ∀ f ∈ gains a, f.Holds fin σ'

/-- The code of a step computes a value, and leaves the variables of `st'`. -/
abbrev Computes (names : List String) (device : Device) (known : List Fact) (st : Store) (x : Lower Id)
    (v : Components) (st' : Store) : Prop :=
  Means names device known st x (fun _ => True) (fun id => [.holds id (v.map Literal.atom)]) st'

namespace Means

variable {β : Type} {st₁ st' : Store} {P : α → Prop} {gains : α → List Fact}

theorem pure (a : α) (hP : P a) (hgains : gains a ⊆ known) : Means names device known st (Pure.pure a) P gains st := by
  intro s s' b hs hknown h
  obtain ⟨rfl, rfl⟩ := pure_ok h
  refine ⟨.refl s, hs, hP, fun f hf => hknown f (hgains hf), fun fin σ _ _ hσ hfacts => ?_⟩
  exact ⟨σ, .of_block_eq rfl σ, hσ, fun f hf => hfacts f (hgains hf)⟩

theorem refuse (e : BuildError) : Means names device known st (Build.refuse e : Lower α) P gains st' :=
  fun _ _ _ _ _ h => (refuse_ok h).elim

theorem checked (c : Checked α) :
    Means names device known st (Build.checked c) (fun a => c = .ok a) (fun _ => []) st := by
  cases c with
  | error o => exact fun _ _ _ _ _ h => nomatch h
  | ok a => exact pure a rfl (nil_subset _)

theorem bind {f : α → Lower β} {P' : β → Prop} {gains' : β → List Fact} (hx : Means names device known st x P gains st₁)
    (hf : ∀ a, P a → Means names device (gains a ++ known) st₁ (f a) P' gains' st') :
    Means names device known st (x >>= f) P' gains' st' := by
  intro s s' b hs hknown h
  obtain ⟨a, t, ha, hb⟩ := bind_ok h
  obtain ⟨hext, ht, hP, hrange, hrun⟩ := hx hs hknown ha
  have hlater : ∀ f ∈ known, f.id < t.module.bound := fun f hf => UInt32.lt_of_lt_of_le (hknown f hf) hext.module.bound
  have hall : ∀ f ∈ gains a ++ known, f.id < t.module.bound := fun f hf => (mem_append.1 hf).elim (hrange f) (hlater f)
  obtain ⟨hext', hs', hP', hrange', hrun'⟩ := hf a hP ht hall hb
  refine ⟨hext.trans hext', hs', hP', hrange', fun fin σ hfin hlast hσ hfacts => ?_⟩
  obtain ⟨σ₁, hruns, hσ₁, hgained⟩ := hrun hfin (hext'.trans hlast) hσ hfacts
  have hkept : ∀ f ∈ gains a ++ known, f.Holds fin σ₁ := fun f hf =>
    (mem_append.1 hf).elim (hgained f) fun hf => (hfacts f hf).after hruns (hknown f hf)
  obtain ⟨σ₂, hruns', hσ₂, hgained'⟩ := hrun' hfin hlast hσ₁ hkept
  exact ⟨σ₂, hruns.trans hruns' hext, hσ₂, hgained'⟩

theorem get_bind {f : Lowerer → Lower α} (h : ∀ t, Means names device known st (f t) P gains st') :
    Means names device known st (get >>= f) P gains st' :=
  fun s _ _ hs hknown hrun => h s hs hknown hrun

theorem weaken {known' : List Fact} {P' : α → Prop} {gains' : α → List Fact}
    (hx : Means names device known st x P gains st') (hknown : known ⊆ known') (hP : ∀ a, P a → P' a)
    (hgains : ∀ a, P a → gains' a ⊆ gains a ++ known') : Means names device known' st x P' gains' st' := by
  intro s s' a hs hrange h
  obtain ⟨hext, hs', hPa, hrange', hrun⟩ := hx hs (fun f hf => hrange f (hknown hf)) h
  refine ⟨hext, hs', hP a hPa, fun f hf => ?_, fun fin σ hfin hlast hσ hfacts => ?_⟩
  · exact (mem_append.1 (hgains a hPa hf)).elim (hrange' f) fun hf =>
      UInt32.lt_of_lt_of_le (hrange f hf) hext.module.bound
  · obtain ⟨σ', hruns, hσ', hgained⟩ := hrun hfin hlast hσ fun f hf => hfacts f (hknown hf)
    refine ⟨σ', hruns, hσ', fun f hf => ?_⟩
    exact (mem_append.1 (hgains a hPa hf)).elim (hgained f) fun hf => (hfacts f hf).after hruns (hrange f hf)

end Means

/-! ## Steps without instructions -/

theorem onModule_ready {x : Build α} {gives : α → List Id} {gains : α → List Known}
    (hx : ∀ J : Ledger Module, Declaring J → Keeps J [] [] x gives gains)
    (hs : s.Ready names) {a : α} (h : onModule x s = (.ok a, s')) :
    s.Extends s' ∧ s'.Ready names ∧ HandedOut (gives a) (gains a) s'.module.bound ∧ s'.block = s.block := by
  have hkeeps : ∀ L : Ledger Lowerer, Emitting L → Keeps L [] [] (onModule x) gives gains :=
    fun L hL => onModule_keeps fun t => hx _ (hL.building t).toDeclaring
  obtain ⟨hsound, hlocals, hgains⟩ := inRange_of_keeps _ hkeeps hs.sound hs.inRange (fun _ hi => nomatch hi) h
  obtain ⟨hrun, hframe⟩ := onModule_ok h
  have hfunc : s'.func = s.func := by rw [hframe]
  refine ⟨extends_of_keeps _ hkeeps h, ⟨hsound, hlocals, fun name hname => ?_, ?_⟩, hgains, ?_⟩
  · rw [globals_of_declaring _ hx hrun]
    exact hs.globals name hname
  · rw [hfunc]
    exact hs.placed
  · rw [hframe]

theorem onModule_means {x : Build α} {gives : α → List Id} {gains : α → List Known}
    (hx : ∀ J : Ledger Module, Declaring J → Keeps J [] [] x gives gains) :
    Means names device known st (onModule x) (fun _ => True) (fun _ => []) st := by
  intro s s' a hs _ h
  obtain ⟨hext, hs', -, hblock⟩ := onModule_ready hx hs h
  exact ⟨hext, hs', trivial, nofun, fun fin σ _ _ hσ _ => ⟨σ, .of_block_eq hblock σ, hσ, nofun⟩⟩

theorem declareType_means (ty : Ty) :
    Means names device known st (onModule (declareType ty)) (fun _ => True) (fun _ => []) st :=
  onModule_means fun _ hJ => Module.declareType_steady hJ ty

end Lower

theorem declaration?_of_mem {inst : Inst} {id : Id} (hnodup : (results decls).Nodup)
    (hmem : inst ∈ decls) (hid : inst.result = some id) : declaration? decls id = some inst := by
  induction decls with
  | nil => cases hmem
  | cons i decls ih =>
    rw [declaration?, find?_cons]
    rcases mem_cons.1 hmem with rfl | hmem
    · simp [hid]
    · have hne : i.result ≠ some id := by
        intro hi
        rw [results, filterMap_cons_some hi] at hnodup
        exact (nodup_cons.1 hnodup).1 (mem_filterMap.2 ⟨inst, hmem, hid⟩)
      rw [decide_eq_false hne]
      refine ih (hnodup.sublist ?_) hmem
      exact ((sublist_cons_self i decls).filterMap _)

theorem scalarConstant?_of_literal {l : Literal} {id : Id} (hl : l.scalar.isDiscrete) (hnodup : (results decls).Nodup)
    (hmem : l.inst type id ∈ decls) : scalarConstant? decls id = some l.atom := by
  rw [scalarConstant?, declaration?_of_mem hnodup hmem rfl]
  cases l with
  | bool b => cases b <;> rfl
  | int n => rfl
  | uint n => rfl
  | float _ => cases hl
  | double _ => cases hl

theorem constant?_of_scalarConstant? {id : Id} (h : scalarConstant? decls id = some a) :
    constant? decls id = some [a] := by
  obtain ⟨inst, hinst, hatom⟩ := Option.bind_eq_some_iff.1 h
  have hop : inst.op ≠ .ConstantComposite := fun hop => by simp [hop] at hatom
  rw [constant?, hinst]
  simp [h]

theorem mapM_replicate {β : Type} {f : α → Option β} {a : α} {b : β} (h : f a = some b) (n : Nat) :
    (replicate n a).mapM f = some (replicate n b) := by
  induction n with
  | zero => rfl
  | succ n ih =>
    rw [replicate_succ, mapM_cons, h, ih]
    rfl

theorem constant?_of_composite {id c : Id} {n : Nat} (hnodup : (results decls).Nodup)
    (hmem : .value .ConstantComposite type id (replicate n c) ∈ decls)
    (hc : scalarConstant? decls c = some a) : constant? decls id = some (replicate n a) := by
  rw [constant?, declaration?_of_mem hnodup hmem rfl]
  exact mapM_replicate hc n

namespace Lower

variable {ty : Ty} {name : String} {roles : Roles} {op : Op} {operands : List Word} {lane : Option Word}
  {v : Components} {pointer : Id} {e : Entity} {m : Module}

theorem declareLiteral_means {l : Literal} (hl : l.scalar.isDiscrete) :
    Means names device known st (onModule (declareLiteral l)) (fun _ => True)
      (fun id => [.constant id l.atom, .holds id [l.atom]]) st := by
  intro s s' id hs _ h
  obtain ⟨hext, hs', hrange, hblock⟩ := onModule_ready (fun _ hJ => Module.declareLiteral_steady hJ l) hs h
  have hid : id < s'.module.bound := hrange.known (.value id) mem_cons_self
  refine ⟨hext, hs', trivial, ?_, fun fin σ hfin hlast hσ _ => ⟨σ, .of_block_eq hblock σ, hσ, ?_⟩⟩
  · exact forall_mem_cons.2 ⟨hid, forall_mem_cons.2 ⟨hid, nofun⟩⟩
  · obtain ⟨type, hmem⟩ := hs'.sound.literals l id (declareLiteral_ok (onModule_ok h).1)
    have hscalar : scalarConstant? fin.module.declarations id = some l.atom :=
      scalarConstant?_of_literal hl hfin.nodup_declarations (hlast.module.declarations.subset hmem)
    refine forall_mem_cons.2 ⟨hscalar, forall_mem_cons.2 ⟨?_, nofun⟩⟩
    exact hσ.constants id _ (constant?_of_scalarConstant? hscalar)

/-! ## Steps with instructions -/

theorem emitNew_means {x : Build Id}
    (hx : ∀ J : Ledger Module, Declaring J → Keeps J [] [] x (fun id => [id]) (fun _ => []))
    (hfresh : ∀ m id m', x m = (.ok id, m') → m.bound ≤ id) {fact : Id → Fact} {k : Id → α}
    {P : α → Prop} {gains : α → List Fact} (hP : ∀ id, P (k id))
    (hgains : ∀ id, gains (k id) = [fact id]) (hid : ∀ id, (fact id).id = id)
    (hcompute : ∀ fin σ id, 0 < id → fin.Agrees σ st → (∀ f ∈ known, f.Holds fin σ) → ∃ r,
      σ.compute? device op operands = some r ∧ (fact id).Holds fin (σ.define id r)) :
    Means names device known st (onModule x >>= fun id => push (.value op type id operands) >>= fun _ => pure (k id))
      P gains st := by
  intro s s' a hs _ h
  obtain ⟨id, t, hnew, h⟩ := bind_ok h
  obtain ⟨_, hpush, rfl⟩ := bind_pure_ok h
  cases hpush
  obtain ⟨hext, ht, hrange, hblock⟩ := onModule_ready hx hs hnew
  have hbound : id < t.module.bound := hrange.held id mem_cons_self
  have hpushed : t.Extends { t with block := t.block.push (.value op type id operands) } :=
    { Lowerer.Extends.refl t with code := prefix_append _ _ }
  rw [hgains]
  refine ⟨hext.trans hpushed, ht.push ?_, hP id, ?_, ?_⟩
  · rintro _ ⟨⟩
    exact hbound
  · exact forall_mem_cons.2 ⟨(hid id).symm ▸ hbound, nofun⟩
  · intro fin σ hfin hlast hσ hfacts
    have hmem : id ∈ results fin.block.instructions := by
      refine mem_filterMap.2 ⟨.value op type id operands, hlast.code.subset ?_, rfl⟩
      exact mem_append_right _ mem_cons_self
    obtain ⟨r, hr, hfact⟩ := hcompute fin σ id (hfin.pos_of_code hmem) hσ hfacts
    refine ⟨σ.define id r, ⟨⟨[.value op type id operands], ?_, ?_⟩, fun i hi => ?_⟩,
      hσ.define hfin hmem r, forall_mem_cons.2 ⟨hfact, nofun⟩⟩
    · rw [← hblock]
      rfl
    · rw [Machine.run?, Machine.execute?]
      simp [Inst.value, hr, Machine.run?]
    · have hne : i ≠ id := by
        rintro rfl
        exact UInt32.lt_irrefl _ (UInt32.lt_of_lt_of_le hi (hfresh _ _ _ (onModule_ok hnew).1))
      exact Function.update_of_ne hne _ _

theorem emitAs_means (hcompute : ∀ fin σ, fin.Agrees σ st → (∀ f ∈ known, f.Holds fin σ) → σ.compute? device op
      operands = some (.data atoms)) :
    Means names device known st (emitAs op type operands) (fun _ => True) (fun id => [.holds id atoms]) st :=
  emitNew_means (fun _ hJ => Module.freshId_keeps hJ)
    (fun _ _ _ h => (eq_of_freshId h).1 ▸ UInt32.le_refl _) (fun _ => trivial)
    (fun _ => rfl) (fun _ => rfl)
    fun fin σ _ _ hσ hfacts => ⟨_, hcompute fin σ hσ hfacts, Function.update_self _ _ _⟩

theorem emit_means (hcompute : ∀ fin σ, fin.Agrees σ st → (∀ f ∈ known, f.Holds fin σ) → σ.compute? device op
      operands = some (.data atoms)) :
    Means names device known st (emit op ty operands) (fun _ => True) (fun id => [.holds id atoms]) st :=
  (declareType_means ty).bind fun _ _ => emitAs_means hcompute

theorem emitOrDeclare_means (hcompute : ∀ fin σ, fin.Agrees σ st → (∀ f ∈ known, f.Holds fin σ) → σ.compute? device op
      operands = some (.data atoms)) :
    Means names device known st (emitOrDeclare false op ty operands) (fun _ => True) (fun id => [.holds id atoms]) st :=
  emit_means hcompute

/-! ## Memory -/

/-- The whole value or one lane. -/
def pick? : Option Word → Components → Option Components
  | none, whole => some whole
  | some lane, whole => whole[lane.toNat]?.map ([·])

/-- Replaces the whole value or one lane. -/
def put? : Option Word → Components → Components → Option Components
  | none, _, v => some v
  | some lane, whole, [l] => some (whole.set lane.toNat l)
  | some _, _, _ => none

theorem load?_of_points (hσ : fin.Agrees σ st) (h : (Fact.points pointer name lane).Holds fin σ)
    (hv : pick? lane (st name) = some v) : σ.load? pointer = some (v.map Literal.atom) := by
  obtain ⟨-, e, he, hqueued, hregister⟩ := h
  have hmemory := hσ.memory name e he hqueued
  rw [Machine.load?, hregister]
  cases lane with
  | none =>
    cases hv
    exact congrArg some hmemory
  | some lane =>
    obtain ⟨l, hl, rfl⟩ := Option.map_eq_some_iff.1 hv
    show (σ.memory e.id)[lane.toNat]?.map ([·]) = _
    rw [hmemory, getElem?_map, hl]
    rfl

theorem load_means (hstorage : e.storage = some .Function) (hpoints : .points e.id name lane ∈ known)
    (hv : pick? lane (st name) = some v) : Computes names device known st (load e) v st := by
  unfold load
  split
  case isTrue hcond =>
    -- Every pointer to a variable is loaded from.
    have hzero : e.id = noResult := by simpa [Entity.isValue, hstorage] using hcond
    intro s s' id hs hknown h
    obtain ⟨rfl, rfl⟩ := pure_ok h
    have hid : e.id < s.module.bound := hknown _ hpoints
    refine ⟨.refl s, hs, trivial, ?_, fun fin σ _ _ _ hfacts => ?_⟩
    · exact forall_mem_cons.2 ⟨hid, nofun⟩
    · have hpos : 0 < e.id := (hfacts _ hpoints).1
      rw [hzero] at hpos
      exact absurd hpos (by decide)
  case isFalse =>
    refine emitAs_means fun fin σ hσ hfacts => ?_
    rw [Machine.compute?, load?_of_points hσ (hfacts _ hpoints) hv]
    rfl

theorem store?_of_points {w : Components} (hfin : fin.Final) (hσ : fin.Agrees σ st)
    (h : (Fact.points pointer name lane).Holds fin σ) (hw : put? lane (st name) v = some w) :
    ∃ σ', σ.store? pointer (v.map Literal.atom) = some σ' ∧ σ'.registers = σ.registers ∧
      fin.Agrees σ' (Function.update st name w) := by
  obtain ⟨-, e, he, hqueued, hregister⟩ := h
  have hmemory := hσ.memory name e he hqueued
  have hagrees : fin.Agrees { σ with memory := Function.update σ.memory e.id (w.map Literal.atom) }
      (Function.update st name w) := by
    refine ⟨hσ.constants, hσ.pointers, fun name' e' he' hqueued' => ?_⟩
    by_cases hname : name' = name
    · subst hname
      rw [he] at he'
      cases he'
      rw [Function.update_self]
      exact Function.update_self _ _ _
    · have hne : e'.id ≠ e.id := fun hid => hname (hfin.2.names _ _ _ _ he' he hid)
      rw [Function.update_of_ne hname]
      exact (Function.update_of_ne hne _ _).trans (hσ.memory name' e' he' hqueued')
  refine ⟨{ σ with memory := Function.update σ.memory e.id (w.map Literal.atom) }, ?_, rfl, hagrees⟩
  unfold Machine.store?
  rw [hregister]
  cases lane with
  | none =>
    cases hw
    rfl
  | some lane =>
    match v, hw with
    | [l], hw =>
      cases hw
      simp [hmemory, map_set]

theorem store_means {value : Id} {w : Components} (hpoints : .points pointer name lane ∈ known)
    (hvalue : .holds value (v.map Literal.atom) ∈ known) (hw : put? lane (st name) v = some w) :
    Means names device known st (store pointer value) (fun _ => True) (fun _ => []) (Function.update st name w) := by
  intro s s' u hs _ h
  cases h
  refine ⟨{ Lowerer.Extends.refl s with code := prefix_append _ _ },
    hs.push nofun, trivial, nofun, fun fin σ hfin _ hσ hfacts => ?_⟩
  obtain ⟨σ', hstore, hregisters, hσ'⟩ := store?_of_points hfin hσ (hfacts _ hpoints) hw
  refine ⟨σ', ⟨⟨[.effect .Store [pointer, value]], rfl, ?_⟩, fun i _ => by rw [hregisters]⟩, hσ',
    nofun⟩
  have hdata : σ.data? value = some (v.map Literal.atom) := by
    have hholds : σ.registers value = some (.data (v.map Literal.atom)) := hfacts _ hvalue
    rw [Machine.data?, hholds]
  rw [Machine.run?, Machine.execute?]
  simp [Inst.effect, hdata, hstore, Machine.run?]

/-! ## Replication -/

theorem data?_of_holds {id : Id} (h : (Fact.holds id atoms).Holds fin σ) : σ.data? id = some atoms := by
  have hregister : σ.registers id = some (.data atoms) := h
  rw [Machine.data?, hregister]

theorem globals_of_declareComposite {constituents : List Id} {m' : Module} {id : Id}
    (h : declareComposite constituents ty m = (.ok id, m')) : m'.globals = m.globals := by
  obtain ⟨type, m₁, htype, h⟩ := bind_ok h
  have hglobals : m₁.globals = m.globals :=
    Module.globals_of_declaring [] (fun _ hJ => Module.declareType_steady hJ ty) htype
  rcases findOrMake_ok h with ⟨-, rfl⟩ | ⟨-, m₂, hmake, rfl⟩
  · exact hglobals
  · obtain ⟨-, next, -, rfl⟩ := eq_of_defineValue hmake
    exact hglobals

theorem declareSplat_means {id : Id} (n : Nat) (hconstant : .constant id a ∈ known) :
    Means names device known st (onModule (declareComposite (replicate n id) ty))
      (fun _ => True) (fun id' => [.holds id' (replicate n a)]) st := by
  intro s s' id' hs hknown h
  have hid : id < s.module.bound := hknown _ hconstant
  have hneed : ∀ k ∈ (replicate n id).map Known.value, k.Below s.module.bound :=
    forall_mem_map.2 fun i hi => (eq_of_mem_replicate hi).symm ▸ hid
  have hkeeps : ∀ L : Ledger Lowerer, Emitting L → Supplies L ((replicate n id).map .value)
      (onModule (declareComposite (replicate n id) ty)) :=
    fun L hL => onModule_keeps fun t => declareComposite_steady (hL.building t) (fun _ hi => hi) ty
  obtain ⟨hsound, hlocals, hgains⟩ := inRange_of_keeps _ hkeeps hs.sound hs.inRange hneed h
  obtain ⟨hrun, hframe⟩ := onModule_ok h
  have hfunc : s'.func = s.func := by rw [hframe]
  refine ⟨extends_of_keeps _ hkeeps h, ⟨hsound, hlocals, fun name hname => ?_, ?_⟩, trivial, ?_, ?_⟩
  · rw [globals_of_declareComposite hrun]
    exact hs.globals name hname
  · rw [hfunc]
    exact hs.placed
  · exact forall_mem_cons.2 ⟨hgains.known (.value id') mem_cons_self, nofun⟩
  · intro fin σ hfin hlast hσ hfacts
    refine ⟨σ, .of_block_eq (by rw [hframe]) σ, hσ, forall_mem_cons.2 ⟨?_, nofun⟩⟩
    obtain ⟨type, -, hregistered⟩ := declareComposite_ok hrun
    have hmem := hlast.module.declarations.subset (hsound.composites _ _ _ hregistered)
    exact hσ.constants id' _ (constant?_of_composite hfin.nodup_declarations hmem (hfacts _ hconstant))

theorem splat_means (s : Scalar) {id : Id} (n : Word) {constant : Bool}
    (hholds : .holds id [a] ∈ known) (hconstant : constant → .constant id a ∈ known) :
    Means names device known st (splat s id n constant) (fun _ => True)
      (fun id' => [.holds id' (replicate n.toNat a)]) st := by
  unfold splat composite
  split
  case isTrue h => exact declareSplat_means n.toNat (hconstant h)
  case isFalse =>
    refine emit_means fun fin σ _ hfacts => ?_
    rw [Machine.compute?, mapM_replicate (data?_of_holds (hfacts _ hholds))]
    simp

/-! ## Variables -/

theorem value_means (ty : Ty) (id : Id) :
    Means names device known st (value ty id) (fun e => load e = pure id) (fun _ => []) st :=
  (declareType_means ty).bind fun _ _ => .pure _ rfl (nil_subset _)

theorem storageClass_of_isLocal (name : String) (ty : Ty) (h : roles.isLocal) (version : Version) :
    (Variable.root name ty roles).storageClass version = .Function := by
  simp only [Roles.isLocal, Bool.and_eq_true, Bool.not_eq_true', Bool.or_eq_false_iff] at h
  obtain ⟨hlocal, ⟨⟨⟨⟨⟨houtput, hinput⟩, hbuiltin⟩, huniform⟩, hbuffer⟩, hpush⟩, -⟩ := h
  simp [Variable.storageClass, Variable.roles, hlocal, houtput, hinput, hbuiltin, huniform, hbuffer, hpush]

theorem declareByRole_present {locals : Scope} (hname : locals.get? name = some e) :
    declareByRole (some locals) (.root name ty roles) m = (.ok { entity := e }, m) := by
  have hlookup : m.lookup (some locals) (Variable.root name ty roles).outermost.name = some e := by
    show m.lookup (some locals) name = some e
    simp [Module.lookup, hname]
  unfold declareByRole
  rw [get_bind, hlookup]
  rfl

theorem declareByRole_absent (hlocal : roles.isLocal) {locals : Scope}
    (hglobal : m.globals.get? name = none) (hname : locals.get? name = none) :
    declareByRole (some locals) (.root name ty roles) m = newVariable name .Function ty m := by
  have hlookup : m.lookup (some locals) (Variable.root name ty roles).outermost.name = none := by
    show m.lookup (some locals) name = none
    simp [Module.lookup, hglobal, hname]
  have hspec : (Variable.root name ty roles).roles.specConstant = false := by
    simp only [Roles.isLocal, Bool.and_eq_true, Bool.not_eq_true', Bool.or_eq_false_iff] at hlocal
    exact hlocal.2.2
  have hdeclare : declareVariable (some locals) name .Function ty m = newVariable name .Function ty m := by
    unfold declareVariable
    rw [get_bind]
    simp [hname]
  unfold declareByRole
  rw [get_bind, hlookup, ← hdeclare, ← storageClass_of_isLocal name ty hlocal m.config.version]
  show (if (Variable.root name ty roles).roles.specConstant = true then _ else _ : Build Declared) m = _
  rw [if_neg (by simp [hspec])]
  exact bind_apply_ok (show (get : Build Module) m = (.ok m, m) from rfl) _

theorem resolve_local (hlocal : roles.isLocal) (hglobal : s.module.globals.get? name = none)
    (h : resolve (.root name ty roles) s = (.ok e, s')) : (s.func.locals.get? name = some e ∧ s' = s) ∨
      ∃ pointer m, e.storage = some .Function ∧ m.globals = s.module.globals ∧ s' = { s with
          module := m
          func := s.func.take name ⟨e, some (.localVariable pointer e.id)⟩ } := by
  unfold resolve at h
  rw [get_bind] at h
  obtain ⟨d, t, hdeclare, h⟩ := bind_ok h
  obtain ⟨hrun, hframe⟩ := onModule_ok hdeclare
  obtain ⟨_, u, hmodify, h⟩ := bind_ok h
  obtain ⟨rfl, rfl⟩ := pure_ok h
  cases hmodify
  cases hname : s.func.locals.get? name with
  | some e =>
    rw [declareByRole_present hname] at hrun
    obtain ⟨hd, hmodule⟩ := Prod.mk.inj hrun
    cases hd
    exact .inl ⟨rfl, hframe.trans (by rw [← hmodule])⟩
  | none =>
    rw [declareByRole_absent hlocal hglobal hname] at hrun
    obtain ⟨hstorage, -, -, pointer, -, hqueued⟩ := newVariable_declares _ _ _ _ _ _ hrun
    have hglobals : t.module.globals = s.module.globals := globals_of_declaring []
      (fun _ hJ _ => newVariable_keeps (N := .any) hJ (fun h => absurd rfl h) trivial fun h => absurd rfl h) hrun
    rw [if_pos rfl] at hqueued
    have hd : d = ⟨d.entity, some (.localVariable pointer d.entity.id)⟩ := by rw [← hqueued]
    refine .inr ⟨pointer, t.module, hstorage, hglobals, ?_⟩
    rw [← hd]
    exact congrArg (fun u : Lowerer => { u with func := u.func.take name d }) hframe

theorem resolve_means (hname : name ∈ names) (hlocal : roles.isLocal) :
    Means names device known st (resolve (.root name ty roles))
      (fun e => e.storage = some .Function) (fun e => [.points e.id name none]) st := by
  intro s s' e hs _ h
  have hext : s.Extends s' := extends_of_keeps [] (fun _ hL => resolve_steady hL fun _ => trivial) h
  obtain ⟨hsound, hlocals, hgains⟩ := inRange_of_keeps []
    (fun _ hL => resolve_steady hL fun _ => trivial) hs.sound hs.inRange (by simp) h
  have hid : e.id < s'.module.bound := hgains.known (.value e.id) mem_cons_self
  -- In both cases the name stands for a queued variable now.
  have hplaced : s'.Ready names ∧ s'.func.locals.get? name = some e ∧ s'.block = s.block := by
    rcases resolve_local hlocal (hs.globals name hname) h with ⟨hold, rfl⟩ | ⟨pointer, m, hstorage, hglobals, rfl⟩
    · exact ⟨hs, hold, rfl⟩
    · refine ⟨⟨hsound, hlocals, fun name' hname' => ?_, fun name' hname' e' he' => ?_⟩,
        OrderedMap.get?_put_self _ _ _, rfl⟩
      · exact hglobals ▸ hs.globals name' hname'
      · have hqueued : results (s.func.function.queued ++ [.localVariable pointer e.id]) =
            results s.func.function.queued ++ [e.id] := results_snoc _ rfl
        show _ ∧ e'.id ∈ results (s.func.function.queued ++ [.localVariable pointer e.id])
        rw [hqueued]
        rcases OrderedMap.eq_or_get?_of_get?_put he' with ⟨-, rfl⟩ | hold
        · exact ⟨hstorage, by simp⟩
        · obtain ⟨hstorage', hmem⟩ := hs.placed name' hname' e' hold
          exact ⟨hstorage', mem_append_left _ hmem⟩
  obtain ⟨hs', he, hblock⟩ := hplaced
  obtain ⟨hstorage, hqueued⟩ := hs'.placed name hname e he
  refine ⟨hext, hs', hstorage, forall_mem_singleton.2 hid, fun fin σ hfin hlast hσ _ => ?_⟩
  have hmem : e.id ∈ results fin.func.function.queued := (hlast.queued.filterMap _).subset hqueued
  refine ⟨σ, .of_block_eq hblock σ, hσ, forall_mem_singleton.2 ?_⟩
  exact ⟨hfin.pos_of_queued hmem, e, hlast.locals name e he, hmem, hσ.pointers e.id hmem⟩

end Lower

end Shader
