import Shader.Proofs.Descent
import Shader.Workbench.Operation

/-!
# What an operation changes

Some forty operations change a workbench in few ways: they build in the module, declare something in the
current function, lower into its current block, or begin, end and choose functions and blocks.
Invariants of runs are proved from these ways alone.
-/

namespace Shader

open List Option Module Work

variable {α : Type} {r : Rack α} {a : α} {w : Workbench} {op : Operation} {b : Block}

/-! ## Racks -/

namespace Rack

/-- What is on the rack at all. -/
def things (r : Rack α) : List α := r.places.filterMap id

theorem things_add (r : Rack α) (a : α) : (r.add a).things = r.things ++ [a] := by
  simp [things, add]

theorem exists_others (h : r.get? = some a) : ∃ before after, r.things = before ++ a :: after ∧
      (∀ a', (r.put a').things = before ++ a' :: after) ∧ r.takeAway.things = before ++ after := by
  obtain ⟨i, hcurrent, hplace⟩ := bind_eq_some_iff.1 h
  have hi : r.places[i]? = some (some a) := by
    cases hp : r.places[i]? with
    | none => rw [hp] at hplace; cases hplace
    | some o => rw [hp] at hplace; simpa using hplace
  obtain ⟨hlt, hget⟩ := List.getElem?_eq_some_iff.1 hi
  have hsplit : r.places = r.places.take i ++ some a :: r.places.drop (i + 1) := by
    rw [← hget, getElem_cons_drop, take_append_drop]
  refine ⟨(r.places.take i).filterMap id, (r.places.drop (i + 1)).filterMap id, ?_, ?_, ?_⟩
  · unfold things
    conv_lhs => rw [hsplit]
    simp
  · intro a'
    simp [things, put, hcurrent, set_eq_take_append_cons_drop, hlt]
  · simp [things, takeAway, hcurrent, set_eq_take_append_cons_drop, hlt]

section

variable (h : r.get? = some a)

include h

theorem mem_of_get? : a ∈ r.things := by
  obtain ⟨before, after, hthings, -⟩ := exists_others h
  simp [hthings]

theorem forall_put {Q : α → Prop} (hr : ∀ x ∈ r.things, Q x) {a' : α} (ha' : Q a') : ∀ x ∈ (r.put a').things, Q x := by
  obtain ⟨before, after, hthings, hput, -⟩ := exists_others h
  rw [hthings] at hr
  rw [hput]
  intro x hx
  rcases mem_append.1 hx with hx | hx
  · exact hr x (mem_append_left _ hx)
  · rcases mem_cons.1 hx with rfl | hx
    · exact ha'
    · exact hr x (mem_append_right _ (mem_cons_of_mem _ hx))

theorem takeAway_sublist : Sublist r.takeAway.things r.things := by
  obtain ⟨before, after, hthings, -, haway⟩ := exists_others h
  rw [hthings, haway]
  exact (sublist_cons_self a after).append_left before

theorem count_put (g : α → List Id) (a' : α) (i : Id) : ((r.put a').things.flatMap g).count i + (g a).count i =
      (r.things.flatMap g).count i + (g a').count i := by
  obtain ⟨before, after, hthings, hput, -⟩ := exists_others h
  simp only [hthings, hput, flatMap_append, flatMap_cons, count_append]
  omega

theorem count_takeAway (g : α → List Id) (i : Id) :
    (r.takeAway.things.flatMap g).count i + (g a).count i = (r.things.flatMap g).count i := by
  obtain ⟨before, after, hthings, -, haway⟩ := exists_others h
  simp only [hthings, haway, flatMap_append, flatMap_cons, count_append]
  omega

theorem put_subset {κ : Type} (g : α → List κ) (a' : α) : (r.put a').things.flatMap g ⊆ g a' ++ r.things.flatMap g := by
  obtain ⟨before, after, hthings, hput, -⟩ := exists_others h
  intro i hi
  simp only [hthings, hput, flatMap_append, flatMap_cons, mem_append] at hi ⊢
  tauto

end

section

variable {b : α} {i j : Nat}

theorem getElem?_of_current (hcurrent : r.current = some i) (h : r.get? = some a) : r.places[i]? = some (some a) := by
  rw [get?, hcurrent, bind_some] at h
  exact join_eq_some_iff.1 h

theorem mem_of_getElem? (h : r.places[i]? = some (some a)) : a ∈ r.things :=
  List.mem_filterMap.2 ⟨some a, List.mem_of_getElem? h, rfl⟩

theorem exists_getElem? (h : a ∈ r.things) : ∃ i : Nat, r.places[i]? = some (some a) := by
  obtain ⟨_, hmem, rfl⟩ := mem_filterMap.1 h
  exact mem_iff_getElem?.1 hmem

theorem getElem?_of_set {places : List (Option α)} {o : Option α}
    (h : (places.set j o)[i]? = some (some b)) : j = i ∧ o = some b ∨ places[i]? = some (some b) := by
  by_cases hij : j = i
  · subst hij
    obtain ⟨hlt, hget⟩ := List.getElem?_eq_some_iff.1 h
    rw [getElem_set_self] at hget
    exact .inl ⟨rfl, hget⟩
  · rw [getElem?_set_ne hij] at h
    exact .inr h

theorem current_or_getElem?_of_put (h : (r.put a).places[i]? = some (some b)) :
    r.current = some i ∧ a = b ∨ r.places[i]? = some (some b) := by
  unfold put at h
  cases hcurrent : r.current with
  | none =>
    rw [hcurrent] at h
    exact .inr h
  | some j =>
    rw [hcurrent] at h
    exact (getElem?_of_set h).imp_left fun h => ⟨congrArg some h.1, some.inj h.2⟩

theorem getElem?_of_takeAway (h : r.takeAway.places[i]? = some (some b)) : r.places[i]? = some (some b) := by
  unfold takeAway at h
  cases hcurrent : r.current with
  | none => rwa [hcurrent] at h
  | some j =>
    rw [hcurrent] at h
    exact (getElem?_of_set h).resolve_left (by simp)

theorem length_or_getElem?_of_add (h : (r.add a).places[i]? = some (some b)) :
    r.places.length = i ∧ a = b ∨ r.places[i]? = some (some b) := by
  replace h : (r.places ++ [some a])[i]? = some (some b) := h
  rcases Nat.lt_trichotomy i r.places.length with hlt | rfl | hgt
  · rw [getElem?_append_left hlt] at h
    exact .inr h
  · rw [getElem?_concat_length] at h
    exact .inl ⟨rfl, some.inj (some.inj h)⟩
  · rw [getElem?_eq_none (by simp; omega)] at h
    cases h

end

end Rack

theorem Block.terminate_ok {b' : Block} {inst : Inst} (h : b.terminate inst = .ok b') :
    b' = { b with terminator := some inst } ∧ inst.op.isTerminator := by
  unfold Block.terminate at h
  split at h
  · cases h
  case isFalse hop =>
    split at h <;> cases h
    exact ⟨rfl, by simpa using hop⟩

/-- A function with at least one block, all of whose blocks are terminated. -/
structure Function.Ended (f : Function) : Prop where
  blocks : f.blocks ≠ []
  terminated : ∀ b ∈ f.blocks, b.isTerminated

theorem Module.closeFunction_snd (f : FunctionScope) (m : Module) : f.function.Ended ∧
        (closeFunction f m).2 = { m with functions := m.functions ++ [f.function.hoist] } ∨
      (closeFunction f m).2 = m := by
  unfold closeFunction
  split
  · exact .inr rfl
  case isFalse hempty =>
    cases hfind : f.function.blocks.find? (!·.isTerminated) with
    | some b => exact .inr rfl
    | none =>
      refine .inl ⟨⟨by simpa using hempty, fun b hb => ?_⟩, rfl⟩
      simpa using find?_eq_none.1 hfind b hb

/-! ## Operations -/

/-- What resolving the variable may declare. -/
def Variable.names (v : Variable) : Names := fun name storage ty =>
  name = v.outermost.name ∧ (∃ version, storage = some (v.outermost.storageClass version)) ∧ ty = v.outermost.ty

theorem Variable.namedIn_names (v : Variable) : v.NamedIn v.names := fun version => ⟨rfl, ⟨version, rfl⟩, rfl⟩

namespace Operation

/-- Whether an operation makes up what it puts into the module, and takes none of it from outside. -/
def builds : Operation → Bool
  | .insert .. | .push _ | .reload | .load _ => false
  | _ => true

/-- The identifiers that an operation is told to make a constant of. -/
def refers : Operation → List Id
  | .composite constituents _ => constituents
  | _ => []

/-- The decorations that an operation is told to add. -/
def marks : Operation → List Inst
  | .decorate id d operands => [.effect .Decorate ([id, Enumerated.number d] ++ operands)]
  | .decorateMember id index d operands => [.effect .MemberDecorate ([id, index, Enumerated.number d] ++ operands)]
  | _ => []

theorem section_of_mem_marks {inst : Inst} (h : inst ∈ op.marks) : inst.op.section = .decorations ∧ inst.Remark := by
  cases op with
  | decorate | decorateMember =>
    cases mem_singleton.1 h
    exact ⟨rfl, nofun, rfl⟩
  | _ => cases h

/-- The name of the function that an operation opens. -/
def opens? : Operation → Option String
  | .openFunction name _ _ => some name
  | _ => none

/-- The names that an operation may introduce outside of functions and in the current function. -/
def names (w : Workbench) : Operation → Names
  | .specConstant name _ ty _ => fun n storage t => n = name ∧ storage = none ∧ t = ty
  | .declare name storage ty _ => fun n s t => n = name ∧ s = some storage ∧ t = ty
  | .resolve v _ => v.names
  | .interface => fun n s t => ∃ v ∈ w.requirements.inputs.values ++ w.requirements.outputs.values, v.names n s t
  | .lower e | .lowerPointer e => fun n s t => ∃ v, e.Uses v ∧ v.names n s t
  | _ => fun _ _ _ => False

end Operation

namespace Workbench

inductive Change (w : Workbench) (op : Operation) : Workbench → Prop where
  /-- A step of construction, whether it succeeds or not. -/
  | built {α : Type} (x : Build α) (needs : List Known) (requirements : Requirements)
      (keeps : ∀ J : Ledger Module, Building (op.names w) J → Upholds J needs x)
      (known : needs ⊆ op.refers.map .value ++ w.functions.things.flatMap (·.locals.known)) :
      Change w op { w with module := (x w.module).2, requirements }
  /-- A decoration that the operation was told to add. -/
  | marked (inst : Inst) (mem : inst ∈ op.marks) : Change w op { w with
        module := { w.module with decorations := w.module.decorations ++ [inst] } }
  /-- A variable that was looked up or declared for the current function. -/
  | declared (x : Build Declared) (name : String) (ty : Ty) (f : FunctionScope) (d : Declared)
      (m : Module) (current : w.functions.get? = some f)
      (keeps : ∀ J : Ledger Module, Building (op.names w) J → Keeps J [] f.locals.known x Declared.held Declared.known)
      (isNew : ∀ inst, d.queued = some inst →
        op.names w name (some .Function) ty ∧ NewLocal m (some f.locals) name ty d inst)
      (run : x w.module = (.ok d, m)) :
      Change w op { w with module := m, functions := w.functions.put (f.take name d) }
  /-- A local variable without a name. -/
  | queued (ty : Ty) (f : FunctionScope) (id pointer : Id) (m : Module) (current : w.functions.get? = some f)
      (run : declareTemporary ty w.module = (.ok (id, .localVariable pointer id), m)) :
      Change w op { w with
        module := m, functions := w.functions.put (f.queue (.localVariable pointer id)) }
  /-- An expression lowered into the current block, whether it succeeds or not. -/
  | lowered (x : Lower Id) (f : FunctionScope) (b : Block) (s : Lowerer)
      (currentFunction : w.functions.get? = some f) (currentBlock : w.blocks.get? = some b)
      (keeps : ∀ L : Ledger Lowerer, Tracing (.naming (op.names w)) L → Supplies L [] x)
      (run : (x ⟨w.module, f, b, 0⟩).2 = s) :
      Change w op { w with
        module := s.module, functions := w.functions.put s.func, blocks := w.blocks.put s.block }
  | opened (name : String) (ret : Ty) (params : List Variable) (f : FunctionScope) (m : Module)
      (isOpen : op = .openFunction name ret params)
      (run : openFunction name ret params w.module = (.ok f, m)) :
      Change w op { w with module := m, functions := w.functions.add f }
  | labelled (b : Block) (m : Module) (run : freshBlock w.module = (.ok b, m)) :
      Change w op { w with module := m, blocks := w.blocks.add b }
  | chosen (functions blocks : Option Nat) : Change w op { w with
        functions := { w.functions with current := functions }
        blocks := { w.blocks with current := blocks } }
  | terminated (b : Block) (inst : Inst) (current : w.blocks.get? = some b) (ends : inst.op.isTerminator) :
      Change w op { w with blocks := w.blocks.put { b with terminator := some inst } }
  | appended (f : FunctionScope) (b : Block) (currentFunction : w.functions.get? = some f)
      (currentBlock : w.blocks.get? = some b) :
      Change w op { w with
        functions := w.functions.put (f.appendBlock b), blocks := w.blocks.takeAway }
  | closed (f : FunctionScope) (current : w.functions.get? = some f) (ended : f.function.Ended) : Change w op { w with
        module := { w.module with functions := w.module.functions ++ [f.function.hoist] }
        functions := w.functions.takeAway }
  | dropped (f : FunctionScope) (current : w.functions.get? = some f) :
      Change w op { w with functions := w.functions.takeAway }

theorem Change.unchanged : Change w op w := .chosen w.functions.current w.blocks.current

theorem Change.ofBuild {x : Build α} {gives : α → List Id} {gains : α → List Known}
    (keeps : ∀ J : Ledger Module, Building (op.names w) J → Keeps J [] [] x gives gains) :
    Change w op { w with module := (x w.module).2 } := by
  refine .built x [] w.requirements (fun J hJ => ?_) (nil_subset _)
  exact (keeps J hJ).weaken (fun _ => nil_subperm) (fun _ => nil_subset _)

theorem Change.ofError {x : Build α} {e : Fault} {m : Module} {gives : α → List Id} {gains : α → List Known}
    (keeps : ∀ J : Ledger Module, Building (op.names w) J → Keeps J [] [] x gives gains)
    (run : x w.module = (.error e, m)) : Change w op { w with module := m } := by
  have h : Change w op { w with module := (x w.module).2 } := .ofBuild keeps
  rw [run] at h
  exact h

end Workbench

/-! ## Steps of work -/

namespace Work

variable {β : Type}

theorem bind_apply (x : Work α) (f : α → Work β) (w : Workbench) : (x >>= f) w = match x w with
      | (.ok a, w') => f a w'
      | (.error e, w') => (.error e, w') := by
  show (match x w with | (a, w') => ExceptT.bindCont f a w') = _
  rcases x w with ⟨_ | a, w'⟩ <;> rfl

theorem get_bind (f : Workbench → Work β) (w : Workbench) : ((get : Work Workbench) >>= f) w = f w w := rfl

theorem bind_pure_snd (x : Work α) (g : α → β) (w : Workbench) :
    ((x >>= fun a => (pure (g a) : Work β)) w).2 = (x w).2 := by
  rw [bind_apply]
  rcases x w with ⟨_ | a, w'⟩ <;> rfl

theorem onModule_apply (x : Build α) (w : Workbench) : onModule x w = match x w.module with
      | (.ok a, m) => (.ok a, { w with module := m })
      | (.error e, m) => (.error (.fault e), { w with module := m }) := by
  unfold onModule
  rw [get_bind]
  rcases x w.module with ⟨_ | a, m⟩ <;> rfl

theorem onModule_bind_snd (x : Build α) (g : α → β) (w : Workbench) :
    ((onModule x >>= fun a => (pure (g a) : Work β)) w).2 = { w with module := (x w.module).2 } := by
  rw [bind_pure_snd, onModule_apply]
  rcases x w.module with ⟨_ | a, m⟩ <;> rfl

theorem currentFunction_cases (g : FunctionScope → Work β) (w : Workbench) :
    (∃ f, w.functions.get? = some f ∧ (currentFunction >>= g) w = g f w) ∨
      w.functions.get? = none ∧ (currentFunction >>= g) w = (.error .noFunction, w) := by
  rw [bind_apply, currentFunction, get_bind]
  cases w.functions.get? with
  | none => exact .inr ⟨rfl, rfl⟩
  | some f => exact .inl ⟨f, rfl, rfl⟩

theorem currentBlock_cases (g : Block → Work β) (w : Workbench) :
    (∃ b, w.blocks.get? = some b ∧ (currentBlock >>= g) w = g b w) ∨
      w.blocks.get? = none ∧ (currentBlock >>= g) w = (.error .noBlock, w) := by
  rw [bind_apply, currentBlock, get_bind]
  cases w.blocks.get? with
  | none => exact .inr ⟨rfl, rfl⟩
  | some b => exact .inl ⟨b, rfl, rfl⟩

/-- Lowering needs a function and a block, and what it does to them stays even if it fails. -/
theorem lowering_cases (x : Lower α) (w : Workbench) : (∃ f b r s, w.functions.get? = some f ∧
        w.blocks.get? = some b ∧ x ⟨w.module, f, b, 0⟩ = (r, s) ∧
        lowering x w = (r.mapError .fault, { w with
          module := s.module, functions := w.functions.put s.func, blocks := w.blocks.put s.block })) ∨
      (w.functions.get? = none ∨ w.blocks.get? = none) ∧ ∃ e, lowering x w = (.error e, w) := by
  unfold lowering
  rcases currentFunction_cases _ w with ⟨f, hf, h⟩ | ⟨hf, h⟩
  · rw [h]
    rcases currentBlock_cases _ w with ⟨b, hb, h⟩ | ⟨hb, h⟩
    · rw [h, get_bind]
      rcases hx : x ⟨w.module, f, b, 0⟩ with ⟨_ | a, s⟩ <;>
        exact .inl ⟨f, b, _, s, hf, hb, hx, rfl⟩
    · exact .inr ⟨.inr hb, _, h⟩
  · exact .inr ⟨.inl hf, _, h⟩

theorem lowering_apply {x : Lower α} {f : FunctionScope} {r : Except Fault α} {s : Lowerer}
    (hf : w.functions.get? = some f) (hb : w.blocks.get? = some b)
    (h : x ⟨w.module, f, b, 0⟩ = (r, s)) : (lowering x w).2 = { w with
      module := s.module, functions := w.functions.put s.func, blocks := w.blocks.put s.block } := by
  rcases lowering_cases x w with ⟨f', b', r', s', hf', hb', h', hx⟩ | ⟨hnone | hnone, -⟩
  · cases hf.symm.trans hf'
    cases hb.symm.trans hb'
    cases h.symm.trans h'
    rw [hx]
  · cases hf.symm.trans hnone
  · cases hb.symm.trans hnone

end Work

namespace Workbench

theorem effect_change {x : Build Unit} (keeps : ∀ J : Ledger Module, Building (op.names w) J → Upholds J [] x) :
    Change w op (Operation.effect x w).2 := by
  rw [Operation.effect, onModule_bind_snd]
  exact .ofBuild keeps

theorem yielding_change {x : Build Id} {gives : Id → List Id} {gains : Id → List Known}
    (keeps : ∀ J : Ledger Module, Building (op.names w) J → Keeps J [] [] x gives gains) :
    Change w op (Operation.yielding x w).2 := by
  rw [Operation.yielding, onModule_bind_snd]
  exact .ofBuild keeps

theorem lowering_change {x : Lower Id}
    (keeps : ∀ L : Ledger Lowerer, Tracing (.naming (op.names w)) L → Supplies L [] x) :
    Change w op ((lowering x >>= fun id => pure (.id id) : Work Answer) w).2 := by
  rw [bind_pure_snd]
  rcases lowering_cases x w with ⟨f, b, r, s, hf, hb, hx, h⟩ | ⟨-, e, h⟩ <;> rw [h]
  · exact .lowered x f b s hf hb keeps (congrArg Prod.snd hx)
  · exact .unchanged

theorem locals?_eq_some {global : Bool} {scope : Scope} (h : w.locals? global = some scope) :
    ∃ f, w.functions.get? = some f ∧ scope = f.locals := by
  unfold locals? at h
  split at h
  · cases h
  · obtain ⟨f, hf, rfl⟩ := map_eq_some_iff.1 h
    exact ⟨f, hf, rfl⟩

theorem declare_change {x : Option Scope → Build Declared} {name : String} (ty : Ty) (global : Bool)
    (keeps : ∀ J : Ledger Module, Building (op.names w) J → ∀ (locals : Option Scope) (need : List Known),
      (∀ name e, locals.bind (·.get? name) = some e → e.known ⊆ need) →
      Keeps J [] need (x locals) Declared.held Declared.known)
    (isNew : ∀ locals, (x locals).Ensures fun d m => ∀ inst, d.queued = some inst →
      op.names w name (some .Function) ty ∧ Module.NewLocal m locals name ty d inst) :
    Change w op ((Work.declare name global x >>= fun e => pure (.entity e) : Work Answer) w).2 := by
  have hbuilt : Change w op { w with module := (x (w.locals? global) w.module).2 } := by
    refine .built _ (w.functions.things.flatMap (·.locals.known)) w.requirements (fun J hJ => ?_)
      (subset_append_right _ _)
    refine (keeps J hJ _ _ fun name e h => ?_).weaken (fun _ => nil_subperm) (fun _ => nil_subset _)
    obtain ⟨scope, hscope, he⟩ := bind_eq_some_iff.1 h
    obtain ⟨f, hf, rfl⟩ := locals?_eq_some hscope
    exact fun k hk => mem_flatMap.2 ⟨f, Rack.mem_of_get? hf, Scope.known_subset he hk⟩
  rw [Work.bind_pure_snd]
  show Change w op ((Work.onModule (x (w.locals? global)) >>= _ : Work Entity) w).2
  rw [Work.bind_apply, Work.onModule_apply]
  rcases hrun : x (w.locals? global) w.module with ⟨e | d, m⟩
  · rw [hrun] at hbuilt
    exact hbuilt
  · dsimp only
    rw [Work.get_bind]
    cases hf : w.functions.get? with
    | none =>
      rw [hrun] at hbuilt
      exact hbuilt
    | some f =>
      have hscope : ∀ scope, w.locals? global = some scope → scope = f.locals := by
        intro scope h
        obtain ⟨f', hf', rfl⟩ := locals?_eq_some h
        rw [hf] at hf'
        cases hf'
        rfl
      refine .declared (x (w.locals? global)) name ty f d m hf (fun J hJ => ?_) ?_ hrun
      · refine keeps J hJ _ _ fun name e h => ?_
        obtain ⟨scope, h, he⟩ := bind_eq_some_iff.1 h
        exact hscope scope h ▸ Scope.known_subset he
      · intro inst hq
        obtain ⟨hname, hnew⟩ := isNew _ _ _ _ hrun inst hq
        obtain ⟨scope, h⟩ := isSome_iff_exists.1 hnew.inScope
        rw [h, hscope scope h] at hnew
        exact ⟨hname, hnew⟩

theorem perform_change (hop : op.builds) : Change w op (w.perform op).2 := by
  unfold perform
  cases op with
  | freshId => exact yielding_change fun J hJ => freshId_keeps hJ.toDeclaring
  | glslStd450 => exact yielding_change fun J hJ => importGlslStd450_steady hJ id
  | takeIntermediate => exact yielding_change fun J hJ => takeIntermediate_keeps hJ.toDeclaring
  | releaseIntermediate id => exact effect_change fun J hJ => releaseIntermediate_steady hJ.toDeclaring id
  | capability c => exact effect_change fun J hJ => addCapability_steady hJ.toDeclaring c
  | extension name => exact effect_change fun J hJ => addExtension_steady hJ.toDeclaring name
  | scan e => exact .built (pure () : Build Unit) [] _ (fun J hJ => Steady.done _) (nil_subset _)
  | requirements => exact effect_change fun J hJ => addRequirements_steady hJ.toDeclaring w.requirements
  | interface =>
    show Change w _ ((Work.onModule (declareInterface w.requirements) >>= fun p =>
      pure (.interface p.1 p.2) : Work Answer) w).2
    rw [onModule_bind_snd]
    refine .ofBuild fun J hJ => declareInterface_steady hJ fun v hv version => ?_
    exact ⟨v, hv, v.namedIn_names version⟩
  | entryPoint function name inputs outputs =>
    exact effect_change fun J hJ => setEntryPoint_steady hJ.toDeclaring _ _ _ _
  | executionMode mode operands => exact effect_change fun J hJ => addExecutionMode_steady hJ.toDeclaring _ _
  | insert target inst => cases hop
  | decorate id d operands => exact .marked _ mem_cons_self
  | decorateMember id index d operands => exact .marked _ mem_cons_self
  | setLocation id location => exact effect_change fun J hJ => decorate_keeps hJ.toDeclaring _ _ rfl nofun
  | bindResource id binding set => exact effect_change fun J hJ => bindResource_steady hJ.toDeclaring _ _ _
  | bindBuffer name binding set mark => exact effect_change fun J hJ => bindBuffer_steady hJ.toDeclaring _ _ _ _
  | type ty layout => exact yielding_change fun J hJ => declareTypeWith_steady hJ.toDeclaring _ _ _ _
  | tupleType members => exact yielding_change fun J hJ => declareTuple_steady hJ.toDeclaring nofun
  | pointerType pointee storage => exact yielding_change fun J hJ => declarePointer_steady hJ.toDeclaring _ nofun
  | functionType ret params => exact yielding_change fun J hJ => declareSignature_steady hJ.toDeclaring nofun
  | literal value => exact yielding_change fun J hJ => declareLiteral_steady hJ.toDeclaring _
  | composite constituents ty =>
    rw [Operation.perform, Operation.yielding, onModule_bind_snd]
    refine .built _ (constituents.map .value) w.requirements (fun J hJ => ?_) (subset_append_left _ _)
    exact Steady.forget (declareComposite_steady hJ (fun _ hk => hk) ty)
  | specConstant name specId ty default =>
    exact yielding_change fun J hJ => declareSpecialization_steady hJ ⟨rfl, rfl, rfl⟩ specId default
  | specConstantOp ty op operands => exact yielding_change fun J hJ => declareFolded_steady hJ _ _ _
  | declare name storage ty global =>
    refine declare_change ty global (fun J hJ locals need h => declareVariable_keeps hJ h ⟨rfl, rfl, rfl⟩)
      (fun locals m d m' hrun inst hq => ?_)
    obtain ⟨rfl, hnew⟩ := declareVariable_queued locals name storage ty m d m' hrun inst hq
    exact ⟨⟨rfl, rfl, rfl⟩, hnew⟩
  | resolve v global =>
    refine declare_change v.outermost.ty global (fun J hJ locals need h => declareByRole_keeps hJ h v.namedIn_names)
      (fun locals m d m' hrun inst hq => ?_)
    obtain ⟨⟨version, hversion⟩, -, hnew⟩ := declareByRole_queued locals v m d m' hrun inst hq
    exact ⟨⟨rfl, ⟨version, by rw [hversion]⟩, rfl⟩, hnew⟩
  | memberVariable outer name index global =>
    show Change w _ (Operation.yielding (nameMember (w.locals? global) outer name index) w).2
    rw [Operation.yielding, onModule_bind_snd]
    refine .built _ (w.functions.things.flatMap (·.locals.known)) w.requirements (fun J hJ => ?_)
      (subset_append_right _ _)
    refine nameMember_steady hJ (fun scope h k hk => ?_) _ _ _
    obtain ⟨f, hf, rfl⟩ := locals?_eq_some h
    exact mem_flatMap.2 ⟨f, Rack.mem_of_get? hf, hk⟩
  | tempVariable ty =>
    rcases currentFunction_cases _ w with ⟨f, hf, h⟩ | ⟨-, h⟩ <;> rw [Operation.perform, h]
    · rw [Work.bind_apply, Work.onModule_apply]
      rcases hrun : declareTemporary ty w.module with ⟨e | ⟨id, inst⟩, m⟩
      · exact .ofError (fun J hJ => declareTemporary_keeps hJ.toDeclaring ty) hrun
      · obtain ⟨pointer, hinst⟩ := declareTemporary_queued ty _ _ _ hrun
        obtain rfl : inst = .localVariable pointer id := hinst
        exact .queued ty f id pointer m hf hrun
    · exact .unchanged
  | functionNamed name => exact yielding_change fun J hJ => functionNamed_steady hJ name
  | openFunction name ret params =>
    rw [Operation.perform, Work.bind_apply, Work.onModule_apply]
    rcases hrun : openFunction name ret params w.module with ⟨e | f, m⟩
    · exact .ofError (fun J hJ => openFunction_keeps hJ name ret params) hrun
    · exact .opened name ret params f m rfl hrun
  | freshBlock =>
    rw [Operation.perform, Work.bind_apply, Work.onModule_apply]
    rcases hrun : freshBlock w.module with ⟨e | b, m⟩
    · exact .ofError (fun J hJ => freshBlock_keeps hJ.toDeclaring) hrun
    · exact .labelled b m hrun
  | useFunction i => exact .chosen (some i) w.blocks.current
  | useBlock i => exact .chosen w.functions.current (some i)
  | push inst => cases hop
  | terminate inst =>
    rcases currentBlock_cases _ w with ⟨b, hb, h⟩ | ⟨-, h⟩ <;> rw [Operation.perform, h]
    · cases ht : b.terminate inst with
      | error e => exact .unchanged
      | ok b' =>
        obtain ⟨rfl, hends⟩ := Block.terminate_ok ht
        exact .terminated b inst hb hends
    · exact .unchanged
  | appendBlock =>
    rcases currentFunction_cases _ w with ⟨f, hf, h⟩ | ⟨-, h⟩ <;> rw [Operation.perform, h]
    · rcases currentBlock_cases _ w with ⟨b, hb, h⟩ | ⟨-, h⟩ <;> rw [h]
      · exact .appended f b hf hb
      · exact .unchanged
    · exact .unchanged
  | closeFunction =>
    rcases currentFunction_cases _ w with ⟨f, hf, h⟩ | ⟨-, h⟩ <;> rw [Operation.perform, h]
    · show Change w _ (Operation.yielding (closeFunction f) { w with functions := w.functions.takeAway }).2
      rw [Operation.yielding, onModule_bind_snd]
      rcases closeFunction_snd f w.module with ⟨hended, h⟩ | h <;> rw [h]
      · exact .closed f hf hended
      · exact .dropped f hf
    · exact .unchanged
  | lower e =>
    exact lowering_change fun L hL => Lower.lower_steady hL
      (Expr.meets_naming fun v hv version => ⟨v, hv, v.namedIn_names version⟩) rfl
  | lowerPointer e =>
    exact lowering_change fun L hL => Lower.lowerPointer_steady hL
      (Expr.meets_naming fun v hv version => ⟨v, hv, v.namedIn_names version⟩) rfl
  | reload => cases hop
  | load words => cases hop

end Workbench

end Shader
