import Mathlib.Data.List.Nodup
import Shader.Proofs.Registry

/-!
# Every identifier is defined once

Identifiers are handed out before they are defined, and some never are. Still no two definitions in a
module share one: what is held back, what the module defines and what functions are called by are
distinct at all times.
-/

namespace Shader

open List OrderedMap

variable {held : List Id} {m m' : Module} {next : Id} {f : FunctionScope} {name : String}

/-! ## Distinct identifiers -/

/-- The identifiers that a module defines or reserves outside of functions. -/
def Module.ids (m : Module) : List Id := results m.imports ++ (results m.declarations ++ m.functionIds.values)

/-- Identifiers are in range, and each is held or defined once. -/
structure Distinct (held : List Id) (m : Module) : Prop where
  bound : 0 < m.bound
  once : ∀ id, (held ++ m.ids).count id ≤ 1
  inRange : ∀ id ∈ held ++ m.ids, 0 < id ∧ id < m.bound

namespace Distinct

variable {held' : List Id}

theorem moved (h : Distinct held m) (hcount : ∀ id, (held' ++ m'.ids).count id ≤ (held ++ m.ids).count id)
    (hbound : m'.bound = m.bound) : Distinct held' m' where
  bound := hbound ▸ h.bound
  once id := Nat.le_trans (hcount id) (h.once id)
  inRange id hid := by
    rw [hbound]
    refine h.inRange id (count_pos_iff.1 ?_)
    exact Nat.lt_of_lt_of_le (count_pos_iff.2 hid) (hcount id)

theorem fresh (h : Distinct held m) (hnext : Word.add m.bound 1 = .ok next) :
    Distinct (m.bound :: held) { m with bound := next } where
  bound := UInt32.lt_trans h.bound (Word.lt_of_add_one hnext)
  once id := by
    have hid := h.once id
    rw [cons_append, count_cons]
    split
    case isTrue heq =>
      obtain rfl : m.bound = id := by simpa using heq
      have habsent : m.bound ∉ held ++ m.ids := fun hmem => UInt32.lt_irrefl _ (h.inRange _ hmem).2
      exact Nat.succ_le_succ (Nat.le_of_eq (count_eq_zero_of_not_mem habsent))
    case isFalse => exact hid
  inRange id hid := by
    have hlt := Word.lt_of_add_one hnext
    rcases mem_cons.1 hid with rfl | hid
    · exact ⟨h.bound, hlt⟩
    · exact ⟨(h.inRange id hid).1, UInt32.lt_trans (h.inRange id hid).2 hlt⟩

end Distinct

/-- Every identifier is held or defined once. -/
def Ledger.distinct : Ledger Module where
  Stands held _ m := Distinct held m
  drop h hheld _ := h.moved (fun id => ((subperm_append_right _).2 hheld).count_le id) rfl

/-- A property that stands while no identifier is there more often than before, and through new ones. -/
structure Tallying (P : List Id → Module → Prop) : Prop where
  moved : ∀ {held held' : List Id} {m m' : Module}, P held m →
    (∀ id, (held' ++ m'.ids).count id ≤ (held ++ m.ids).count id) → m'.bound = m.bound → P held' m'
  fresh : ∀ {held : List Id} {m : Module} {next : Id}, P held m →
    Word.add m.bound 1 = .ok next → P (m.bound :: held) { m with bound := next }

namespace Tallying

variable {P : List Id → Module → Prop} (hP : Tallying P)

include hP

theorem noted (h : P held m) (hm : m.Noted m') : P held m' := by
  rw [hm]
  exact hP.moved h (fun _ => Nat.le_refl _) rfl

theorem declared {id : Id} {inst : Inst} (h : P (id :: held) m) (hid : inst.result = some id)
    (hdecl : m'.declarations = m.declarations ++ [inst]) (himports : m'.imports = m.imports)
    (hnames : m'.functionIds = m.functionIds) (hbound : m'.bound = m.bound) : P held m' := by
  refine hP.moved h (fun i => ?_) hbound
  simp only [Module.ids, hdecl, himports, hnames, results_snoc _ hid, count_append, count_cons, count_nil, cons_append]
  omega

theorem registered (h : P held m) (hname : m.functionIds.get? name = none) (hnext : Word.add m.bound 1 = .ok next) :
    P held { m with bound := next, functionIds := m.functionIds.put name m.bound } :=
  hP.moved (hP.fresh h hnext) (fun i => by
    simp only [Module.ids, values_put_of_absent m.bound hname, count_append, count_cons, count_nil, cons_append]
    omega) rfl

theorem stepwise {J : Ledger Module} (hJ : J.Stands = fun held _ m => P held m) : Stepwise J := by
  obtain ⟨_, _, _⟩ := J
  subst hJ
  exact {
    alike := fun h ha => hP.noted h ha.noted
    note := fun inst h hs _ => hP.noted h (Module.noted_insert _ hs inst)
    name := fun h _ => hP.noted h rfl
    fresh := fun h hnext => hP.fresh h hnext
    type := fun _ h _ => hP.declared h rfl rfl rfl rfl rfl
    remember := fun h _ hm' => hP.moved h (fun _ => by rw [hm'.same]; exact Nat.le_refl _) (by rw [hm'.same])
    literal := fun _ h _ _ hnext => hP.declared (hP.fresh h hnext) rfl rfl rfl rfl rfl }

theorem building {J : Ledger Module} (hJ : J.Stands = fun held _ m => P held m) : Building .any J := by
  have hstepwise := hP.stepwise hJ
  obtain ⟨_, _, _⟩ := J
  subst hJ
  exact {
    toDeclaring := hstepwise.declaring
    composite := fun h _ _ _ hnext => hP.declared (hP.fresh h hnext) rfl rfl rfl rfl rfl
    specialize := fun _ _ h _ _ => hP.declared h rfl rfl rfl rfl rfl
    globalVariable := fun _ h _ _ _ => hP.declared h rfl rfl rfl rfl rfl
    global := fun h _ _ _ => hP.moved h (fun _ => Nat.le_refl _) rfl
    imported := fun _ h hnext => hP.moved (hP.fresh h hnext) (fun i => by
      simp only [Module.ids, results, filterMap_append, filterMap_cons, filterMap_nil,
        count_append, count_cons, count_nil, cons_append]
      omega) rfl
    named := fun h hname hnext => hP.registered h hname hnext
    member := fun h _ _ => hP.noted h rfl }

end Tallying

theorem tallying_distinct : Tallying Distinct := ⟨Distinct.moved, Distinct.fresh⟩

theorem stepwise_distinct : Stepwise .distinct := tallying_distinct.stepwise rfl

theorem building_distinct : Building .any .distinct := tallying_distinct.building rfl

/-! ## Names in functions -/

/-- Different names stand for different identifiers. -/
def Scope.Separate (scope : Scope) : Prop :=
  ∀ name name' e e', scope.get? name = some e → scope.get? name' = some e' → e.id = e'.id → name = name'

theorem Scope.Separate.put {scope : Scope} (h : scope.Separate) (name : String) {e : Entity}
    (hnew : ∀ name' e', scope.get? name' = some e' → e.id ≠ e'.id) : Scope.Separate (scope.put name e) := by
  intro x y ex ey hx hy hid
  rw [get?_put] at hx hy
  split at hx <;> split at hy
  · simp_all
  · cases hx
    exact absurd hid (hnew y ey hy)
  · cases hy
    exact absurd hid.symm (hnew x ex hx)
  · exact h x y ex ey hx hy hid

/-- Names of a function stand for different parameters and variables of it. -/
structure FunctionScope.Separate (f : FunctionScope) : Prop where
  names : f.locals.Separate
  placed : ∀ name e, f.locals.get? name = some e → e.id ∈ f.function.params.map (·.2) ∨
      e.storage = some .Function ∧ e.id ∈ results f.function.queued

theorem FunctionScope.Separate.mem_ids (h : f.Separate) {e : Entity}
    (he : f.locals.get? name = some e) : e.id ∈ f.function.ids := by
  rcases h.placed name e he with hp | ⟨-, hq⟩
  · exact mem_append_left _ hp
  · exact mem_append_right _ (mem_append_left _ hq)

theorem Module.Opens.separate {locals scope : Scope} {params : List Variable} {ids : List (Id × Id)}
    (h : m.Opens locals params ids scope) (hnodup : (ids.map (·.2)).Nodup) (hlocals : locals.Separate)
    (hapart : ∀ name e, locals.get? name = some e → e.id ∉ ids.map (·.2)) : scope.Separate := by
  induction h with
  | nil => exact hlocals
  | @cons locals _ param _ _ e _ _ _ ih =>
    obtain ⟨hid, hids⟩ := nodup_cons.1 hnodup
    have hput : Scope.Separate (locals.put param.name e) :=
      hlocals.put param.name fun name e he heq => hapart name e he (heq ▸ mem_cons_self)
    refine ih hids hput fun name e' he' => ?_
    rcases eq_or_get?_of_get?_put he' with ⟨-, rfl⟩ | hold
    · exact hid
    · exact fun hmem => hapart name e' hold (mem_cons_of_mem _ hmem)

theorem Module.Begins.separate {ret : Ty} {params : List Variable}
    (h : m.Begins name ret params f) (hnodup : f.function.ids.Nodup) : f.Separate where
  names := h.opens.separate (nodup_append.1 hnodup).1 (fun _ _ _ _ he => nomatch he) (fun _ _ he => nomatch he)
  placed _ _ he := .inl (h.id_mem (mem_values he))

theorem Distinct.nodup (h : Distinct held m) : held.Nodup := Nodup.of_append_left (nodup_iff_count_le_one.2 h.once)

theorem running_distinct : Running .distinct FunctionScope.Separate where
  building := building_distinct
  opened hrun hm := (Module.openFunction_begins hrun).separate hm.nodup
  queue pointer id h := by
    refine ⟨h.names, fun name e he => ?_⟩
    rcases h.placed name e he with hp | ⟨hstorage, hq⟩
    · exact .inl hp
    · refine .inr ⟨hstorage, ?_⟩
      show e.id ∈ results (_ ++ [_])
      rw [results_append]
      exact mem_append_left _ hq
  take {f name e known m} pointer h hm hstorage habsent := by
    have hnew : e.id ∉ f.function.ids := (nodup_cons.1 hm.nodup).1
    refine ⟨h.names.put name fun name' e' he' heq => hnew (heq ▸ h.mem_ids he'), ?_⟩
    intro name' e' he'
    have hqueued : results (f.function.queued ++ [.localVariable pointer e.id]) =
        results f.function.queued ++ [e.id] := results_snoc _ rfl
    show _ ∨ _ ∧ e'.id ∈ results (f.function.queued ++ [.localVariable pointer e.id])
    rw [hqueued]
    rcases eq_or_get?_of_get?_put he' with ⟨-, rfl⟩ | hold
    · exact .inr ⟨hstorage, by simp⟩
    · rcases h.placed name' e' hold with hp | ⟨hs, hq⟩
      · exact .inl hp
      · exact .inr ⟨hs, mem_append_left _ hq⟩
  appended b h := ⟨h.names, h.placed⟩
  closed _ h := h.moved (fun _ => Nat.le_refl _) rfl

/-! ## Functions and their names -/

def Function.header (f : Function) : String × Id := (f.name, f.id)

namespace Workbench

/-- The names and identifiers of all functions, finished or not. -/
def headers (w : Workbench) : List (String × Id) :=
  w.module.functions.map Function.header ++ w.functions.things.map (·.function.header)

/-- Functions are known to the module by their names, which it gives them in its listing. -/
def Registered (w : Workbench) : Prop :=
  ∀ h ∈ w.headers, w.module.functionIds.get? h.1 = some h.2 ∧ .nameOf h.2 h.1 ∈ w.module.debug

variable {w w' : Workbench} {op : Operation}

theorem headers_put {f' : FunctionScope} (blocks : Rack Block) (current : w.functions.get? = some f)
    (hm : m.functions = w.module.functions) (hf : f'.function.header = f.function.header) :
    headers { w with module := m, functions := w.functions.put f', blocks } = w.headers := by
  obtain ⟨before, after, hthings, hput, -⟩ := Rack.exists_others current
  simp only [headers, hm, hthings, hput, map_append, map_cons, hf]

theorem hoist_header (f : Function) : f.hoist.header = f.header := by
  unfold Function.hoist
  split <;> rfl

theorem take_header (f : FunctionScope) (name : String) (d : Declared) :
    (f.take name d).function.header = f.function.header := by
  unfold FunctionScope.take
  split <;> rfl

theorem Change.headers (hc : Change w op w') (hw : w.Registered) : w'.Registered ∧
      (w'.headers.map (·.1)).Subperm (op.opens?.toList ++ w.headers.map (·.1)) := by
  -- All but the beginning of a function adds no header.
  have hsame : w.module.Grown { w'.module with functions := w.module.functions } →
      w'.headers.Subperm w.headers → w'.Registered ∧
      (w'.headers.map (·.1)).Subperm (op.opens?.toList ++ w.headers.map (·.1)) := by
    intro hgrown hheaders
    refine ⟨fun p hp => ?_, ?_⟩
    · obtain ⟨hid, hname⟩ := hw p (hheaders.subset hp)
      exact ⟨hgrown.functionIds p.1 p.2 hid, hgrown.debug.subset hname⟩
    obtain ⟨kept, hperm, hsublist⟩ := hheaders
    exact Subperm.trans ⟨kept.map (·.1), hperm.map _, hsublist.map _⟩ (sublist_append_right _ _).subperm
  rcases hc.grown with hgrown | ⟨f, current, ended, rfl⟩
  case inr =>
    obtain ⟨before, after, hthings, -, haway⟩ := Rack.exists_others current
    refine hsame (.refl _) (Perm.subperm ?_)
    simp only [headers, hthings, haway, map_append, map_cons, map_nil,
      hoist_header, append_assoc, cons_append, nil_append]
    exact Perm.append_left _ perm_middle.symm
  have hfunctions := hgrown.functions
  have hequal : w'.headers = w.headers → w'.Registered ∧
      (w'.headers.map (·.1)).Subperm (op.opens?.toList ++ w.headers.map (·.1)) := fun h =>
    hsame { hgrown with functions := rfl } (h ▸ Subperm.refl _)
  cases hc with
  | built | labelled =>
    refine hequal ?_
    dsimp only at hfunctions
    simp only [headers, hfunctions]
  | marked | chosen | terminated => exact hequal rfl
  | declared x name ty f d m current keeps isNew run =>
    exact hequal (headers_put _ current hfunctions (take_header f name d))
  | queued ty f id pointer m current run => exact hequal (headers_put _ current hfunctions rfl)
  | lowered x f b s currentFunction currentBlock keeps run =>
    obtain ⟨-, hname, hid⟩ := grown_of_lowering keeps ⟨w.module, f, b, 0⟩
    rw [run] at hname hid
    exact hequal (headers_put _ currentFunction hfunctions (Prod.ext hname hid))
  | opened name ret params f m isOpen run =>
    have hbegins := Module.openFunction_begins run
    obtain rfl : f.function.name = name := by rw [hbegins.isEmpty]
    dsimp only at hfunctions
    have hheaders : headers { w with module := m, functions := w.functions.add f } =
        w.headers ++ [f.function.header] := by
      simp [headers, hfunctions, Rack.things_add]
    refine ⟨fun p hp => ?_, ?_⟩
    · rw [hheaders] at hp
      rcases mem_append.1 hp with hp | hp
      · obtain ⟨hid, hname⟩ := hw p hp
        exact ⟨hgrown.functionIds p.1 p.2 hid, hgrown.debug.subset hname⟩
      · cases mem_singleton.1 hp
        exact ⟨hbegins.named, hbegins.debug⟩
    · rw [hheaders, isOpen, map_append]
      exact (perm_append_singleton _ _).subperm
  | appended f b currentFunction currentBlock => exact hequal (headers_put _ currentFunction rfl rfl)
  | closed => simp at hfunctions
  | dropped f current =>
    refine hsame (.refl _) (Sublist.subperm ?_)
    exact ((Rack.takeAway_sublist current).map _).append_left _

/-! ## Runs -/

/-- All that a workbench defines, in its module and in functions and blocks under construction. -/
def resultIds (w : Workbench) : List Id :=
  results w.module.imports ++ results w.module.declarations ++ w.headers.map (·.2) ++ w.held

theorem resultIds_subperm (hw : w.Registered) (hnames : (w.headers.map (·.1)).Nodup) :
    w.resultIds.Subperm (w.held ++ w.module.ids) := by
  have hheaders : w.headers.Subperm w.module.functionIds.entries := by
    refine (Nodup.of_map _ hnames).subperm fun p hp => ?_
    exact mem_entries (hw p hp).1
  have hids : (w.headers.map (·.2)).Subperm w.module.functionIds.values := by
    obtain ⟨kept, hperm, hsublist⟩ := hheaders
    exact ⟨kept.map (·.2), hperm.map _, hsublist.map _⟩
  refine subperm_ext_iff.2 fun i _ => ?_
  have hi := hids.count_le i
  simp only [resultIds, Module.ids, count_append]
  omega

theorem start_stands (config : Config) : (start config).Stands .distinct FunctionScope.Separate := by
  have hbound : (start config).module.bound = 2 := rfl
  refine ⟨⟨hbound ▸ by decide, fun id => ?_, fun id hid => ?_⟩, fun f hf => nomatch hf⟩
  · show count id [1] ≤ 1
    rw [count_singleton]
    split <;> decide
  · obtain rfl : id = 1 := mem_singleton.1 hid
    exact ⟨by decide, hbound ▸ by decide⟩

theorem nodup_of_subperm {α : Type} {l l' : List α} (h : l.Subperm l') (hl' : l'.Nodup) : l.Nodup := by
  obtain ⟨kept, hperm, hsublist⟩ := h
  exact hperm.nodup_iff.1 (hl'.sublist hsublist)

theorem run_stands (ops : List Operation) (hops : ∀ op ∈ ops, op.builds) (w : Workbench)
    (hw : w.Stands .distinct FunctionScope.Separate) (hregistered : w.Registered) :
    (w.run ops).Stands .distinct FunctionScope.Separate ∧ (w.run ops).Registered ∧
      ((w.run ops).headers.map (·.1)).Subperm (ops.filterMap Operation.opens? ++ w.headers.map (·.1)) := by
  induction ops generalizing w with
  | nil => exact ⟨hw, hregistered, Subperm.refl _⟩
  | cons op ops ih =>
    have hchange : w.Change op (w.perform op).2 := perform_change (hops op mem_cons_self)
    obtain ⟨hregistered', hnames⟩ := hchange.headers hregistered
    obtain ⟨hstands, hreg, hall⟩ := ih (fun op hop => hops op (mem_cons_of_mem _ hop))
      (w.perform op).2 (hchange.stands running_distinct (fun h => h) stepwise_distinct.mark hw) hregistered'
    refine ⟨hstands, hreg, hall.trans (subperm_ext_iff.2 fun name _ => ?_)⟩
    have hn := hnames.count_le name
    have hcons : (op :: ops).filterMap Operation.opens? = op.opens?.toList ++ ops.filterMap Operation.opens? := by
      cases h : op.opens? <;> simp [h]
    rw [hcons]
    simp only [count_append] at hn ⊢
    omega

end Workbench

/-- In every run of building operations that begins no function twice, results are distinct, not zero
and below the bound, whatever failed on the way. -/
theorem run_defines_each_id_once (config : Config) (ops : List Operation)
    (hbuilds : ∀ op ∈ ops, op.builds) (hnames : (ops.filterMap Operation.opens?).Nodup) :
    ((Workbench.start config).run ops).resultIds.Nodup ∧ ∀ id ∈ ((Workbench.start config).run ops).resultIds,
        0 < id ∧ id < ((Workbench.start config).run ops).module.bound := by
  obtain ⟨hstands, hregistered, hopened⟩ := Workbench.run_stands ops hbuilds
    (Workbench.start config) (Workbench.start_stands config) (fun _ h => nomatch h)
  rw [show (Workbench.start config).headers = [] from rfl, map_nil, append_nil] at hopened
  have hheaders := Workbench.nodup_of_subperm hopened hnames
  have hids := Workbench.resultIds_subperm hregistered hheaders
  exact ⟨Workbench.nodup_of_subperm hids (nodup_iff_count_le_one.2 hstands.ledger.once),
    fun id hid => hstands.ledger.inRange id (hids.subset hid)⟩

/-- A function that stores into a local variable, after a lowering that fails midway. -/
def Operation.storing : List Operation :=
  let x : Variable := .root "x" (.scalar .int) { functionLocal := true }
  let seven : Expr := .literal (.int 7)
  [.openFunction "main" .void [], .freshBlock, .lower (.assign none seven seven),
    .lower (.assign none (.ident x) (.step .preInc (.ident x))), .terminate (.effect .Return []),
    .appendBlock, .closeFunction]

theorem storing_defines_each_id_once :
    (∀ op ∈ Operation.storing, op.builds) ∧ (Operation.storing.filterMap Operation.opens?).Nodup ∧
      ((Workbench.start {}).run Operation.storing).resultIds.Nodup ∧
      ∀ id ∈ ((Workbench.start {}).run Operation.storing).resultIds,
        0 < id ∧ id < ((Workbench.start {}).run Operation.storing).module.bound :=
  ⟨by decide, by decide, run_defines_each_id_once {} Operation.storing (by decide) (by decide)⟩

theorem Workbench.Reachable.distinct {config : Config} {w : Workbench} (h : Reachable config w) :
    w.Stands .distinct FunctionScope.Separate := by
  induction h with
  | start => exact start_stands config
  | perform _ builds _ ih =>
    exact (perform_change builds).stands running_distinct (fun h => h) stepwise_distinct.mark ih

/-- A state in which everything is defined once, and names stand for different variables. -/
def Lowerer.Final (fin : Lowerer) : Prop := (Ledger.distinct.lowering FunctionScope.Separate).Stands [] [] fin

namespace Lowerer.Final

variable {fin : Lowerer} {id : Id}

theorem count_le (h : fin.Final) (id : Id) :
    (results fin.func.function.queued).count id + (results fin.block.instructions).count id +
      (results fin.module.declarations).count id ≤ 1 := by
  have honce := h.1.once id
  simp only [Module.ids, Function.ids, Block.ids, count_append, count_cons] at honce
  omega

theorem pos_of_queued (h : fin.Final) (hid : id ∈ results fin.func.function.queued) : 0 < id :=
  (h.1.inRange id (by simp [Function.ids, hid])).1

theorem pos_of_code (h : fin.Final) (hid : id ∈ results fin.block.instructions) : 0 < id :=
  (h.1.inRange id (by simp [Block.ids, hid])).1

theorem nodup_declarations (h : fin.Final) : (results fin.module.declarations).Nodup :=
  nodup_iff_count_le_one.2 fun id => by have := h.count_le id; omega

end Lowerer.Final

end Shader
