import Shader.Proofs.Defined
import Shader.Proofs.Registry

/-!
# Members as variables

A member variable is handed out after the variable that it belongs to, so the way from it outwards
ends. It is found again by the names of both, which functions may share.
-/

namespace Shader

open List Module OrderedMap Action

variable {m m' : Module}

/-! ## The way outwards -/

namespace Module

variable {id outer root : Id} {path : List Id}

/-- The way outwards from a variable, through member variables, to one that is none. -/
inductive Leads (m : Module) : Id → List Id → Id → Prop where
  | here {id : Id} (outermost : m.outerOf? id = none) : m.Leads id [] id
  | out {id outer root : Id} {path : List Id} (member : m.outerOf? id = some outer)
      (rest : m.Leads outer path root) : m.Leads id (id :: path) root

/-- The outermost of the variables around. -/
def rootOf (m : Module) (id : Id) : Id := (m.outermostOf? id).getD id

theorem mem_of_outerOf? (h : m.outerOf? id = some outer) : (outer, id) ∈ m.memberVariables.values := by
  obtain ⟨p, hp, rfl⟩ := Option.map_eq_some_iff.1 h
  obtain rfl : p.2 = id := by simpa using find?_some hp
  exact mem_of_find?_eq_some hp

theorem notMember_of_outerOf? (h : m.outerOf? id = none) : ∀ p ∈ m.memberVariables.values, p.2 ≠ id := by
  intro p hp hid
  have hnone := find?_eq_none.1 (Option.map_eq_none_iff.1 h) p hp
  simp [hid] at hnone

namespace Leads

theorem outermost (h : m.Leads id path root) : m.outerOf? root = none := by
  induction h with
  | here outermost => exact outermost
  | out _ _ ih => exact ih

theorem members (h : m.Leads id path root) : path ⊆ m.memberVariables.values.map (·.2) := by
  induction h with
  | here => exact nil_subset _
  | out member _ ih => exact cons_subset.2 ⟨mem_map.2 ⟨_, mem_of_outerOf? member, rfl⟩, ih⟩

theorem outwards (h : m.Leads id path root) {steps : Nat} (hsteps : path.length ≤ steps) :
    m.outwards steps id = root := by
  induction h generalizing steps with
  | here outermost =>
    cases steps with
    | zero => rfl
    | succ steps => rw [Module.outwards, outermost]
  | out member _ ih =>
    cases steps with
    | zero => cases hsteps
    | succ steps =>
      rw [Module.outwards, member]
      exact ih (Nat.le_of_succ_le_succ hsteps)

theorem outermostOf? (h : m.Leads id path root) (hsize : path.length ≤ m.memberVariables.size) :
    m.outermostOf? id = if path = [] then none else some root := by
  cases h with
  | here outermost => rw [outermostOf?, outermost]; rfl
  | out member rest =>
    rw [outermostOf?, member, if_neg (cons_ne_nil _ _)]
    exact congrArg some (rest.outwards (Nat.le_of_succ_le hsize))

theorem rootOf (h : m.Leads id path root) (hsize : path.length ≤ m.memberVariables.size) : m.rootOf id = root := by
  rw [Module.rootOf, h.outermostOf? hsize]
  cases h <;> rfl

end Leads

theorem nameMember_ok {locals : Option Scope} {name : String} {index : Word}
    (h : nameMember locals outer name index m = (.ok id, m')) :
    ∃ outerName, m.variableNameOf? locals outer = some outerName ∧
      ((∃ other, m.memberVariables.get? (outerName ++ "::" ++ name) = some (other, id) ∧ m = m') ∨
        m.memberVariables.get? (outerName ++ "::" ++ name) = none ∧
          m'.memberVariables.get? (outerName ++ "::" ++ name) = some (outer, id)) := by
  unfold nameMember at h
  rw [get_bind] at h
  cases hname : m.variableNameOf? locals outer with
  | none =>
    rw [hname] at h
    cases h
  | some outerName =>
    rw [hname] at h
    dsimp only at h
    rw [get_bind] at h
    refine ⟨outerName, rfl, ?_⟩
    cases hfound : m.memberVariables.get? (outerName ++ "::" ++ name) with
    | some entry =>
      rw [hfound] at h
      obtain ⟨rfl, rfl⟩ := pure_ok h
      exact .inl ⟨entry.1, rfl, rfl⟩
    | none =>
      rw [hfound] at h
      obtain ⟨_, m₁, -, h⟩ := bind_ok h
      obtain ⟨_, m₂, -, h⟩ := bind_ok h
      cases h
      exact .inr ⟨rfl, get?_put_self _ _ _⟩

/-! ## The order of variables -/

/-- All that a module finds by name or by value. -/
def found (m : Module) : List Id :=
  m.literals.values ++ (m.composites.values ++ (m.globals.values.map (·.id) ++
    (m.glslStd450.toList ++ m.memberVariables.values.map (·.2))))

/-- All that the module finds again was handed out, members after the variables that they belong to. -/
structure Anchored (m : Module) : Prop where
  bound : 0 < m.bound
  found : ∀ id ∈ m.found, id < m.bound
  ordered : ∀ p ∈ m.memberVariables.values, p.1 < p.2
  distinct : (m.memberVariables.values.map (·.2)).Nodup

namespace Anchored

theorem grow (h : m.Anchored) (hbound : m.bound ≤ m'.bound) (hfound : ∀ id ∈ m'.found, id ∈ m.found ∨ id < m'.bound)
    (hmembers : m'.memberVariables = m.memberVariables) : m'.Anchored where
  bound := UInt32.lt_of_lt_of_le h.bound hbound
  found id hid := (hfound id hid).elim (fun hold => UInt32.lt_of_lt_of_le (h.found id hold) hbound) fun hlt => hlt
  ordered := hmembers ▸ h.ordered
  distinct := hmembers ▸ h.distinct

theorem outerOf?_iff (h : m.Anchored) : m.outerOf? id = some outer ↔ (outer, id) ∈ m.memberVariables.values := by
  refine ⟨mem_of_outerOf?, fun hmem => ?_⟩
  cases hfind : m.outerOf? id with
  | none => exact absurd rfl (notMember_of_outerOf? hfind _ hmem)
  | some other =>
    have hsame := inj_on_of_nodup_map h.distinct (mem_of_outerOf? hfind) hmem rfl
    rw [(Prod.mk.inj hsame).1]

theorem named_lt (h : m.Anchored) {name : String} (hname : m.variableNameOf? none id = some name) : id < m.bound := by
  refine h.found id ?_
  simp only [Module.found, mem_append, mem_map]
  rcases Option.or_eq_some_iff.1 hname with hnone | ⟨-, hname⟩
  · cases hnone
  rcases Option.or_eq_some_iff.1 hname with hglobal | ⟨-, hmember⟩
  · obtain ⟨e, he, hid⟩ := exists_of_keyOf? hglobal
    exact .inr (.inr (.inl ⟨e, he, eq_of_beq hid⟩))
  · obtain ⟨p, hp, hid⟩ := exists_of_keyOf? hmember
    exact .inr (.inr (.inr (.inr ⟨p, hp, eq_of_beq hid⟩)))

theorem exists_leads (h : m.Anchored) (id : Id) :
    ∃ path root, m.Leads id path root ∧ path.Nodup ∧ ∀ i ∈ path, i ≤ id := by
  induction hn : id.toNat using Nat.strongRecOn generalizing id with
  | ind n ih =>
    cases hout : m.outerOf? id with
    | none => exact ⟨[], id, .here hout, nodup_nil, forall_mem_nil _⟩
    | some outer =>
      have hlt : outer < id := h.ordered _ (mem_of_outerOf? hout)
      obtain ⟨path, root, hleads, hnodup, hle⟩ := ih _ (hn ▸ UInt32.lt_iff_toNat_lt.1 hlt) outer rfl
      refine ⟨id :: path, root, .out hout hleads, nodup_cons.2 ⟨fun hmem => ?_, hnodup⟩,
        forall_mem_cons.2 ⟨UInt32.le_refl _, fun i hi => ?_⟩⟩
      · exact absurd (UInt32.lt_of_lt_of_le hlt (hle id hmem)) (UInt32.lt_irrefl _)
      · exact UInt32.le_of_lt (UInt32.lt_of_le_of_lt (hle i hi) hlt)

theorem leads (h : m.Anchored) (id : Id) :
    ∃ path root, m.Leads id path root ∧ path.length ≤ m.memberVariables.size := by
  obtain ⟨path, root, hleads, hnodup, -⟩ := h.exists_leads id
  refine ⟨path, root, hleads, ?_⟩
  have hlength := (hnodup.subperm hleads.members).length_le
  rwa [length_map, values, length_map] at hlength

/-- The way outwards from a member goes on from the variable that it belongs to. -/
theorem outermostOf?_of_mem (h : m.Anchored) (hmem : (outer, id) ∈ m.memberVariables.values) :
    m.outermostOf? id = some (m.rootOf outer) := by
  obtain ⟨path, root, hleads, hsize⟩ := h.leads id
  rw [hleads.outermostOf? hsize]
  cases hleads with
  | here outermost => exact absurd rfl (notMember_of_outerOf? outermost _ hmem)
  | out member rest =>
    cases member.symm.trans (h.outerOf?_iff.2 hmem)
    rw [rest.rootOf (Nat.le_of_succ_le hsize), if_neg (cons_ne_nil _ _)]

end Anchored

end Module

/-- Member variables lie in variables that were there before them. -/
def Ledger.anchored : Ledger Module where
  Stands held known m := m.Anchored ∧ HandedOut held known m.bound
  drop h hheld hknown := ⟨h.1, fun i hi => h.2.held i (hheld.subset hi), fun k hk => h.2.known k (hknown hk)⟩

namespace Ledger

variable {held : List Id} {known : List Known}

theorem anchored_define {next : Id} (h : anchored.Stands held known m) (hnext : Word.add m.bound 1 = .ok next)
    (hbound : m'.bound = next) (hfound : m'.found ⊆ m.bound :: m.found)
    (hmembers : m'.memberVariables = m.memberVariables) : anchored.Stands held (.value m.bound :: known) m' := by
  subst hbound
  have hlt := Word.lt_of_add_one hnext
  refine ⟨h.1.grow (UInt32.le_of_lt hlt) (fun id hid => ?_) hmembers, (h.2.fresh hnext).define⟩
  rcases mem_cons.1 (hfound hid) with rfl | hold
  · exact .inr hlt
  · exact .inl hold

theorem anchored_putGlobal {e : Entity} (name : String) (h : anchored.Stands held known m)
    (hid : .value e.id ∈ known) : anchored.Stands held known { m with globals := m.globals.put name e } := by
  refine ⟨h.1.grow (UInt32.le_refl _) (fun id hid' => ?_) rfl, h.2⟩
  have hput := m.globals.values_put_subset name e
  have hlt : e.id < m.bound := h.2.known _ hid
  simp only [found, mem_append, mem_map] at hid' ⊢
  grind

theorem anchored_composite {next type : Id} {constituents : List Id} (h : anchored.Stands held known m)
    (hnext : Word.add m.bound 1 = .ok next) : anchored.Stands held (.value m.bound :: known) { m with
      bound := next
      declarations := m.declarations ++ [.value .ConstantComposite type m.bound constituents]
      composites := m.composites.put (constituents, type) m.bound } := by
  refine anchored_define h hnext rfl (fun id hid => ?_) rfl
  have hput := m.composites.values_put_subset (constituents, type) m.bound
  simp only [found, mem_append, mem_cons] at hid ⊢
  grind

end Ledger

theorem stepwise_anchored : Stepwise .anchored where
  alike {_ _ m m'} h ha := by
    rw [ha]
    exact ⟨{ h.1 with }, h.2⟩
  note inst h _ _ := by cases inst.op.section <;> exact ⟨{ h.1 with }, h.2⟩
  name h _ := ⟨{ h.1 with }, h.2⟩
  fresh h hnext := ⟨h.1.grow (Word.le_of_add_one hnext) (fun _ => .inl) rfl, h.2.fresh hnext⟩
  type _ h _ := ⟨{ h.1 with }, h.2.release.know trivial⟩
  remember {_ _ m m' _} h _ hm' := by
    rw [hm'.same]
    exact ⟨{ h.1 with }, h.2⟩
  foundType h _ := ⟨h.1, h.2.know trivial⟩
  literal {_ _ m _ _} l h _ _ hnext := by
    refine Ledger.anchored_define h hnext rfl (fun id hid => ?_) rfl
    have hput := m.literals.values_put_subset l m.bound
    simp only [found, mem_append, mem_cons] at hid ⊢
    grind
  foundLiteral h hl := ⟨h.1, h.2.know (h.1.found _ (mem_append_left _ (mem_values hl)))⟩

theorem building_anchored : Building .any .anchored where
  toDeclaring := stepwise_anchored.declaring
  composite h _ _ _ hnext := Ledger.anchored_composite h hnext
  foundComposite h hc := ⟨h.1, h.2.know (h.1.found _ (by simp [found, mem_values hc]))⟩
  specialize _ _ h _ _ := ⟨{ h.1 with }, h.2.define⟩
  globalVariable {_ _ _ name _ _ _ _} id h _ _ _ :=
    Ledger.anchored_putGlobal name ⟨{ h.1 with }, h.2.define⟩ mem_cons_self
  global {_ _ _ name _ _} h he _ _ := Ledger.anchored_putGlobal name h (he mem_cons_self)
  foundGlobal h he := ⟨h.1, (h.2.know (k := .type _) trivial).know (h.1.found _ (by simp [found]; grind [mem_values]))⟩
  imported {_ _ m _} _ h hnext := by
    refine Ledger.anchored_define h hnext rfl (fun id hid => ?_) rfl
    simp only [found, mem_append, mem_cons, Option.toList_some] at hid ⊢
    grind
  foundImport _ h hid := ⟨h.1, h.2.know (h.1.found _ (by simp [found, hid]))⟩
  named h _ hnext := ⟨h.1.grow (Word.le_of_add_one hnext) (fun _ => .inl) rfl, (h.2.fresh hnext).release.know trivial⟩
  foundFunction h _ := ⟨h.1, h.2.know trivial⟩
  member {_ _ m key outer id} h hid hnew := by
    obtain ⟨m₀, known, ⟨hm₀, hknown⟩, rfl, hsame, houter⟩ := hnew.before
    have hlt : outer < m₀.bound := by
      rcases houter with hissued | ⟨_, hname⟩
      · exact hknown.known _ hissued
      · exact hm₀.named_lt hname
    have hvalues := values_put_of_absent (outer, m₀.bound) hnew.isNew
    refine ⟨⟨h.1.bound, fun i hi => ?_, ?_, ?_⟩, h.2⟩
    · have hold := h.1.found i
      have hissued := h.2.held _ hid
      simp only [found, hvalues, map_append, mem_append, map_cons, map_nil, mem_singleton] at hi hold
      grind
    · rw [hvalues]
      exact forall_mem_append.2 ⟨h.1.ordered, forall_mem_singleton.2 hlt⟩
    · rw [hvalues, map_append]
      refine nodup_append.2 ⟨h.1.distinct, nodup_singleton _, fun a ha b hb => ?_⟩
      -- The identifier was not handed out when the others were members already.
      have hold : a < m₀.bound := hm₀.found a (by simp [found, hsame, ha])
      exact mem_singleton.1 hb ▸ UInt32.ne_of_lt hold

theorem Module.declareComposite_anchored (constituents : List Id) (ty : Ty) :
    Upholds .anchored [] (declareComposite constituents ty) := by
  refine (declareType_steady stepwise_anchored.declaring ty).bind fun type => ?_
  refine findOrMake_steady (fun hm _ => hm) fun m _ => ?_
  intro held known _ hm
  unfold defineValue
  simp only [bind_assoc]
  cases hadd : Word.add m.bound 1 with
  | error o =>
    rw [bind_apply_error (freshId_error hadd)]
    exact ⟨trivial, hm⟩
  | ok next =>
    rw [bind_apply_ok (freshId_ok hadd)]
    exact Ledger.anchored.drop (Ledger.anchored_composite hm hadd) (Subperm.refl _) (subset_cons_self _ _)

theorem running_anchored : Running .anchored (fun _ => True) where
  building := building_anchored
  noResult h := ⟨h.1, h.2.know h.1.bound⟩
  placed h hid := ⟨h.1, h.2.know (h.2.held _ hid)⟩
  closed _ h := ⟨{ h.1 with }, h.2⟩

/-! ## Operations -/

/-- The ledger of a lowerer where only what its function knows is kept in view. -/
def Ledger.knowing (J : Ledger Module) : Ledger Lowerer where
  Stands held known s := (J.framed [] s.func.locals.known (.keeping fun _ => True)).Stands held known s.module
  drop h := (J.framed _ _ _).drop h

theorem Scoped.knowing {J : Ledger Module} {Q : FunctionScope → Prop} (hJ : Scoped J Q) : Emitting J.knowing where
  building s := hJ.building.framed [] s.func.locals.known (.keeping (P := fun _ => True) fun _ h => h)
  noResult _ h := ⟨J.known_cons_after _ (hJ.noResult h.1), trivial⟩
  locals h := ⟨J.drop h.1 (Subperm.refl _) (by simp), trivial⟩
  emit h hadd _ _ := by
    have hplaced := hJ.placed (hJ.building.fresh h.1 hadd) mem_cons_self
    exact ⟨J.known_cons_after _ (J.drop hplaced (sublist_cons_self _ _).subperm (fun _ hk => hk)), trivial⟩
  queue _ h := by
    have hplaced := hJ.placed h.1 mem_cons_self
    exact ⟨J.known_cons_after _ (J.drop hplaced (sublist_cons_self _ _).subperm (fun _ hk => hk)), trivial⟩
  take {_ _ _ name _ _} pointer h he _ _ _ _ _ := by
    have hplaced := hJ.placed h.1 mem_cons_self
    exact ⟨J.drop hplaced (sublist_cons_self _ _).subperm (taken_known_subset _ name _ he), trivial⟩

namespace Workbench

variable {J : Ledger Module} {w w' : Workbench} {op : Operation}

/-- What is said of the module and of what functions know stands through operations that refer to no more. -/
theorem Change.knows (hJ : Running J fun _ => True) (hrefers : op.refers = [])
    (hmarks : ∀ {held known} {inst : Inst}, inst ∈ op.marks → J.Stands held known w.module →
      J.Stands held known { w.module with decorations := w.module.decorations ++ [inst] })
    (hc : Change w op w') (hw : J.Stands [] w.known w.module) : J.Stands [] w'.known w'.module := by
  have hbuilding : Building (op.names w) J := hJ.building.restrict _
  cases hc with
  | built x needs requirements keeps known =>
    rw [hrefers] at known
    exact (keeps J hbuilding).after_nil known hw
  | marked inst mem => exact hmarks mem hw
  | declared x name ty f d m current keeps isNew run =>
    have hstep := declared_known hJ.toScoped ((keeps J hbuilding).of_ok_nil run (locals_known current) hw)
    exact J.drop hstep nil_subperm (put_known _ current (take_locals_subset f name d))
  | queued ty f id pointer m current run =>
    have hstep := (declareTemporary_keeps hJ.building.toDeclaring ty).of_ok_nil run (nil_subset _) hw
    exact J.drop hstep nil_subperm (put_known [] current (fun _ hk => hk))
  | lowered x f b s currentFunction currentBlock keeps run =>
    have hstart : J.knowing.Stands [] w.known ⟨w.module, f, b, 0⟩ :=
      ⟨J.drop hw nil_subperm (append_subset.2 ⟨locals_known currentFunction, fun _ hk => hk⟩), trivial⟩
    have hend := (keeps _ (hJ.toScoped.knowing.restrict _)).after_nil (nil_subset _) hstart
    rw [run] at hend
    exact J.drop hend.1 nil_subperm (put_known _ currentFunction (subset_append_left _ _))
  | opened name ret params f m isOpen run =>
    have hstep := (openFunction_keeps hJ.building name ret params).of_ok_nil run (nil_subset _) hw
    exact J.drop (opened_known hJ.toScoped run hstep) nil_subperm (by simp [known, Rack.things_add])
  | labelled b m run =>
    have hstep := (freshBlock_keeps hJ.building.toDeclaring).of_ok_nil run (nil_subset _) hw
    exact J.drop hstep nil_subperm (fun _ hk => hk)
  | chosen | terminated => exact hw
  | appended f b current _ => exact J.drop hw nil_subperm (put_known [] current (fun _ hk => hk))
  | closed f current _ => exact J.drop (hJ.closed _ hw) nil_subperm (takeAway_known current)
  | dropped f current => exact J.drop hw nil_subperm (takeAway_known current)

theorem perform_anchored (hw : Ledger.anchored.Stands [] w.known w.module) (hop : op.replaces = false) :
    Ledger.anchored.Stands [] (w.perform op).2.known (w.perform op).2.module := by
  cases op with
  | composite constituents ty =>
    rw [perform, Operation.perform, Operation.yielding, Work.onModule_bind_snd]
    exact (declareComposite_anchored constituents ty).after_nil (nil_subset _) hw
  | insert target inst => cases target <;> exact ⟨{ hw.1 with }, hw.2⟩
  | push inst =>
    rcases Work.currentBlock_cases _ w with ⟨b, -, h⟩ | ⟨-, h⟩ <;> rw [perform, Operation.perform, h] <;> exact hw
  | reload | load => cases hop
  | _ => exact (perform_change rfl).knows running_anchored rfl stepwise_anchored.mark hw

theorem run_anchored (config : Config) (ops : List Operation) (hops : ∀ op ∈ ops, op.replaces = false) :
    Ledger.anchored.Stands [] ((start config).run ops).known ((start config).run ops).module := by
  have hstart : Ledger.anchored.Stands [] (start config).known (start config).module := by
    have hpositive : (0 : Id) < 2 := by decide
    have himport : ∀ id ∈ [(1 : Id)], id < 2 := forall_mem_singleton.2 (by decide)
    exact ⟨⟨hpositive, himport, forall_mem_nil _, nodup_nil⟩, forall_mem_nil _, forall_mem_nil _⟩
  generalize start config = w at hstart
  induction ops generalizing w with
  | nil => exact hstart
  | cons op ops ih =>
    obtain ⟨hop, hops⟩ := forall_mem_cons.1 hops
    exact ih hops _ (perform_anchored hstart hop)

end Workbench

/-- The way outwards from an identifier ends at no member variable, within as many steps as there are
such, and is returned unless it is empty. -/
theorem outermostOf?_ends (config : Config) (ops : List Operation) (hops : ∀ op ∈ ops, op.replaces = false) (id : Id) :
    let m := ((Workbench.start config).run ops).module
    (∃ path root, m.Leads id path root ∧ path.length ≤ m.memberVariables.size ∧
      m.outermostOf? id = if path = [] then none else some root) ∧
    ∀ root, m.outermostOf? id = some root → ∀ p ∈ m.memberVariables.values, p.2 ≠ root := by
  intro m
  obtain ⟨path, root, hleads, hsize⟩ := (Workbench.run_anchored config ops hops).1.leads id
  have hreturned : m.outermostOf? id = _ := hleads.outermostOf? hsize
  refine ⟨⟨path, root, hleads, hsize, hreturned⟩, fun root' hroot' => ?_⟩
  rw [hreturned] at hroot'
  split at hroot'
  · cases hroot'
  · cases hroot'
    exact notMember_of_outerOf? hleads.outermost

/-- Two functions with a local variable of the same name each, and a member of the first one. -/
def Operation.namesakes : List Operation :=
  let s : Variable := .root "s" (.struct "S" .std430 [⟨"x", .scalar .float, 0, none⟩]) { functionLocal := true }
  [.openFunction "f" .void [], .resolve s false, .memberVariable 5 "x" 0 false,
    .openFunction "g" .void [], .resolve s false]

theorem nested_outermostOf?_ends :
    let ops := Operation.namesakes ++ [.memberVariable 9 "z" 0 false]
    let m := ((Workbench.start {}).run ops).module
    m.outermostOf? 14 = some 5 ∧ ∀ p ∈ m.memberVariables.values, p.2 ≠ 5 := by
  intro ops m
  have hroot : m.outermostOf? 14 = some 5 := by decide +kernel
  exact ⟨hroot, (outermostOf?_ends {} ops (by decide) 14).2 5 hroot⟩

/-- A member of a variable belongs to the outermost variable of that exactly if their names were not met
before, or with a variable that has the same outermost one. -/
theorem nameMember_outermost_iff (config : Config) (ops : List Operation) (hops : ∀ op ∈ ops, op.replaces = false) :
    let w := (Workbench.start config).run ops
    ∀ locals : Option Scope, (∀ scope, locals = some scope → ∃ f ∈ w.functions.things, scope = f.locals) →
      ∀ (outer : Id) (name : String) (index : Word) (id : Id) (m : Module),
        nameMember locals outer name index w.module = (.ok id, m) →
        ∃ outerName, w.module.variableNameOf? locals outer = some outerName ∧
          (m.outermostOf? id = some (m.rootOf outer) ↔
            ∀ other member, w.module.memberVariables.get? (outerName ++ "::" ++ name) = some (other, member) →
              w.module.rootOf other = w.module.rootOf outer) := by
  intro w locals hlocals outer name index id m h
  have hw := Workbench.run_anchored config ops hops
  have hsteady : Upholds .anchored w.known (nameMember locals outer name index) := by
    refine nameMember_steady building_anchored (fun scope hscope k hk => ?_) outer name index
    obtain ⟨f, hf, rfl⟩ := hlocals scope hscope
    exact mem_flatMap.2 ⟨f, hf, hk⟩
  have hm := (hsteady.of_ok_nil h (fun _ hk => hk) hw).1
  obtain ⟨outerName, hname, ⟨other, hold, rfl⟩ | ⟨hnew, hput⟩⟩ := nameMember_ok h
  · refine ⟨outerName, hname, ?_⟩
    rw [hm.outermostOf?_of_mem (mem_values hold)]
    constructor
    · intro heq other' member hold'
      cases hold.symm.trans hold'
      exact Option.some.inj heq
    · exact fun hsame => congrArg some (hsame _ _ hold)
  · refine ⟨outerName, hname, iff_of_true (hm.outermostOf?_of_mem (mem_values hput)) ?_⟩
    intro other member hold
    cases hnew.symm.trans hold

/-- A member that the other function did not ask for belongs to the variable that it was asked of. -/
theorem namesakes_outermost :
    let w := (Workbench.start {}).run Operation.namesakes
    ∃ id m, nameMember (w.locals? false) 13 "y" 1 w.module = (.ok id, m) ∧ m.outermostOf? id = some 13 := by
  intro w
  have hok : (nameMember (w.locals? false) 13 "y" 1 w.module).1.isOk := by decide +kernel
  obtain ⟨id, h⟩ := exists_ok hok
  obtain ⟨outerName, hname, hiff⟩ := nameMember_outermost_iff {} Operation.namesakes (by decide) (w.locals? false)
    (fun scope hscope => by
      obtain ⟨f, hf, heq⟩ := Workbench.locals?_eq_some hscope
      exact ⟨f, Rack.mem_of_get? hf, heq⟩) 13 "y" 1 id _ h
  have hs : w.module.variableNameOf? (w.locals? false) 13 = some "s" := by decide +kernel
  have hnew : w.module.memberVariables.get? "s::y" = none := by decide +kernel
  have hroot : (nameMember (w.locals? false) 13 "y" 1 w.module).2.rootOf 13 = 13 := by decide +kernel
  rw [hroot] at hiff
  cases hname.symm.trans hs
  refine ⟨id, _, h, hiff.2 fun other member hold => ?_⟩
  cases hnew.symm.trans hold

/-- A member that it asked for belongs to the variable of the other function. -/
theorem namesakes_meet :
    let w := (Workbench.start {}).run Operation.namesakes
    let result := nameMember (w.locals? false) 13 "x" 0 w.module
    result.1.toOption = some 9 ∧ result.2.outermostOf? 9 = some 5 ∧ result.2.rootOf 13 = 13 := by
  decide +kernel

end Shader
