import Shader.Proofs.Traced
import Shader.Proofs.Unique

/-!
# What a module says about itself

A module puts every instruction into the section that it belongs to, and calls every function by the
name that it is registered under: an identifier that gets a name is that of no other function, since
identifiers are distinct and what is known of them is right.
-/

namespace Shader

open OrderedMap

variable {m : Module} {op : Op}

/-! ## Sections -/

/-- Opcodes that stand outside of functions. -/
def Op.standsOutside (op : Op) : Bool := op != .Function && op != .FunctionEnd && !op.isTerminator

theorem Op.standsOutside_of_isNote (h : op.section.isNote) : op.standsOutside := by
  revert h
  unfold Op.section
  split <;> simp [Module.Section.isNote, Op.standsOutside, Op.isTerminator]

theorem Op.declares_of_isType (h : op.isType) : op.section = .declarations ∧ op.standsOutside := by
  revert h
  unfold Op.isType
  split <;> simp [Op.section, Op.standsOutside, Op.isTerminator]

theorem Op.declares_of_isFixedConstant (h : op.isFixedConstant) : op.section = .declarations ∧ op.standsOutside := by
  revert h
  unfold Op.isFixedConstant
  split <;> simp [Op.section, Op.standsOutside, Op.isTerminator]

theorem Op.declares_of_isSpecialization (h : op.isSpecialization) : op.section = .declarations ∧ op.standsOutside := by
  revert h
  unfold Op.isSpecialization
  split <;> simp [Op.section, Op.standsOutside, Op.isTerminator]

namespace Module

/-- What is in a section. -/
def inSection (m : Module) : Section → List Inst
  | .capabilities => m.capabilities
  | .extensions => m.extensions
  | .imports => m.imports
  | .memoryModel => m.memoryModel.toList
  | .entryPoint => m.entryPoint.toList
  | .executionModes => m.executionModes
  | .debug => m.debug
  | .decorations => m.decorations
  | .declarations => m.declarations

theorem mem_inSection_insert {s s' : Section} {inst i : Inst}
    (h : i ∈ (m.insert s inst).inSection s') : i ∈ m.inSection s' ∨ s' = s ∧ i = inst := by
  cases s <;> cases s' <;> simp_all [insert, inSection]

/-- Sections hold what belongs there, and what names a function calls it by its name. -/
structure Arranged (m : Module) : Prop where
  sorted : ∀ s, ∀ inst ∈ m.inSection s, inst.op.section = s ∧ inst.op.standsOutside
  inRange : ∀ inst ∈ m.debug, inst.op = .Name → ∀ id, inst.result = some id → id < m.bound
  named : ∀ inst ∈ m.debug, inst.op = .Name → ∀ id, inst.result = some id →
    ∀ name, m.functionIds.get? name = some id → inst.name = some name

end Module

/-! ## Names -/

namespace Module.Arranged

variable {m' : Module}

theorem of_same (h : m.Arranged) (hsections : ∀ s, m'.inSection s = m.inSection s)
    (hbound : m.bound ≤ m'.bound) (hnames : m'.functionIds = m.functionIds) : m'.Arranged where
  sorted s := hsections s ▸ h.sorted s
  inRange inst hinst hop id hid :=
    have hinst : inst ∈ m.inSection .debug := hsections .debug ▸ hinst
    UInt32.lt_of_lt_of_le (h.inRange inst hinst hop id hid) hbound
  named inst hinst hop id hid name hname :=
    have hinst : inst ∈ m.inSection .debug := hsections .debug ▸ hinst
    h.named inst hinst hop id hid name (hnames ▸ hname)

theorem fresh (h : m.Arranged) {next : Id} (hnext : Word.add m.bound 1 = .ok next) :
    Arranged { m with bound := next } :=
  h.of_same (fun s => by cases s <;> rfl) (Word.le_of_add_one hnext) rfl

theorem insert (h : m.Arranged) {inst : Inst} (hop : inst.op.standsOutside)
    (hname : inst.op = .Name → ∀ id, inst.result = some id →
      id < m.bound ∧ ∀ name, m.functionIds.get? name = some id → inst.name = some name) :
    (m.insert inst.op.section inst).Arranged := by
  have hbound : (m.insert inst.op.section inst).bound = m.bound := by
    cases inst.op.section <;> rfl
  have hnames : (m.insert inst.op.section inst).functionIds = m.functionIds := by
    cases inst.op.section <;> rfl
  -- What is found in the debug section stood there before, or is the new instruction.
  have hdebug : ∀ i ∈ (m.insert inst.op.section inst).debug, i ∈ m.debug ∨ i = inst :=
    fun i hi => (@Module.mem_inSection_insert m _ .debug _ i hi).imp_right And.right
  refine ⟨fun s i hi => ?_, fun i hi heq id hid => ?_, fun i hi heq id hid name hget => ?_⟩
  · rcases mem_inSection_insert hi with hi | ⟨rfl, rfl⟩
    · exact h.sorted s i hi
    · exact ⟨rfl, hop⟩
  · rw [hbound]
    rcases hdebug i hi with hi | rfl
    · exact h.inRange i hi heq id hid
    · exact (hname heq id hid).1
  · rw [hnames] at hget
    rcases hdebug i hi with hi | rfl
    · exact h.named i hi heq id hid name hget
    · exact (hname heq id hid).2 name hget

theorem declare (h : m.Arranged) {inst : Inst} (hop : inst.op.section = .declarations ∧ inst.op.standsOutside) :
    Arranged { m with declarations := m.declarations ++ [inst] } := by
  have hinserted := h.insert hop.2 fun heq => by
    rw [heq] at hop
    cases hop.1
  rw [hop.1] at hinserted
  exact hinserted

theorem register (h : m.Arranged) (name : String) {next : Id} (hnext : Word.add m.bound 1 = .ok next) :
    Arranged { m with bound := next, functionIds := m.functionIds.put name m.bound } := by
  have hfresh := h.fresh hnext
  refine ⟨hfresh.sorted, hfresh.inRange, fun inst hinst hop id hid name' hget => ?_⟩
  rcases eq_or_get?_of_get?_put hget with ⟨-, rfl⟩ | hold
  · exact absurd (h.inRange inst hinst hop _ hid) (UInt32.lt_irrefl _)
  · exact h.named inst hinst hop id hid name' hold

end Module.Arranged

/-! ## The ledger -/

/-- A module in order: identifiers are distinct, what is known of them is right, and names are. -/
structure Orderly (held : List Id) (known : List Known) (m : Module) : Prop where
  distinct : Ledger.distinct.Stands held known m
  traced : (Ledger.traced fun _ => True).Stands held known m
  arranged : m.Arranged

namespace Orderly

variable {held : List Id} {known : List Known}

theorem not_function (h : Orderly held known m) {id : Id} (hid : id ∈ held ∨ id ∈ results m.declarations)
    (name : String) : m.functionIds.get? name ≠ some id := by
  intro hname
  have honce := h.distinct.once id
  have hmem : 0 < m.functionIds.values.count id := List.count_pos_iff.2 (mem_values hname)
  simp only [Module.ids, List.count_append] at honce
  rcases hid with hid | hid
  · have hpos := List.count_pos_iff.2 hid
    omega
  · have hpos := List.count_pos_iff.2 hid
    omega

theorem nameable (h : Orderly held known m) {id : Id} {name : String} (hname : Nameable held known id name) :
    id < m.bound ∧ ∀ name', m.functionIds.get? name' = some id → name' = name := by
  have hrange := fun hmem => (h.distinct.inRange id hmem).2
  cases hname with
  | held mem =>
    exact ⟨hrange (List.mem_append_left _ mem), fun name' hname' => absurd hname' (h.not_function (.inl mem) name')⟩
  | type mem =>
    have hdecl : id ∈ results m.declarations := h.traced.known _ mem
    exact ⟨hrange (by simp [Module.ids, hdecl]), fun name' hname' => absurd hname' (h.not_function (.inr hdecl) name')⟩
  | function mem =>
    have hget : m.functionIds.get? name = some id := h.traced.known _ mem
    refine ⟨hrange (by simp [Module.ids, mem_values hget]), fun name' hname' => ?_⟩
    refine key_unique hname' hget ?_
    have honce := h.distinct.once id
    simp only [Module.ids, List.count_append] at honce
    omega

end Orderly

/-- Identifiers are distinct, found ones are declared, and sections are in order. -/
def Ledger.orderly : Ledger Module where
  Stands := Orderly
  drop h hheld hknown :=
    ⟨Ledger.distinct.drop h.distinct hheld hknown, (Ledger.traced _).drop h.traced hheld hknown, h.arranged⟩

theorem stepwise_orderly : Stepwise .orderly where
  alike {held known m m'} h ha := by
    refine ⟨stepwise_distinct.alike h.distinct ha, (stepwise_traced _).alike h.traced ha, ?_⟩
    rw [ha]
    exact { h.arranged with }
  note inst h hs hinst :=
    ⟨stepwise_distinct.note inst h.distinct hs hinst, (stepwise_traced _).note inst h.traced hs hinst,
      h.arranged.insert (Op.standsOutside_of_isNote hs) fun heq => absurd heq hinst.notName⟩
  name {held known m id name} h hname := by
    refine ⟨stepwise_distinct.name h.distinct hname, (stepwise_traced _).name h.traced hname, ?_⟩
    obtain ⟨hlt, hunique⟩ := h.nameable hname
    refine h.arranged.insert (rfl : (Inst.nameOf id name).op.standsOutside) ?_
    rintro - _ ⟨⟩
    exact ⟨hlt, fun name' hname' => congrArg some (hunique name' hname').symm⟩
  fresh h hnext :=
    ⟨stepwise_distinct.fresh h.distinct hnext, (stepwise_traced _).fresh h.traced hnext, h.arranged.fresh hnext⟩
  type operands h hop :=
    ⟨stepwise_distinct.type operands h.distinct hop, (stepwise_traced _).type operands h.traced hop,
      h.arranged.declare (Op.declares_of_isType hop)⟩
  remember {held known m m' id} h hid hm' := by
    refine ⟨stepwise_distinct.remember h.distinct hid (hm'.imp fun _ h₀ => h₀.distinct),
      (stepwise_traced _).remember h.traced hid (hm'.imp fun _ h₀ => h₀.traced), ?_⟩
    rw [hm'.same]
    exact { h.arranged with }
  foundType h hid :=
    ⟨stepwise_distinct.foundType h.distinct hid, (stepwise_traced _).foundType h.traced hid, h.arranged⟩
  literal l h htype hlacks hnext :=
    ⟨stepwise_distinct.literal l h.distinct htype hlacks hnext,
      (stepwise_traced _).literal l h.traced htype hlacks hnext,
      { (h.arranged.fresh hnext).declare (Op.declares_of_isFixedConstant (l.inst_isFixedConstant _ _)) with }⟩
  foundLiteral h hl :=
    ⟨stepwise_distinct.foundLiteral h.distinct hl, (stepwise_traced _).foundLiteral h.traced hl, h.arranged⟩

theorem building_orderly : Building .any .orderly where
  toDeclaring := stepwise_orderly.declaring
  composite {_ _ m _ type constituents} h htype hknown hnew hnext :=
    let inst := Inst.value .ConstantComposite type m.bound constituents
    ⟨building_distinct.composite h.distinct htype hknown hnew hnext,
      (building_traced _).composite h.traced htype hknown hnew hnext,
      { (h.arranged.fresh hnext).declare (⟨rfl, rfl⟩ : inst.op.section = _ ∧ _) with }⟩
  foundComposite h hkey :=
    ⟨building_distinct.foundComposite h.distinct hkey, (building_traced _).foundComposite h.traced hkey, h.arranged⟩
  specialize type operands h hop hrests :=
    ⟨building_distinct.specialize type operands h.distinct hop hrests,
      (building_traced _).specialize type operands h.traced hop hrests,
      h.arranged.declare (Op.declares_of_isSpecialization hop)⟩
  globalVariable {_ _ _ _ _ storage pointer _} id h htype hname hnew :=
    let inst := Inst.value .Variable pointer id [Enumerated.number storage]
    ⟨building_distinct.globalVariable id h.distinct htype hname hnew,
      (building_traced _).globalVariable id h.traced htype hname hnew,
      { h.arranged.declare (⟨rfl, rfl⟩ : inst.op.section = _ ∧ _) with }⟩
  global h he hname hnew :=
    ⟨building_distinct.global h.distinct he hname hnew,
      (building_traced _).global h.traced he hname hnew, { h.arranged with }⟩
  foundGlobal h hname :=
    ⟨building_distinct.foundGlobal h.distinct hname, (building_traced _).foundGlobal h.traced hname, h.arranged⟩
  imported {_ _ m _} hlax h hnext :=
    let inst : Inst := { op := .ExtInstImport, result := some m.bound, name := some Module.setName }
    ⟨building_distinct.imported hlax h.distinct hnext, (building_traced _).imported hlax h.traced hnext,
      { (h.arranged.fresh hnext).insert (rfl : inst.op.standsOutside) nofun with }⟩
  foundImport hlax h hid :=
    ⟨building_distinct.foundImport hlax h.distinct hid, (building_traced _).foundImport hlax h.traced hid, h.arranged⟩
  named {_ _ _ _ name} h habsent hnext :=
    ⟨building_distinct.named h.distinct habsent hnext,
      (building_traced _).named h.traced habsent hnext, h.arranged.register name hnext⟩
  foundFunction h hname :=
    ⟨building_distinct.foundFunction h.distinct hname, (building_traced _).foundFunction h.traced hname, h.arranged⟩
  member h hid hnew :=
    ⟨building_distinct.member h.distinct hid (hnew.imp fun _ _ h₀ => h₀.distinct),
      (building_traced _).member h.traced hid (hnew.imp fun _ _ h₀ => h₀.traced), { h.arranged with }⟩

/-! ## Runs -/

theorem running_orderly : Running .orderly (fun _ => True) where
  building := building_orderly
  noResult h := ⟨h.distinct, running_traced.noResult h.traced, h.arranged⟩
  placed h hid := ⟨h.distinct, running_traced.placed h.traced hid, h.arranged⟩
  closed functions h :=
    ⟨running_distinct.closed functions h.distinct, running_traced.closed functions h.traced, { h.arranged with }⟩

/-- A property of types and decorations that stands through new identifiers, decorations and findings. -/
structure Attached (P : Module → Prop) : Prop where
  grow : ∀ {m m' : Module}, P m → m'.decorations = m.decorations → m'.types = m.types → m.bound ≤ m'.bound → P m'
  insert : ∀ {m : Module} {inst : Inst}, P m → inst.op.section.isNote →
    (∀ id, inst.lays? = some id → m.Recent (Orderly [] []) id) → P (m.insert inst.op.section inst)
  remember : ∀ {m m' : Module} {id : Id}, m.Remembers (fun m₀ => Orderly [] [] m₀ ∧ P m₀) id m' → P m → P m'

theorem Attached.declaring {P : Module → Prop} (hP : Attached P) {J : Ledger Module}
    (hJ : J.Stands = fun held known m => Orderly held known m ∧ P m) : Declaring J := by
  obtain ⟨_, _, _⟩ := J
  subst hJ
  have horderly := stepwise_orderly.declaring
  exact {
    alike := fun h ha => ⟨horderly.alike h.1 ha,
      hP.grow h.2 (by rw [ha]) (by rw [ha]) (by rw [ha]; exact UInt32.le_refl _)⟩
    note := fun inst h hs hinst hrecent _ =>
      have hnew := fun id hid => (hrecent id hid).imp fun _ h₀ => h₀.1
      ⟨horderly.note inst h.1 hs hinst hnew nofun, hP.insert h.2 hs hnew⟩
    name := fun h hname => ⟨horderly.name h.1 hname, hP.grow h.2 rfl rfl (UInt32.le_refl _)⟩
    fresh := fun h hnext => ⟨horderly.fresh h.1 hnext, hP.grow h.2 rfl rfl (Word.le_of_add_one hnext)⟩
    aggregate := fun operands h hop _ =>
      ⟨horderly.aggregate operands h.1 hop nofun, hP.grow h.2 rfl rfl (UInt32.le_refl _)⟩
    remember := fun h hid hm' => ⟨horderly.remember h.1 hid (hm'.imp fun _ h₀ => h₀.1), hP.remember hm' h.2⟩
    share := fun h hop hnext hm' hfiles hdouble _ =>
      ⟨horderly.share h.1 hop hnext (hm'.imp fun _ h₀ => h₀.1) hfiles hdouble nofun,
        hP.remember hm' (hP.grow h.2 rfl rfl (Word.le_of_add_one hnext))⟩
    foundType := fun h hid => ⟨horderly.foundType h.1 hid, h.2⟩
    literal := fun l h htype hlacks hnext => ⟨horderly.literal l h.1 htype hlacks hnext,
      hP.grow h.2 rfl rfl (Word.le_of_add_one hnext)⟩
    foundLiteral := fun h hl => ⟨horderly.foundLiteral h.1 hl, h.2⟩ }

theorem Attached.running {P : Module → Prop} (hP : Attached P) {J : Ledger Module}
    (hJ : J.Stands = fun held known m => Orderly held known m ∧ P m) : Running J (fun _ => True) := by
  have hdeclaring := hP.declaring hJ
  obtain ⟨_, _, _⟩ := J
  subst hJ
  have hbuilding := building_orderly
  exact {
    building := {
      toDeclaring := hdeclaring
      composite := fun h htype hknown hnew hnext =>
        ⟨hbuilding.composite h.1 htype hknown hnew hnext, hP.grow h.2 rfl rfl (Word.le_of_add_one hnext)⟩
      foundComposite := fun h hkey => ⟨hbuilding.foundComposite h.1 hkey, h.2⟩
      specialize := fun type operands h hop hrests =>
        ⟨hbuilding.specialize type operands h.1 hop hrests, hP.grow h.2 rfl rfl (UInt32.le_refl _)⟩
      globalVariable := fun id h htype hname hnew =>
        ⟨hbuilding.globalVariable id h.1 htype hname hnew, hP.grow h.2 rfl rfl (UInt32.le_refl _)⟩
      global := fun h he hname hnew => ⟨hbuilding.global h.1 he hname hnew, hP.grow h.2 rfl rfl (UInt32.le_refl _)⟩
      foundGlobal := fun h hname => ⟨hbuilding.foundGlobal h.1 hname, h.2⟩
      imported := fun hlax h hnext =>
        ⟨hbuilding.imported hlax h.1 hnext, hP.grow h.2 rfl rfl (Word.le_of_add_one hnext)⟩
      foundImport := fun hlax h hid => ⟨hbuilding.foundImport hlax h.1 hid, h.2⟩
      named := fun h habsent hnext =>
        ⟨hbuilding.named h.1 habsent hnext, hP.grow h.2 rfl rfl (Word.le_of_add_one hnext)⟩
      foundFunction := fun h hname => ⟨hbuilding.foundFunction h.1 hname, h.2⟩
      member := fun h hid hnew => ⟨hbuilding.member h.1 hid (hnew.imp fun _ _ h₀ => h₀.1),
        hP.grow h.2 rfl rfl (UInt32.le_refl _)⟩ }
    noResult := fun h => ⟨running_orderly.noResult h.1, h.2⟩
    placed := fun h hid => ⟨running_orderly.placed h.1 hid, h.2⟩
    closed := fun functions h => ⟨running_orderly.closed functions h.1, hP.grow h.2 rfl rfl (UInt32.le_refl _)⟩ }

theorem Module.start_arranged (config : Config) : (Workbench.start config).module.Arranged := by
  refine ⟨fun s inst hinst => ?_, fun inst hinst hop => ?_, fun inst hinst hop => ?_⟩
  · cases s with
    | capabilities | imports | memoryModel | debug =>
      cases List.mem_singleton.1 hinst
      exact ⟨rfl, rfl⟩
    | _ => cases hinst
  all_goals
    cases List.mem_singleton.1 hinst
    cases hop

theorem Orderly.refers {held : List Id} {known : List Known} (h : Orderly held known m)
    (ids : List Id) : Orderly held (ids.map .value ++ known) m :=
  ⟨h.distinct, h.traced.refers ids, h.arranged⟩

theorem Workbench.start_orderly (config : Config) : (start config).Stands .orderly (fun _ => True) := by
  refine ⟨⟨(start_stands config).ledger, ⟨Module.start_closed config, ?_⟩,
    Module.start_arranged config⟩, fun _ _ => trivial⟩
  exact fun _ h => nomatch h

theorem Workbench.run_orderly (config : Config) (ops : List Operation)
    (hops : ∀ op ∈ ops, op.builds) : ((start config).run ops).Stands .orderly (fun _ => True) :=
  run_keeps (fun hchange hw => hchange.stands running_orderly (fun hm => hm.refers _) stepwise_orderly.mark hw) ops hops
    (start_orderly config)

end Shader
