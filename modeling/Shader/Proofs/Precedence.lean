import Shader.Proofs.Traced
import Shader.Proofs.Unique

/-!
# Declarations stand after what they refer to

Types, constants and global variables refer only to declarations before their own, however they are
registered, and names and decorations are about identifiers that were handed out.
-/

namespace Shader

open List Module OrderedMap Work Keeps

variable {known : List Known} {m : Module}

variable {inst : Inst} {k : Known} {id : Id}

/-- Whatever an instruction refers to is defined before it. -/
def InOrder (insts : List Inst) : Prop :=
  ∀ before inst after, insts = before ++ inst :: after → inst.references ⊆ results before

theorem InOrder.snoc {insts : List Inst} (h : InOrder insts)
    (hinst : inst.references ⊆ results insts) : InOrder (insts ++ [inst]) := by
  intro before i after hsplit
  -- The instruction is the new one, or the new one is the last of those after it.
  rcases eq_nil_or_concat after with rfl | ⟨after, last, rfl⟩
  · obtain ⟨rfl, hlast⟩ := append_inj' hsplit rfl
    cases hlast
    exact hinst
  · rw [concat_eq_append, ← cons_append, ← append_assoc] at hsplit
    exact h before i after (append_inj' hsplit rfl).1

/-! ## The ledger -/

namespace Known

/-- Values and types that are known are declared, and functions have their names. -/
def Declared (m : Module) : Known → Prop
  | .value id | .type id => id ∈ results m.declarations
  | .function name id => m.functionIds.get? name = some id

theorem Declared.mono {m' : Module} (h : k.Declared m) (hdecls : results m.declarations ⊆ results m'.declarations)
    (hnames : ∀ name id, m.functionIds.get? name = some id → m'.functionIds.get? name = some id) : k.Declared m' := by
  cases k with
  | value id => exact hdecls h
  | type id => exact hdecls h
  | function name id => exact hnames name id h

theorem Declared.mem_ids (h : k.Declared m) : k.id ∈ m.ids := by
  cases k with
  | value id => exact mem_append_right _ (mem_append_left _ h)
  | type id => exact mem_append_right _ (mem_append_left _ h)
  | function name id => exact mem_append_right _ (mem_append_right _ (mem_values h))

end Known

/-- Declarations are in order, and names and decorations are about identifiers handed out. -/
structure Sequenced (held : List Id) (known : List Known) (m : Module) : Prop where
  distinct : Distinct held m
  closed : m.Closed
  inOrder : InOrder m.declarations
  targets : ∀ inst ∈ m.debug ++ m.decorations, ∀ id ∈ inst.targets, 0 < id ∧ id < m.bound
  known : ∀ k ∈ known, k.Declared m

namespace Sequenced

variable {held : List Id} {m' : Module}

theorem know (h : Sequenced held known m) (hk : k.Declared m) : Sequenced held (k :: known) m :=
  { h with known := forall_mem_cons.2 ⟨hk, h.known⟩ }

theorem inRange (h : Sequenced held known m) (hinst : inst.Aims held known) :
    ∀ id ∈ inst.targets, 0 < id ∧ id < m.bound := by
  intro id hid
  refine h.distinct.inRange id (mem_append.2 ?_)
  rcases hinst id hid with hheld | ⟨k, hk, rfl⟩
  · exact .inl hheld
  · exact .inr (h.known k hk).mem_ids

theorem references_subset (h : Sequenced held known m) (hinst : inst.Rests known) :
    inst.references ⊆ results m.declarations := by
  intro id hid
  rcases hinst id hid with hk | hk
  · exact h.known _ hk
  · exact h.known _ hk

theorem fresh (h : Sequenced held known m) {next : Id} (hnext : Word.add m.bound 1 = .ok next) :
    Sequenced (m.bound :: held) known { m with bound := next } where
  distinct := h.distinct.fresh hnext
  closed := { h.closed with }
  inOrder := h.inOrder
  targets inst hinst id hid :=
    ⟨(h.targets inst hinst id hid).1, UInt32.lt_trans (h.targets inst hinst id hid).2 (Word.lt_of_add_one hnext)⟩
  known k hk := (h.known k hk).mono (Subset.refl _) fun _ _ h => h

theorem declare (h : Sequenced (id :: held) known m) (hid : inst.result = some id)
    (hk : k = .value id ∨ k = .type id) (hinst : inst.references ⊆ results m.declarations) :
    Sequenced held (k :: known) { m with declarations := m.declarations ++ [inst] } := by
  have hmem : id ∈ results (m.declarations ++ [inst]) := mem_results_snoc _ hid
  refine know ?_ (by rcases hk with rfl | rfl <;> exact hmem)
  exact {
    distinct := tallying_distinct.declared h.distinct hid rfl rfl rfl rfl
    closed := h.closed.declare inst
    inOrder := h.inOrder.snoc hinst
    targets := h.targets
    known := fun k hk => (h.known k hk).mono (results_subset_append _ _) fun _ _ h => h }

theorem note (h : Sequenced held known m) (hm : m.Noted m')
    (hnew : ∀ i ∈ m'.debug ++ m'.decorations, i ∈ m.debug ++ m.decorations ∨ i.Aims held known) :
    Sequenced held known m' := by
  refine ⟨tallying_distinct.noted h.distinct hm, h.closed.noted hm, ?_, fun i hi => ?_, fun k hk => ?_⟩
  · rw [hm]
    exact h.inOrder
  · have hbound : m'.bound = m.bound := by rw [hm]
    rw [hbound]
    exact (hnew i hi).elim (h.targets i) h.inRange
  · rw [hm]
    exact (h.known k hk).mono (Subset.refl _) fun _ _ h => h

theorem index (h : Sequenced held known m) (hm : m' = { m with
      types := m'.types, pointers := m'.pointers, functionTypes := m'.functionTypes
      literals := m'.literals, composites := m'.composites, globals := m'.globals })
    (hclosed : m'.Closed) : Sequenced held known m' := by
  rw [hm] at hclosed ⊢
  exact {
    distinct := h.distinct.moved (fun _ => Nat.le_refl _) rfl
    closed := hclosed
    inOrder := h.inOrder
    targets := h.targets
    known := fun k hk => (h.known k hk).mono (Subset.refl _) fun _ _ h => h }

theorem remember (h : Sequenced held known m) {P : Module → Prop} (hid : .type id ∈ known)
    (hm : m.Remembers P id m') : Sequenced held known m' :=
  h.index (by rw [hm.same]) (h.closed.remember (h.known _ hid) hm)

theorem nameFunction (h : Sequenced held known m) {name : String} {next : Id} (hname : m.functionIds.get? name = none)
    (hnext : Word.add m.bound 1 = .ok next) : Sequenced held (.function name m.bound :: known)
      { m with bound := next, functionIds := m.functionIds.put name m.bound } := by
  have hfresh := h.fresh hnext
  refine know ?_ (k := .function name m.bound) (get?_put_self _ _ _)
  exact {
    distinct := tallying_distinct.registered h.distinct hname hnext
    closed := { h.closed with }
    inOrder := h.inOrder
    targets := hfresh.targets
    known := fun k hk => (h.known k hk).mono (Subset.refl _) fun _ _ h => get?_put_of_get? _ hname h }

end Sequenced

/-- Declarations are in order, and what is known is declared. -/
def Ledger.sequenced : Ledger Module where
  Stands := Sequenced
  drop h hheld hknown :=
    { h with
      distinct := Ledger.distinct.drop h.distinct hheld hknown
      known := fun k hk => h.known k (hknown hk) }

theorem Nameable.aims {held : List Id} {name : String}
    (h : Nameable held known id name) : (Inst.nameOf id name).Aims held known := by
  intro i hi
  cases mem_singleton.1 hi
  cases h with
  | held mem => exact .inl mem
  | type mem => exact .inr ⟨_, mem, rfl⟩
  | function mem => exact .inr ⟨_, mem, rfl⟩

theorem Literal.references_inst (l : Literal) (type id : Id) : (l.inst type id).references = [type] := by
  cases l with
  | bool b => cases b <;> rfl
  | _ => rfl

theorem building_sequenced : Building .any .sequenced true True where
  alike {_ _ m m'} h ha := h.note ha.noted fun i hi => .inl (by rw [ha] at hi; exact hi)
  note {held known m} inst h hs _ _ haims := by
    refine h.note (m.noted_insert hs inst) fun i hi => ?_
    have hi : i ∈ m.debug ++ m.decorations ∨ i = inst := by
      revert hi
      cases inst.op.section <;> simp only [Module.insert, mem_append, mem_singleton] <;> tauto
    exact hi.imp_right fun (heq : i = inst) => heq ▸ haims trivial
  name {held known m id name} h hname := by
    refine h.note rfl fun i hi => ?_
    have hi : i ∈ m.debug ++ m.decorations ∨ i = .nameOf id name := by
      simp only [mem_append, mem_singleton] at hi ⊢
      tauto
    exact hi.imp_right fun (heq : i = _) => heq ▸ hname.aims
  fresh h hnext := h.fresh hnext
  aggregate _ h _ hrests := h.declare rfl (.inr rfl) (h.references_subset (hrests trivial))
  remember h hid hm' := h.remember hid hm'
  share h _ hnext hm' _ _ hrests :=
    ((h.fresh hnext).declare rfl (.inr rfl) (h.references_subset (hrests trivial))).remember mem_cons_self hm'
  foundType h hid := h.know (h.closed.types _ hid)
  literal {_ _ m _ type} l h htype _ hnext := by
    have hdeclared := (h.fresh hnext).declare (k := .value m.bound)
      (rfl : (l.inst type m.bound).result = _) (.inl rfl) (by
        rw [l.references_inst]
        exact cons_subset.2 ⟨h.known _ htype, nil_subset _⟩)
    exact hdeclared.index rfl (hdeclared.closed.putLiteral l (mem_results_snoc _ rfl))
  foundLiteral h hl := h.know (h.closed.literals _ _ hl)
  composite {_ _ m _ type constituents} h htype hknown _ hnext := by
    have hdeclared := (h.fresh hnext).declare (k := .value m.bound)
      (rfl : (Inst.value .ConstantComposite type m.bound constituents).result = _) (.inl rfl)
      (cons_subset.2 ⟨h.known _ htype, fun _ hid => h.known _ (hknown (mem_map_of_mem hid))⟩)
    exact hdeclared.index rfl (hdeclared.closed.putComposite _ (mem_results_snoc _ rfl))
  foundComposite h hkey := h.know (h.closed.composites _ _ hkey)
  specialize _ _ h _ hrests := h.declare rfl (.inl rfl) (h.references_subset (hrests trivial))
  globalVariable {_ _ m name _ storage pointer type} id h htype _ hadmits := by
    have hpointer := h.closed.types pointer (mem_append_right _ (mem_append_left _ (mem_values hadmits.points)))
    have hdeclared := h.declare (k := .value id)
      (rfl : (Inst.value .Variable pointer id [Enumerated.number storage]).result = _) (.inl rfl)
      (cons_subset.2 ⟨hpointer, nil_subset _⟩)
    exact hdeclared.index rfl (hdeclared.closed.putGlobal name (mem_results_snoc _ rfl)
      (hdeclared.known _ (mem_cons_of_mem _ htype)))
  global {_ _ _ _ _ e} h he _ _ := h.index rfl (h.closed.putGlobal _
    (h.known (.value e.id) (he (by simp [Entity.known])))
    (h.known (.type e.type) (he (by simp [Entity.known]))))
  foundGlobal {_ _ _ _ e} h he := by
    obtain ⟨hid, htype⟩ := h.closed.globals _ _ he
    exact (h.know (k := .type e.type) htype).know (k := .value e.id) hid
  imported hlax := absurd trivial hlax
  foundImport hlax := absurd trivial hlax
  named h hname hnext := h.nameFunction hname hnext
  foundFunction h hname := h.know hname
  member h _ _ := h.note rfl fun _ hi => .inl hi

/-! ## Runs -/

theorem Module.declareVariable_sequenced (locals : Option Scope) (name : String) (storage : StorageClass)
    (ty : Ty) : Upholds .sequenced [] (declareVariable locals name storage ty) := by
  refine get_bind fun m => ?_
  dsimp only
  split
  · exact Steady.done _ m
  case h_2 hold =>
    split
    · exact (refuse_bind _ rfl) m
    · refine weaken_at (newVariable_keeps building_sequenced.toDeclaring
        (fun _ => building_sequenced) trivial fun hf => ?_) (fun _ => nil_subperm)
        fun _ => nil_subset _
      rw [if_neg (by simpa using hf)] at hold
      exact hold

theorem Module.declareByRole_sequenced (locals : Option Scope) (v : Variable) :
    Upholds .sequenced [] (declareByRole locals v) := by
  refine get_bind fun m => ?_
  split
  · exact Steady.done _ m
  · split
    · exact (refuse_bind _ rfl) m
    · exact get_bind (fun m => declareVariable_sequenced locals _ _ _ m) m

theorem Work.declare_module (name : String) (global : Bool) (x : Option Scope → Build Declared) (w : Workbench) :
    ((declare name global x >>= fun e => pure (.entity e) : Work Answer) w).2.module =
      (x (w.locals? global) w.module).2 := by
  rw [bind_pure_snd]
  unfold declare
  rw [get_bind, bind_apply, onModule_apply]
  rcases x (w.locals? global) w.module with ⟨e | d, m⟩
  · rfl
  · dsimp only
    rw [get_bind]
    cases w.functions.get? <;> rfl

/-- All of the identifiers are declared. -/
def Module.declares (m : Module) (ids : List Id) : Bool := ids.all (results m.declarations).contains

theorem Sequenced.of_declares (h : Sequenced [] known m) {ids : List Id} (hids : m.declares ids) {k : Id → Known}
    (hk : ∀ id, (k id).Declared m ↔ id ∈ results m.declarations) : Sequenced [] (ids.map k ++ known) m := by
  refine { h with known := fun i hi => ?_ }
  rcases mem_append.1 hi with hi | hi
  · obtain ⟨id, hid, rfl⟩ := mem_map.1 hi
    exact (hk id).2 (by simpa using all_eq_true.1 hids id hid)
  · exact h.known i hi

/-- Whether an operation registers something, with identifiers that are declared. -/
def Operation.registers (w : Workbench) : Operation → Bool
  | .type .. | .literal _ | .specConstant .. | .declare .. | .resolve .. | .tempVariable _
  | .openFunction .. | .useFunction _ => true
  | .tupleType members => w.module.declares members
  | .pointerType pointee _ => w.module.declares [pointee]
  | .functionType ret params => w.module.declares (ret :: params)
  | .composite constituents _ => w.module.declares constituents
  | _ => false

namespace Workbench

/-- Whether all of the operations register, each on the workbench that those before it leave. -/
def registering (w : Workbench) : List Operation → Bool
  | [] => true
  | op :: ops => op.registers w && (w.perform op).2.registering ops

theorem after_sequenced {α : Type} {x : Build α} {gives : α → List Id} {gains : α → List Known}
    (hx : Keeps .sequenced [] known x gives gains) (hm : Sequenced [] known m) : Sequenced [] [] (x m).2 :=
  Ledger.sequenced.drop (hx.after_nil (fun _ hk => hk) hm) (Subperm.refl _) (nil_subset _)

theorem yielding_sequenced {w : Workbench} {x : Build Id}
    {gains : Id → List Known} (hx : Steady .sequenced known x gains) (hw : Sequenced [] known w.module) :
    Sequenced [] [] (Operation.yielding x w).2.module := by
  rw [Operation.yielding, onModule_bind_snd]
  exact after_sequenced hx hw

theorem perform_sequenced {w : Workbench} {op : Operation} (hop : op.registers w)
    (hw : Sequenced [] [] w.module) : Sequenced [] [] (w.perform op).2.module := by
  have hJ := building_sequenced
  unfold perform
  cases op with
  | type ty layout => exact yielding_sequenced (declareTypeWith_steady hJ.toDeclaring layout none ty []) hw
  | literal l => exact yielding_sequenced (declareLiteral_steady hJ.toDeclaring l) hw
  | specConstant name specId ty default =>
    exact yielding_sequenced (declareSpecialization_steady hJ trivial specId default) hw
  | tupleType members =>
    exact yielding_sequenced (declareTuple_steady hJ.toDeclaring fun _ =>
      subset_append_left _ _) (hw.of_declares hop (k := .type) fun _ => .rfl)
  | pointerType pointee storage =>
    exact yielding_sequenced (declarePointer_steady hJ.toDeclaring storage fun _ =>
      mem_cons_self) (hw.of_declares hop (k := .type) fun _ => .rfl)
  | functionType ret params =>
    exact yielding_sequenced (declareSignature_steady hJ.toDeclaring fun _ =>
      subset_append_left _ _) (hw.of_declares hop (k := .type) fun _ => .rfl)
  | composite constituents ty =>
    exact yielding_sequenced (declareComposite_steady hJ (subset_append_left _ _) ty)
      (hw.of_declares hop (k := .value) fun _ => .rfl)
  | declare name storage ty global =>
    rw [Operation.perform, declare_module]
    exact after_sequenced (declareVariable_sequenced _ name storage ty) hw
  | resolve v global =>
    rw [Operation.perform, declare_module]
    exact after_sequenced (declareByRole_sequenced _ v) hw
  | tempVariable ty =>
    have hty := after_sequenced (declareTemporary_keeps hJ.toDeclaring ty) hw
    rcases currentFunction_cases _ w with ⟨f, -, h⟩ | ⟨-, h⟩ <;> rw [Operation.perform, h]
    · rw [bind_apply, onModule_apply]
      rcases hrun : declareTemporary ty w.module with ⟨e | p, m⟩ <;> rw [hrun] at hty <;>
        exact hty
    · exact hw
  | openFunction name ret params =>
    have hopen := after_sequenced (openFunction_keeps hJ name ret params) hw
    rw [Operation.perform, bind_apply, onModule_apply]
    rcases hrun : openFunction name ret params w.module with ⟨e | f, m⟩ <;>
      rw [hrun] at hopen <;> exact hopen
  | useFunction i => exact hw
  | _ => cases hop

theorem run_sequenced (ops : List Operation) : ∀ {w : Workbench}, w.registering ops → Sequenced [] [] w.module →
      Sequenced [] [] (w.run ops).module := by
  induction ops with
  | nil => exact fun _ hw => hw
  | cons op ops ih =>
    intro w hops hw
    obtain ⟨hop, hops⟩ := Bool.and_eq_true_iff.1 hops
    exact ih hops (perform_sequenced hop hw)

theorem start_sequenced (config : Config) : Sequenced [] [] (start config).module where
  distinct := (start_stands config).ledger
  closed := start_closed config
  inOrder := by
    intro before inst after hsplit
    cases before <;> cases hsplit
  targets := by
    intro inst hinst id hid
    cases mem_singleton.1 hinst
    cases hid
  known := nofun

end Workbench

/-- Declarations refer only to results of earlier ones, however they were registered, and names and
decorations are about identifiers that were handed out. -/
theorem run_inOrder (config : Config) (ops : List Operation) (hops : (Workbench.start config).registering ops) :
    let m := ((Workbench.start config).run ops).module
    InOrder m.declarations ∧ ∀ inst ∈ m.debug ++ m.decorations, ∀ id ∈ inst.targets, 0 < id ∧ id < m.bound := by
  have h := Workbench.run_sequenced ops hops (Workbench.start_sequenced config)
  exact ⟨h.inOrder, h.targets⟩

def Operation.lighting : List Operation :=
  [.literal (.uint 4), .tupleType [2, 2], .pointerType 4 .Private, .functionType 2 [5],
    .composite [3, 3] (.vector .uint 2),
    .declare "lights" .Uniform (.array (.scalar .float) (some 4)) true,
    .specConstant "samples" 0 (.scalar .uint) (.uint 1),
    .openFunction "shade" .void [.root "ray" (.struct "Ray" .std430 [⟨"origin", .vector .float 2, 0, none⟩])
        { parameter := true }],
    .tempVariable (.scalar .float), .resolve (.root "color" (.scalar .float) { output := true }) false]

/-- The variable 9 is named before its type is declared, and declared after it. -/
theorem lighting_inOrder :
    let w := (Workbench.start {}).run Operation.lighting
    (Workbench.start {}).registering Operation.lighting ∧ results w.module.declarations =
        [2, 3, 4, 5, 6, 7, 8, 10, 11, 12, 9, 13, 15, 16, 17, 18, 20, 21, 24, 23] ∧
      InOrder w.module.declarations ∧
      ∀ inst ∈ w.module.debug ++ w.module.decorations, ∀ id ∈ inst.targets, 0 < id ∧ id < w.module.bound := by
  have hops : (Workbench.start {}).registering Operation.lighting := by decide +kernel
  exact ⟨hops, by decide +kernel, run_inOrder {} _ hops⟩

end Shader
