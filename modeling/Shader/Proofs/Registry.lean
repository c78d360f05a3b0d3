import Shader.Proofs.Run

/-!
# Constants that a module remembers

Literals and composites are declared once and then found again. Constants stand in the order of their
identifiers, and the constituents of a composite are declared before it.
-/

namespace Shader

open List OrderedMap Word

variable {m : Module}

variable {id : Id} {m' : Module} {l : Literal} {inst : Inst}

def Op.isScalarConstant : Op → Bool
  | .ConstantTrue | .ConstantFalse | .Constant => true
  | _ => false

/-- The identifier is that of a declared constant, whose constituents are constants declared before it. -/
inductive ConstantIn : List Inst → Id → Prop where
  | scalar {before after : List Inst} {inst : Inst} {id : Id} (op : inst.op.isScalarConstant)
      (result : inst.result = some id) : ConstantIn (before ++ inst :: after) id
  | composite {before after : List Inst} {inst : Inst} {id : Id} (op : inst.op = .ConstantComposite)
      (result : inst.result = some id) (constituents : ∀ c ∈ inst.operands, ConstantIn before c) :
      ConstantIn (before ++ inst :: after) id

namespace ConstantIn

variable {decls : List Inst}

theorem append (h : ConstantIn decls id) (more : List Inst) : ConstantIn (decls ++ more) id := by
  cases h with
  | scalar op result =>
    rw [append_assoc]
    exact .scalar op result
  | composite op result constituents =>
    rw [append_assoc]
    exact .composite op result constituents

theorem mono {decls' : List Inst} (h : ConstantIn decls id) (hgrown : decls <+: decls') : ConstantIn decls' id := by
  obtain ⟨more, rfl⟩ := hgrown
  exact h.append more

theorem exists_split (h : ConstantIn decls id) :
    ∃ before inst after, decls = before ++ inst :: after ∧ inst.op.isFixedConstant ∧
      inst.result = some id ∧ ConstantIn (before ++ [inst]) id := by
  cases h with
  | @scalar before after inst _ op result =>
    refine ⟨before, inst, after, rfl, ?_, result, .scalar op result⟩
    revert op
    cases inst.op <;> simp [Op.isScalarConstant, Op.isFixedConstant]
  | @composite before after inst _ op result constituents =>
    exact ⟨before, inst, after, rfl, op ▸ rfl, result, .composite op result constituents⟩

end ConstantIn

/-! ## Registries -/

/-- Constants that cannot be specialized. -/
def fixedConstants (decls : List Inst) : List Inst := decls.filter (·.op.isFixedConstant)

/-- Constants are found as they are declared, in ascending order, after their constituents. -/
structure Module.Sound (m : Module) : Prop where
  bound : 0 < m.bound
  literals : ∀ l id, m.literals.get? l = some id → ∃ type, l.inst type id ∈ m.declarations
  composites : ∀ constituents type id, m.composites.get? (constituents, type) = some id →
    .value .ConstantComposite type id constituents ∈ m.declarations
  globals : ∀ name e, m.globals.get? name = some e → e.id < m.bound
  values : ∀ name e, m.globals.get? name = some e → e.isValue → m.Specializes e.id
  imported : ∀ id, m.glslStd450 = some id → id < m.bound
  ascending : (results (fixedConstants m.declarations)).Pairwise (· < ·)
  inRange : ∀ inst ∈ m.declarations, inst.op.isFixedConstant → ∃ id, inst.result = some id ∧ id < m.bound
  constituents : ∀ inst ∈ m.declarations, inst.op = .ConstantComposite →
    ∀ id, inst.result = some id → ∀ c ∈ inst.operands, c < id

theorem Literal.inst_isScalarConstant (l : Literal) (type id : Id) : (l.inst type id).op.isScalarConstant := by
  cases l with
  | bool b => cases b <;> rfl
  | _ => rfl

theorem fixedConstants_snoc (decls : List Inst) (inst : Inst) : fixedConstants (decls ++ [inst]) =
      fixedConstants decls ++ if inst.op.isFixedConstant then [inst] else [] := by
  unfold fixedConstants
  split <;> simp_all

namespace Module.Sound

theorem mem_results_lt (h : m.Sound) (hid : id ∈ results (fixedConstants m.declarations)) : id < m.bound := by
  obtain ⟨inst, hinst, hresult⟩ := mem_filterMap.1 hid
  obtain ⟨hmem, hfixed⟩ := mem_filter.1 hinst
  obtain ⟨id', hid', hlt⟩ := h.inRange inst hmem hfixed
  rw [hresult] at hid'
  cases hid'
  exact hlt

theorem fresh (h : m.Sound) {next : Id} (hnext : add m.bound 1 = .ok next) : Sound { m with bound := next } :=
  have hlt := lt_of_add_one hnext
  { h with
    bound := UInt32.lt_trans h.bound hlt
    globals := fun name e he => UInt32.lt_trans (h.globals name e he) hlt
    imported := fun id hid => UInt32.lt_trans (h.imported id hid) hlt
    inRange := fun inst hi hop => by
      obtain ⟨id, hid, hid'⟩ := h.inRange inst hi hop
      exact ⟨id, hid, UInt32.lt_trans hid' hlt⟩ }

theorem declare (h : m.Sound) {bound : Id} (hbound : m.bound ≤ bound)
    (hinst : inst.op.isFixedConstant → inst.result = some m.bound ∧ m.bound < bound ∧
      (inst.op = .ConstantComposite → ∀ c ∈ inst.operands, c < m.bound))
    {literals : OrderedMap Literal Id} {composites : OrderedMap (List Id × Id) Id}
    (hliterals : ∀ l id, literals.get? l = some id → m.literals.get? l = some id ∨ ∃ type, l.inst type id = inst)
    (hcomposites : ∀ constituents type id, composites.get? (constituents, type) = some id →
      m.composites.get? (constituents, type) = some id ∨ .value .ConstantComposite type id constituents = inst) :
    Sound { m with bound, declarations := m.declarations ++ [inst], literals, composites } where
  bound := UInt32.lt_of_lt_of_le h.bound hbound
  literals l id hl := by
    rcases hliterals l id hl with hl | ⟨type, rfl⟩
    · obtain ⟨type, hmem⟩ := h.literals l id hl
      exact ⟨type, mem_append_left _ hmem⟩
    · exact ⟨type, by simp⟩
  composites constituents type id hc := by
    rcases hcomposites constituents type id hc with hc | rfl
    · exact mem_append_left _ (h.composites constituents type id hc)
    · simp
  globals name e he := UInt32.lt_of_lt_of_le (h.globals name e he) hbound
  values name e he hvalue := (h.values name e he hvalue).mono (subset_append_left _ _)
  imported id hid := UInt32.lt_of_lt_of_le (h.imported id hid) hbound
  ascending := by
    rw [fixedConstants_snoc]
    split
    case isTrue hfixed =>
      rw [results_snoc _ (hinst hfixed).1, pairwise_append]
      refine ⟨h.ascending, pairwise_singleton _ _, fun a ha b hb => ?_⟩
      cases mem_singleton.1 hb
      exact h.mem_results_lt ha
    case isFalse =>
      rw [append_nil]
      exact h.ascending
  inRange i hi hop := by
    rcases mem_append.1 hi with hi | hi
    · obtain ⟨id, hid, hlt⟩ := h.inRange i hi hop
      exact ⟨id, hid, UInt32.lt_of_lt_of_le hlt hbound⟩
    · cases mem_singleton.1 hi
      exact ⟨_, (hinst hop).1, (hinst hop).2.1⟩
  constituents i hi hop id hid := by
    rcases mem_append.1 hi with hi | hi
    · exact h.constituents i hi hop id hid
    · cases mem_singleton.1 hi
      obtain ⟨hresult, -, hoperands⟩ := hinst (by rw [hop]; rfl)
      rw [hresult] at hid
      cases hid
      exact hoperands hop

theorem addOther (h : m.Sound) (hop : inst.op.isFixedConstant = false) :
    Sound { m with declarations := m.declarations ++ [inst] } :=
  h.declare (UInt32.le_refl _) (by simp [hop]) (fun _ _ => .inl) fun _ _ _ => .inl

theorem literal_lt (h : m.Sound) (hl : m.literals.get? l = some id) : id < m.bound := by
  obtain ⟨type, hmem⟩ := h.literals l id hl
  obtain ⟨id', hid', hlt⟩ := h.inRange _ hmem (l.inst_isFixedConstant _ _)
  cases hid'
  exact hlt

theorem composite_lt (h : m.Sound) {key : List Id × Id} (hc : m.composites.get? key = some id) : id < m.bound := by
  obtain ⟨id', hid', hlt⟩ := h.inRange _ (h.composites key.1 key.2 id hc) rfl
  cases hid'
  exact hlt

end Module.Sound

def Known.Below (bound : Id) : Known → Prop
  | .value id => id < bound
  | .type _ => True
  | .function _ _ => True

theorem Known.Below.mono {bound next : Id} {k : Known} (h : k.Below bound) (hle : bound < next) : k.Below next := by
  cases k with
  | value id => exact UInt32.lt_trans h hle
  | _ => trivial

/-- Identifiers that are held or known have been handed out. -/
structure HandedOut (held : List Id) (known : List Known) (bound : Id) : Prop where
  held : ∀ id ∈ held, id < bound
  known : ∀ k ∈ known, k.Below bound

namespace HandedOut

variable {held : List Id} {known : List Known} {bound next : Id}

theorem fresh (h : HandedOut held known bound) (hnext : add bound 1 = .ok next) :
    HandedOut (bound :: held) known next where
  held := forall_mem_cons.2 ⟨lt_of_add_one hnext, fun id hid => UInt32.lt_trans (h.held id hid) (lt_of_add_one hnext)⟩
  known k hk := (h.known k hk).mono (lt_of_add_one hnext)

theorem know (h : HandedOut held known bound) {k : Known} (hk : k.Below bound) : HandedOut held (k :: known) bound where
  held := h.held
  known := forall_mem_cons.2 ⟨hk, h.known⟩

theorem define (h : HandedOut (id :: held) known bound) : HandedOut held (.value id :: known) bound where
  held := (forall_mem_cons.1 h.held).2
  known := forall_mem_cons.2 ⟨(forall_mem_cons.1 h.held).1, h.known⟩

theorem release (h : HandedOut (id :: held) known bound) : HandedOut held known bound :=
  ⟨(forall_mem_cons.1 h.held).2, h.known⟩

end HandedOut

/-- The module is sound and has handed out all that is held or known. -/
def Ledger.sound : Ledger Module where
  Stands held known m := m.Sound ∧ HandedOut held known m.bound
  drop h hheld hknown := ⟨h.1, fun i hi => h.2.held i (hheld.subset hi), fun k hk => h.2.known k (hknown hk)⟩

theorem Op.isFixedConstant_of_isType {op : Op} (h : op.isType) : op.isFixedConstant = false := by
  revert h
  unfold Op.isType Op.isFixedConstant
  split <;> simp

theorem Op.isFixedConstant_of_isSpecialization {op : Op} (h : op.isSpecialization) : op.isFixedConstant = false := by
  revert h
  unfold Op.isSpecialization Op.isFixedConstant
  split <;> simp

theorem Module.Sound.noted (h : m.Sound) (hm : m.Noted m') : m'.Sound := by
  rw [hm]
  exact { h with }

theorem Module.Noted.bound_eq (h : m.Noted m') : m'.bound = m.bound := by
  rw [h]

theorem stepwise_sound : Stepwise .sound where
  alike h ha := ⟨h.1.noted ha.noted, ha.noted.bound_eq ▸ h.2⟩
  note inst h hs _ :=
    have hm := Module.noted_insert _ hs inst
    ⟨h.1.noted hm, hm.bound_eq ▸ h.2⟩
  name h _ := ⟨h.1.noted rfl, h.2⟩
  fresh h hnext := ⟨h.1.fresh hnext, h.2.fresh hnext⟩
  type _ h hop := ⟨h.1.addOther (Op.isFixedConstant_of_isType hop), h.2.release.know trivial⟩
  remember {held known m m' id} h _ hm' := by
    rw [hm'.same]
    exact ⟨{ h.1 with }, h.2⟩
  foundType h _ := ⟨h.1, h.2.know trivial⟩
  literal {held known m next type} l h _ _ hnext := by
    have hlt := lt_of_add_one hnext
    refine ⟨h.1.declare (UInt32.le_of_lt hlt) (fun _ => ⟨rfl, hlt, fun hop => ?_⟩) ?_ ?_, (h.2.fresh hnext).define⟩
    · have hscalar := l.inst_isScalarConstant type m.bound
      rw [hop] at hscalar
      cases hscalar
    · intro l' id hl'
      rcases eq_or_get?_of_get?_put hl' with ⟨rfl, rfl⟩ | hold
      · exact .inr ⟨type, rfl⟩
      · exact .inl hold
    · exact fun _ _ _ hc => .inl hc
  foundLiteral h hl := ⟨h.1, h.2.know (h.1.literal_lt hl)⟩

theorem Ledger.sound_putGlobal {held : List Id} {known : List Known} {name : String} {ty : Ty} {e : Entity}
    (h : Ledger.sound.Stands held known m) (hid : .value e.id ∈ known) (hnew : m.Introduces name ty e) :
    Ledger.sound.Stands held known { m with globals := m.globals.put name e } := by
  refine ⟨{ h.1 with globals := fun name' e' he' => ?_, values := fun name' e' he' => ?_ }, h.2⟩
  · rcases eq_or_get?_of_get?_put he' with ⟨-, rfl⟩ | hold
    · exact h.2.known (.value _) hid
    · exact h.1.globals name' e' hold
  · rcases eq_or_get?_of_get?_put he' with ⟨-, rfl⟩ | he'
    · exact hnew.specializes
    · exact h.1.values name' e' he'

theorem building_sound : Building .any .sound where
  toDeclaring := stepwise_sound.declaring
  composite {held known m next type constituents} h _ hknown _ hnext := by
    have hlt := lt_of_add_one hnext
    refine ⟨h.1.declare (UInt32.le_of_lt hlt) (fun _ => ⟨rfl, hlt, fun _ c hc => ?_⟩) ?_ ?_, (h.2.fresh hnext).define⟩
    · exact h.2.known (.value c) (hknown (mem_map_of_mem hc))
    · exact fun _ _ hl => .inl hl
    · intro constituents' type' id hc
      rcases eq_or_get?_of_get?_put hc with ⟨heq, rfl⟩ | hold
      · cases heq
        exact .inr rfl
      · exact .inl hold
  foundComposite h hc := ⟨h.1, h.2.know (h.1.composite_lt hc)⟩
  specialize _ _ h hop _ := ⟨h.1.addOther (Op.isFixedConstant_of_isSpecialization hop), h.2.define⟩
  globalVariable id h _ _ hnew :=
    Ledger.sound_putGlobal ⟨h.1.addOther rfl, h.2.define⟩ mem_cons_self (hnew.introduces id)
  global h he _ hnew := Ledger.sound_putGlobal h (he mem_cons_self) hnew
  foundGlobal h he := ⟨h.1, (h.2.know (k := .type _) trivial).know (h.1.globals _ _ he)⟩
  imported {held known m next} _ h hnext := by
    refine ⟨{ h.1.fresh hnext with imported := fun id hid => ?_ }, (h.2.fresh hnext).define⟩
    cases hid
    exact lt_of_add_one hnext
  foundImport _ h hid := ⟨h.1, h.2.know (h.1.imported _ hid)⟩
  named h _ hnext := ⟨{ h.1.fresh hnext with }, (h.2.fresh hnext).release.know trivial⟩
  foundFunction h _ := ⟨h.1, h.2.know trivial⟩
  member h _ _ := ⟨h.1.noted rfl, h.2⟩

theorem running_sound : Running .sound (fun _ => True) where
  building := building_sound
  noResult h := ⟨h.1, h.2.know h.1.bound⟩
  placed h hid := ⟨h.1, h.2.know (h.2.held _ hid)⟩
  closed _ h := ⟨{ h.1 with }, h.2⟩

/-! ## Finding constants -/

theorem Module.declareLiteral_ok (h : declareLiteral l m = (.ok id, m')) : m'.literals.get? l = some id :=
  findOrMake_finds (fun _ => get?_put_self _ _ _) h

theorem Module.declareComposite_ok {constituents : List Id} {ty : Ty}
    (h : declareComposite constituents ty m = (.ok id, m')) :
    ∃ type, m'.Finds none none ty type ∧ m'.composites.get? (constituents, type) = some id := by
  obtain ⟨type, m₁, htype, h⟩ := Action.bind_ok h
  refine ⟨type, ?_⟩
  rcases findOrMake_ok h with ⟨hfound, rfl⟩ | ⟨hnew, m₂, hmake, rfl⟩
  · exact ⟨finds_of_ok htype, hfound⟩
  · obtain ⟨-, next, -, rfl⟩ := eq_of_defineValue hmake
    refine ⟨(finds_of_ok htype).mono { Retains.refl m₁ with composites := fun _ _ hk => ?_ },
      get?_put_self _ _ _⟩
    exact get?_put_of_get? _ hnew hk

namespace Module.Sound

theorem constantIn_of_literal (h : m.Sound) (hl : m.literals.get? l = some id) : ConstantIn m.declarations id := by
  obtain ⟨type, hmem⟩ := h.literals l id hl
  obtain ⟨before, after, hsplit⟩ := append_of_mem hmem
  rw [hsplit]
  exact .scalar (l.inst_isScalarConstant _ _) rfl

theorem lt_of_constantIn (h : m.Sound) (hid : ConstantIn m.declarations id) : id < m.bound := by
  obtain ⟨before, inst, after, hsplit, hfixed, hresult, -⟩ := hid.exists_split
  obtain ⟨id', hid', hlt⟩ := h.inRange inst (by simp [hsplit]) hfixed
  rw [hresult] at hid'
  cases hid'
  exact hlt

theorem constantIn_before (h : m.Sound) {before after : List Inst} {c : Id}
    (hsplit : m.declarations = before ++ inst :: after) (hfixed : inst.op.isFixedConstant)
    (hresult : inst.result = some id) (hc : ConstantIn m.declarations c) (hlt : c < id) : ConstantIn before c := by
  obtain ⟨before', inst', after', hsplit', hfixed', hresult', hconstant⟩ := hc.exists_split
  have hascending := h.ascending
  rw [hsplit'] at hsplit hascending
  rcases append_eq_append_iff.1 hsplit with ⟨between, hb, hrest⟩ | ⟨between, hb, hrest⟩
  · cases between with
    | nil =>
      cases hrest
      rw [hresult] at hresult'
      cases hresult'
      exact absurd hlt (UInt32.lt_irrefl _)
    | cons x between =>
      cases hrest
      rw [hb, append_cons]
      exact hconstant.append between
  · -- Otherwise the constant would stand at or after the instruction.
    exfalso
    cases between with
    | nil =>
      cases hrest
      rw [hresult] at hresult'
      cases hresult'
      exact absurd hlt (UInt32.lt_irrefl _)
    | cons x between =>
      cases hrest
      rw [hb] at hascending
      simp only [fixedConstants, results, filter_append, filterMap_append,
        filter_cons_of_pos (p := fun i : Inst => i.op.isFixedConstant) hfixed,
        filter_cons_of_pos (p := fun i : Inst => i.op.isFixedConstant) hfixed',
        filterMap_cons_some hresult, filterMap_cons_some hresult'] at hascending
      have hle := (pairwise_append.1 hascending).2.2 id (by simp) c (by simp)
      exact UInt32.lt_irrefl _ (UInt32.lt_trans hlt hle)

theorem constantIn_of_composite (h : m.Sound) {constituents : List Id} {type : Id}
    (hc : m.composites.get? (constituents, type) = some id)
    (hconstituents : ∀ c ∈ constituents, ConstantIn m.declarations c) : ConstantIn m.declarations id := by
  have hmem := h.composites constituents type id hc
  obtain ⟨before, after, hsplit⟩ := append_of_mem hmem
  have hbefore : ∀ c ∈ constituents, ConstantIn before c := fun c hcon =>
    h.constantIn_before hsplit rfl rfl (hconstituents c hcon) (h.constituents _ hmem rfl id rfl c hcon)
  rw [hsplit]
  exact .composite rfl rfl hbefore

end Module.Sound

/-- Workbenches that building operations lead to, with composites of identifiers that were handed out. -/
inductive Workbench.Reachable (config : Config) : Workbench → Prop where
  | start : Reachable config (start config)
  | perform {w : Workbench} {op : Operation} (reachable : Reachable config w) (builds : op.builds)
      (refers : ∀ id ∈ op.refers, id < w.module.bound) : Reachable config (w.perform op).2

theorem Workbench.Reachable.sound {config : Config} {w : Workbench} (h : Reachable config w) :
    w.Stands .sound (fun _ => True) := by
  induction h with
  | start =>
    have hbound : (Workbench.start config).module.bound = 2 := rfl
    have himported : ∀ id, (Workbench.start config).module.glslStd450 = some id →
        id < (Workbench.start config).module.bound := by
      rintro id ⟨⟩
      exact hbound ▸ by decide
    have hsound : (Workbench.start config).module.Sound :=
      ⟨hbound ▸ by decide, nofun, nofun, nofun, nofun, himported, Pairwise.nil,
        (fun _ h => nomatch h), (fun _ h => nomatch h)⟩
    exact ⟨⟨hsound, (fun _ h => nomatch h), (fun _ h => nomatch h)⟩, fun _ _ => trivial⟩
  | @perform w op _ builds refers ih =>
    refine (perform_change builds).stands running_sound (fun hm => ?_) stepwise_sound.mark ih
    refine ⟨hm.1, hm.2.held, fun k hk => ?_⟩
    rcases mem_append.1 hk with hk | hk
    · obtain ⟨id, hid, rfl⟩ := mem_map.1 hk
      exact refers id hid
    · exact hm.2.known k hk

end Shader
