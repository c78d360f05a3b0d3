import Shader.Proofs.Orderly
import Shader.Proofs.Stream

/-!
# The grammar of modules

The reader of modules takes one instruction after the other and remembers which function and which block
are open. It accepts exactly the sequences of items, single instructions and whole functions, with at
most one entry point. Single instructions go to their sections, and functions follow each other.
-/

namespace Shader

open List Inst

variable {m : Module} {r r' : Reading}

/-! ## Texts -/

/-- A parameter as it is written. -/
structure ParamText where
  type : Id
  id : Id
  operands : List Word := []
deriving DecidableEq

def ParamText.inst (p : ParamText) : Inst := .value .FunctionParameter p.type p.id p.operands

/-- A block as it is written: a label, a body and what ends it. -/
structure BlockText where
  label : Id
  operands : List Word := []
  body : List Inst
  last : Inst
  inside : ∀ inst ∈ body, inst.op.standsInBlock
  ends : last.op.isTerminator

def BlockText.insts (b : BlockText) : List Inst := .defining .Label b.label b.operands :: (b.body ++ [b.last])

def BlockText.block (b : BlockText) : Block :=
  { label := b.label, instructions := b.body, terminator := some b.last }

/-- A function as it is written, from its opening to its end. -/
structure FunctionText where
  returnType : Id
  id : Id
  control : Word
  functionType : Id
  params : List ParamText
  blocks : List BlockText

def FunctionText.insts (t : FunctionText) : List Inst :=
  .value .Function t.returnType t.id [t.control, t.functionType] ::
    (t.params.map ParamText.inst ++ (t.blocks.flatMap BlockText.insts ++ [.effect .FunctionEnd []]))

def FunctionText.function (t : FunctionText) (name : String) : Function :=
  { name, id := t.id, returnType := t.returnType, control := t.control &&& Module.controlMask
    functionType := t.functionType, params := t.params.map fun p => (p.type, p.id)
    blocks := t.blocks.map BlockText.block }

/-- What a module is a sequence of: single instructions and whole functions. -/
inductive Item where
  | single (inst : Inst) (outside : inst.op.standsOutside)
  | function (text : FunctionText)

namespace Item

def insts : Item → List Inst
  | .single inst _ => [inst]
  | .function text => text.insts

def single? : Item → Option Inst
  | .single inst _ => some inst
  | .function _ => none

def function? : Item → Option FunctionText
  | .single _ _ => none
  | .function text => some text

def singles (items : List Item) : List Inst := items.filterMap single?

def functions (items : List Item) : List FunctionText := items.filterMap function?

end Item

/-! ## Rules -/

namespace Module

/-- What the reader does with an instruction that it accepts. -/
inductive Reads : Reading → Inst → Reading → Prop where
  | single {m : Module} {inst : Inst} (outside : inst.op.standsOutside)
      (first : inst.op = .EntryPoint → m.entryPoint = none) :
      Reads ⟨m, none⟩ inst ⟨(m.learn inst).insert inst.op.section inst, none⟩
  | opens (m : Module) (returnType id : Id) (control : Word) (functionType : Id) :
      Reads ⟨m, none⟩ (.value .Function returnType id [control, functionType]) ⟨m, some { function :=
          { name := "", id, returnType, control := control &&& controlMask, functionType } }⟩
  | param (m : Module) {f : Function} (p : ParamText) (early : f.blocks = []) : Reads ⟨m, some ⟨f, none⟩⟩ p.inst
        ⟨m, some ⟨{ f with params := f.params ++ [(p.type, p.id)] }, none⟩⟩
  | label (m : Module) (f : Function) (label : Id) (operands : List Word) :
      Reads ⟨m, some ⟨f, none⟩⟩ (.defining .Label label operands) ⟨m, some ⟨f, some { label }⟩⟩
  | inside (m : Module) (f : Function) (b : Block) {inst : Inst} (inside : inst.op.standsInBlock) :
      Reads ⟨m, some ⟨f, some b⟩⟩ inst ⟨m, some ⟨f, some (b.push inst)⟩⟩
  | ends (m : Module) (f : Function) (b : Block) {inst : Inst} (ends : inst.op.isTerminator) :
      Reads ⟨m, some ⟨f, some b⟩⟩ inst
        ⟨m, some ⟨{ f with blocks := f.blocks ++ [{ b with terminator := some inst }] }, none⟩⟩
  | closes (m : Module) (f : Function) : Reads ⟨m, some ⟨f, none⟩⟩ (.effect .FunctionEnd [])
        ⟨{ m with functions := m.functions ++ [f] }, none⟩

variable {inst : Inst}

theorem Reads.readInst_eq (h : Reads r inst r') : readInst r inst = .ok r' := by
  cases h with
  | single outside first =>
    simp only [Op.standsOutside, Bool.and_eq_true, bne_iff_ne, ne_eq, Bool.not_eq_true'] at outside
    obtain ⟨⟨hfunction, hend⟩, hterminator⟩ := outside
    simpa [readInst, readGlobal, hfunction, hend, hterminator] using first
  | opens => rfl
  | param _ _ early => simp [readInst, readLocal, early, ParamText.inst, value]
  | label => simp [readInst, readLocal, defining]
  | inside _ _ _ inside =>
    simp only [Op.standsInBlock, Bool.and_eq_true, bne_iff_ne, ne_eq, Bool.not_eq_true'] at inside
    obtain ⟨⟨hlabel, hend⟩, hterminator⟩ := inside
    simp [readInst, readLocal, hlabel, hend, hterminator]
  | ends _ _ _ ends =>
    have hlabel : inst.op ≠ .Label := by
      intro heq
      rw [heq] at ends
      cases ends
    have hend : inst.op ≠ .FunctionEnd := by
      intro heq
      rw [heq] at ends
      cases ends
    simp [readInst, readLocal, ends, hlabel, hend]
  | closes => rfl

end Module

namespace Inst

variable {inst : Inst}

/-! An instruction that fits its shape has the fields of the shape and no others. -/

theorem eq_value_of_matchShape (h : inst.matchShape = .ok ())
    (hshape : inst.op.shape? = some { resultType := true, result := true, tail := .operands }) :
    ∃ type id, inst = .value inst.op type id inst.operands := by
  obtain ⟨htype, hresult, hname, hlabels, -⟩ := (matchShape_eq_ok_iff hshape).1 h
  obtain ⟨op, type, result, name, operands, labels⟩ := inst
  cases type <;> cases result <;> cases name <;> cases labels <;> simp_all [value]

theorem eq_defining_of_matchShape (h : inst.matchShape = .ok ())
    (hshape : inst.op.shape? = some { result := true, tail := .operands }) :
    ∃ id, inst = .defining inst.op id inst.operands := by
  obtain ⟨htype, hresult, hname, hlabels, -⟩ := (matchShape_eq_ok_iff hshape).1 h
  obtain ⟨op, type, result, name, operands, labels⟩ := inst
  cases type <;> cases result <;> cases name <;> cases labels <;> simp_all [defining]

theorem eq_effect_of_matchShape (h : inst.matchShape = .ok ()) (hshape : inst.op.shape? = some {}) :
    inst = .effect inst.op [] := by
  obtain ⟨htype, hresult, hname, hlabels, hoperands⟩ := (matchShape_eq_ok_iff hshape).1 h
  obtain ⟨op, type, result, name, operands, labels⟩ := inst
  cases type <;> cases result <;> cases name <;> cases labels <;> simp_all [effect]

end Inst

namespace Module

variable {inst : Inst}

theorem reads_of_readGlobal (hshape : inst.matchShape = .ok ())
    (h : readGlobal m inst = .ok r') : Reads ⟨m, none⟩ inst r' := by
  unfold readGlobal at h
  split at h
  case isTrue hop =>
    obtain ⟨type, id, hinst⟩ := eq_value_of_matchShape hshape (by rw [hop]; rfl)
    obtain ⟨f, hf, h⟩ := bind_eq_ok_iff.1 h
    cases h
    rw [hinst, hop] at hf ⊢
    unfold functionOf at hf
    dsimp only [value] at hf
    split at hf
    case h_1 control functionType hoperands =>
      cases hf
      rw [hoperands]
      exact .opens ..
    case h_2 => cases hf
  case isFalse hfunction =>
    split at h
    case isTrue => cases h
    case isFalse hend =>
      split at h
      case isTrue => cases h
      case isFalse hentry =>
        cases h
        refine .single ?_ fun heq => ?_
        · simpa [Op.standsOutside, hfunction] using hend
        · simpa [heq] using hentry

theorem reads_of_readLocal {p : Pending} (hshape : inst.matchShape = .ok ())
    (h : readLocal m p inst = .ok r') : Reads ⟨m, some p⟩ inst r' := by
  obtain ⟨f, open?⟩ := p
  unfold readLocal at h
  dsimp only at h
  split at h
  case isTrue hparam =>
    simp only [Bool.and_eq_true, decide_eq_true_eq, Option.isNone_iff_eq_none, List.isEmpty_iff] at hparam
    obtain ⟨⟨hop, rfl⟩, hblocks⟩ := hparam
    obtain ⟨type, id, hinst⟩ := eq_value_of_matchShape hshape (by rw [hop]; rfl)
    rw [hinst, hop] at h ⊢
    cases h
    exact .param m ⟨type, id, inst.operands⟩ hblocks
  case isFalse =>
    split at h
    case isTrue hop =>
      obtain ⟨label, hinst⟩ := eq_defining_of_matchShape hshape (by rw [hop]; rfl)
      rw [hinst, hop] at h ⊢
      cases open? with
      | none =>
        cases h
        exact .label ..
      | some b => cases h
    case isFalse hlabel =>
      split at h
      case isTrue hop =>
        rw [eq_effect_of_matchShape hshape (by rw [hop]; rfl), hop]
        cases open? with
        | none =>
          cases h
          exact .closes ..
        | some b => cases h
      case isFalse hend =>
        cases open? with
        | none => cases h
        | some b =>
          dsimp only at h
          split at h
          case isTrue hterminator =>
            cases h
            exact .ends m f b hterminator
          case isFalse hterminator =>
            cases h
            refine .inside m f b ?_
            simp [Op.standsInBlock, hlabel, hend, hterminator]

theorem reads_of_readInst (hshape : inst.matchShape = .ok ()) (h : readInst r inst = .ok r') : Reads r inst r' := by
  obtain ⟨m, pending⟩ := r
  cases pending with
  | none => exact reads_of_readGlobal hshape h
  | some p => exact reads_of_readLocal hshape h

/-! ## Sections -/

/-- Sections that hold one instruction at most. -/
def Section.isSingle : Section → Bool
  | .memoryModel | .entryPoint => true
  | _ => false

/-- What stays of instructions that go to a section: the last one, or all of them. -/
def Section.keep (s : Section) (insts : List Inst) : List Inst :=
  if s.isSingle then insts.getLast?.toList else insts

theorem Section.keep_of_length_le (s : Section) {insts : List Inst} (h : insts.length ≤ 1) : s.keep insts = insts := by
  unfold keep
  split
  · cases insts with
    | nil => rfl
    | cons inst rest =>
      obtain rfl : rest = [] := length_eq_zero_iff.1 (by simpa using h)
      rfl
  · rfl

theorem Section.keep_keep_append (s : Section) (insts insts' : List Inst) :
    s.keep (s.keep insts ++ insts') = s.keep (insts ++ insts') := by
  unfold keep
  split
  · rw [getLast?_append, getLast?_append]
    cases insts.getLast? <;> rfl
  · rfl

theorem inSection_eq_keep (m : Module) (s : Section) : m.inSection s = s.keep (m.inSection s) := by
  cases s with
  | memoryModel => exact (Section.keep_of_length_le _ Option.length_toList_le).symm
  | entryPoint => exact (Section.keep_of_length_le _ Option.length_toList_le).symm
  | _ => rfl

theorem inSection_insert (m : Module) (s : Section) (inst : Inst) (s' : Section) : (m.insert s inst).inSection s' =
      s'.keep (m.inSection s' ++ if s = s' then [inst] else []) := by
  by_cases h : s = s'
  · subst h
    cases s <;> simp [insert, inSection, Section.keep, Section.isSingle]
  · rw [if_neg h, append_nil, ← inSection_eq_keep]
    cases s <;> cases s' <;> first | rfl | exact absurd rfl h

theorem eq_of_toList_eq {o o' : Option Inst} (h : o.toList = o'.toList) : o = o' := by
  cases o <;> cases o' <;> simp_all

/-- The instructions of a section. -/
def Section.pick (s : Section) (insts : List Inst) : List Inst := insts.filter (·.op.section = s)

theorem Section.pick_append (s : Section) (insts insts' : List Inst) :
    s.pick (insts ++ insts') = s.pick insts ++ s.pick insts' := filter_append ..

theorem Section.pick_singleton (s : Section) (inst : Inst) :
    s.pick [inst] = if inst.op.section = s then [inst] else [] := by
  unfold pick
  split <;> simp_all

/-- What of a module is written. The rest is remembered to build it. -/
def written (m : Module) : Module :=
  { config := { version := m.config.version, generator := m.config.generator }
    bound := m.bound
    capabilities := m.capabilities
    extensions := m.extensions
    imports := m.imports
    memoryModel := m.memoryModel
    entryPoint := m.entryPoint
    executionModes := m.executionModes
    debug := m.debug
    decorations := m.decorations
    declarations := m.declarations
    functions := m.functions }

theorem toWords_written (m : Module) : m.written.toWords = m.toWords := rfl

theorem written_learn (m : Module) (inst : Inst) : (m.learn inst).written = m.written := by
  unfold learn
  split
  case h_6 => rfl
  all_goals split <;> rfl

theorem inSection_written (m : Module) (s : Section) : m.written.inSection s = m.inSection s := by
  cases s <;> rfl

/-- What is in a module besides its sections. -/
def outline (m : Module) : Version × Word × Id × List Function :=
  (m.config.version, m.config.generator, m.bound, m.functions)

theorem outline_learn (m : Module) (inst : Inst) : (m.learn inst).outline = m.outline :=
  show (m.learn inst).written.outline = m.written.outline by rw [written_learn]

theorem outline_insert (m : Module) (s : Section) (inst : Inst) : (m.insert s inst).outline = m.outline := by
  cases s <;> rfl

/-! ## What items say -/

end Module

theorem Item.singles_cons (item : Item) (items : List Item) :
    singles (item :: items) = item.single?.toList ++ singles items := by
  cases item <;> rfl

theorem Item.functions_cons (item : Item) (items : List Item) :
    functions (item :: items) = item.function?.toList ++ functions items := by
  cases item <;> rfl

namespace Module

/-- The module after an item was read. -/
def receive (m : Module) : Item → Module
  | .single inst _ => (m.learn inst).insert inst.op.section inst
  | .function text => { m with functions := m.functions ++ [text.function ""] }

theorem inSection_receive (m : Module) (item : Item) (s : Section) :
    (m.receive item).inSection s = s.keep (m.inSection s ++ s.pick item.single?.toList) := by
  cases item with
  | single inst outside =>
    show ((m.learn inst).insert inst.op.section inst).inSection s = s.keep (_ ++ s.pick [inst])
    rw [inSection_insert, ← inSection_written, written_learn, inSection_written, Section.pick_singleton]
  | function text =>
    show inSection { m with functions := _ } s = s.keep (m.inSection s ++ [])
    rw [append_nil, ← inSection_eq_keep]
    cases s <;> rfl

theorem outline_receive (m : Module) (item : Item) : (m.receive item).outline =
    (m.config.version, m.config.generator, m.bound, m.functions ++ item.function?.toList.map (·.function "")) := by
  cases item with
  | single inst outside =>
    show ((m.learn inst).insert inst.op.section inst).outline = (_, _, _, m.functions ++ [])
    rw [outline_insert, outline_learn, append_nil]
    rfl
  | function text => rfl

theorem inSection_receiveAll (items : List Item) (m : Module) (s : Section) :
    (items.foldl receive m).inSection s = s.keep (m.inSection s ++ s.pick (Item.singles items)) := by
  induction items generalizing m with
  | nil => rw [foldl_nil, Item.singles, filterMap_nil, Section.pick, filter_nil, append_nil, ← inSection_eq_keep]
  | cons item items ih =>
    rw [foldl_cons, ih, inSection_receive, Section.keep_keep_append, Item.singles_cons,
      Section.pick_append, append_assoc]

theorem outline_receiveAll (items : List Item) (m : Module) : (items.foldl receive m).outline =
    (m.config.version, m.config.generator, m.bound, m.functions ++ (Item.functions items).map (·.function "")) := by
  induction items generalizing m with
  | nil =>
    rw [foldl_nil, Item.functions, filterMap_nil, map_nil, append_nil]
    rfl
  | cons item items ih =>
    have hitem := outline_receive m item
    simp only [outline, Prod.mk.injEq] at hitem
    obtain ⟨hversion, hgenerator, hbound, hfunctions⟩ := hitem
    rw [foldl_cons, ih, hversion, hgenerator, hbound, hfunctions, Item.functions_cons, map_append, append_assoc]

/-! ## Reading items -/

variable {inst : Inst}

theorem Reads.foldlM_cons (h : Reads r inst r') (insts : List Inst) :
    (inst :: insts).foldlM readInst r = insts.foldlM readInst r' := by
  rw [List.foldlM_cons, h.readInst_eq]
  rfl

theorem read_body (m : Module) (f : Function) (body : List Inst) (h : ∀ inst ∈ body, inst.op.standsInBlock) (b : Block)
    (rest : List Inst) : (body ++ rest).foldlM readInst ⟨m, some ⟨f, some b⟩⟩ = rest.foldlM readInst
      ⟨m, some ⟨f, some { b with instructions := b.instructions ++ body }⟩⟩ := by
  induction body generalizing b with
  | nil => rw [nil_append, append_nil]
  | cons inst body ih =>
    obtain ⟨hinst, hbody⟩ := forall_mem_cons.1 h
    rw [cons_append, (Reads.inside m f b hinst).foldlM_cons, ih hbody, Block.push, append_assoc, singleton_append]

theorem read_params (m : Module) (params : List ParamText) (f : Function) (hf : f.blocks = []) (rest : List Inst) :
    (params.map ParamText.inst ++ rest).foldlM readInst ⟨m, some ⟨f, none⟩⟩ = rest.foldlM readInst
      ⟨m, some ⟨{ f with params := f.params ++ params.map fun p => (p.type, p.id) }, none⟩⟩ := by
  induction params generalizing f with
  | nil => rw [map_nil, map_nil, nil_append, append_nil]
  | cons p params ih =>
    rw [map_cons, cons_append, (Reads.param m p hf).foldlM_cons,
      ih { f with params := f.params ++ [(p.type, p.id)] } hf, map_cons, append_assoc,
      singleton_append]

theorem read_block (m : Module) (f : Function) (b : BlockText) (rest : List Inst) :
    (b.insts ++ rest).foldlM readInst ⟨m, some ⟨f, none⟩⟩ = rest.foldlM readInst
      ⟨m, some ⟨{ f with blocks := f.blocks ++ [b.block] }, none⟩⟩ := by
  rw [BlockText.insts, cons_append, (Reads.label m f b.label b.operands).foldlM_cons,
    append_assoc, read_body m f b.body b.inside, singleton_append,
    (Reads.ends m f _ b.ends).foldlM_cons]
  rfl

theorem read_blocks (m : Module) (blocks : List BlockText) (f : Function) (rest : List Inst) :
    (blocks.flatMap BlockText.insts ++ rest).foldlM readInst ⟨m, some ⟨f, none⟩⟩ = rest.foldlM readInst
        ⟨m, some ⟨{ f with blocks := f.blocks ++ blocks.map BlockText.block }, none⟩⟩ := by
  induction blocks generalizing f with
  | nil => rw [flatMap_nil, map_nil, nil_append, append_nil]
  | cons b blocks ih => rw [flatMap_cons, append_assoc, read_block, ih, map_cons, append_assoc, singleton_append]

theorem read_function (m : Module) (t : FunctionText) :
    t.insts.foldlM readInst ⟨m, none⟩ = .ok ⟨m.receive (.function t), none⟩ := by
  rw [FunctionText.insts, (Reads.opens m t.returnType t.id t.control t.functionType).foldlM_cons,
    read_params m t.params _ rfl, read_blocks, (Reads.closes m _).foldlM_cons]
  rfl

end Module

theorem Op.section_eq_entryPoint_iff {op : Op} : op.section = .entryPoint ↔ op = .EntryPoint := by
  unfold Op.section
  split <;> simp_all

namespace Module

variable {inst : Inst}

theorem readInst_second_entry (h : ¬ (inst.op = .EntryPoint → m.entryPoint = none)) :
    readInst ⟨m, none⟩ inst = .error .secondEntryPoint := by
  obtain ⟨hop, hsome⟩ := Classical.not_imp.1 h
  simp [readInst, readGlobal, hop, Op.isTerminator, Option.isSome_iff_ne_none, hsome]

theorem read_item (m : Module) (item : Item) : item.insts.foldlM readInst ⟨m, none⟩ = .ok r ↔
    (m.inSection .entryPoint ++ Section.entryPoint.pick item.single?.toList).length ≤ 1 ∧
      r = ⟨m.receive item, none⟩ := by
  cases item with
  | function text =>
    have hone : (m.inSection .entryPoint ++ []).length ≤ 1 := by
      rw [append_nil]
      exact Option.length_toList_le
    rw [Item.insts, read_function, Except.ok.injEq, eq_comm]
    exact (and_iff_right hone).symm
  | single inst outside =>
    have hread : [inst].foldlM readInst ⟨m, none⟩ = readInst ⟨m, none⟩ inst := by
      rw [foldlM_cons]
      cases readInst ⟨m, none⟩ inst <;> rfl
    have hlength : (m.inSection .entryPoint ++ Section.entryPoint.pick [inst]).length ≤ 1 ↔
        (inst.op = .EntryPoint → m.entryPoint = none) := by
      rw [Section.pick_singleton, inSection]
      simp only [Op.section_eq_entryPoint_iff]
      by_cases hop : inst.op = .EntryPoint <;> cases m.entryPoint <;> simp [hop]
    rw [Item.insts, hread, Item.single?, Option.toList_some, hlength]
    by_cases hfirst : inst.op = .EntryPoint → m.entryPoint = none
    · rw [(Reads.single outside hfirst).readInst_eq, Except.ok.injEq, eq_comm]
      exact (and_iff_right hfirst).symm
    · rw [readInst_second_entry hfirst]
      refine ⟨fun h => ?_, fun h => absurd h.1 hfirst⟩
      cases h

/-- Items are read in order if there is one entry point among them at most. -/
theorem read_items (items : List Item) (m : Module) : (items.flatMap Item.insts).foldlM readInst ⟨m, none⟩ = .ok r ↔
      (m.inSection .entryPoint ++ Section.entryPoint.pick (Item.singles items)).length ≤ 1 ∧
        r = ⟨items.foldl receive m, none⟩ := by
  induction items generalizing m with
  | nil =>
    have hone : (m.inSection .entryPoint ++ []).length ≤ 1 := by
      rw [append_nil]
      exact Option.length_toList_le
    refine Iff.trans ?_ (and_iff_right hone).symm
    exact ⟨fun h => (Except.ok.inj h).symm, fun h => congrArg Except.ok h.symm⟩
  | cons item items ih =>
    let before := m.inSection .entryPoint ++ Section.entryPoint.pick item.single?.toList
    have hafter : before.length ≤ 1 → (m.receive item).inSection .entryPoint = before := fun h => by
      rw [inSection_receive, Section.keep_of_length_le _ h]
    rw [flatMap_cons, foldlM_append, bind_eq_ok_iff, Item.singles_cons, Section.pick_append, ← append_assoc, foldl_cons]
    constructor
    · rintro ⟨r', hitem, hitems⟩
      obtain ⟨hfirst, rfl⟩ := (read_item m item).1 hitem
      obtain ⟨hrest, rfl⟩ := (ih _).1 hitems
      rw [hafter hfirst] at hrest
      exact ⟨hrest, rfl⟩
    · rintro ⟨hall, rfl⟩
      have hfirst : before.length ≤ 1 := Nat.le_trans (sublist_append_left before _).length_le hall
      refine ⟨_, (read_item m item).2 ⟨hfirst, rfl⟩, (ih _).2 ⟨?_, rfl⟩⟩
      rwa [hafter hfirst]

/-! ## What is read are items -/

def endAndItems (items : List Item) : List Inst := .effect .FunctionEnd [] :: items.flatMap Item.insts

/-- Instructions that end what is open, a block or a function, and go on with items. -/
def Completes : Option Pending → List Inst → Prop
  | none, insts => ∃ items : List Item, insts = items.flatMap Item.insts
  | some ⟨f, none⟩, insts => ∃ (params : List ParamText) (blocks : List BlockText)
      (items : List Item), (f.blocks ≠ [] → params = []) ∧
      insts = params.map ParamText.inst ++ (blocks.flatMap BlockText.insts ++ endAndItems items)
  | some ⟨_, some _⟩, insts => ∃ (body : List Inst) (last : Inst) (blocks : List BlockText)
      (items : List Item), (∀ inst ∈ body, inst.op.standsInBlock) ∧ last.op.isTerminator ∧
      insts = body ++ last :: (blocks.flatMap BlockText.insts ++ endAndItems items)

theorem Reads.completes (h : Reads r inst r') {insts : List Inst}
    (hrest : Completes r'.pending insts) : Completes r.pending (inst :: insts) := by
  cases h with
  | single outside =>
    obtain ⟨items, rfl⟩ := hrest
    exact ⟨.single inst outside :: items, rfl⟩
  | opens m returnType id control functionType =>
    obtain ⟨params, blocks, items, -, rfl⟩ := hrest
    refine ⟨.function ⟨returnType, id, control, functionType, params, blocks⟩ :: items, ?_⟩
    simp only [flatMap_cons, Item.insts, FunctionText.insts, endAndItems, cons_append, append_assoc, nil_append]
  | param m p early =>
    obtain ⟨params, blocks, items, -, rfl⟩ := hrest
    exact ⟨p :: params, blocks, items, fun h => absurd early h, rfl⟩
  | label m f label operands =>
    obtain ⟨body, last, blocks, items, inside, ends, rfl⟩ := hrest
    refine ⟨[], ⟨label, operands, body, last, inside, ends⟩ :: blocks, items, fun _ => rfl, ?_⟩
    simp only [map_nil, nil_append, flatMap_cons, BlockText.insts, cons_append, append_assoc]
  | inside m f b inside =>
    obtain ⟨body, last, blocks, items, hbody, ends, rfl⟩ := hrest
    exact ⟨inst :: body, last, blocks, items, forall_mem_cons.2 ⟨inside, hbody⟩, ends, rfl⟩
  | ends m f b ends =>
    obtain ⟨params, blocks, items, hparams, rfl⟩ := hrest
    obtain rfl : params = [] := hparams (by simp)
    exact ⟨[], inst, blocks, items, forall_mem_nil _, ends, rfl⟩
  | closes m f =>
    obtain ⟨items, rfl⟩ := hrest
    exact ⟨[], [], items, fun _ => rfl, rfl⟩

theorem completes_of_read (insts : List Inst) (hshape : ∀ inst ∈ insts, inst.matchShape = .ok ())
    (h : insts.foldlM readInst r = .ok r') (hclosed : r'.pending = none) : Completes r.pending insts := by
  induction insts generalizing r with
  | nil =>
    cases h
    rw [hclosed]
    exact ⟨[], rfl⟩
  | cons inst insts ih =>
    obtain ⟨hinst, hinsts⟩ := forall_mem_cons.1 hshape
    obtain ⟨r₁, hfirst, hrest⟩ := bind_eq_ok_iff.1 h
    exact (reads_of_readInst hinst hfirst).completes (ih hinsts hrest)

/-! ## Modules -/

/-- The module before anything but the header was read. -/
def blank (header : Header) : Module :=
  { config := { version := ⟨header.major, header.minor⟩, generator := header.generator }
    bound := header.bound }

theorem inSection_blank (header : Header) (s : Section) : (blank header).inSection s = [] := by
  cases s <;> rfl

/-- The module that the items make. -/
def ofItems (header : Header) (items : List Item) : Module := (items.foldl receive (blank header)).restoreNames

theorem ofInstructions_eq (header : Header) (insts : List Inst) :
    ofInstructions header insts none = insts.foldlM readInst ⟨blank header, none⟩ >>= fun r =>
      if r.pending.isSome then .error .missingFunctionEnd else .ok r.module.restoreNames := by
  refine bind_congr fun r => ?_
  cases r.pending <;> rfl

theorem ofInstructions_items {header : Header} {items : List Item} :
    ofInstructions header (items.flatMap Item.insts) none = .ok m ↔
      (Section.entryPoint.pick (Item.singles items)).length ≤ 1 ∧ m = ofItems header items := by
  simp only [ofInstructions_eq, bind_eq_ok_iff, read_items, inSection_blank, nil_append]
  constructor
  · rintro ⟨_, ⟨hentry, rfl⟩, hr⟩
    exact ⟨hentry, (Except.ok.inj hr).symm⟩
  · rintro ⟨hentry, rfl⟩
    exact ⟨_, ⟨hentry, rfl⟩, rfl⟩

theorem exists_items_of_ofInstructions {header : Header} {insts : List Inst}
    (hshape : ∀ inst ∈ insts, inst.matchShape = .ok ()) (h : ofInstructions header insts none = .ok m) :
    ∃ items : List Item, insts = items.flatMap Item.insts := by
  obtain ⟨r, hread, hr⟩ := bind_eq_ok_iff.1 h
  split at hr
  case isTrue => cases hr
  case isFalse hclosed => exact completes_of_read insts hshape hread (Option.not_isSome_iff_eq_none.1 hclosed)

end Module

/-- Instructions that can be written and read back. -/
def Inst.Writable (inst : Inst) : Prop := inst.NulFree ∧ ∃ words, inst.encode = .ok words

theorem Inst.Writable.matchShape_eq {inst : Inst} (h : inst.Writable) : inst.matchShape = .ok () := by
  obtain ⟨-, words, hwords⟩ := h
  exact (encode_eq_ok_iff.1 hwords).1

theorem writable_of_parse {words : List Word} {header : Header} {insts : List Inst}
    (h : parse words = .ok (header, insts.map .ok)) : ∀ inst ∈ insts, inst.Writable := by
  obtain ⟨⟨header', body⟩, -, h⟩ := bind_eq_ok_iff.1 h
  obtain ⟨encoded, hencoded, -⟩ := items_eq_map_ok_iff.1 (Prod.mk.inj (Except.ok.inj h)).2
  refine ((forall₂_and_left insts encoded).1 (hencoded.imp fun inst words hwords => ⟨?_, hwords⟩)).1
  obtain ⟨hnul, written, hwritten, -⟩ := hwords
  exact ⟨hnul, written, hwritten⟩

namespace Module

variable {words : List Word} {header : Header}

theorem ofWords_of_parse {insts : List Inst} (h : parse words = .ok (header, insts.map .ok)) :
    ofWords words = ofInstructions header insts none := by
  obtain ⟨⟨header', body⟩, hheader, h⟩ := bind_eq_ok_iff.1 h
  obtain ⟨rfl, hitems⟩ := Prod.mk.inj (Except.ok.inj h)
  obtain ⟨encoded, hencoded, rfl⟩ := items_eq_map_ok_iff.1 hitems
  rw [ofWords, hheader]
  show ofInstructions header' (decodeAll encoded.flatten).1 _ = _
  rw [decodeAll_flatten hencoded]

theorem functions_ofItems (header : Header) (items : List Item) :
    (ofItems header items).functions = (Item.functions items).map fun t =>
      t.function (((ofItems header items).debugName? t.id).getD "") := by
  have houtline := outline_receiveAll items (blank header)
  have hfunctions : (items.foldl receive (blank header)).functions = (Item.functions items).map (·.function "") :=
    (Prod.mk.inj (Prod.mk.inj (Prod.mk.inj houtline).2).2).2
  rw [ofItems, restoreNames]
  rw [hfunctions, map_map]
  rfl

theorem inSection_restoreNames (m : Module) (s : Section) : m.restoreNames.inSection s = m.inSection s := by
  cases s <;> rfl

theorem inSection_ofItems (header : Header) (items : List Item) (s : Section) :
    (ofItems header items).inSection s = s.keep (s.pick (Item.singles items)) := by
  rw [ofItems, inSection_restoreNames, inSection_receiveAll, inSection_blank, nil_append]

/-- A module is read exactly from the instructions of items with at most one entry point. Sections hold
those that belong there in order, the last memory model counts, and functions are as they were. -/
theorem ofWords_iff_items {insts : List Inst} (hparse : parse words = .ok (header, insts.map .ok)) :
    ((∃ m, ofWords words = .ok m) ↔ ∃ items : List Item, insts = items.flatMap Item.insts ∧
      (Item.singles items).countP (·.op = .EntryPoint) ≤ 1) ∧
    ∀ (m : Module) (items : List Item), ofWords words = .ok m → insts = items.flatMap Item.insts →
      (∀ s : Section, s ≠ .memoryModel → m.inSection s = (Item.singles items).filter (·.op.section = s)) ∧
      m.memoryModel = ((Item.singles items).filter (·.op.section = .memoryModel)).getLast? ∧
      m.functions = (Item.functions items).map fun t => t.function ((m.debugName? t.id).getD "") := by
  have hcount : ∀ items : List Item, (Item.singles items).countP (·.op = .EntryPoint) =
      (Section.entryPoint.pick (Item.singles items)).length := fun items => by
    rw [countP_eq_length_filter, Section.pick]
    simp only [Op.section_eq_entryPoint_iff]
  rw [ofWords_of_parse hparse]
  simp only [hcount]
  refine ⟨⟨fun ⟨m, hm⟩ => ?_, ?_⟩, ?_⟩
  · obtain ⟨items, rfl⟩ := exists_items_of_ofInstructions
      (fun inst hinst => (writable_of_parse hparse inst hinst).matchShape_eq) hm
    exact ⟨items, rfl, (ofInstructions_items.1 hm).1⟩
  · rintro ⟨items, rfl, hentry⟩
    exact ⟨_, ofInstructions_items.2 ⟨hentry, rfl⟩⟩
  · rintro m items hm rfl
    obtain ⟨hentry, rfl⟩ := ofInstructions_items.1 hm
    refine ⟨fun s hs => ?_, ?_, functions_ofItems header items⟩
    · rw [inSection_ofItems]
      cases s with
      | memoryModel => exact absurd rfl hs
      | entryPoint => exact Section.keep_of_length_le _ hentry
      | _ => rfl
    · exact eq_of_toList_eq (inSection_ofItems header items .memoryModel)

/-- Sections in any order around a function, two memory models, an unknown hint and an extra word. -/
def scattered : List Item :=
  [.single (.defining .TypeVoid 2 []) (by decide), .single (.effect .MemoryModel [0, 1]) (by decide), .function
      { returnType := 2, id := 4, control := 0x11, functionType := 3, params := [⟨5, 6, []⟩]
        blocks := [⟨7, [1], [.value .Function 2 8 []], .effect .Branch [9], by decide, by decide⟩,
          ⟨9, [], [], .effect .Return [], by decide, by decide⟩] },
    .single (.effect .Capability [1]) (by decide), .single (.nameOf 4 "f") (by decide),
    .single (.effect .MemoryModel [0, 0]) (by decide)]

def hinted (control : Word) : List Item :=
  [.single (.nameOf 4 "f") (by decide), .single (.defining .TypeVoid 2 []) (by decide),
    .single (.defining .TypeFunction 3 [2]) (by decide),
    .function {
        returnType := 2, id := 4, control, functionType := 3, params := []
        blocks := [⟨5, [], [], .effect .Return [], by decide, by decide⟩] }]

def scatteredHeader : Header := ⟨0x10000, 0, 10, 0⟩

def scatteredBody : List Word :=
  [0x20013, 2, 0x3000e, 0, 1, 0x50036, 2, 4, 0x11, 3, 0x30037, 5, 6, 0x300f8, 7, 1, 0x30036, 2, 8,
    0x200f9, 9, 0x200f8, 9, 0x100fd, 0x10038, 0x20011, 1, 0x30005, 4, 0x66, 0x3000e, 0, 0]

def scatteredWords : List Word := scatteredHeader.words ++ scatteredBody

theorem parse_scatteredWords :
    parse scatteredWords = .ok (scatteredHeader, (scattered.flatMap Item.insts).map .ok) := by
  have hbody : encodeAll (scattered.flatMap Item.insts) = .ok scatteredBody := by
    decide +kernel
  have hnames : ∀ inst ∈ scattered.flatMap Item.insts, inst.NulFree := by decide +kernel
  rw [scatteredWords, parse_words, items, decodeAll_encodeAll hnames hbody]
  exact congrArg (fun l => Except.ok (scatteredHeader, l)) (append_nil _)

theorem scattered_reads : parse scatteredWords = .ok (scatteredHeader, (scattered.flatMap Item.insts).map .ok) ∧
      ∃ m, ofWords scatteredWords = .ok m ∧ m.inSection .capabilities = [.effect .Capability [1]] ∧
        m.memoryModel = some (.effect .MemoryModel [0, 0]) ∧
        m.functions = [{ name := "f", id := 4, returnType := 2, control := 1, functionType := 3
                         params := [(5, 6)]
                         blocks := [⟨7, [.value .Function 2 8 []], some (.effect .Branch [9])⟩,
                           ⟨9, [], some (.effect .Return [])⟩] }] := by
  obtain ⟨hiff, hwhat⟩ := ofWords_iff_items parse_scatteredWords
  obtain ⟨m, hm⟩ := hiff.2 ⟨scattered, rfl, by decide +kernel⟩
  obtain ⟨hsections, hmodel, hfunctions⟩ := hwhat m scattered hm rfl
  have hdebug : m.debug = [.nameOf 4 "f"] := (hsections .debug (by decide)).trans (by decide +kernel)
  have hname : m.debugName? 4 = some "f" := by
    rw [debugName?, hdebug]
    decide +kernel
  refine ⟨parse_scatteredWords, m, hm, (hsections .capabilities (by decide)).trans (by decide +kernel),
    hmodel.trans (by decide +kernel), hfunctions.trans ?_⟩
  show [FunctionText.function _ ((m.debugName? 4).getD "")] = _
  rw [hname]
  decide +kernel

end Module

end Shader
