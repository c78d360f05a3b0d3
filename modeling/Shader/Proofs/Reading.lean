import Shader.Proofs.Grammar

/-!
# Reading what was written

A module that is in order is read back from its own words as it was written: instructions outside of
functions go to their sections again, functions and blocks end where they ended, and functions get back
the names that the debug section gives them.
-/

namespace Shader

open List

/-! ## Functions -/

/-- The block holds what can stand in a block, and is ended, if at all, by what ends blocks. -/
structure Block.Tidy (b : Block) : Prop where
  instructions : ∀ inst ∈ b.instructions, inst.op.standsInBlock
  terminator : ∀ inst, b.terminator = some inst → inst.op.isTerminator

/-- The function has such blocks, and its local variables can stand in one. -/
structure Function.Tidy (f : Function) : Prop where
  control : f.control &&& Module.controlMask = f.control
  queued : ∀ inst ∈ f.queued, inst.op.standsInBlock
  blocks : ∀ b ∈ f.blocks, b.Tidy

/-- A function as it stands in a module: variables are in the first block, and all blocks ended. -/
structure Function.Finished (f : Function) : Prop extends f.Tidy where
  hoisted : f.queued = []
  terminated : ∀ b ∈ f.blocks, b.isTerminated

theorem Function.code_of_hoisted {f : Function} (h : f.queued = []) :
    f.code = .value .Function f.returnType f.id [f.control, f.functionType] ::
      (f.params.map (fun p => .value .FunctionParameter p.1 p.2 []) ++
        (f.blocks.flatMap (·.code []) ++ [.effect .FunctionEnd []])) := by
  unfold Function.code
  rw [h, ← append_assoc]
  cases f.blocks <;> rfl

theorem Block.Tidy.exists_text {b : Block} (h : b.Tidy) (hended : b.isTerminated) :
    ∃ t : BlockText, t.insts = b.code [] ∧ t.block = b := by
  obtain ⟨label, body, terminator⟩ := b
  obtain ⟨last, rfl⟩ : ∃ last, terminator = some last := Option.isSome_iff_exists.1 hended
  exact ⟨⟨label, [], body, last, h.instructions, h.terminator last rfl⟩, rfl, rfl⟩

theorem Block.exists_texts (blocks : List Block) (h : ∀ b ∈ blocks, b.Tidy)
    (hended : ∀ b ∈ blocks, b.isTerminated) : ∃ texts : List BlockText,
      texts.flatMap BlockText.insts = blocks.flatMap (·.code []) ∧ texts.map BlockText.block = blocks := by
  induction blocks with
  | nil => exact ⟨[], rfl, rfl⟩
  | cons b blocks ih =>
    obtain ⟨hb, hblocks⟩ := forall_mem_cons.1 h
    obtain ⟨hlast, hended⟩ := forall_mem_cons.1 hended
    obtain ⟨t, hinsts, hblock⟩ := hb.exists_text hlast
    obtain ⟨texts, hinsts', hblocks'⟩ := ih hblocks hended
    exact ⟨t :: texts, by rw [flatMap_cons, flatMap_cons, hinsts, hinsts'], by rw [map_cons, hblock, hblocks']⟩

theorem Function.Finished.exists_text {f : Function} (h : f.Finished) :
    ∃ t : FunctionText, t.insts = f.code ∧ t.function "" = { f with name := "" } := by
  obtain ⟨texts, hinsts, hblocks⟩ := Block.exists_texts f.blocks h.blocks h.terminated
  refine ⟨⟨f.returnType, f.id, f.control, f.functionType, f.params.map fun p => ⟨p.1, p.2, []⟩, texts⟩, ?_, ?_⟩
  · rw [Function.code_of_hoisted h.hoisted, FunctionText.insts, hinsts, map_map]
    rfl
  · have hparams : (f.params.map fun p => (⟨p.1, p.2, []⟩ : ParamText)).map (fun p => (p.type, p.id)) = f.params := by
      rw [map_map]
      exact map_id f.params
    rw [FunctionText.function, hblocks, hparams, h.control, ← h.hoisted]

theorem Version.word_eq (v : Version) : v.word = Word.ofBytes 0 v.minor v.major 0 := by
  simp [word, Word.ofBytes, UInt32.or_comm]

theorem Version.ofWord (v : Version) : (⟨(v.word >>> 16).toUInt8, (v.word >>> 8).toUInt8⟩ : Version) = v := by
  have hbytes := Word.bytes_ofBytes 0 v.minor v.major 0
  rw [← Version.word_eq] at hbytes
  simp only [Word.bytes, cons.injEq] at hbytes
  obtain ⟨-, hminor, hmajor, -⟩ := hbytes
  rw [hminor, hmajor]

namespace Module

variable {m : Module}

theorem written_ext {m' : Module} (houtline : m'.outline = m.outline)
    (hsections : ∀ s, m'.inSection s = m.inSection s) : m'.written = m.written := by
  simp only [outline, Prod.mk.injEq] at houtline
  have hcapabilities : m'.capabilities = m.capabilities := hsections .capabilities
  have hextensions : m'.extensions = m.extensions := hsections .extensions
  have himports : m'.imports = m.imports := hsections .imports
  have hmodel : m'.memoryModel = m.memoryModel := eq_of_toList_eq (hsections .memoryModel)
  have hentry : m'.entryPoint = m.entryPoint := eq_of_toList_eq (hsections .entryPoint)
  have hmodes : m'.executionModes = m.executionModes := hsections .executionModes
  have hdebug : m'.debug = m.debug := hsections .debug
  have hdecorations : m'.decorations = m.decorations := hsections .decorations
  have hdeclarations : m'.declarations = m.declarations := hsections .declarations
  simp only [written, *]

theorem pick_globalInstructions (h : ∀ s, ∀ inst ∈ m.inSection s, inst.op.section = s) (s : Section) :
    s.pick m.globalInstructions = m.inSection s := by
  have hpick : ∀ s', s.pick (m.inSection s') = if s' = s then m.inSection s' else [] := by
    intro s'
    split
    case isTrue heq =>
      refine filter_eq_self.2 fun inst hinst => ?_
      simp [h s' inst hinst, heq]
    case isFalse hne =>
      refine filter_eq_nil_iff.2 fun inst hinst => ?_
      simp [h s' inst hinst, hne]
  show s.pick (m.inSection .capabilities ++ m.inSection .extensions ++ m.inSection .imports ++
    m.inSection .memoryModel ++ m.inSection .entryPoint ++ m.inSection .executionModes ++
    m.inSection .debug ++ m.inSection .decorations ++ m.inSection .declarations) = _
  simp only [Section.pick_append, hpick]
  cases s <;> simp

theorem debugName?_of_arranged (h : m.Arranged) {name : String} {id : Id} (hid : m.functionIds.get? name = some id)
    (hname : .nameOf id name ∈ m.debug) : m.debugName? id = some name := by
  unfold debugName?
  cases hfound : m.debug.findSome? fun inst =>
      if inst.op = .Name && inst.result = some id then inst.name else none with
  | none =>
    have hnone := findSome?_eq_none_iff.1 hfound _ hname
    simp [Inst.nameOf] at hnone
  | some found =>
    obtain ⟨inst, hinst, hfound⟩ := exists_of_findSome?_eq_some hfound
    split at hfound
    case isTrue hnames =>
      simp only [Bool.and_eq_true, decide_eq_true_eq] at hnames
      rw [← hfound]
      exact h.named inst hinst hnames.1 id hnames.2 name hid
    case isFalse => cases hfound

/-! ## Modules -/

/-- A module that can be read back: all is where it belongs, and functions are finished and named. -/
structure Readable (m : Module) : Prop where
  sorted : ∀ s, ∀ inst ∈ m.inSection s, inst.op.section = s ∧ inst.op.standsOutside
  finished : ∀ f ∈ m.functions, f.Finished
  named : ∀ f ∈ m.functions, (m.debugName? f.id).getD "" = f.name

/-- A module in order: sections hold what belongs there, and functions are finished and named. -/
structure Complete (m : Module) : Prop where
  arranged : m.Arranged
  finished : ∀ f ∈ m.functions, f.Finished
  named : ∀ f ∈ m.functions, m.functionIds.get? f.name = some f.id ∧ .nameOf f.id f.name ∈ m.debug

theorem Complete.readable (h : m.Complete) : m.Readable where
  sorted := h.arranged.sorted
  finished := h.finished
  named f hf := by
    rw [debugName?_of_arranged h.arranged (h.named f hf).1 (h.named f hf).2, Option.getD_some]

theorem exists_items_of_functions (globals : List Inst) (hout : ∀ inst ∈ globals, inst.op.standsOutside)
    (functions : List Function) (hfinished : ∀ f ∈ functions, f.Finished) : ∃ items : List Item,
      items.flatMap Item.insts = globals ++ functions.flatMap Function.code ∧ Item.singles items = globals ∧
        (Item.functions items).map (·.function "") = functions.map fun f => { f with name := "" } := by
  induction globals with
  | cons inst globals ih =>
    obtain ⟨hinst, hglobals⟩ := forall_mem_cons.1 hout
    obtain ⟨items, hinsts, hsingles, hfunctions⟩ := ih hglobals
    exact ⟨.single inst hinst :: items, congrArg (inst :: ·) hinsts, congrArg (inst :: ·) hsingles, hfunctions⟩
  | nil =>
    induction functions with
    | nil => exact ⟨[], rfl, rfl, rfl⟩
    | cons f functions ih =>
      obtain ⟨hf, hfunctions⟩ := forall_mem_cons.1 hfinished
      obtain ⟨items, hinsts, hsingles, htexts⟩ := ih hfunctions
      obtain ⟨t, hcode, hfunction⟩ := hf.exists_text
      refine ⟨.function t :: items, ?_, hsingles, ?_⟩
      · rw [flatMap_cons, hinsts, flatMap_cons, ← hcode]
        rfl
      · rw [map_cons, ← htexts, ← hfunction]
        rfl

theorem ofInstructions_of_readable (h : m.Readable) :
    ∃ m', ofInstructions m.header m.instructions none = .ok m' ∧ m'.written = m.written := by
  have hpick := pick_globalInstructions fun s inst hinst => (h.sorted s inst hinst).1
  have hout : ∀ inst ∈ m.globalInstructions, inst.op.standsOutside := fun inst hinst => by
    have hpicked : inst ∈ inst.op.section.pick m.globalInstructions := mem_filter.2 ⟨hinst, decide_eq_true rfl⟩
    rw [hpick] at hpicked
    exact (h.sorted _ inst hpicked).2
  obtain ⟨items, hinsts, hsingles, hfunctions⟩ :=
    exists_items_of_functions m.globalInstructions hout m.functions h.finished
  have hentry : (Section.entryPoint.pick (Item.singles items)).length ≤ 1 := by
    rw [hsingles, hpick]
    exact Option.length_toList_le
  let read := ofItems m.header items
  have hread : ofInstructions m.header m.instructions none = .ok read := by
    rw [instructions, ← hinsts]
    exact ofInstructions_items.2 ⟨hentry, rfl⟩
  have hsections : ∀ s, read.inSection s = m.inSection s := fun s => by
    rw [inSection_ofItems, hsingles, hpick, ← inSection_eq_keep]
  have houtline := outline_receiveAll items (blank m.header)
  simp only [outline, Prod.mk.injEq] at houtline
  obtain ⟨hversion, hgenerator, hbound, htexts⟩ := houtline
  have hnames : read.functions = m.functions := by
    show (items.foldl receive (blank m.header)).functions.map
      (fun f => { f with name := (read.debugName? f.id).getD f.name }) = _
    rw [htexts, hfunctions, show (blank m.header).functions = [] from rfl, nil_append, map_map]
    refine (map_congr_left fun f hf => ?_).trans (map_id m.functions)
    have hdebug : read.debugName? f.id = m.debugName? f.id := by
      rw [debugName?, show read.debug = m.debug from hsections .debug, ← debugName?]
    simp only [Function.comp_apply, hdebug, h.named f hf, id_eq]
  refine ⟨read, hread, written_ext ?_ hsections⟩
  simp only [outline, Prod.mk.injEq]
  exact ⟨hversion.trans m.config.version.ofWord, hgenerator, hbound, hnames⟩

theorem ofWords_of_toWords (h : m.Readable) (hnames : ∀ inst ∈ m.instructions, inst.NulFree) {words : List Word}
    (hwords : m.toWords = .ok words) : ∃ m', ofWords words = .ok m' ∧ m'.written = m.written := by
  obtain ⟨body, hbody, hwords⟩ := Inst.bind_eq_ok_iff.1 hwords
  cases hwords
  have hitems : Inst.items body = m.instructions.map .ok := by
    rw [Inst.items, Inst.decodeAll_encodeAll hnames hbody]
    exact append_nil _
  have hparse : parse (m.header.words ++ body) = .ok (m.header, m.instructions.map .ok) := by
    rw [parse_words, hitems]
  rw [ofWords_of_parse hparse]
  exact ofInstructions_of_readable h

end Module

end Shader
