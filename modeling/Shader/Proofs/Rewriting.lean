import Shader.Proofs.Reading

/-!
# Writing what was read

What is read from words is written again in the order of the layout, with known hints of functions only,
nothing after the identifiers of parameters and labels, and zeros after names. This is a normal form: it
is read and written again as it is. Words that differ from it only in their functions are written as
they were exactly if the functions lose nothing.
-/

namespace Shader

open List

variable {inst : Inst} {m : Module} {words : List Word} {header : Header} {items : List Item} {insts : List Inst}

/-! ## Functions -/

namespace FunctionText

/-- The function as it is written after it was read. -/
def plain (t : FunctionText) : FunctionText :=
  { t with
    control := t.control &&& Module.controlMask
    params := t.params.map fun p => { p with operands := [] }
    blocks := t.blocks.map fun b => { b with operands := [] } }

theorem code_function (t : FunctionText) (name : String) : (t.function name).code = t.plain.insts := by
  rw [Function.code_of_hoisted rfl]
  simp only [plain, insts, function, map_map, flatMap_map]
  rfl

theorem finished_function (t : FunctionText) (name : String) : (t.function name).Finished := by
  have hblocks : ∀ b ∈ (t.function name).blocks, b.Tidy ∧ b.isTerminated := fun b hb => by
    obtain ⟨text, -, rfl⟩ := mem_map.1 hb
    refine ⟨⟨text.inside, ?_⟩, rfl⟩
    rintro _ ⟨⟩
    exact text.ends
  refine ⟨⟨?_, forall_mem_nil _, fun b hb => (hblocks b hb).1⟩, rfl, fun b hb => (hblocks b hb).2⟩
  show t.control &&& Module.controlMask &&& Module.controlMask = _
  rw [UInt32.and_assoc, UInt32.and_self]
  rfl

/-- The hints of the function are known, and no word follows identifiers of parameters and labels. -/
structure Lossless (t : FunctionText) : Prop where
  control : t.control &&& Module.controlMask = t.control
  params : ∀ p ∈ t.params, p.operands = []
  labels : ∀ b ∈ t.blocks, b.operands = []

theorem forall_eq_of_flatMap_eq {α : Type} {f g : α → List Inst} (hlength : ∀ a, (f a).length = (g a).length)
    {l : List α} (h : l.flatMap f = l.flatMap g) : ∀ a ∈ l, f a = g a := by
  induction l with
  | nil => exact forall_mem_nil _
  | cons a l ih =>
    obtain ⟨hfirst, hrest⟩ := append_inj h (hlength a)
    exact forall_mem_cons.2 ⟨hfirst, ih hrest⟩

theorem length_insts_plain (t : FunctionText) : t.plain.insts.length = t.insts.length := by
  simp [insts, plain, length_flatMap, BlockText.insts, Function.comp_def]

theorem insts_plain_eq_iff (t : FunctionText) : t.plain.insts = t.insts ↔ t.Lossless := by
  constructor
  · intro h
    obtain ⟨hhead, htail⟩ := cons.inj h
    simp only [plain, map_map, flatMap_map] at htail
    obtain ⟨hparams, htail⟩ := append_inj htail (by simp)
    obtain ⟨hblocks, -⟩ := append_inj' htail rfl
    have hcontrol := congrArg Inst.operands hhead
    refine ⟨(cons.inj hcontrol).1, fun p hp => ?_, fun b hb => ?_⟩
    · exact (congrArg Inst.operands (map_inj_left.1 hparams p hp)).symm
    · have hb := forall_eq_of_flatMap_eq (by simp [BlockText.insts]) hblocks b hb
      exact (congrArg Inst.operands (cons.inj hb).1).symm
  · rintro ⟨hcontrol, hparams, hlabels⟩
    have hp : t.params.map (fun p => { p with operands := [] }) = t.params := by
      refine (map_congr_left fun p hp => ?_).trans (map_id _)
      rw [← hparams p hp]
      rfl
    have hb : t.blocks.map (fun b => { b with operands := [] }) = t.blocks := by
      refine (map_congr_left fun b hb => ?_).trans (map_id _)
      rw [← hlabels b hb]
      rfl
    rw [plain, hcontrol, hp, hb]

theorem writable_plain {t : FunctionText} (h : ∀ inst ∈ t.insts, inst.Writable) :
    ∀ inst ∈ t.plain.insts, inst.Writable := by
  have hbare : ∀ {inst : Inst}, inst.name = none → inst.matchShape = .ok () →
      inst.wordCount ≤ 5 → inst.Writable := fun {inst} hname hshape hshort => by
    refine ⟨fun name h => ?_, _, Inst.encode_eq_ok_iff.2 ⟨hshape, by omega, rfl⟩⟩
    rw [hname] at h
    cases h
  refine forall_mem_cons.2 ⟨hbare rfl rfl (Nat.le_refl 5), forall_mem_append.2
    ⟨fun inst hinst => ?_, forall_mem_append.2 ⟨fun inst hinst => ?_, fun inst hinst => ?_⟩⟩⟩
  · obtain ⟨p, hp, rfl⟩ := mem_map.1 hinst
    obtain ⟨p, -, rfl⟩ := mem_map.1 hp
    exact hbare rfl rfl (by decide : 3 ≤ 5)
  · obtain ⟨b, hb, hinst⟩ := mem_flatMap.1 hinst
    obtain ⟨b, hmem, rfl⟩ := mem_map.1 hb
    obtain rfl | hinst := mem_cons.1 hinst
    · exact hbare rfl rfl (by decide : 2 ≤ 5)
    · have hmem : inst ∈ t.blocks.flatMap BlockText.insts :=
        mem_flatMap.2 ⟨b, hmem, mem_cons_of_mem _ hinst⟩
      exact h inst (mem_cons_of_mem _ (mem_append_right _ (mem_append_left _ hmem)))
  · cases mem_singleton.1 hinst
    exact hbare rfl rfl (by decide : 1 ≤ 5)

end FunctionText

/-! ## Words of instructions -/

namespace Inst

theorem encodeAll_eq_ok_iff : encodeAll insts = .ok words ↔
    ∃ encoded, Forall₂ (fun inst w => inst.encode = .ok w) insts encoded ∧ words = encoded.flatten := by
  induction insts generalizing words with
  | nil =>
    simp only [forall₂_nil_left_iff, exists_eq_left, flatten_nil, encodeAll]
    exact ⟨fun h => (Except.ok.inj h).symm, fun h => congrArg Except.ok h.symm⟩
  | cons inst insts ih =>
    rw [encodeAll]
    constructor
    · intro h
      obtain ⟨first, hfirst, h⟩ := bind_eq_ok_iff.1 h
      obtain ⟨rest, hrest, h⟩ := bind_eq_ok_iff.1 h
      cases h
      obtain ⟨encoded, hencoded, rfl⟩ := ih.1 hrest
      exact ⟨first :: encoded, .cons hfirst hencoded, flatten_cons.symm⟩
    · rintro ⟨_, hencoded, rfl⟩
      obtain ⟨first, encoded, hfirst, hrest, rfl⟩ := forall₂_cons_left_iff.1 hencoded
      rw [hfirst, ih.2 ⟨encoded, hrest, rfl⟩]
      rfl

theorem exists_encodeAll (h : ∀ inst ∈ insts, inst.Writable) : ∃ words, encodeAll insts = .ok words := by
  induction insts with
  | nil => exact ⟨[], rfl⟩
  | cons inst insts ih =>
    obtain ⟨⟨-, first, hfirst⟩, hinsts⟩ := forall_mem_cons.1 h
    obtain ⟨rest, hrest⟩ := ih hinsts
    exact ⟨first ++ rest, by rw [encodeAll, hfirst, hrest]; rfl⟩

theorem encodeAll_injective {insts' : List Inst} (hnames : ∀ inst ∈ insts, inst.NulFree)
    (hnames' : ∀ inst ∈ insts', inst.NulFree) (h : encodeAll insts = .ok words)
    (h' : encodeAll insts' = .ok words) : insts = insts' := by
  have hdecode := decodeAll_encodeAll hnames h
  rw [decodeAll_encodeAll hnames' h'] at hdecode
  exact (Prod.mk.inj hdecode).1.symm

end Inst

namespace Module

/-! ## Normal forms -/

theorem exists_parse_of_ofWords (h : ofWords words = .ok m) :
    ∃ (header : Header) (insts : List Inst), parse words = .ok (header, insts.map .ok) := by
  obtain ⟨⟨header, body⟩, hheader, h⟩ := Inst.bind_eq_ok_iff.1 h
  have hfault : (Inst.decodeAll body).2 = none := by
    cases hfault : (Inst.decodeAll body).2 with
    | none => rfl
    | some fault =>
      change ofInstructions header (Inst.decodeAll body).1 (Inst.decodeAll body).2 = .ok m at h
      rw [hfault] at h
      obtain ⟨r, -, h⟩ := Inst.bind_eq_ok_iff.1 h
      cases h
  refine ⟨header, (Inst.decodeAll body).1, ?_⟩
  rw [parse, hheader]
  show Except.ok (header, Inst.items body) = _
  rw [Inst.items, hfault, Option.toList_none, map_nil, append_nil]

theorem exists_items_of_ofWords (h : ofWords words = .ok m) : ∃ header items,
    parse words = .ok (header, (items.flatMap Item.insts).map .ok) ∧
      (Section.entryPoint.pick (Item.singles items)).length ≤ 1 ∧
      m = ofItems header items := by
  obtain ⟨header, insts, hparse⟩ := exists_parse_of_ofWords h
  rw [ofWords_of_parse hparse] at h
  obtain ⟨items, rfl⟩ := exists_items_of_ofInstructions
    (fun inst hinst => (writable_of_parse hparse inst hinst).matchShape_eq) h
  exact ⟨header, items, hparse, ofInstructions_items.1 h⟩

theorem Section.keep_subset (s : Section) (insts : List Inst) : s.keep insts ⊆ insts := by
  unfold keep
  split
  · intro inst hinst
    exact mem_of_getLast? (Option.mem_toList.1 hinst)
  · exact Subset.refl insts

theorem mem_inSection_ofItems {s : Section}
    (h : inst ∈ (ofItems header items).inSection s) : inst ∈ Item.singles items ∧ inst.op.section = s := by
  rw [inSection_ofItems] at h
  have hpicked := mem_filter.1 (s.keep_subset _ h)
  exact ⟨hpicked.1, of_decide_eq_true hpicked.2⟩

theorem mem_functions_ofItems {f : Function} (h : f ∈ (ofItems header items).functions) :
    ∃ t ∈ Item.functions items, f = t.function (((ofItems header items).debugName? f.id).getD "") := by
  rw [functions_ofItems] at h
  obtain ⟨t, ht, rfl⟩ := mem_map.1 h
  exact ⟨t, ht, rfl⟩

end Module

theorem Item.exists_single (h : inst ∈ singles items) : ∃ outside, single inst outside ∈ items := by
  obtain ⟨item, hitem, hinst⟩ := mem_filterMap.1 h
  cases item with
  | single i outside =>
    cases hinst
    exact ⟨outside, hitem⟩
  | function t => cases hinst

theorem Item.function_mem {t : FunctionText} (h : t ∈ functions items) : function t ∈ items := by
  obtain ⟨item, hitem, ht⟩ := mem_filterMap.1 h
  cases item with
  | single i outside => cases ht
  | function t' =>
    cases ht
    exact hitem

namespace Module

theorem readable_of_items (header : Header) (items : List Item) : (ofItems header items).Readable where
  sorted s inst hinst := by
    obtain ⟨hmem, hsection⟩ := mem_inSection_ofItems hinst
    obtain ⟨outside, -⟩ := Item.exists_single hmem
    exact ⟨hsection, outside⟩
  finished f hf := by
    obtain ⟨t, -, hfunction⟩ := mem_functions_ofItems hf
    rw [hfunction]
    exact t.finished_function _
  named f hf := by
    obtain ⟨t, -, hfunction⟩ := mem_functions_ofItems hf
    exact (congrArg Function.name hfunction).symm

/-- The order of sections. -/
def Section.layout : List Section :=
  [.capabilities, .extensions, .imports, .memoryModel, .entryPoint, .executionModes, .debug,
    .decorations, .declarations]

theorem globalInstructions_eq (m : Module) : m.globalInstructions = Section.layout.flatMap m.inSection := by
  simp only [globalInstructions, Section.layout, flatMap_cons, flatMap_nil, append_nil, append_assoc]
  rfl

theorem writable_of_items (header : Header) (h : ∀ inst ∈ items.flatMap Item.insts, inst.Writable) :
    ∀ inst ∈ (ofItems header items).instructions, inst.Writable := by
  refine forall_mem_append.2 ⟨fun inst hinst => ?_, fun inst hinst => ?_⟩
  · rw [globalInstructions_eq] at hinst
    obtain ⟨s, -, hs⟩ := mem_flatMap.1 hinst
    obtain ⟨outside, hitem⟩ := Item.exists_single (mem_inSection_ofItems hs).1
    exact h inst (mem_flatMap.2 ⟨_, hitem, mem_singleton.2 rfl⟩)
  · obtain ⟨f, hf, hinst⟩ := mem_flatMap.1 hinst
    obtain ⟨t, ht, hfunction⟩ := mem_functions_ofItems hf
    rw [hfunction, FunctionText.code_function] at hinst
    refine FunctionText.writable_plain (fun i hi => ?_) inst hinst
    exact h i (mem_flatMap.2 ⟨_, Item.function_mem ht, hi⟩)

/-- A module that was read can be written, and is then read as one with the same version, tool, bound,
sections and functions, which is written with the same words. -/
theorem rewriting_settles (h : ofWords words = .ok m) :
    ∃ words', m.toWords = .ok words' ∧ ∃ m', ofWords words' = .ok m' ∧ m'.written = m.written ∧
      m'.toWords = .ok words' := by
  obtain ⟨header, items, hparse, -, rfl⟩ := exists_items_of_ofWords h
  have hwritable := writable_of_items header (writable_of_parse hparse)
  obtain ⟨body, hbody⟩ := Inst.exists_encodeAll hwritable
  have hwords : (ofItems header items).toWords = .ok ((ofItems header items).header.words ++ body) := by
    rw [toWords, hbody]
    rfl
  obtain ⟨m', hread, hwritten⟩ := ofWords_of_toWords (readable_of_items header items)
    (fun inst hinst => (hwritable inst hinst).1) hwords
  refine ⟨_, hwords, m', hread, hwritten, ?_⟩
  rw [← toWords_written, hwritten, toWords_written, hwords]

theorem scattered_settles : ∃ m, ofWords scatteredWords = .ok m ∧
    ∃ words, m.toWords = .ok words ∧ ∃ m', ofWords words = .ok m' ∧ m'.written = m.written ∧
      m'.toWords = .ok words := by
  have hread : ofWords scatteredWords = .ok (ofItems scatteredHeader scattered) := by
    rw [ofWords_of_parse parse_scatteredWords]
    exact ofInstructions_items.2 ⟨by decide +kernel, rfl⟩
  exact ⟨_, hread, rewriting_settles hread⟩

end Module

/-! ## Canonical words -/

namespace Inst

/-- The words are an encoding of the instruction with zeros after the name. -/
def ZeroPadded (inst : Inst) (words : List Word) : Prop :=
  inst.EncodedAs words ∧ ∀ position, inst.IsPadding position → (bytesOfWords words)[position]? = some 0

theorem padding_encode (h : inst.encode = .ok words) {position : Nat}
    (hposition : inst.IsPadding position) : (bytesOfWords words)[position]? = some 0 := by
  obtain ⟨-, -, rfl⟩ := encode_eq_ok_iff.1 h
  obtain ⟨name, hname, hafter, hbefore⟩ := hposition
  obtain ⟨k, hk⟩ := LiteralString.flatMap_bytes_packBytes (Utf8.encode name)
  change bytesOfWords (LiteralString.pack name) = _ at hk
  have hlength := length_bytesOfWords (LiteralString.pack name)
  rw [hk, LiteralString.length_pack, length_append, length_cons, length_replicate, Utf8.length_encode] at hlength
  have hbytes : bytesOfWords (inst.lead :: inst.body) = bytesOfWords inst.leading ++
      (Utf8.encode name ++ [0]) ++ (replicate k 0 ++ bytesOfWords inst.trailing) := by
    rw [lead_cons_body, hname, Option.map_some, Option.getD_some, bytesOfWords_append, bytesOfWords_append, hk]
    simp only [append_assoc, cons_append, nil_append]
  have hstart := length_upToName inst name
  rw [hbytes, getElem?_append_right (by omega), getElem?_append_left
    (by rw [length_replicate]; omega), getElem?_replicate, if_pos (by omega)]

theorem ZeroPadded.encode_eq (h : inst.ZeroPadded words) : inst.encode = .ok words := by
  obtain ⟨⟨-, written, hwritten, -, hagree⟩, hzero⟩ := h
  rw [hwritten]
  refine congrArg Except.ok (bytesOfWords_injective (ext_getElem? fun position => ?_))
  by_cases hposition : inst.IsPadding position
  · rw [hzero position hposition, padding_encode hwritten hposition]
  · exact (hagree position hposition).symm

theorem exists_zeroPadded (hnames : ∀ inst ∈ insts, inst.NulFree) (h : encodeAll insts = .ok words) :
    ∃ encoded, Forall₂ ZeroPadded insts encoded ∧ words = encoded.flatten := by
  obtain ⟨encoded, hencoded, rfl⟩ := encodeAll_eq_ok_iff.1 h
  refine ⟨encoded, ?_, rfl⟩
  refine ((forall₂_and_left insts encoded).2 ⟨hnames, hencoded⟩).imp fun inst words h => ?_
  exact ⟨(h.1.encoded h.2).encodedAs, fun _ => padding_encode h.2⟩

end Inst

/-- Where an item is written: single instructions in the order of the sections, then functions. -/
def Item.rank : Item → Nat
  | .single inst _ => inst.op.section.ctorIdx
  | .function _ => Module.Section.layout.length

/-- Words in normal form, but for what functions may lose, with items in the order of the layout. -/
structure Canonical (header : Header) (items : List Item) (words : List Word) : Prop where
  version : header.version = Word.ofBytes 0 header.minor header.major 0
  schema : header.schema = 0
  encoded : ∃ encoded, Forall₂ Inst.ZeroPadded (items.flatMap Item.insts) encoded ∧
    words = header.words ++ encoded.flatten
  ordered : items.Pairwise fun a b => a.rank ≤ b.rank
  oneModel : (Item.singles items).countP (·.op = .MemoryModel) ≤ 1

theorem Canonical.parse_eq (h : Canonical header items words) :
    parse words = .ok (header, (items.flatMap Item.insts).map .ok) := by
  obtain ⟨encoded, hencoded, rfl⟩ := h.encoded
  rw [parse_words, Inst.items_eq_map_ok_iff.2 ⟨encoded, hencoded.imp fun _ _ => And.left, rfl⟩]

namespace Module

theorem flatMap_pick_of_sorted {sections : List Section}
    (hsections : sections.Pairwise fun s s' => s.ctorIdx < s'.ctorIdx)
    (hsorted : insts.Pairwise fun a b => a.op.section.ctorIdx ≤ b.op.section.ctorIdx)
    (hmem : ∀ inst ∈ insts, inst.op.section ∈ sections) : sections.flatMap (fun s => s.pick insts) = insts := by
  induction insts with
  | nil => exact flatMap_eq_nil_iff.2 fun s _ => filter_nil
  | cons inst insts ih =>
    obtain ⟨hleast, hsorted⟩ := pairwise_cons.1 hsorted
    obtain ⟨hinst, hmem⟩ := forall_mem_cons.1 hmem
    have hrest := ih hsorted hmem
    obtain ⟨before, after, rfl⟩ := append_of_mem hinst
    obtain ⟨-, hafter, hbefore⟩ := pairwise_append.1 hsections
    have hpick : ∀ s : Section, s.pick (inst :: insts) =
        (if inst.op.section = s then [inst] else []) ++ s.pick insts := fun s => by
      rw [← Section.pick_singleton, ← Section.pick_append, singleton_append]
    -- Nothing belongs to the sections before that of the first instruction.
    have hnone : ∀ l ⊆ inst :: insts, before.flatMap (fun s => s.pick l) = [] := by
      intro l hl
      refine flatMap_eq_nil_iff.2 fun s hs => filter_eq_nil_iff.2 fun i hi => ?_
      have hlt := hbefore s hs inst.op.section mem_cons_self
      have hle : inst.op.section.ctorIdx ≤ i.op.section.ctorIdx := by
        obtain rfl | hi := mem_cons.1 (hl hi)
        · exact Nat.le_refl _
        · exact hleast i hi
      intro heq
      rw [of_decide_eq_true heq] at hle
      omega
    have hlater : after.flatMap (fun s => s.pick (inst :: insts)) = after.flatMap fun s => s.pick insts := by
      refine flatMap_congr fun s hs => ?_
      have hlt := (pairwise_cons.1 hafter).1 s hs
      rw [hpick, if_neg, nil_append]
      rintro rfl
      exact Nat.lt_irrefl _ hlt
    rw [flatMap_append, flatMap_cons, hnone _ (subset_cons_self ..), nil_append] at hrest
    rw [flatMap_append, flatMap_cons, hnone _ (Subset.refl _), nil_append, hpick,
      if_pos rfl, hlater, append_assoc, hrest, singleton_append]

theorem Section.mem_layout (s : Section) : s ∈ Section.layout := by
  cases s <;> decide

theorem Section.ctorIdx_lt (s : Section) : s.ctorIdx < Section.layout.length := by
  cases s <;> decide

theorem Section.layout_ascending : Section.layout.Pairwise fun s s' => s.ctorIdx < s'.ctorIdx := by
  decide

end Module

theorem Item.flatMap_insts_of_ordered (h : items.Pairwise fun a b => a.rank ≤ b.rank) :
    items.flatMap Item.insts = singles items ++ (functions items).flatMap FunctionText.insts := by
  induction items with
  | nil => rfl
  | cons item items ih =>
    obtain ⟨hleast, hordered⟩ := pairwise_cons.1 h
    rw [flatMap_cons, ih hordered, singles_cons, functions_cons]
    cases item with
    | single inst outside => rfl
    | function t =>
      have hsingles : singles items = [] := by
        refine filterMap_eq_nil_iff.2 fun item hitem => ?_
        cases item with
        | single inst outside =>
          have hrank : Module.Section.layout.length ≤ inst.op.section.ctorIdx := hleast _ hitem
          exact absurd hrank (Nat.not_le.2 inst.op.section.ctorIdx_lt)
        | function t' => rfl
      rw [hsingles]
      rfl

theorem Item.singles_sorted (h : items.Pairwise fun a b => a.rank ≤ b.rank) :
    (singles items).Pairwise fun a b => a.op.section.ctorIdx ≤ b.op.section.ctorIdx := by
  refine pairwise_filterMap.2 (h.imp fun {a b} hrank i hi j hj => ?_)
  cases a with
  | function t => cases hi
  | single a outside =>
    cases b with
    | function t => cases hj
    | single b outside' =>
      cases hi
      cases hj
      exact hrank

theorem Op.section_eq_memoryModel_iff {op : Op} : op.section = .memoryModel ↔ op = .MemoryModel := by
  unfold Op.section
  split <;> simp_all

namespace Module

theorem functions_flatMap_code (header : Header) (items : List Item) :
    (ofItems header items).functions.flatMap Function.code = (Item.functions items).flatMap fun t => t.plain.insts := by
  rw [functions_ofItems, flatMap_map]
  exact flatMap_congr fun t _ => t.code_function _

theorem instructions_ofItems (hordered : items.Pairwise fun a b => a.rank ≤ b.rank)
    (hmodel : (Section.memoryModel.pick (Item.singles items)).length ≤ 1)
    (hentry : (Section.entryPoint.pick (Item.singles items)).length ≤ 1) : (ofItems header items).instructions =
      Item.singles items ++ (Item.functions items).flatMap fun t => t.plain.insts := by
  have hsections : ∀ s : Section, (ofItems header items).inSection s = s.pick (Item.singles items) := fun s => by
    rw [inSection_ofItems]
    cases s with
    | memoryModel => exact Section.keep_of_length_le _ hmodel
    | entryPoint => exact Section.keep_of_length_le _ hentry
    | _ => rfl
  have hglobals : (ofItems header items).globalInstructions = Item.singles items := by
    rw [globalInstructions_eq, funext hsections]
    exact flatMap_pick_of_sorted Section.layout_ascending (Item.singles_sorted hordered)
      fun inst _ => inst.op.section.mem_layout
  rw [instructions, hglobals, functions_flatMap_code]

theorem header_ofItems (hversion : header.version = Word.ofBytes 0 header.minor header.major 0)
    (hschema : header.schema = 0) : (ofItems header items).header = header := by
  have houtline := outline_receiveAll items (blank header)
  simp only [outline, Prod.mk.injEq] at houtline
  obtain ⟨hversion', hgenerator, hbound, -⟩ := houtline
  have hword : (ofItems header items).config.version.word = header.version := by
    rw [hversion]
    show (items.foldl receive (blank header)).config.version.word = _
    rw [hversion', Version.word_eq]
    rfl
  obtain ⟨version, generator, bound, schema⟩ := header
  obtain rfl : schema = 0 := hschema
  show Header.mk (ofItems _ items).config.version.word
    (items.foldl receive (blank _)).config.generator (items.foldl receive (blank _)).bound 0 = _
  rw [hword, hgenerator, hbound]
  rfl

/-- Canonical words are written again, word for word, exactly if no function in them loses anything. -/
theorem toWords_eq_iff_lossless (hcanonical : Canonical header items words) (hread : ofWords words = .ok m) :
    m.toWords = .ok words ↔ ∀ t ∈ Item.functions items, t.Lossless := by
  have hparse := hcanonical.parse_eq
  obtain ⟨hversion, hschema, ⟨encoded, hencoded, rfl⟩, hordered, hmodel⟩ := hcanonical
  rw [ofWords_of_parse hparse] at hread
  obtain ⟨hentry, rfl⟩ := ofInstructions_items.1 hread
  have hbody : Inst.encodeAll (items.flatMap Item.insts) = .ok encoded.flatten :=
    Inst.encodeAll_eq_ok_iff.2 ⟨encoded, hencoded.imp fun _ _ h => h.encode_eq, rfl⟩
  have hwritable := writable_of_parse hparse
  have hinsts : (ofItems header items).instructions =
      Item.singles items ++ (Item.functions items).flatMap fun t => t.plain.insts := by
    refine instructions_ofItems hordered ?_ hentry
    rw [countP_eq_length_filter] at hmodel
    simpa only [Section.pick, Op.section_eq_memoryModel_iff] using hmodel
  calc (ofItems header items).toWords = .ok (header.words ++ encoded.flatten)
    _ ↔ Inst.encodeAll (ofItems header items).instructions = .ok encoded.flatten := by
      rw [toWords, header_ofItems hversion hschema]
      cases Inst.encodeAll (ofItems header items).instructions with
      | error e => constructor <;> (intro h; cases h)
      | ok body =>
        show Except.ok (header.words ++ body) = _ ↔ _
        rw [Except.ok.injEq, Except.ok.injEq, append_cancel_left_eq]
    _ ↔ (ofItems header items).instructions = items.flatMap Item.insts := by
      refine ⟨fun h => ?_, fun h => h ▸ hbody⟩
      exact Inst.encodeAll_injective (fun inst hinst => (writable_of_items header hwritable inst hinst).1)
        (fun inst hinst => (hwritable inst hinst).1) h hbody
    _ ↔ ∀ t ∈ Item.functions items, t.plain.insts = t.insts := by
      rw [hinsts, Item.flatMap_insts_of_ordered hordered, append_cancel_left_eq]
      exact ⟨FunctionText.forall_eq_of_flatMap_eq FunctionText.length_insts_plain, fun h => flatMap_congr h⟩
    _ ↔ ∀ t ∈ Item.functions items, t.Lossless :=
      forall₂_congr fun t _ => t.insts_plain_eq_iff

def hintedHeader : Header := ⟨0x10000, 0, 9, 0⟩

def hintedBody (control : Word) : List Word :=
  [0x30005, 4, 0x66, 0x20013, 2, 0x30021, 3, 2, 0x50036, 2, 4, control, 3, 0x200f8, 5, 0x100fd, 0x10038]

def hintedWords (control : Word) : List Word := hintedHeader.words ++ hintedBody control

theorem canonical_hinted (control : Word) (hnames : ∀ inst ∈ (hinted control).flatMap Item.insts, inst.NulFree)
    (hbody : Inst.encodeAll ((hinted control).flatMap Item.insts) = .ok (hintedBody control)) :
    Canonical hintedHeader (hinted control) (hintedWords control) where
  version := by decide +kernel
  schema := rfl
  encoded := by
    obtain ⟨encoded, hencoded, hflatten⟩ := Inst.exists_zeroPadded hnames hbody
    exact ⟨encoded, hencoded, by rw [hintedWords, hflatten]⟩
  ordered := by
    have hranks : ((hinted control).map Item.rank).Pairwise (· ≤ ·) := show [6, 8, 8, 9].Pairwise (· ≤ ·) by decide
    exact pairwise_map.1 hranks
  oneModel := Nat.zero_le 1

theorem ofWords_hinted {control : Word} (h : Canonical hintedHeader (hinted control) (hintedWords control)) :
    ofWords (hintedWords control) = .ok (ofItems hintedHeader (hinted control)) := by
  rw [ofWords_of_parse h.parse_eq]
  exact ofInstructions_items.2 ⟨Nat.zero_le 1, rfl⟩

/-- A known hint is written again. -/
theorem known_hint_is_kept : Canonical hintedHeader (hinted 1) (hintedWords 1) ∧
    ∃ m, ofWords (hintedWords 1) = .ok m ∧ m.toWords = .ok (hintedWords 1) := by
  have hcanonical := canonical_hinted 1 (by decide +kernel) (by decide +kernel)
  have hread := ofWords_hinted hcanonical
  refine ⟨hcanonical, _, hread, (toWords_eq_iff_lossless hcanonical hread).2 fun t ht => ?_⟩
  cases mem_singleton.1 ht
  exact ⟨by decide, forall_mem_nil _, by simp⟩

/-- One that is not known is lost. -/
theorem unknown_hint_is_lost : Canonical hintedHeader (hinted 16) (hintedWords 16) ∧
    ∃ m, ofWords (hintedWords 16) = .ok m ∧ m.toWords = .ok (hintedWords 0) ∧ hintedWords 0 ≠ hintedWords 16 := by
  have hcanonical := canonical_hinted 16 (by decide +kernel) (by decide +kernel)
  exact ⟨hcanonical, _, ofWords_hinted hcanonical, by decide +kernel, by decide +kernel⟩

end Module

end Shader
