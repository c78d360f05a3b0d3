import Shader.Module.Binary
import Shader.Proofs.Delimited
import Shader.Proofs.Encoding

/-!
# Listings tell modules apart

The listing of a module loses nothing that its words keep. A line starts with `%` only if a result
stands before the opcode, the opcode's shape says which fields follow, and every field ends at a blank
or at the end of the line.
-/

namespace Shader

open List Option Text

variable {op op' : Op}

namespace Op

/-- The name of an opcode as a number. -/
def nameKey (op : Op) : Nat := (Utf8.encode (Enumerated.name op)).foldl (fun n b => 256 * n + b.toNat) 0

theorem name_injective (h : Enumerated.name op = Enumerated.name op') : op = op' := by
  have hnodup : ((Enumerated.all : List Op).map nameKey).Nodup := by decide +kernel
  have hkey : op.nameKey = op'.nameKey := by rw [nameKey, nameKey, h]
  exact inj_on_of_nodup_map hnodup op.mem_all op'.mem_all hkey

theorem not_gap_of_mem_name {c : Char} (h : c ∈ (Enumerated.name op).toList) : ¬ Gap c := by
  -- stated with `all`, the decision goes over the name's own bytes only
  have hall : (Enumerated.all : List Op).all fun op =>
      (Utf8.encode (Enumerated.name op)).all (fun b => b ≠ 32 ∧ b ≠ 10) := by decide +kernel
  have hbytes : ∀ b ∈ Utf8.encode (Enumerated.name op), b ≠ 32 ∧ b ≠ 10 := by
    simpa using all_eq_true.1 hall op op.mem_all
  have hmem : ∀ b ∈ String.utf8EncodeChar c, b ∈ Utf8.encode (Enumerated.name op) := by
    intro b hb
    rw [Utf8.encode_eq_flatMap, mem_flatMap]
    exact ⟨c, h, hb⟩
  rintro (rfl | rfl)
  · exact (hbytes 32 (hmem 32 (by decide))).1 rfl
  · exact (hbytes 10 (hmem 10 (by decide))).2 rfl

theorem toList_mnemonic (op : Op) : op.mnemonic.toList = 'O' :: 'p' :: (Enumerated.name op).toList := by
  rw [mnemonic, String.toList_append]
  rfl

theorem delimited_mnemonic : Delimited Gap (fun op : Op => op.mnemonic.toList) := by
  apply Delimited.of_free
  · intro op c hc
    rw [toList_mnemonic] at hc
    rcases mem_cons.1 hc with rfl | hc
    · simp [Gap]
    rcases mem_cons.1 hc with rfl | hc
    · simp [Gap]
    exact not_gap_of_mem_name hc
  · intro op op' h
    rw [toList_mnemonic, toList_mnemonic] at h
    exact name_injective (String.toList_inj.1 (cons.inj (cons.inj h).2).2)

end Op

/-! ## Instructions -/

namespace Inst

variable {inst inst' : Inst} {rest rest' : List Char}

def tailText (inst : Inst) : List Char :=
  inst.operands.flatMap (fun w => ' ' :: (toString w).toList)
    ++ (inst.labels.getD []).flatMap (fun l => ' ' :: ((toString l.1).toList ++ ' ' :: '%' :: (toString l.2).toList))

def fieldsText (inst : Inst) : List Char := inst.name.toList.flatMap (fun s => ' ' :: (quote s).toList) ++ inst.tailText

theorem toList_listing (inst : Inst) : inst.listing.toList = inst.listingHead.toList ++ inst.fieldsText := by
  simp only [listing, fieldsText, tailText, String.toList_append, String.toList_join, flatMap_map, append_assoc]
  rfl

def definingHead (id : Id) (op : Op) (type : Option Id) : List Char :=
  '%' :: ((toString id).toList ++ ' ' :: '=' :: ' ' ::
    (op.mnemonic.toList ++ type.toList.flatMap (fun w => ' ' :: '%' :: (toString w).toList)))

def plainHead (op : Op) (leading : List Id) : List Char :=
  op.mnemonic.toList ++ leading.flatMap (fun w => ' ' :: (toString w).toList)

theorem toList_listingHead (inst : Inst) :
    (∃ id, inst.result = some id ∧ inst.listingHead.toList = definingHead id inst.op inst.resultType) ∨
    inst.listingHead.toList = plainHead inst.op (inst.resultType.toList ++ inst.result.toList) := by
  unfold listingHead
  split
  case h_1 type id _ htype hid =>
    refine .inl ⟨id, hid, ?_⟩
    rw [definingHead, htype]
    simp only [String.toList_append, toList_some, flatMap_cons, flatMap_nil, append_nil, append_assoc]
    rfl
  case h_2 id _ htype hid =>
    refine .inl ⟨id, hid, ?_⟩
    rw [definingHead, htype]
    simp only [String.toList_append, toList_none, flatMap_nil, append_nil, append_assoc]
    rfl
  case h_3 =>
    refine .inr ?_
    simp only [plainHead, String.toList_append, String.toList_join, flatMap_map]
    rfl

/-- Instructions with the same fields, whatever the fields hold. -/
structure Alike (inst inst' : Inst) : Prop where
  resultType : inst.resultType.isSome = inst'.resultType.isSome
  result : inst.result.isSome = inst'.result.isSome
  name : inst.name.isSome = inst'.name.isSome
  tail : (inst.labels = none ∧ inst'.labels = none) ∨
    (inst.operands = [] ∧ inst'.operands = [] ∧ inst.labels.isSome ∧ inst'.labels.isSome)

/-- Instructions of one shape and opcode have the same fields. -/
theorem alike_of_matchShape (h : inst.matchShape = .ok ()) (h' : inst'.matchShape = .ok ())
    (hop : inst.op = inst'.op) : inst.Alike inst' := by
  obtain ⟨shape, hshape⟩ := exists_shape h
  obtain ⟨htype, hresult, hname, hlabels, hoperands⟩ := (matchShape_eq_ok_iff hshape).1 h
  obtain ⟨htype', hresult', hname', hlabels', hoperands'⟩ := (matchShape_eq_ok_iff (hop ▸ hshape)).1 h'
  refine ⟨htype.trans htype'.symm, hresult.trans hresult'.symm, hname.trans hname'.symm, ?_⟩
  by_cases htail : shape.tail = .labels
  · have hother : shape.tail ≠ .operands := by rw [htail]; decide
    simp only [htail] at hlabels hlabels'
    exact .inr ⟨hoperands hother, hoperands' hother, hlabels, hlabels'⟩
  · rw [beq_false_of_ne htail, isSome_eq_false_iff, isNone_iff_eq_none] at hlabels hlabels'
    exact .inl ⟨hlabels, hlabels'⟩

theorem length_toList_eq {α : Type} {o o' : Option α} (h : o.isSome = o'.isSome) :
    o.toList.length = o'.toList.length := by
  cases o <;> cases o' <;> simp_all

theorem toList_inj {α : Type} {o o' : Option α} (h : o.toList = o'.toList) : o = o' := by
  cases o <;> cases o' <;> simp_all

theorem stops_tailText (inst : Inst) (rest : List Char) : Stops Gap (inst.tailText ++ '\n' :: rest) := by
  rw [tailText, append_assoc]
  exact Delimited.stops_fields _ (Delimited.stops_fields _ (stops_cons (.inr rfl)))

theorem stops_fieldsText (inst : Inst) (rest : List Char) : Stops Gap (inst.fieldsText ++ '\n' :: rest) := by
  rw [fieldsText, append_assoc]
  exact Delimited.stops_fields _ (stops_tailText inst rest)

theorem delimited_label :
    Delimited Gap (fun l : Int32 × Id => (toString l.1).toList ++ ' ' :: '%' :: (toString l.2).toList) :=
  delimited_literal.pair (delimited_word.after ['%']) (.inl rfl)

theorem tailText_inj (halike : inst.Alike inst') (h : inst.tailText ++ '\n' :: rest = inst'.tailText ++ '\n' :: rest') :
    inst.operands = inst'.operands ∧ inst.labels = inst'.labels ∧ rest = rest' := by
  rw [tailText, tailText] at h
  rcases halike.tail with ⟨hnone, hnone'⟩ | ⟨hnil, hnil', hsome, hsome'⟩
  · rw [hnone, hnone', getD_none, flatMap_nil, append_nil, append_nil] at h
    obtain ⟨hoperands, hrests⟩ := delimited_word.line h
    exact ⟨hoperands, hnone.trans hnone'.symm, hrests⟩
  · obtain ⟨labels, hlabels⟩ := isSome_iff_exists.1 hsome
    obtain ⟨labels', hlabels'⟩ := isSome_iff_exists.1 hsome'
    rw [hnil, hnil', hlabels, hlabels'] at h
    obtain ⟨hall, hrests⟩ := delimited_label.line h
    have hsame : labels = labels' := hall
    exact ⟨hnil.trans hnil'.symm, by rw [hlabels, hlabels', hsame], hrests⟩

theorem definingHead_inj {id id' : Id} {type type' : Option Id} (hrest : Stops Gap rest)
    (hrest' : Stops Gap rest') (h : definingHead id op type ++ rest = definingHead id' op' type' ++ rest') :
    id = id' ∧ op = op' ∧ (type.isSome = type'.isSome → type = type' ∧ rest = rest') := by
  simp only [definingHead, cons_append, append_assoc] at h
  obtain ⟨rfl, hafter⟩ := delimited_word _ _ _ _ (stops_cons (.inl rfl)) (stops_cons (.inl rfl)) (cons.inj h).2
  obtain ⟨rfl, htype⟩ := Op.delimited_mnemonic _ _ _ _ (Delimited.stops_fields _ hrest)
    (Delimited.stops_fields _ hrest') ((append_right_inj [' ', '=', ' ']).1 hafter)
  refine ⟨rfl, rfl, fun hsome => ?_⟩
  obtain ⟨hlist, hrests⟩ := (delimited_word.after ['%']).fields (length_toList_eq hsome) hrest hrest' htype
  exact ⟨toList_inj hlist, hrests⟩

theorem plainHead_inj {leading leading' : List Id} (hrest : Stops Gap rest)
    (hrest' : Stops Gap rest') (h : plainHead op leading ++ rest = plainHead op' leading' ++ rest') :
    op = op' ∧ (leading.length = leading'.length → leading = leading' ∧ rest = rest') := by
  simp only [plainHead, append_assoc] at h
  obtain ⟨rfl, hleading⟩ := Op.delimited_mnemonic _ _ _ _ (Delimited.stops_fields _ hrest)
    (Delimited.stops_fields _ hrest') h
  exact ⟨rfl, fun hlength => delimited_word.fields hlength hrest hrest' hleading⟩

theorem definingHead_ne_plainHead {id : Id} {type : Option Id} {leading : List Id} :
    definingHead id op type ++ rest ≠ plainHead op' leading ++ rest' := by
  intro h
  rw [plainHead, Op.toList_mnemonic] at h
  exact absurd (cons.inj h).1 (by decide)

theorem listingHead_inj (h : inst.matchShape = .ok ()) (h' : inst'.matchShape = .ok ()) (hrest : Stops Gap rest)
    (hrest' : Stops Gap rest') (htext : inst.listingHead.toList ++ rest = inst'.listingHead.toList ++ rest') :
    inst.op = inst'.op ∧ inst.resultType = inst'.resultType ∧ inst.result = inst'.result ∧ rest = rest' := by
  rcases toList_listingHead inst with ⟨id, hid, hhead⟩ | hhead <;>
    rcases toList_listingHead inst' with ⟨id', hid', hhead'⟩ | hhead' <;> rw [hhead, hhead'] at htext
  · obtain ⟨rfl, hop, htail⟩ := definingHead_inj hrest hrest' htext
    obtain ⟨htype, hrests⟩ := htail (alike_of_matchShape h h' hop).resultType
    exact ⟨hop, htype, hid.trans hid'.symm, hrests⟩
  · exact absurd htext definingHead_ne_plainHead
  · exact absurd htext.symm definingHead_ne_plainHead
  · obtain ⟨hop, htail⟩ := plainHead_inj hrest hrest' htext
    have halike := alike_of_matchShape h h' hop
    have htypes := length_toList_eq halike.resultType
    have hlength := congrArg₂ (· + ·) htypes (length_toList_eq halike.result)
    obtain ⟨hleading, hrests⟩ := htail (by simpa only [length_append] using hlength)
    obtain ⟨htype, hresult⟩ := append_inj hleading htypes
    exact ⟨hop, toList_inj htype, toList_inj hresult, hrests⟩

/-- A line of a listing determines its instruction. -/
theorem line_inj (h : inst.matchShape = .ok ()) (h' : inst'.matchShape = .ok ())
    (htext : inst.listing.toList ++ '\n' :: rest = inst'.listing.toList ++ '\n' :: rest') :
    inst = inst' ∧ rest = rest' := by
  rw [toList_listing, toList_listing, append_assoc, append_assoc] at htext
  obtain ⟨hop, htype, hresult, hfields⟩ := listingHead_inj h h' (stops_fieldsText _ _) (stops_fieldsText _ _) htext
  have halike := alike_of_matchShape h h' hop
  rw [fieldsText, fieldsText, append_assoc, append_assoc] at hfields
  obtain ⟨hname, htail⟩ := delimited_quote.fields (length_toList_eq halike.name) (stops_tailText _ _)
    (stops_tailText _ _) hfields
  obtain ⟨hoperands, hlabels, hrests⟩ := tailText_inj halike htail
  refine ⟨?_, hrests⟩
  cases inst
  cases inst'
  rw [mk.injEq]
  exact ⟨hop, htype, hresult, toList_inj hname, hoperands, hlabels⟩

theorem lines_inj {code code' : List Inst} (h : ∀ inst ∈ code, inst.matchShape = .ok ())
    (h' : ∀ inst ∈ code', inst.matchShape = .ok ())
    (htext : code.flatMap (fun inst => inst.listing.toList ++ ['\n'])
      = code'.flatMap (fun inst => inst.listing.toList ++ ['\n'])) : code = code' := by
  induction code generalizing code' with
  | nil =>
    cases code' with
    | nil => rfl
    | cons inst' code' => simp at htext
  | cons inst code ih =>
    cases code' with
    | nil => simp at htext
    | cons inst' code' =>
      simp only [flatMap_cons, append_assoc, singleton_append] at htext
      obtain ⟨hinst, hrest⟩ := line_inj (h inst mem_cons_self) (h' inst' mem_cons_self) htext
      rw [hinst, ih (fun i hi => h i (mem_cons_of_mem _ hi)) (fun i hi => h' i (mem_cons_of_mem _ hi)) hrest]

end Inst

/-! ## Modules -/

namespace Module

variable {m m' : Module}

theorem toList_listing (m : Module) :
    m.listing.toList = "; SPIR-V ".toList ++ ((toString m.config.version.major).toList ++ '.' ::
      ((toString m.config.version.minor).toList ++ '\n' ::
      ("; Generator: 0x".toList ++ ((hexPadded 8 m.config.generator.toNat).toList ++ '\n' ::
      ("; Bound: ".toList ++ ((toString m.bound).toList ++ '\n' ::
      m.instructions.flatMap (fun inst => inst.listing.toList ++ ['\n']))))))) := by
  have hline : "\n".toList = ['\n'] := rfl
  have hpoint : ".".toList = ['.'] := rfl
  have hself : ∀ s : String, toString s = s := fun _ => rfl
  simp only [listing, hline, hpoint, hself, String.toList_join, flatMap_map, flatMap_cons,
    String.toList_append, append_assoc, cons_append, nil_append]

theorem header_of_listing (h : m.listing = m'.listing) :
    m.config.version = m'.config.version ∧ m.config.generator = m'.config.generator ∧ m.bound = m'.bound ∧
    m.instructions.flatMap (fun inst => inst.listing.toList ++ ['\n'])
      = m'.instructions.flatMap (fun inst => inst.listing.toList ++ ['\n']) := by
  have hend : ∀ cs, Stops Gap ('\n' :: cs) := fun cs => stops_cons (.inr rfl)
  have hpoint : ∀ cs, Stops (· = '.') ('.' :: cs) := fun cs => stops_cons rfl
  rw [← String.toList_inj, toList_listing, toList_listing] at h
  obtain ⟨hmajor, hafter⟩ := delimited_byte (fun _ => Nat.digitChar_ne '.' rfl) _ _ _ _ (hpoint _) (hpoint _)
    (append_cancel_left h)
  obtain ⟨hminor, hsecond⟩ := delimited_byte not_gap_digitChar _ _ _ _ (hend _) (hend _) (cons.inj hafter).2
  obtain ⟨hgenerator, hthird⟩ := delimited_hexPadded 8 _ _ _ _ (hend _) (hend _)
    (append_cancel_left (cons.inj hsecond).2)
  obtain ⟨hbound, hcode⟩ := delimited_word _ _ _ _ (hend _) (hend _) (append_cancel_left (cons.inj hthird).2)
  have hversion : m.config.version = m'.config.version := congrArg₂ Version.mk hmajor hminor
  exact ⟨hversion, UInt32.toNat_inj.1 hgenerator, hbound, (cons.inj hcode).2⟩

end Module

/-- Modules have the same listing exactly if they have the same version, generator, bound and
instructions; then they have the same words too. -/
theorem listing_eq_iff {m m' : Module} (hm : ∀ inst ∈ m.instructions, inst.matchShape = .ok ())
    (hm' : ∀ inst ∈ m'.instructions, inst.matchShape = .ok ()) : (m.listing = m'.listing ↔
      m.config.version = m'.config.version ∧ m.config.generator = m'.config.generator ∧ m.bound = m'.bound ∧
      m.instructions = m'.instructions) ∧ (m.listing = m'.listing → m.toWords = m'.toWords) := by
  have hforward : m.listing = m'.listing →
      m.config.version = m'.config.version ∧ m.config.generator = m'.config.generator ∧ m.bound = m'.bound ∧
      m.instructions = m'.instructions := by
    intro h
    obtain ⟨hversion, hgenerator, hbound, hcode⟩ := Module.header_of_listing h
    exact ⟨hversion, hgenerator, hbound, Inst.lines_inj hm hm' hcode⟩
  refine ⟨⟨hforward, ?_⟩, ?_⟩
  · rintro ⟨hversion, hgenerator, hbound, hcode⟩
    rw [Module.listing, Module.listing, hversion, hgenerator, hbound, hcode]
  · intro h
    obtain ⟨hversion, hgenerator, hbound, hcode⟩ := hforward h
    rw [Module.toWords, Module.toWords, Module.header, Module.header, hversion, hgenerator, hbound, hcode]

def Module.naming (names : List (Id × String)) : Module :=
  { bound := 3, debug := names.map (fun n => .nameOf n.1 n.2) }

/-- One name that holds a quote, the end of a line and what would be a second line, and two names. -/
theorem naming_listing_ne :
    (∀ inst ∈ (Module.naming [(1, "a\"\nOpName 2 \"b")]).instructions, inst.matchShape = .ok ()) ∧
    (∀ inst ∈ (Module.naming [(1, "a"), (2, "b")]).instructions, inst.matchShape = .ok ()) ∧
    (Module.naming [(1, "a\"\nOpName 2 \"b")]).listing ≠ (Module.naming [(1, "a"), (2, "b")]).listing := by
  have hone : ∀ inst ∈ (Module.naming [(1, "a\"\nOpName 2 \"b")]).instructions, inst.matchShape = .ok () := by
    decide
  have htwo : ∀ inst ∈ (Module.naming [(1, "a"), (2, "b")]).instructions, inst.matchShape = .ok () := by decide
  refine ⟨hone, htwo, fun h => ?_⟩
  have hcode := ((listing_eq_iff hone htwo).1.1 h).2.2.2
  exact absurd (congrArg length hcode) (by decide)

end Shader
