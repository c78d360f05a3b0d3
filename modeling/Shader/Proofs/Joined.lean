import Shader.Proofs.Interface
import Shader.Proofs.Scanned

/-!
# Scans of several expressions

What a module has to declare is collected from one expression after the other. In the end it is what the
expressions need by themselves, taken together: neither their order nor how often each is scanned makes
a difference, apart from the order of what is listed.
-/

namespace Shader

open List

variable {name : String} {r : Requirements} {es : List Expr} {e : Expr}

theorem Variable.mem_keys_byName : ∀ {vs : List Variable} {m : OrderedMap String Variable},
    name ∈ (byName m vs).keys ↔ name ∈ m.keys ∨ ∃ v ∈ vs, v.name = name
  | [], m => by simp [byName]
  | v :: vs, m => by
    have ih : name ∈ (byName (m.putNew v.name v) vs).keys ↔ _ := mem_keys_byName
    rw [byName] at ih ⊢
    rw [foldl_cons, ih, OrderedMap.mem_keys_putNew, exists_mem_cons_iff, or_assoc]

theorem Expr.mem_postOrder_iff_within {part : Expr} (e : Expr) : part ∈ e.postOrder ↔ part.Within e := by
  have hwithin : ∀ e : Expr, part.Within e ↔ e = part ∨ ∃ o ∈ e.node.operands, part.Within o := by
    intro e
    constructor
    · intro h
      cases h with
      | self => exact .inl rfl
      | operand ho hpart => exact .inr ⟨_, ho, hpart⟩
    · rintro (rfl | ⟨o, ho, hpart⟩)
      · exact .self e
      · exact .operand ho hpart
  rw [exists_part_iff hwithin e]
  simp

theorem Expr.mem_mentions_iff_uses {v : Variable} : v ∈ e.mentions ↔ e.Uses v := by
  rw [mem_mentions, Uses]
  simp only [mem_postOrder_iff_within]

/-! ## What scans find -/

namespace Requirements

theorem ofAll_singleton (e : Expr) : ofAll [e] = ({} : Requirements).scan e := rfl

theorem mem_capabilities_foldl {c : Capability} : ∀ {es : List Expr} {r : Requirements},
    c ∈ (es.foldl scan r).capabilities ↔ c ∈ r.capabilities ∨ ∃ e ∈ es, c ∈ e.capabilities
  | [], r => by simp
  | e :: es, r => by
    rw [foldl_cons, mem_capabilities_foldl, scan, addVariables_capabilities, mem_foldl_addNew,
      exists_mem_cons_iff, or_assoc]

theorem mem_capabilities_ofAll {c : Capability} : c ∈ (ofAll es).capabilities ↔ ∃ e ∈ es, c ∈ e.capabilities := by
  rw [ofAll, mem_capabilities_foldl]
  exact or_iff_right not_mem_nil

theorem mem_inputKeys_ofAll : name ∈ (ofAll es).inputs.keys ↔
    ∃ e ∈ es, ∃ v ∈ e.mentions, v.roles.input ∧ v.name = name := by
  have hnone : name ∉ ({} : Requirements).inputs.keys := not_mem_nil
  rw [ofAll, (foldl_scan es {}).1, Variable.mem_keys_byName, or_iff_right hnone]
  simp only [mem_filter, mem_flatMap]
  tauto

theorem mem_outputKeys_ofAll : name ∈ (ofAll es).outputs.keys ↔
    ∃ e ∈ es, ∃ v ∈ e.mentions, isOutput v ∧ v.name = name := by
  have hnone : name ∉ ({} : Requirements).outputs.keys := not_mem_nil
  rw [ofAll, (foldl_scan es {}).2, Variable.mem_keys_byName, or_iff_right hnone]
  simp only [mem_filter, mem_flatMap]
  tauto

/-- Doubles are required by a part or a variable of some expression that has them. -/
theorem requires_float64_ofAll : (ofAll es).requires .Float64 ↔
    ∃ e ∈ es, (∃ part : Expr, part.Within e ∧ part.ty.hasDouble) ∨ ∃ v, e.Uses v ∧ v.ty.hasDouble := by
  rw [requires, contains_iff_mem, mem_capabilities_ofAll]
  refine exists_congr fun e => and_congr_right fun _ => ?_
  rw [Expr.mem_capabilities]
  simp only [Expr.float64_mem_ownCapabilities, Expr.mem_postOrder_iff_within, Expr.Uses, Expr.showsDouble,
    Expr.scannedTypes, any_cons, any_map, Bool.or_eq_true, any_eq_true, Option.mem_toList,
    Function.comp_apply]
  constructor
  · rintro ⟨part, hpart, hty | ⟨v, hv, hty⟩⟩
    · exact .inl ⟨part, hpart, hty⟩
    · exact .inr ⟨v, ⟨part, hpart, hv⟩, hty⟩
  · rintro (⟨part, hpart, hty⟩ | ⟨v, ⟨part, hpart, hv⟩, hty⟩)
    · exact ⟨part, hpart, .inl hty⟩
    · exact ⟨part, hpart, .inr ⟨v, hv, hty⟩⟩

/-! ## What is found already -/

theorem addVariable_of_mem {v : Variable} (hinput : v.roles.input → v.name ∈ r.inputs.keys)
    (houtput : isOutput v → v.name ∈ r.outputs.keys) : r.addVariable v = r := by
  unfold addVariable
  split
  case isTrue h => rw [OrderedMap.putNew_of_mem_keys (hinput h)]
  case isFalse hnot =>
    split
    case isTrue h =>
      have hisOutput : isOutput v := by simpa [isOutput, hnot] using h
      rw [OrderedMap.putNew_of_mem_keys (houtput hisOutput)]
    case isFalse => rfl

theorem addVariables_of_mem : ∀ {vs : List Variable}, (∀ v ∈ vs, v.roles.input → v.name ∈ r.inputs.keys) →
    (∀ v ∈ vs, isOutput v → v.name ∈ r.outputs.keys) → vs.foldl addVariable r = r
  | [], _, _ => rfl
  | v :: vs, hinputs, houtputs => by
    obtain ⟨hinput, hinputs⟩ := forall_mem_cons.1 hinputs
    obtain ⟨houtput, houtputs⟩ := forall_mem_cons.1 houtputs
    rw [foldl_cons, addVariable_of_mem hinput houtput, addVariables_of_mem hinputs houtputs]

theorem foldl_addNew_of_subset {α : Type} [DecidableEq α] {l : List α} :
    ∀ {new : List α}, new ⊆ l → new.foldl addNew l = l
  | [], _ => rfl
  | a :: new, h => by
    obtain ⟨ha, hnew⟩ := cons_subset.1 h
    rw [foldl_cons, addNew, if_pos ha, foldl_addNew_of_subset hnew]

/-- An expression that was joined adds nothing more. -/
theorem scan_ofAll (he : e ∈ es) : (ofAll es).scan e = ofAll es := by
  have hcapabilities : e.capabilities ⊆ (ofAll es).capabilities := fun c hc => mem_capabilities_ofAll.2 ⟨e, he, hc⟩
  rw [scan, foldl_addNew_of_subset hcapabilities]
  refine addVariables_of_mem (fun v hv hinput => ?_) (fun v hv houtput => ?_)
  · exact mem_inputKeys_ofAll.2 ⟨e, he, v, hv, hinput, rfl⟩
  · exact mem_outputKeys_ofAll.2 ⟨e, he, v, hv, houtput, rfl⟩

/-- The requirements are those of the expressions together, and hold all of them already. -/
structure Joins (r : Requirements) (es : List Expr) : Prop where
  capabilities : ∀ c, c ∈ r.capabilities ↔ ∃ e ∈ es, c ∈ (({} : Requirements).scan e).capabilities
  inputs : ∀ name, name ∈ r.inputs.keys ↔ ∃ e ∈ es, name ∈ (({} : Requirements).scan e).inputs.keys
  outputs : ∀ name, name ∈ r.outputs.keys ↔ ∃ e ∈ es, name ∈ (({} : Requirements).scan e).outputs.keys
  /-- Doubles show in the type of a part, or in that of a variable which is read or initialized. -/
  doubles : r.requires .Float64 ↔ ∃ e ∈ es,
    (∃ part : Expr, part.Within e ∧ part.ty.hasDouble) ∨ ∃ v, e.Uses v ∧ v.ty.hasDouble
  inputNames : ∀ name, name ∈ r.inputs.keys ↔ ∃ e ∈ es, ∃ v : Variable, e.Uses v ∧ v.roles.input ∧ v.name = name
  outputNames : ∀ name, name ∈ r.outputs.keys ↔ ∃ e ∈ es, ∃ v : Variable, e.Uses v ∧
    v.roles.output ∧ v.isMember = false ∧ v.roles.input = false ∧ v.name = name
  again : ∀ e ∈ es, r.scan e = r

theorem ofAll_joins (es : List Expr) : (ofAll es).Joins es where
  capabilities c := by
    simp only [← ofAll_singleton, mem_capabilities_ofAll, mem_singleton, exists_eq_left]
  inputs name := by
    simp only [← ofAll_singleton, mem_inputKeys_ofAll, mem_singleton, exists_eq_left]
  outputs name := by
    simp only [← ofAll_singleton, mem_outputKeys_ofAll, mem_singleton, exists_eq_left]
  doubles := requires_float64_ofAll
  inputNames name := by
    simp only [mem_inputKeys_ofAll, Expr.mem_mentions_iff_uses]
  outputNames name := by
    rw [mem_outputKeys_ofAll]
    simp only [Expr.mem_mentions_iff_uses, isOutput, Bool.and_eq_true, Bool.not_eq_true']
    tauto
  again _ he := scan_ofAll he

theorem Joins.congr {es' : List Expr} (h : r.Joins es) (hes : ∀ e, e ∈ es ↔ e ∈ es') : r.Joins es' := by
  obtain ⟨hcapabilities, hinputs, houtputs, hdoubles, hinputNames, houtputNames, hagain⟩ := h
  simp only [hes] at hcapabilities hinputs houtputs hdoubles hinputNames houtputNames hagain
  exact ⟨hcapabilities, hinputs, houtputs, hdoubles, hinputNames, houtputNames, hagain⟩

end Requirements

/-- Scanned in any order and any number of times, expressions need together what they need by
themselves, and a further scan of any of them changes nothing. -/
theorem scans_join {scanned : List Expr} (h : ∀ e, e ∈ scanned ↔ e ∈ es) : (Requirements.ofAll scanned).Joins es :=
  (Requirements.ofAll_joins scanned).congr h

def Expr.painted : Expr :=
  ⟨.scalar .float, .assign none (.ident (.root "color" (.scalar .float) { output := true }))
    (.ident (.root "p" (.scalar .float) { input := true }))⟩

theorem painted_narrowed_join : (∀ e, e ∈ [Expr.painted, .narrowed, .painted] ↔ e ∈ [Expr.narrowed, .painted]) ∧
      (Requirements.ofAll [.painted, .narrowed, .painted]).Joins [.narrowed, .painted] ∧
      (Requirements.ofAll [.painted, .narrowed, .painted]).inputs.keys = ["p"] ∧
      (Requirements.ofAll [.painted, .narrowed, .painted]).outputs.keys = ["color"] ∧
      (Requirements.ofAll [.painted, .narrowed, .painted]).capabilities = [.Float64] := by
  have hsame : ∀ e, e ∈ [Expr.painted, .narrowed, .painted] ↔ e ∈ [Expr.narrowed, .painted] := by
    intro e
    simp only [mem_cons, not_mem_nil, or_false]
    tauto
  exact ⟨hsame, scans_join hsame, by decide +kernel, by decide +kernel, by decide +kernel⟩

end Shader
