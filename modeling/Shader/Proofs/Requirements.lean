import Shader.Proofs.Events

/-!
# What a scan finds

A scan for what a module has to declare goes through an expression and all of its parts. It finds what
each of them asks for by itself.
-/

namespace Shader

open List

variable {c : Capability}

namespace Expr

variable {e : Expr}

theorem mem_postOrder {part : Expr} : part ∈ e.postOrder ↔ part = e ∨ ∃ o ∈ e.node.operands, part ∈ o.postOrder := by
  rw [postOrder_eq, mem_append, mem_flatMap, mem_singleton, or_comm]

theorem Within.mem_postOrder {part : Expr} (h : part.Within e) : part ∈ e.postOrder := by
  induction h with
  | self e => exact Expr.mem_postOrder.2 (.inl rfl)
  | operand ho _ ih => exact Expr.mem_postOrder.2 (.inr ⟨_, ho, ih⟩)

theorem sizeOf_operand_lt {o : Expr} (ho : o ∈ e.node.operands) : sizeOf o < sizeOf e := by
  obtain ⟨ty, node⟩ := e
  cases node <;> simp only [Node.operands, mem_cons, not_mem_nil, or_false] at ho
  case construct args | call func args | intrinsic f args | image access args | texture access args =>
    have hargs := sizeOf_lt_of_mem ho
    simp only [mk.sizeOf_spec, Node.construct.sizeOf_spec, Node.call.sizeOf_spec,
      Node.intrinsic.sizeOf_spec, Node.image.sizeOf_spec, Node.texture.sizeOf_spec]
    omega
  all_goals
    rcases ho with rfl | rfl | rfl
    all_goals
      simp
      omega

theorem exists_part_iff {p own : Expr → Prop} (h : ∀ e, p e ↔ own e ∨ ∃ o ∈ e.node.operands, p o) (e : Expr) :
    p e ↔ ∃ part ∈ e.postOrder, own part := by
  have ih : ∀ o ∈ e.node.operands, (p o ↔ ∃ part ∈ o.postOrder, own part) := fun o _ => exists_part_iff h o
  rw [h e]
  constructor
  · rintro (he | ⟨o, ho, hp⟩)
    · exact ⟨e, mem_postOrder.2 (.inl rfl), he⟩
    · obtain ⟨part, hpart, hown⟩ := (ih o ho).1 hp
      exact ⟨part, mem_postOrder.2 (.inr ⟨o, ho, hpart⟩), hown⟩
  · rintro ⟨part, hpart, hown⟩
    rcases mem_postOrder.1 hpart with rfl | ⟨o, ho, hpart⟩
    · exact .inl hown
    · exact .inr ⟨o, ho, (ih o ho).2 ⟨part, hpart, hown⟩⟩
termination_by sizeOf e
decreasing_by exact sizeOf_operand_lt ‹_›

end Expr

/-! ## Capabilities -/

namespace Capability

def ofImages : List Capability :=
  [.Sampled1D, .Image1D, .SampledRect, .ImageRect, .SampledBuffer, .ImageBuffer, .SampledCubeArray,
    .ImageCubeArray, .ImageMSArray]

theorem ofImage_subset (sampled : Bool) (config : ImageConfig) : ofImage sampled config ⊆ ofImages := by
  intro c h
  unfold ofImage at h
  unfold ofImages
  grind

theorem ofImageArg_subset (sampled : Bool) (args : List Expr) : ofImageArg sampled args ⊆ ofImages := by
  unfold ofImageArg
  cases args.head?.bind (·.ty.imageConfig?) with
  | none => exact nil_subset _
  | some config => exact ofImage_subset sampled config

theorem eq_float64_of_mem_ofType {ty : Ty} (h : c ∈ ofType ty) : c = .Float64 := by
  unfold ofType at h
  split at h
  · exact mem_singleton.1 h
  · cases h

end Capability

namespace Expr

/-- The capabilities that an expression needs, leaving its operands aside. -/
def ownCapabilities (e : Expr) : List Capability :=
  Capability.ofType e.ty ++
    match e.node with
    | .ident v | .init v _ => Capability.ofType v.ty
    | .image access args => Capability.ofImageAccess access args
    | .texture access args => Capability.ofTextureAccess access args
    | _ => []

theorem mem_capabilitiesOfAll : ∀ {es : List Expr}, c ∈ capabilitiesOfAll es ↔ ∃ e ∈ es, c ∈ e.capabilities
  | [] => by simp [capabilitiesOfAll]
  | e :: es => by simp [capabilitiesOfAll, mem_capabilitiesOfAll]

theorem mem_capabilities (e : Expr) : c ∈ e.capabilities ↔ ∃ part ∈ e.postOrder, c ∈ part.ownCapabilities := by
  refine exists_part_iff (p := fun e => c ∈ e.capabilities) (fun e => ?_) e
  obtain ⟨ty, node⟩ := e
  cases node <;>
    simp [capabilities, ownCapabilities, Node.operands, mem_capabilitiesOfAll, or_assoc]

end Expr

theorem mem_foldl_addNew {α : Type} [DecidableEq α] {a : α} :
    ∀ {l acc : List α}, a ∈ l.foldl addNew acc ↔ a ∈ acc ∨ a ∈ l
  | [], acc => by simp
  | b :: l, acc => by
    rw [foldl_cons, mem_foldl_addNew, addNew]
    split
    · grind
    · simp [or_assoc]

namespace Requirements

theorem addVariable_capabilities (r : Requirements) (v : Variable) :
    (r.addVariable v).capabilities = r.capabilities := by
  unfold addVariable
  split
  · rfl
  · split <;> rfl

theorem addVariables_capabilities : ∀ (vs : List Variable) (r : Requirements),
    (vs.foldl addVariable r).capabilities = r.capabilities
  | [], _ => rfl
  | v :: vs, r => by
    rw [foldl_cons, addVariables_capabilities vs, addVariable_capabilities]

theorem scan_requires (r : Requirements) (e : Expr) (c : Capability) :
    (r.scan e).requires c ↔ r.requires c ∨ ∃ part ∈ e.postOrder, c ∈ part.ownCapabilities := by
  rw [requires, requires, scan, addVariables_capabilities, contains_iff_mem, contains_iff_mem,
    mem_foldl_addNew, Expr.mem_capabilities]

end Requirements

end Shader
