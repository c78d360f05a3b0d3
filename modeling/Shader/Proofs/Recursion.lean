import Shader.Proofs.Operands

/-!
# The recursion over expressions

Lowering an expression calls only the lowering of lower ones. So the height that the recursion starts
from does not matter, and `visit` satisfies the equation that it would be defined by without it.
-/

namespace Shader

open List

/-- Lowering a part up to some height is the same with both. -/
structure Parts.Agree (height : Nat) (p q : Parts) : Prop where
  value : ∀ {e : Expr}, e.height ≤ height → p.value e = q.value e
  pointer : ∀ {e : Expr}, e.height ≤ height → p.pointer e = q.pointer e

namespace Lower

variable {height : Nat} {p q : Parts} (h : p.Agree height q) {e : Expr} {args : List Expr}

include h

theorem values_congr : ∀ {args : List Expr}, (∀ a ∈ args, a.height ≤ height) → args.mapM p.value = args.mapM q.value
  | [], _ => rfl
  | a :: args, hargs => by
    obtain ⟨ha, hargs⟩ := forall_mem_cons.1 hargs
    rw [mapM_cons, mapM_cons, h.value ha, values_congr hargs]

theorem operand_congr (he : e.height ≤ height) : operand p e = operand q e := by
  rw [operand, operand, h.value he]

theorem walk_congr {step : Step} (hstep : ∀ i, step = .index i → i.height ≤ height) (w : Walk) :
    walk p w step = walk q w step := by
  cases step with
  | index i => rw [walk, walk, walkIndex, walkIndex, h.value (hstep i rfl)]
  | member | swizzle => rfl

theorem walks_congr : ∀ {steps : List Step}, (∀ i, .index i ∈ steps → i.height ≤ height) →
    ∀ w, steps.foldlM (walk p) w = steps.foldlM (walk q) w
  | [], _, _ => rfl
  | step :: steps, hsteps, w => by
    rw [foldlM_cons, foldlM_cons, walk_congr h fun i hi => hsteps i (hi ▸ mem_cons_self)]
    exact congrArg _ (funext (walks_congr fun i hi => hsteps i (mem_cons_of_mem _ hi)))

theorem follow_congr {path : Chain} (hpath : ∀ i, .index i ∈ path.steps → i.height ≤ height) (root base : Entity) :
    follow p path root base = follow q path root base := by
  rw [follow, follow, walks_congr h hpath]

theorem place_congr (he : e.height ≤ height + 1) : place p e = place q e := by
  unfold place
  split
  · rfl
  · split
    · split
      · rfl
      case h_2 path hpath =>
        have hindex := (Chain.ofExpr_operable (Expr.meets_upTo he) hpath).index
        simp only [placeOfChain, follow_congr h fun i hi => (hindex i hi).reaches height rfl]
    · rfl

theorem placeToAssign_congr (he : e.height ≤ height + 1) : placeToAssign p e = placeToAssign q e := by
  rw [placeToAssign, placeToAssign, place_congr h he]

theorem chain_congr (he : e.height ≤ height + 1) : chain p e = chain q e := by
  rw [chain, chain, place_congr h he]

/-! ## Arguments -/

theorem outputArg_congr (he : e.height ≤ height + 1) (copyIn : Bool) : outputArg p e copyIn = outputArg q e copyIn := by
  rw [outputArg, outputArg, placeToAssign_congr h he]

theorem callArg_congr (param : Variable) (he : e.height ≤ height) : callArg p param e = callArg q param e := by
  have hle : e.height ≤ height + 1 := Nat.le_succ_of_le he
  unfold callArg referenceArg
  rw [outputArg_congr h hle, place_congr h hle, h.value he]

theorem callArgs_congr : ∀ (params : List Variable) {args : List Expr}, (∀ a ∈ args, a.height ≤ height) →
    callArgs p params args = callArgs q params args
  | [], _, _ => rfl
  | _ :: _, [], _ => rfl
  | param :: params, arg :: args, hargs => by
    obtain ⟨harg, hargs⟩ := forall_mem_cons.1 hargs
    rw [callArgs, callArgs, callArg_congr h param harg, callArgs_congr params hargs]

theorem call_congr (func : Variable) (hargs : ∀ a ∈ args, a.height ≤ height) : call p func args = call q func args := by
  unfold call
  split
  · rw [callArgs_congr h _ hargs]
  · rfl

theorem constructArg_congr (target : Option Scalar) (he : e.height ≤ height) :
    constructArg p target e = constructArg q target e := by
  unfold constructArg
  rw [h.value he]

theorem constructArgs_congr (target : Option Scalar) : ∀ {args : List Expr}, (∀ a ∈ args, a.height ≤ height) →
    constructArgs p target args = constructArgs q target args
  | [], _ => rfl
  | arg :: args, hargs => by
    obtain ⟨harg, hargs⟩ := forall_mem_cons.1 hargs
    rw [constructArgs, constructArgs, constructArg_congr h target harg, constructArgs_congr target hargs]

theorem construct_congr (ty : Ty) (hargs : ∀ a ∈ args, a.height ≤ height) (constant : Bool) :
    construct p ty args constant = construct q ty args constant := by
  rw [construct, construct, constructArgs_congr h _ hargs]

theorem assignTo_congr (he : e.height ≤ height) (value : Id) : assignTo p e value = assignTo q e value := by
  rw [assignTo, assignTo, placeToAssign_congr h (Nat.le_succ_of_le he)]

theorem intrinsicOfForm_congr (f : Intrinsic) (ty : Ty) (he : e.height ≤ height)
    (hargs : ∀ a ∈ args, a.height ≤ height) : intrinsicOfForm p f ty e args = intrinsicOfForm q f ty e args := by
  have hall := values_congr h (forall_mem_cons.2 ⟨he, hargs⟩)
  unfold intrinsicOfForm
  split
  · rw [hall]
  · rw [hall]
  · rw [h.value he, outputArg_congr h (Nat.le_succ_of_le (hargs _ mem_cons_self))]
  · rw [h.pointer he, values_congr h hargs]
  · simp only [forall_mem_cons] at hargs
    simp only [h.value he, h.value hargs.1, assignTo_congr h hargs.2.1]
  · simp only [forall_mem_cons] at hargs
    simp only [h.value he, h.value hargs.1, assignTo_congr h hargs.2.1, assignTo_congr h hargs.2.2.1]
  · rfl

theorem intrinsic_congr (f : Intrinsic) (hargs : ∀ a ∈ args, a.height ≤ height) (ty : Ty) :
    intrinsic p f args ty = intrinsic q f args ty := by
  unfold intrinsic
  split
  · rfl
  · obtain ⟨hx, hrest⟩ := forall_mem_cons.1 hargs
    rw [intrinsicOfForm_congr h _ _ hx hrest, mixSelect, mixSelect, h.value hx,
      h.value (hrest _ mem_cons_self), h.value (hrest _ (mem_cons_of_mem _ mem_cons_self))]
  · obtain ⟨hfirst, hrest⟩ := forall_mem_cons.1 hargs
    rw [intrinsicOfForm_congr h _ _ hfirst hrest]

theorem announced_congr (multisampled : Bool) : ∀ (operands : List ImageOperand) {args : List Expr},
    (∀ a ∈ args, a.height ≤ height) → announced p multisampled operands args = announced q multisampled operands args
  | [], _, _ => rfl
  | operand :: operands, args, hargs => by
    obtain ⟨hown, hrest⟩ := forall_mem_split hargs operand.arity
    rw [announced, announced, values_congr h hown, announced_congr multisampled operands hrest]

omit h in
theorem imageArg_congr {α : Type} {callee : Callee} {f g : Expr × ImageConfig → Lower α}
    (h : ∀ image ∈ args, ∀ config, f (image, config) = g (image, config)) :
    imageArg callee args >>= f = imageArg callee args >>= g := by
  unfold imageArg
  split
  · exact funext fun s => rfl
  · split
    · exact funext fun s => rfl
    · rw [pure_bind, pure_bind, h _ mem_cons_self]

theorem atomicTexel_congr (f : Intrinsic) (ops : PerFamily Op) (config : ImageConfig) (he : e.height ≤ height)
    {address values : List Expr} (haddress : ∀ a ∈ address, a.height ≤ height)
    (hvalues : ∀ a ∈ values, a.height ≤ height) (ty : Ty) :
    atomicTexel p f ops config e address values ty = atomicTexel q f ops config e address values ty := by
  unfold atomicTexel
  rw [h.pointer he, values_congr h haddress, values_congr h hvalues]

theorem imageAccess_congr (access : ImageAccess) (hargs : ∀ a ∈ args, a.height ≤ height) (ty : Ty) :
    imageAccess p access args ty = imageAccess q access args ty := by
  refine imageArg_congr fun image himage config => ?_
  obtain ⟨haddress, hvalues⟩ := forall_mem_split (fun a ha => hargs a (mem_of_mem_tail ha)) config.addressLength
  simp only [splitAt_eq, h.value (hargs image himage), values_congr h haddress, values_congr h hvalues,
    atomicTexel_congr h _ _ _ (hargs image himage) haddress hvalues]

theorem textureAccess_congr (access : TextureAccess) (hargs : ∀ a ∈ args, a.height ≤ height) (ty : Ty) :
    textureAccess p access args ty = textureAccess q access args ty := by
  refine imageArg_congr fun image himage config => ?_
  obtain ⟨hfixed, hoptional⟩ := forall_mem_split (fun a ha => hargs a (mem_of_mem_tail ha)) access.form.fixed
  simp only [splitAt_eq, textureHandle, h.value (hargs image himage), values_congr h hfixed,
    announced_congr h _ _ hoptional]

/-! ## Whole expressions -/

/-- One node is lowered alike by parts that agree on all smaller expressions. -/
theorem node_congr (he : e.height ≤ height + 1) (demand : Demand) : node p e demand = node q e demand := by
  have hoperands : ∀ o ∈ e.node.operands, o.height ≤ height := fun o ho =>
    Nat.le_of_lt_succ (Nat.lt_of_lt_of_le (Expr.height_operand_lt ho) he)
  have hchain := chain_congr h he
  obtain ⟨ty, node⟩ := e
  unfold Lower.node
  cases node with
  | literal => rfl
  | ident v => simp only [hchain]
  | member outer index => simp only [hchain, h.value (hoperands outer mem_cons_self)]
  | index array index =>
    have harray := hoperands array mem_cons_self
    have hindex := hoperands index (mem_cons_of_mem _ mem_cons_self)
    simp only [hchain, indexValue, h.value harray, h.value hindex]
  | swizzle outer s => simp only [hchain, swizzleValue, h.value (hoperands outer mem_cons_self)]
  | assign op lhs rhs =>
    have hlhs := Nat.le_succ_of_le (hoperands lhs mem_cons_self)
    have hrhs := hoperands rhs (mem_cons_of_mem _ mem_cons_self)
    simp only [assign, placeToAssign_congr h hlhs, operand_congr h hrhs, h.value hrhs]
  | init v initial => simp only [init, h.value (hoperands initial mem_cons_self)]
  | unary op x | cast x => simp only [operand_congr h (hoperands x mem_cons_self)]
  | binary op l r =>
    have hl := hoperands l mem_cons_self
    have hr := hoperands r (mem_cons_of_mem _ mem_cons_self)
    simp only [operand_congr h hl, operand_congr h hr]
  | step op x => simp only [step, placeToAssign_congr h (Nat.le_succ_of_le (hoperands x mem_cons_self))]
  | construct args => exact congrArg (· >>= _) (construct_congr h ty hoperands _)
  | call func args => exact congrArg (· >>= _) (call_congr h func hoperands)
  | intrinsic f args => exact congrArg (· >>= _) (intrinsic_congr h f hoperands ty)
  | image access args => exact congrArg (· >>= _) (imageAccess_congr h access hoperands ty)
  | texture access args => exact congrArg (· >>= _) (textureAccess_congr h access hoperands ty)
  | select c t f =>
    have hc := hoperands c mem_cons_self
    have ht := hoperands t (mem_cons_of_mem _ mem_cons_self)
    have hf := hoperands f (by simp [Node.operands])
    simp only [select, operand_congr h hc, h.value ht, h.value hf]

omit h

theorem partsOf_agree {f g : Expr → Demand → Lower Entity} (h : ∀ e, e.height ≤ height → f e = g e) :
    (partsOf f).Agree height (partsOf g) where
  value he := by simp only [partsOf, h _ he]
  pointer he := by simp only [partsOf, h _ he]

/-- Any height that is enough gives the same lowering. -/
theorem lowerWithin_congr : ∀ {m n : Nat} {e : Expr}, e.height ≤ m → e.height ≤ n → lowerWithin m e = lowerWithin n e
  | 0, _, e, hm, _ => absurd e.height_pos (Nat.not_lt.2 hm)
  | _ + 1, 0, e, _, hn => absurd e.height_pos (Nat.not_lt.2 hn)
  | m + 1, n + 1, e, hm, hn => by
    have hparts : (partsOf (lowerWithin m)).Agree (min m n) (partsOf (lowerWithin n)) :=
      partsOf_agree fun o ho => lowerWithin_congr (Nat.le_trans ho (Nat.min_le_left _ _))
        (Nat.le_trans ho (Nat.min_le_right _ _))
    funext demand
    rw [lowerWithin, lowerWithin, node_congr hparts (by omega)]

/-- Every bound from the height of the expression on will do. -/
theorem lowerWithin_eq_visit (he : e.height ≤ height) : lowerWithin height e = visit e :=
  lowerWithin_congr he (Nat.le_refl _)

/-- Lowering an expression goes into it, and lowers the parts of it likewise. -/
theorem visit_eq (e : Expr) (demand : Demand) : visit e demand = nested (node (partsOf visit) e demand) := by
  have hparts : (partsOf (lowerWithin e.height)).Agree e.height (partsOf visit) :=
    partsOf_agree fun o ho => lowerWithin_eq_visit ho
  rw [← lowerWithin_eq_visit (Nat.le_succ e.height), lowerWithin, node_congr hparts (Nat.le_succ _)]

end Lower

end Shader
