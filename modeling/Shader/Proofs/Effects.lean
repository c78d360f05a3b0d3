import Shader.Proofs.Events

/-!
# Effects in order

Calls, atomic operations and writes to images have effects that cannot be repeated. They are the events
of an expression that do more than to read, and each is lowered to exactly one instruction, in the order
of the expression.
-/

namespace Shader

variable {e : Expr}

/-! ## Actions of expressions -/

namespace Expr

/-- Expressions with effects of their own, which their operands do not have. -/
def acts (e : Expr) : Bool :=
  match e.node with
  | .call .. => true
  | .intrinsic f _ => f.isAtomic
  | .image access _ => access = .store || access.atomic?.isSome
  | _ => false

/-- The opcode of the instruction that has the effect. -/
def actionOp? (e : Expr) : Option Op :=
  match e.node with
  | .call .. => some .FunctionCall
  | .intrinsic f (first :: _) => f.atomicOp? first.ty.scalar?
  | .image .store _ => some .ImageWrite
  | .image access (image :: _) => access.atomic?.bind (·.atomicOp? (image.ty.imageConfig?.map (·.sampled)))
  | _ => none

theorem acts_of_engagedOp? {op : Op} (h : e.engagedOp? = some op) : op.acts = e.acts := by
  obtain ⟨ty, node⟩ := e
  cases node with
  | call func args =>
    cases h
    rfl
  | intrinsic f args =>
    cases args with
    | nil => cases h
    | cons first rest => exact (Intrinsic.acts_of_atomicOp? h).trans (Intrinsic.isAtomic_of_atomicOp? h).symm
  | image access args =>
    cases hatomic : access.atomic? with
    | some f =>
      have hop := engagedOp?_of_atomic? hatomic h
      rw [Intrinsic.acts_of_atomicOp? hop]
      simp [acts, hatomic]
    | none =>
      cases access with
      | size | samples | load | store =>
        cases h
        rfl
      | _ => cases hatomic
  | texture access args =>
    cases h
    cases access <;> rfl
  | _ => cases h

theorem engages_of_acts (h : e.acts) : e.engages := by
  obtain ⟨ty, node⟩ := e
  cases node with
  | call | image => rfl
  | intrinsic => exact h
  | _ => cases h

theorem actionOp?_of_acts (h : e.acts) : e.actionOp? = e.engagedOp? := by
  obtain ⟨ty, node⟩ := e
  cases node with
  | call => rfl
  | intrinsic f args => cases args <;> rfl
  | image access args =>
    cases access with
    | size | samples | load => cases h
    | store => rfl
    | _ => cases args <;> rfl
  | _ => cases h

end Expr

/-- The instruction has the opcode of the expression, and calls its function with as many arguments. -/
structure Inst.Performs (m : Module) (inst : Inst) (e : Expr) : Prop where
  op : e.actionOp? = some inst.op
  callee : ∀ func args, e.node = .call func args → ∃ function ids,
    inst.operands = function :: ids ∧ m.functionIds.get? func.name = some function ∧ ids.length = args.length

theorem Inst.Realizes.performs {m : Module} {inst : Inst} (h : inst.Realizes m e) (hacts : e.acts) :
    inst.Performs m e where
  op := (Expr.actionOp?_of_acts hacts).trans h.op
  callee := h.callee

/-! ## Whole expressions -/

theorem Inst.Realizes.filter_acts {m : Module} {code : List Inst} {es : List Expr}
    (h : List.Forall₂ (Inst.Realizes m) (code.filter (·.op.engages)) (es.filter Expr.engages)) :
    List.Forall₂ (Inst.Performs m) (code.filter (·.op.acts)) (es.filter Expr.acts) := by
  have hacts : List.Forall₂ (Inst.Realizes m) (code.filter (·.op.acts)) (es.filter Expr.acts) :=
    filter h (fun _ => Op.engages_of_acts) (fun _ => Expr.engages_of_acts) fun _ _ hinst =>
      Expr.acts_of_engagedOp? hinst.op
  have hmem : ∀ inst ∈ code.filter (·.op.acts), inst.op.acts := fun inst hi => (List.mem_filter.1 hi).2
  refine ((List.forall₂_and_left _ _).2 ⟨hmem, hacts⟩).imp fun inst e hinst => hinst.2.performs ?_
  rw [← Expr.acts_of_engagedOp? hinst.2.op]
  exact hinst.1

/-- Calls, atomic operations and writes to images are performed once each, after their operands from
left to right. -/
theorem lower_performs_in_order (e : Expr) {s s' : Lowerer} {id : Id} (h : Lower.lower e s = (.ok id, s')) :
    ∃ code, s'.block.instructions = s.block.instructions ++ code ∧
      List.Forall₂ (Inst.Performs s'.module) (code.filter (·.op.acts)) (e.postOrder.filter Expr.acts) := by
  obtain ⟨code, hcode, hrealizes⟩ := (lower_realizes e h).code
  rw [e.filter_engages_events] at hrealizes
  exact ⟨code, hcode, Inst.Realizes.filter_acts hrealizes⟩

def Expr.drawn (name : String) : Expr := ⟨.scalar .int, .call (.root name (.function (.scalar .int) []) {}) []⟩

def Expr.sharedAt (i : Expr) : Expr := ⟨.scalar .int, .index (.ident (.root "u" (.vector .int 3) {})) i⟩

/-- `u[g()] += f(u[h()], atomicAdd(n, g()))`, in which `f` writes its first argument. -/
def Expr.callsWithin : Expr :=
  let written : Variable := .root "x" (.scalar .int) { inParameter := true, outParameter := true }
  let read : Variable := .root "y" (.scalar .int) { parameter := true }
  .assign (some .add) (.sharedAt (.drawn "g"))
    ⟨.scalar .int, .call (.root "f" (.function (.scalar .int) [written, read]) {})
      [.sharedAt (.drawn "h"), ⟨.scalar .int, .intrinsic .atomicAdd [.number, .drawn "g"]⟩]⟩

theorem lower_calls_within_performs_in_order : (Expr.callsWithin.postOrder.filter Expr.acts).map Expr.actionOp? =
        [Op.FunctionCall, .FunctionCall, .FunctionCall, .AtomicIAdd, .FunctionCall].map some ∧
      ∃ id s' code, Lower.lower .callsWithin .inFunction = (.ok id, s') ∧
        s'.block.instructions = Lowerer.inFunction.block.instructions ++ code ∧
        List.Forall₂ (Inst.Performs s'.module) (code.filter (·.op.acts))
          (Expr.callsWithin.postOrder.filter Expr.acts) := by
  have hok : (Lower.lower .callsWithin .inFunction).1.isOk := by decide +kernel
  obtain ⟨id, h⟩ := Action.exists_ok hok
  obtain ⟨code, hcode, hperforms⟩ := lower_performs_in_order .callsWithin h
  exact ⟨by decide +kernel, id, _, code, h, hcode, hperforms⟩

end Shader
