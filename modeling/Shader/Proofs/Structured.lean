import Shader.Proofs.Encodable

/-!
# The structure of functions

In a module that was built, every block ends with the one instruction in it that ends blocks. The local
variables of a function stand at the start of its first block, which does not show in what is written of
it, and variables outside of functions are no local ones.
-/

namespace Shader

open List

/-! ## Functions -/

/-- The variables that a function declares. -/
def Function.variableInsts (f : Function) : List Inst := f.code.filter (·.op = .Variable)

/-- Local variables are at the start of the first block, and nothing but the last instruction of a block
ends it. -/
structure Function.Structured (f : Function) : Prop where
  hoisted : f.queued = []
  ended : ∀ b ∈ f.blocks, ∃ body last, b.code [] = body ++ [last] ∧ last.op.isTerminator ∧
    ∀ inst ∈ body, inst.op.isTerminator = false
  leading : ∃ first rest body, f.blocks = first :: rest ∧
    first.code [] = .defining .Label first.label [] :: (f.variableInsts ++ body)
  isLocal : ∀ inst ∈ f.variableInsts, inst.operands = [Enumerated.number StorageClass.Function]

theorem Function.hoist_code (f : Function) : f.hoist.code = f.code := by
  unfold hoist
  cases hblocks : f.blocks with
  | nil => rfl
  | cons first rest => simp [code, Block.code, hblocks]

theorem Op.ne_variable_of_isTerminator {op : Op} (h : op.isTerminator) : op ≠ .Variable := by
  rintro rfl
  cases h

theorem Block.Tidy.ended {b : Block} (h : b.Tidy) (hended : b.isTerminated) :
    ∃ body last, b.code [] = body ++ [last] ∧ last.op.isTerminator ∧ ∀ inst ∈ body, inst.op.isTerminator = false := by
  obtain ⟨last, hlast⟩ : ∃ last, b.terminator = some last := Option.isSome_iff_exists.1 hended
  refine ⟨.defining .Label b.label [] :: b.instructions, last, ?_, h.terminator last hlast, ?_⟩
  · simp [Block.code, hlast]
  · refine forall_mem_cons.2 ⟨rfl, fun inst hinst => ?_⟩
    have hinside := h.instructions inst hinst
    simp only [Op.standsInBlock, Bool.and_eq_true, Bool.not_eq_true'] at hinside
    exact hinside.2

theorem Block.Filled.filter_code {b : Block} (h : b.Filled) (queued : List Inst)
    (hqueued : ∀ inst ∈ queued, inst.op = .Variable) : (b.code queued).filter (·.op = .Variable) = queued := by
  have hnone : b.instructions.filter (·.op = .Variable) = [] :=
    filter_eq_nil_iff.2 fun inst hinst => by simpa using (h.instructions inst hinst).notVariable
  have hend : b.terminator.toList.filter (·.op = .Variable) = [] :=
    filter_eq_nil_iff.2 fun inst hinst => by
      simpa using Op.ne_variable_of_isTerminator (h.terminator inst (Option.mem_toList.1 hinst))
  have hall : queued.filter (·.op = .Variable) = queued :=
    filter_eq_self.2 fun inst hinst => by simpa using hqueued inst hinst
  have hlabel : (Inst.defining .Label b.label []).op ≠ .Variable := nofun
  unfold Block.code
  rw [filter_cons_of_neg (by simpa using hlabel), filter_append, filter_append, hall,
    hnone, hend, append_nil, append_nil]

namespace Function.Filled

variable {f : Function}

theorem op_queued (h : f.Filled) : ∀ inst ∈ f.queued, inst.op = .Variable := by
  intro inst hinst
  obtain ⟨pointer, id, rfl⟩ := h.queued inst hinst
  rfl

theorem variableInsts_eq (h : f.Filled) (hblocks : f.blocks ≠ []) : f.variableInsts = f.queued := by
  obtain ⟨first, rest, heq⟩ := exists_cons_of_ne_nil hblocks
  have hall := h.blocks
  rw [heq] at hall
  obtain ⟨hfirst, hrest⟩ := forall_mem_cons.1 hall
  have hparams : (f.params.map fun p => Inst.value .FunctionParameter p.1 p.2 []).filter (·.op = .Variable) = [] := by
    refine filter_eq_nil_iff.2 fun inst hinst => ?_
    obtain ⟨p, -, rfl⟩ := mem_map.1 hinst
    simp [Inst.value]
  have hothers : (rest.flatMap (·.code [])).filter (·.op = .Variable) = [] := by
    refine filter_eq_nil_iff.2 fun inst hinst => ?_
    obtain ⟨b, hb, hinst⟩ := mem_flatMap.1 hinst
    have hnone := (hrest b hb).filter_code [] (by simp)
    exact filter_eq_nil_iff.1 hnone inst hinst
  unfold variableInsts code
  rw [heq]
  simp only [filter_cons, filter_append, hparams, hfirst.filter_code f.queued h.op_queued, hothers]
  simp [Inst.value, Inst.effect]

theorem structured (h : f.Filled) (hended : f.Ended) : f.hoist.Structured := by
  have hfinished := h.tidy.hoist hended
  have hvariables : f.hoist.variableInsts = f.queued := by
    unfold variableInsts
    rw [hoist_code]
    exact h.variableInsts_eq hended.blocks
  refine ⟨hfinished.hoisted, fun b hb => ?_, ?_, fun inst hinst => ?_⟩
  · exact (hfinished.blocks b hb).ended (hfinished.terminated b hb)
  · rw [hvariables]
    obtain ⟨first, rest, heq⟩ := exists_cons_of_ne_nil hended.blocks
    refine ⟨{ first with instructions := f.queued ++ first.instructions }, rest,
      first.instructions ++ first.terminator.toList, ?_, ?_⟩
    · rw [hoist, heq]
    · simp [Block.code]
  · rw [hvariables] at hinst
    obtain ⟨pointer, id, rfl⟩ := h.queued inst hinst
    rfl

end Function.Filled

theorem Module.closeFunction_ok {f : FunctionScope} {m m' : Module} {id : Id} (h : closeFunction f m = (.ok id, m')) :
    ∃ g : Function, m'.functions = m.functions ++ [g] ∧ g.code = f.function.code := by
  unfold closeFunction at h
  split at h
  · cases h
  cases hfind : f.function.blocks.find? (!·.isTerminated) with
  | some b =>
    rw [hfind] at h
    cases h
  | none =>
    rw [hfind] at h
    cases h
    exact ⟨f.function.hoist, rfl, f.function.hoist_code⟩

/-- Building operations, whichever failed, lead to functions with one end in every block and with their
variables in front. A function is written alike before it is taken into the module and after. -/
theorem run_structured (config : Config) (ops : List Operation) (hops : ∀ op ∈ ops, op.builds) :
    let w := (Workbench.start config).run ops
    (∀ f ∈ w.module.functions, f.Structured) ∧
    (∀ inst ∈ w.module.declarations, inst.op = .Variable → inst.operands ≠ [Enumerated.number StorageClass.Function]) ∧
    ∀ f ∈ w.functions.things, ∀ id m, Module.closeFunction f w.module = (.ok id, m) →
      ∃ g : Function, m.functions = w.module.functions ++ [g] ∧ g.code = f.function.code := by
  intro w
  refine ⟨fun f hf => ?_, fun inst hinst hop => ?_, fun f _ id m => Module.closeFunction_ok⟩
  · obtain ⟨g, hg, hended, rfl⟩ := (Workbench.run_assembled config ops hops).finished f hf
    exact hg.structured hended
  · obtain ⟨storage, hstorage, hoperands⟩ :=
      (Workbench.run_proper config ops hops).outside inst hinst hop
    rw [hoperands]
    intro heq
    exact hstorage (Enumerated.number_injective StorageClass.ofNumber?_number (cons.inj heq).1)

theorem calling_structured : (∀ op ∈ Operation.calling, op.builds) ∧
    let w := (Workbench.start {}).run Operation.calling
    w.module.functions.map (·.variableInsts.length) = [1, 0] ∧ (∀ f ∈ w.module.functions, f.Structured) ∧
      ∀ inst ∈ w.module.declarations, inst.op = .Variable →
        inst.operands ≠ [Enumerated.number StorageClass.Function] := by
  have hops : ∀ op ∈ Operation.calling, op.builds := by decide
  have hcount : ((Workbench.start {}).run Operation.calling).module.functions.map
      (·.variableInsts.length) = [1, 0] := by decide +kernel
  have h := run_structured {} Operation.calling hops
  exact ⟨hops, hcount, h.1, h.2.1⟩

end Shader
