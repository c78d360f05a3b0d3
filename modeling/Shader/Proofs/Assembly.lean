import Shader.Proofs.Reading

/-!
# What blocks and functions are assembled from

Lowering fills blocks with instructions that have the fields of their opcodes and declare no variables.
Local variables are queued in the function and move to the start of its first block when it is taken
into the module, with all of its blocks ended.
-/

namespace Shader

open Rack

open List

/-! ## Blocks and functions -/

/-- The block was filled by lowering, and is ended, if at all, by what ends blocks. -/
structure Block.Filled (b : Block) : Prop where
  instructions : ∀ inst ∈ b.instructions, inst.InBody
  terminator : ∀ inst, b.terminator = some inst → inst.op.isTerminator

/-- The function has such blocks, and its local variables are queued. -/
structure Function.Filled (f : Function) : Prop where
  control : f.control &&& Module.controlMask = f.control
  queued : ∀ inst ∈ f.queued, ∃ pointer id, inst = .localVariable pointer id
  blocks : ∀ b ∈ f.blocks, b.Filled

namespace Block.Filled

variable {b : Block}

theorem tidy (h : b.Filled) : b.Tidy := ⟨fun inst hinst => (h.instructions inst hinst).inBlock, h.terminator⟩

theorem push (h : b.Filled) {inst : Inst} (hinst : inst.InBody) : (b.push inst).Filled :=
  ⟨forall_mem_append.2 ⟨h.instructions, forall_mem_singleton.2 hinst⟩, h.terminator⟩

end Block.Filled

namespace Function.Filled

variable {f : Function}

theorem tidy (h : f.Filled) : f.Tidy where
  control := h.control
  queued inst hinst := by
    obtain ⟨pointer, id, rfl⟩ := h.queued inst hinst
    rfl
  blocks b hb := (h.blocks b hb).tidy

theorem queue (h : f.Filled) (pointer id : Id) :
    Filled { f with queued := f.queued ++ [.localVariable pointer id] } where
  control := h.control
  queued := forall_mem_append.2 ⟨h.queued, forall_mem_singleton.2 ⟨pointer, id, rfl⟩⟩
  blocks := h.blocks

theorem append (h : f.Filled) {b : Block} (hb : b.Filled) : Filled { f with blocks := f.blocks ++ [b] } where
  control := h.control
  queued := h.queued
  blocks := forall_mem_append.2 ⟨h.blocks, forall_mem_singleton.2 hb⟩

end Function.Filled

theorem Function.Tidy.hoist {f : Function} (h : f.Tidy) (hended : f.Ended) : f.hoist.Finished := by
  obtain ⟨first, rest, hblocks⟩ := exists_cons_of_ne_nil hended.blocks
  have htidy := h.blocks
  have hterminated := hended.terminated
  rw [hblocks] at htidy hterminated
  obtain ⟨hfirst, hrest⟩ := forall_mem_cons.1 htidy
  obtain ⟨hlast, hothers⟩ := forall_mem_cons.1 hterminated
  unfold Function.hoist
  rw [hblocks]
  refine ⟨⟨h.control, fun _ hi => (nomatch hi), forall_mem_cons.2 ⟨⟨?_, hfirst.terminator⟩, hrest⟩⟩, rfl, ?_⟩
  · exact forall_mem_append.2 ⟨h.queued, hfirst.instructions⟩
  · exact forall_mem_cons.2 ⟨hlast, hothers⟩

/-- The block and its function hold what lowering may put there. -/
def Ledger.filled : Ledger Lowerer where
  Stands _ _ s := s.func.function.Filled ∧ s.block.Filled
  drop h _ _ := h

theorem emitting_filled : Emitting .filled where
  building s := .keeping (P := fun _ => s.func.function.Filled ∧ s.block.Filled) fun _ h => h
  emit h _ _ hinst := ⟨h.1, h.2.push hinst.toInBody⟩
  effect h _ hinst := ⟨h.1, h.2.push hinst.toInBody⟩
  queue _ h := ⟨h.1.queue _ _, h.2⟩
  take _ h _ _ _ _ _ _ := ⟨h.1.queue _ _, h.2⟩

theorem Module.Begins.filled {m : Module} {name : String} {ret : Ty} {params : List Variable}
    {f : FunctionScope} (h : m.Begins name ret params f) : f.function.Filled := by
  rw [h.isEmpty]
  exact ⟨UInt32.zero_and, fun _ hi => (nomatch hi), fun _ hb => nomatch hb⟩

theorem Module.freshBlock_filled {b : Block} {m m' : Module} (h : freshBlock m = (.ok b, m')) : b.Filled := by
  obtain ⟨label, -, rfl⟩ := Action.bind_pure_ok h
  exact ⟨fun _ hi => (nomatch hi), fun _ ht => nomatch ht⟩

/-! ## Runs -/

namespace Workbench

/-- Functions and blocks were filled by lowering, and functions were ended before the module took them. -/
structure Assembled (w : Workbench) : Prop where
  finished : ∀ f ∈ w.module.functions, ∃ g : Function, g.Filled ∧ g.Ended ∧ f = g.hoist
  functions : ∀ f ∈ w.functions.things, f.function.Filled
  blocks : ∀ b ∈ w.blocks.things, b.Filled

variable {w w' : Workbench} {op : Operation}

theorem Change.assembled (hc : Change w op w') (hw : w.Assembled) : w'.Assembled := by
  rcases hc.grown with hgrown | ⟨f, current, ended, rfl⟩
  case inr =>
    have hf := hw.functions f (mem_of_get? current)
    refine ⟨forall_mem_append.2 ⟨hw.finished, forall_mem_singleton.2 ?_⟩,
      fun f' hf' => hw.functions f' ((takeAway_sublist current).subset hf'), hw.blocks⟩
    exact ⟨f.function, hf, ended, rfl⟩
  have hfunctions := hgrown.functions
  cases hc with
  | built => exact ⟨hfunctions.symm ▸ hw.finished, hw.functions, hw.blocks⟩
  | marked | chosen => exact ⟨hw.finished, hw.functions, hw.blocks⟩
  | declared x name ty f d m current keeps isNew run =>
    have hf := hw.functions f (mem_of_get? current)
    have htake : (f.take name d).function.Filled := by
      unfold FunctionScope.take
      cases hqueued : d.queued with
      | none => exact hf
      | some inst =>
        obtain ⟨pointer, rfl, -⟩ := (isNew inst hqueued).2.isVariable
        exact hf.queue pointer _
    exact ⟨hfunctions.symm ▸ hw.finished, forall_put current hw.functions htake, hw.blocks⟩
  | queued ty f id pointer m current run =>
    have hf := hw.functions f (mem_of_get? current)
    exact ⟨hfunctions.symm ▸ hw.finished, forall_put current hw.functions (hf.queue pointer id), hw.blocks⟩
  | lowered x f b s currentFunction currentBlock keeps run =>
    have hf := hw.functions f (mem_of_get? currentFunction)
    have hb := hw.blocks b (mem_of_get? currentBlock)
    have hfilled : Ledger.filled.Stands [] [] (x ⟨w.module, f, b, 0⟩).2 :=
      (keeps _ (emitting_filled.restrict _)).after_nil (nil_subset _) ⟨hf, hb⟩
    rw [run] at hfilled
    exact ⟨hfunctions.symm ▸ hw.finished, forall_put currentFunction hw.functions hfilled.1,
      forall_put currentBlock hw.blocks hfilled.2⟩
  | opened name ret params f m isOpen run =>
    refine ⟨hfunctions.symm ▸ hw.finished, ?_, hw.blocks⟩
    rw [things_add]
    exact forall_mem_append.2 ⟨hw.functions, forall_mem_singleton.2 (Module.openFunction_begins run).filled⟩
  | labelled b m run =>
    refine ⟨hfunctions.symm ▸ hw.finished, hw.functions, ?_⟩
    rw [things_add]
    exact forall_mem_append.2 ⟨hw.blocks, forall_mem_singleton.2 (Module.freshBlock_filled run)⟩
  | terminated b inst current ends =>
    have hb := hw.blocks b (mem_of_get? current)
    refine ⟨hw.finished, hw.functions, forall_put current hw.blocks ⟨hb.instructions, ?_⟩⟩
    rintro _ ⟨⟩
    exact ends
  | appended f b currentFunction currentBlock =>
    have hf := hw.functions f (mem_of_get? currentFunction)
    have hb := hw.blocks b (mem_of_get? currentBlock)
    exact ⟨hw.finished, forall_put currentFunction hw.functions (hf.append hb),
      fun b' hb' => hw.blocks b' ((takeAway_sublist currentBlock).subset hb')⟩
  | closed => simp at hfunctions
  | dropped f current =>
    exact ⟨hw.finished, fun f' hf' => hw.functions f' ((takeAway_sublist current).subset hf'), hw.blocks⟩

theorem run_assembled (config : Config) (ops : List Operation) (hops : ∀ op ∈ ops, op.builds) :
    ((start config).run ops).Assembled :=
  run_keeps Change.assembled ops hops ⟨fun _ h => (nomatch h), fun _ h => (nomatch h), fun _ h => nomatch h⟩

theorem Assembled.isFinished (h : w.Assembled) {f : Function} (hf : f ∈ w.module.functions) : f.Finished := by
  obtain ⟨g, hg, hended, rfl⟩ := h.finished f hf
  exact hg.tidy.hoist hended

end Workbench

end Shader
