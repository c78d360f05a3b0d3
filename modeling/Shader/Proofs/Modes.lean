import Shader.Proofs.Change

/-!
# Modes of entry points

A mode that is set while there is no entry point becomes one of the first that comes; a mode that is set
later becomes one of the entry point there is then. Making a function the entry point of a fragment
shader sets its origin besides. No mode is lost, set twice or given to another function.
-/

namespace Shader

open Action List Operation

variable {op : Operation} {function : Id}

/-! ## What operations ask for -/

namespace Operation

/-- The function that becomes the entry point. -/
def entry? : Operation → Option Id
  | .entryPoint function _ _ _ => some function
  | _ => none

/-- The execution mode that is set. -/
def mode? : Operation → Option (ExecutionMode × List Word)
  | .executionMode mode operands => some (mode, operands)
  | _ => none

def entries (ops : List Operation) : List Id := ops.filterMap entry?

/-- Each mode is there once, those that waited for the first entry point, and each of these got its
origin. -/
def modes (ops : List Operation) : List (ExecutionMode × List Word) := ops.filterMap mode?

end Operation

/-- The modes of a function, or none if there is no entry point. -/
def Module.modesOf (function : Option Id) (modes : List (ExecutionMode × List Word)) : List Inst :=
  function.toList.flatMap fun function => modes.map fun p => modeInst function p.1 p.2

namespace Operation

/-- The modes that are set, each for the last entry point before it or the first after it. -/
def owned (current : Option Id) : List Operation → List Inst
  | [] => []
  | op :: ops => Module.modesOf (current.or (entries ops).head?) op.mode?.toList ++ owned (op.entry?.or current) ops

/-- The origins that entry points of fragment shaders get. -/
def origins (config : Config) (ops : List Operation) : List Inst :=
  if config.executionModel = .Fragment then
    (entries ops).map fun function => Module.modeInst function config.fragmentOrigin []
  else []

theorem entries_cons (op : Operation) (ops : List Operation) :
    entries (op :: ops) = op.entry?.toList ++ entries ops := by
  unfold entries
  cases h : op.entry? <;> simp [h]

theorem modes_cons (op : Operation) (ops : List Operation) : modes (op :: ops) = op.mode?.toList ++ modes ops := by
  unfold modes
  cases h : op.mode? <;> simp [h]

theorem entries_singleton (op : Operation) : entries [op] = op.entry?.toList := by
  rw [entries_cons, entries, filterMap_nil, append_nil]

theorem modes_singleton (op : Operation) : modes [op] = op.mode?.toList := by
  rw [modes_cons, modes, filterMap_nil, append_nil]

theorem mode?_eq_none_of_entry? (h : op.entry? = some function) : op.mode? = none := by
  cases op <;> cases h
  rfl

theorem origins_mode (config : Config) (mode : ExecutionMode) (operands : List Word) :
    origins config [.executionMode mode operands] = [] := by
  unfold origins
  split <;> rfl

theorem origins_cons (config : Config) (op : Operation) (ops : List Operation) :
    origins config (op :: ops) = origins config [op] ++ origins config ops := by
  unfold origins
  split
  · rw [entries_cons, entries_singleton, map_append]
  · rfl

theorem owned_singleton (current : Option Id) (op : Operation) :
    owned current [op] = Module.modesOf current op.mode?.toList := by
  rw [owned, owned, entries, filterMap_nil, head?_nil, Option.or_none, append_nil]

end Operation

namespace Action

variable {σ β : Type}

theorem modify_apply (f : σ → σ) (s : σ) : (modify f : Action σ Unit) s = (.ok (), f s) := rfl

theorem modify_bind (f : σ → σ) (g : Unit → Action σ β) (s : σ) :
    ((modify f : Action σ Unit) >>= g) s = g () (f s) := rfl

end Action

namespace Module

variable {m m' : Module}

@[simp] theorem modesOf_none (modes : List (ExecutionMode × List Word)) : modesOf none modes = [] := rfl

@[simp] theorem modesOf_nil (function : Option Id) : modesOf function [] = [] := by
  cases function <;> rfl

theorem modesOf_append (function : Option Id) (modes modes' : List (ExecutionMode × List Word)) :
    modesOf function (modes ++ modes') = modesOf function modes ++ modesOf function modes' := by
  cases function <;> simp [modesOf]

/-! ## Steps -/

/-- An entry point names its function, and no mode waits for one that is there. -/
def Ready (m : Module) : Prop := m.entryPoint.isSome → m.entryFunction?.isSome ∧ m.pendingModes = []

theorem Ready.pendingModes_eq (h : m.Ready) (hentry : m.entryFunction? = some function) : m.pendingModes = [] := by
  obtain ⟨inst, hinst, -⟩ := Option.bind_eq_some_iff.1 hentry
  exact (h (by rw [hinst]; rfl)).2

/-- The entry point and the execution modes of a module after the operations. -/
structure Moded (m : Module) (ops : List Operation) (m' : Module) : Prop where
  config : m'.config = m.config
  entry : m'.entryFunction? = (Operation.entries ops).getLast?.or m.entryFunction?
  /-- Modes that waited are those of the first entry point; each mode that was set is there once, and
  each entry point got its origin. -/
  modes : m'.executionModes.Perm (m.executionModes ++ (modesOf (Operation.entries ops).head? m.pendingModes ++
      (Operation.owned m.entryFunction? ops ++ Operation.origins m.config ops)))
  pending : m'.pendingModes =
    if m'.entryFunction? = none then m.pendingModes ++ Operation.modes ops else []

theorem addExecutionMode_waits (h : m.entryFunction? = none) (mode : ExecutionMode) (operands : List Word) :
    addExecutionMode mode operands m = (.ok (), { m with pendingModes := m.pendingModes ++ [(mode, operands)] }) := by
  unfold addExecutionMode
  simp only [modify_apply, h]

theorem addExecutionMode_entry (h : m.entryFunction? = some function) (mode : ExecutionMode)
    (operands : List Word) : addExecutionMode mode operands m =
      (.ok (), { m with executionModes := m.executionModes ++ [modeInst function mode operands] }) := by
  unfold addExecutionMode
  simp only [modify_apply, h]

theorem setEntryPoint_snd (m : Module) (function : Id) (name : String) (inputs outputs : List Id) :
    ∃ inst : Inst, inst.result = some function ∧ (setEntryPoint function name inputs outputs m).2 = { m with
        entryPoint := some inst
        executionModes := m.executionModes ++ (origins m.config [.entryPoint function name inputs outputs] ++
            modesOf (some function) m.pendingModes)
        pendingModes := [] } := by
  refine ⟨{
    op := .EntryPoint
    resultType := some (Enumerated.number m.config.executionModel)
    result := some function
    name := some name
    operands := inputs ++ outputs }, rfl, ?_⟩
  unfold setEntryPoint origins
  rw [modify_bind, get_bind]
  by_cases hfragment : m.config.executionModel = .Fragment
  · simp only [if_pos hfragment]
    rw [get_bind, bind_apply_ok (addExecutionMode_entry rfl _ _), modify_apply]
    simp [modesOf, entries, entry?]
  · simp only [if_neg hfragment]
    rw [modify_apply]
    simp [modesOf]

theorem addExecutionMode_moded (hm : m.Ready) (mode : ExecutionMode) (operands : List Word)
    (hm' : m' = (addExecutionMode mode operands m).2) : m.Moded [.executionMode mode operands] m' ∧ m'.Ready := by
  cases hentry : m.entryFunction? with
  | none =>
    rw [addExecutionMode_waits hentry] at hm'
    subst hm'
    have hnone : m.entryPoint = none := by
      cases hinst : m.entryPoint with
      | none => rfl
      | some inst =>
        have hsome := (hm (by rw [hinst]; rfl)).1
        rw [hentry] at hsome
        cases hsome
    refine ⟨⟨rfl, rfl, ?_, ?_⟩, ?_⟩
    · simp [hentry, owned_singleton, origins_mode, entries_singleton, Operation.entry?]
    · have hentry' : entryFunction? { m with
          pendingModes := m.pendingModes ++ [(mode, operands)] } = none := hentry
      rw [if_pos hentry']
      rfl
    · intro hsome
      rw [hnone] at hsome
      cases hsome
  | some function =>
    have hpending := hm.pendingModes_eq hentry
    rw [addExecutionMode_entry hentry] at hm'
    subst hm'
    refine ⟨⟨rfl, rfl, ?_, ?_⟩, hm⟩
    · rw [hentry, hpending, owned_singleton, origins_mode, modesOf_nil, append_nil, nil_append]
      rfl
    · have hentry' : entryFunction? { m with
          executionModes := m.executionModes ++ [modeInst function mode operands] } = some function :=
        hentry
      rw [hentry', if_neg (Option.some_ne_none function)]
      exact hpending

theorem setEntryPoint_moded (function : Id) (name : String) (inputs outputs : List Id)
    (hm' : m' = (setEntryPoint function name inputs outputs m).2) :
    m.Moded [.entryPoint function name inputs outputs] m' ∧ m'.Ready := by
  obtain ⟨inst, hinst, heq⟩ := setEntryPoint_snd m function name inputs outputs
  rw [heq] at hm'
  have hentry : m'.entryFunction? = some function := by
    rw [hm']
    exact hinst
  subst hm'
  refine ⟨⟨rfl, hentry, ?_, ?_⟩, ?_⟩
  · have hmode : Operation.mode? (.entryPoint function name inputs outputs) = none := rfl
    rw [owned_singleton, entries_singleton, hmode, Option.toList_none, modesOf_nil, nil_append]
    exact perm_append_comm.append_left _
  · rw [hentry]
    rfl
  · intro _
    exact ⟨by rw [hentry]; rfl, rfl⟩

theorem Moded.assigned {m₁ : Module} (hm : m.Ready) (h : m.Moded [op] m₁)
    (hentry : m₁.entryFunction? = op.entry?.or m.entryFunction?) (next : Option Id) :
    modesOf op.entry? m.pendingModes ++ (modesOf m.entryFunction? op.mode?.toList ++ modesOf next m₁.pendingModes) =
      modesOf (op.entry?.or next) m.pendingModes ++ modesOf (m.entryFunction?.or next) op.mode?.toList := by
  have hpending := h.pending
  rw [hentry] at hpending
  cases hop : op.entry? with
  | some function =>
    rw [hop] at hpending
    have hnone : m₁.pendingModes = [] := hpending
    simp [hnone, mode?_eq_none_of_entry? hop]
  | none =>
    rw [hop] at hpending
    cases hold : m.entryFunction? with
    | some function =>
      rw [hold] at hpending
      have hnone : m₁.pendingModes = [] := hpending
      simp [hnone, hm.pendingModes_eq hold]
    | none =>
      rw [hold] at hpending
      have hwait : m₁.pendingModes = m.pendingModes ++ Operation.modes [op] := hpending
      rw [hwait, modes_singleton]
      simp [modesOf_append]

theorem Moded.cons {m₁ : Module} {ops : List Operation} (hm : m.Ready) (h : m.Moded [op] m₁)
    (h' : m₁.Moded ops m') : m.Moded (op :: ops) m' := by
  have hentry₁ : m₁.entryFunction? = op.entry?.or m.entryFunction? := by
    rw [h.entry, entries_singleton]
    cases op.entry? <;> rfl
  refine ⟨h'.config.trans h.config, ?_, ?_, ?_⟩
  · rw [h'.entry, hentry₁, entries_cons, getLast?_append, Option.or_assoc]
    cases op.entry? <;> rfl
  · have hassigned := h.assigned hm hentry₁ (Operation.entries ops).head?
    have hhead : (Operation.entries (op :: ops)).head? = op.entry?.or (Operation.entries ops).head? := by
      rw [entries_cons]
      cases op.entry? <;> rfl
    have hmodes := h.modes
    rw [entries_singleton, owned_singleton, Option.head?_toList] at hmodes
    have hmodes' := h'.modes
    rw [hentry₁, h.config] at hmodes'
    rw [hhead, origins_cons, Operation.owned]
    -- Both sides are the same but for the order, which counting forgets.
    refine perm_iff_count.2 fun inst => ?_
    have hcount := hmodes.count_eq inst
    have hcount' := hmodes'.count_eq inst
    have hcounts := congrArg (List.count inst) hassigned
    simp only [count_append] at hcount hcount' hcounts ⊢
    omega
  · rw [h'.pending]
    split
    case isFalse => rfl
    case isTrue hnone =>
      have hnone₁ : m₁.entryFunction? = none := by
        rw [h'.entry] at hnone
        exact (Option.or_eq_none_iff.1 hnone).2
      rw [h.pending, if_pos hnone₁, modes_singleton, modes_cons, append_assoc]

theorem Ready.moded (hm : m.Ready) : m.Moded [] m := by
  refine ⟨rfl, rfl, ?_, ?_⟩
  · have hnone : Operation.origins m.config [] = [] := by
      unfold Operation.origins
      split <;> rfl
    simp [hnone, Operation.entries, Operation.owned]
  · cases hentry : m.entryFunction? with
    | none => exact (append_nil _).symm
    | some function => exact hm.pendingModes_eq hentry

end Module

/-! ## Runs -/

namespace Workbench

variable {w : Workbench}

theorem perform_moded (hw : w.module.Ready) (hop : op.entry?.isSome ∨ op.mode?.isSome) :
    w.module.Moded [op] (w.perform op).2.module ∧ (w.perform op).2.module.Ready := by
  cases op with
  | entryPoint function name inputs outputs =>
    refine Module.setEntryPoint_moded function name inputs outputs ?_
    exact congrArg module (Work.onModule_bind_snd _ _ w)
  | executionMode mode operands =>
    refine Module.addExecutionMode_moded hw mode operands ?_
    exact congrArg module (Work.onModule_bind_snd _ _ w)
  | _ => rcases hop with h | h <;> cases h

end Workbench

def Operation.moding : List Operation :=
  [.executionMode .LocalSize [8, 8, 1], .entryPoint 5 "first" [] [],
    .executionMode .EarlyFragmentTests [], .entryPoint 6 "second" [] [],
    .executionMode .DepthReplacing []]

end Shader
