import Shader.Proofs.Meaning

/-!
# Lowering keeps meaning

In a function that building operations lead to, the instructions for an expression compute its value and
leave the variables as evaluating it leaves them.
-/

namespace Shader

/-- The memory holds the values of the local variables. -/
def FunctionScope.Holds (f : FunctionScope) (memory : Id → List Atom) (st : Store) : Prop :=
  ∀ name e, f.locals.get? name = some e → e.id ∈ results f.function.queued → memory e.id = (st name).map Literal.atom

/-- The instructions for an expression on local variables compute its value from the contents of these,
and leave in them what evaluating it leaves there. -/
theorem lower_preserves_meaning {config : Config} {w : Workbench} (hw : w.Reachable config) {f : FunctionScope}
    {b : Block} (hf : w.functions.get? = some f) (hb : w.blocks.get? = some b) {Γ : String → Ty} {e : Expr}
    (he : Discrete Γ e) (hglobals : ∀ v ∈ e.mentions, w.module.globals.get? v.name = none)
    (hlocals : ∀ v ∈ e.mentions, ∀ x, f.locals.get? v.name = some x → x.id ∉ f.function.params.map (·.2)) {id : Id}
    {s' : Lowerer} (h : Lower.lower e ⟨w.module, f, b, 0⟩ = (.ok id, s')) (device : Device)
    {st : Store} (hst : Typed Γ st) {memory : Id → List Atom} (hmemory : s'.func.Holds memory st) :
    ∃ v st' code σ, e.evaluate? device st = some (v, st') ∧ s'.block.instructions = b.instructions ++ code ∧
      Machine.run? device code (.start s'.module.declarations (results s'.func.function.queued) memory) = some σ ∧
      σ.registers id = some (.data (v.map Literal.atom)) ∧ s'.func.Holds σ.memory st' := by
  obtain ⟨v, st', hv, -, -⟩ := he.evaluates device hst
  have hstart := hw.distinct.lowerer hf hb
  have hsound := hw.sound.lowerer hf hb
  have hready : Lowerer.Ready (e.mentions.map (·.name)) ⟨w.module, f, b, 0⟩ := by
    refine ⟨hsound.1.1, ⟨?_, ?_⟩, ?_, ?_⟩
    · exact (List.forall_mem_append.1 hsound.1.2.held).1
    · exact (List.forall_mem_append.1 hsound.1.2.known).1
    · intro name hname
      obtain ⟨x, hx, rfl⟩ := List.mem_map.1 hname
      exact hglobals x hx
    · intro name hname entity hentity
      obtain ⟨x, hx, rfl⟩ := List.mem_map.1 hname
      exact (hstart.2.placed _ entity hentity).resolve_left (hlocals x hx entity hentity)
  have hmeans : Lower.Means _ device [] st (Lower.lower e) _ (e.facts v) st' :=
    Lower.lower_means he (fun x hx => List.mem_map_of_mem hx) hst hv
  obtain ⟨-, -, -, -, hrun⟩ := hmeans hready nofun h
  have hfinal : s'.Final := by
    have hend := (Lower.lower_steady running_distinct.emitting e.meets_any rfl).after_nil (List.nil_subset _) hstart
    rw [h] at hend
    exact hend
  obtain ⟨σ, hruns, hσ, hfacts⟩ := hrun hfinal (.refl s') (.start hfinal hmemory) nofun
  obtain ⟨code, hcode, hmachine⟩ := hruns.code
  exact ⟨v, st', code, σ, hv, hcode, hmachine, hfacts _ List.mem_cons_self, hσ.memory⟩

/-! ## Writes within writes -/

def Workbench.inFunction : Workbench :=
  (((Workbench.start {}).perform (.openFunction "main" .void [])).2.perform .freshBlock).2

def typeOfName (name : String) : Ty := if name = "v" then .vector .int 3 else .scalar .int

/-- `v = (1, 5, 9)` and `n = 3`, where no name but `v` stands for a vector. -/
def Store.small (name : String) : Components :=
  if name = "v" then [.int 1, .int 5, .int 9] else [.int 3]

def Expr.vectorLanes (s : Swizzle) : Expr :=
  ⟨s.typeOf .int, .swizzle (.ident (.root "v" (typeOfName "v") { functionLocal := true })) s⟩

def Expr.number : Expr := .ident (.root "n" (typeOfName "n") { functionLocal := true })

/-- `v.zx = v.xy < n++ ? -v.yx : (v.xy *= n)`, in which the choice is made for each component. -/
def Expr.writesWithin : Expr :=
  let xy : Expr := .vectorLanes ⟨[0, 1], by decide, by decide⟩
  .assign none (.vectorLanes ⟨[2, 0], by decide, by decide⟩)
    (.select ⟨.vector .bool 2, .binary .lt xy (.step .postInc .number)⟩
      (.unary .neg (.vectorLanes ⟨[1, 0], by decide, by decide⟩)) (.assign (some .mul) xy .number))

theorem typed_small : Typed typeOfName .small := by
  intro name _
  unfold typeOfName Store.small
  split
  · exact hasType_vector.2 ⟨rfl, by decide⟩
  · exact hasType_scalar.2 ⟨_, rfl, rfl⟩

theorem Target.vectorLanes {s : Swizzle} (h : ∀ lane ∈ s.lanes, lane.val < 3) :
    Target typeOfName (.vectorLanes s) := .swizzle rfl rfl rfl h

theorem discrete_writesWithin : Discrete typeOfName .writesWithin := by
  have hnumber : Target typeOfName .number := .ident rfl rfl
  have hxy : Target typeOfName (.vectorLanes ⟨[0, 1], by decide, by decide⟩) := .vectorLanes (by decide)
  refine .assign (.vectorLanes (by decide)) (.select ?_ ?_ ?_ rfl .each) rfl
  · exact .binary (.read hxy) (.step hnumber rfl rfl) ⟨_, .vectorScalar rfl, .inl rfl⟩
  · exact .unary (.read (.vectorLanes (by decide))) rfl rfl
  · exact .compound hxy (.read hnumber) ⟨_, .vectorScalar rfl, .inl rfl⟩

def Lowerer.inFunction : Lowerer where
  module := Workbench.inFunction.module
  func := { function := { name := "main", id := 2, returnType := 3, functionType := 4 } }
  block := { label := 5 }

def smallMemory (id : Id) : List Atom := (Store.small (if id = 6 then "v" else "n")).map Literal.atom

theorem holds_small : (Lower.lower .writesWithin .inFunction).2.func.Holds smallMemory .small := by
  have hentries : (Lower.lower .writesWithin .inFunction).2.func.locals.entries.map
      (fun p => (p.1, p.2.id)) = [("v", 6), ("n", 13)] := by decide +kernel
  intro name e he _
  have hmem : (name, e.id) ∈ [("v", (6 : Id)), ("n", 13)] := hentries ▸ List.mem_map_of_mem (OrderedMap.mem_entries he)
  simp only [List.mem_cons, Prod.mk.injEq, List.not_mem_nil, or_false] at hmem
  rcases hmem with ⟨rfl, hid⟩ | ⟨rfl, hid⟩ <;> rw [hid] <;> rfl

theorem lower_writes_within_preserves_meaning : Workbench.inFunction.functions.get? = some Lowerer.inFunction.func ∧
      Workbench.inFunction.blocks.get? = some Lowerer.inFunction.block ∧
      Discrete typeOfName .writesWithin ∧ Typed typeOfName .small ∧
      ∃ id s' st' σ, Lower.lower .writesWithin .inFunction = (.ok id, s') ∧ s'.func.Holds smallMemory .small ∧
        Machine.run? (fun _ _ _ => 0) s'.block.instructions
          (.start s'.module.declarations (results s'.func.function.queued) smallMemory) = some σ ∧
        σ.registers id = some (.data [.word (-5), .word 20]) ∧ s'.func.Holds σ.memory st' ∧
        st' "v" = [.int 20, .int 20, .int (-5)] ∧ st' "n" = [.int 4] := by
  have hok : (Lower.lower .writesWithin .inFunction).1.isOk := by decide +kernel
  obtain ⟨id, h⟩ := Action.exists_ok hok
  have hw : Workbench.inFunction.Reachable {} := .perform (.perform .start rfl nofun) rfl nofun
  obtain ⟨v, st', code, σ, hv, hcode, hrun, hid, hholds⟩ := lower_preserves_meaning hw rfl rfl
    discrete_writesWithin (fun _ _ => rfl) (fun _ _ _ h => nomatch h) h (fun _ _ _ => 0)
    typed_small holds_small
  have hvalue : (Expr.writesWithin.evaluate? (fun _ _ _ => 0) .small).map (fun p => (p.1, p.2 "v", p.2 "n")) =
        some ([.int (-5), .int 20], [.int 20, .int 20, .int (-5)], [.int 4]) := by decide +kernel
  rw [hv] at hvalue
  simp only [Option.map_some, Option.some.injEq, Prod.mk.injEq] at hvalue
  obtain ⟨rfl, hvector, hnumber⟩ := hvalue
  exact ⟨rfl, rfl, discrete_writesWithin, typed_small, id, _, st', σ, h, holds_small,
    hcode ▸ hrun, hid, hholds, hvector, hnumber⟩

end Shader
