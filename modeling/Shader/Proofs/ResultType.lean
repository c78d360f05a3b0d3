import Shader.Proofs.Preservation
import Shader.Proofs.Values

/-!
# Lowering and types

The result of an expression that is a scalar, a vector or a matrix is of the type of the expression. The
exception are several lanes of a number in storage, whose result is of the type of the number, and what
passes that result on.
-/

namespace Shader

/-- The result of an expression of numbers is defined once, with the type of the expression, which is
declared once. Only where lanes of a number in storage are passed on, it is that of the number. -/
theorem lower_result_type {config : Config} {Γ : Context} {i : Nat} {w : Workbench} (hw : w.ReachableIn config Γ i)
    (hi : w.functions.current = some i) {f : FunctionScope} {b : Block} (hf : w.functions.get? = some f)
    (hb : w.blocks.get? = some b) {e : Expr} (he : e.WellTyped) (hover : e.Over Γ) (hty : e.ty.scalar?.isSome) {id : Id}
    {s' : Lowerer} (h : Lower.lower e ⟨w.module, f, b, 0⟩ = (.ok id, s')) (hid : id ≠ noResult) :
    ∃ type, s'.resultTypes id = [some type] ∧ Module.declareType e.valueTy s'.module = (.ok type, s'.module) ∧
      (e.valueTy = e.ty ↔ e.spreads = false) := by
  have hconsistent := hw.consistent hi hf hb hover (.inl rfl) h
  obtain ⟨type, hfinds, htypes⟩ := (Lower.lower_provides he hover _ id s' h).yields hty (.refl s') hconsistent hid
  exact ⟨type, hconsistent.final.resultTypes_of_mem htypes.mem_definitions, hfinds, he.valueTy_eq_iff⟩

/-! ## Lanes of a vector and of a number -/

theorem Workbench.inFunction_reachableIn (Γ : Context) : Workbench.inFunction.ReachableIn {} Γ 0 := by
  refine .perform (.perform .start rfl nofun ⟨?_, ?_⟩) rfl nofun ⟨?_, ?_⟩
  · intro name storage ty ty' hname
    exact hname.elim
  · intro name ret params hop _ p hp
    cases hop
    cases hp
  · intro name storage ty ty' hname
    exact hname.elim
  · intro name ret params hop
    cases hop

def Context.small : Context := fun name => some (typeOfName name)

def Expr.lanes (e : Expr) (letters : String) : Expr := (e.swizzle? letters).getD e

theorem Expr.WellTyped.lanes {e : Expr} (he : e.WellTyped) (letters : String) : (e.lanes letters).WellTyped := by
  unfold Expr.lanes
  cases h : e.swizzle? letters with
  | none => exact he
  | some e' =>
    obtain ⟨s, scalar, -, rfl⟩ := eq_of_swizzle? h
    exact .swizzle letters he h

theorem Expr.Over.lanes {Γ : Context} {e : Expr} (he : e.Over Γ) (letters : String) : (e.lanes letters).Over Γ := by
  unfold Expr.lanes
  cases h : e.swizzle? letters with
  | none => exact he
  | some e' =>
    obtain ⟨s, scalar, -, rfl⟩ := eq_of_swizzle? h
    exact .of_operand rfl rfl he

/-- `+ivec2(v.zx)`, in which lanes are passed on twice. -/
def Expr.lanesPassedOn : Expr :=
  let v : Expr := .ident (.root "v" (typeOfName "v") { functionLocal := true })
  .unary .plus ⟨.vector .int 2, .construct [v.lanes "zx"]⟩

theorem Expr.wellTyped_lanesPassedOn : lanesPassedOn.WellTyped := by
  refine .unary .plus (.construct _ fun arg harg => ?_)
  obtain rfl := List.mem_singleton.1 harg
  exact .lanes (.ident (.root _ _ _)) "zx"

theorem Expr.over_lanesPassedOn : lanesPassedOn.Over .small :=
  .of_operand rfl rfl (.of_operand rfl rfl (.lanes (.ident rfl) "zx"))

theorem lower_lanes_passed_on_result_type : Workbench.inFunction.ReachableIn {} .small 0 ∧
      Workbench.inFunction.functions.get? = some Lowerer.inFunction.func ∧
      Workbench.inFunction.blocks.get? = some Lowerer.inFunction.block ∧
      Expr.lanesPassedOn.WellTyped ∧ Expr.lanesPassedOn.Over .small ∧
      ∃ id s' type, Lower.lower .lanesPassedOn .inFunction = (.ok id, s') ∧ id ≠ noResult ∧
        s'.resultTypes id = [some type] ∧
        Module.declareType (.vector .int 2) s'.module = (.ok type, s'.module) := by
  have hok : (Lower.lower .lanesPassedOn .inFunction).1.isOk := by decide +kernel
  have hsome : (Lower.lower .lanesPassedOn .inFunction).1.toOption ≠ some noResult := by
    decide +kernel
  have hw := Workbench.inFunction_reachableIn .small
  obtain ⟨id, h⟩ := Action.exists_ok hok
  have hid : id ≠ noResult := fun hid => hsome (by rw [h, hid]; rfl)
  obtain ⟨type, htypes, hdeclared, hvalue⟩ := lower_result_type hw rfl rfl rfl
    Expr.wellTyped_lanesPassedOn Expr.over_lanesPassedOn rfl h hid
  rw [hvalue.2 (by decide +kernel)] at hdeclared
  exact ⟨hw, rfl, rfl, Expr.wellTyped_lanesPassedOn, Expr.over_lanesPassedOn, id, _, type, h, hid, htypes, hdeclared⟩

def Expr.numberTwice : Expr := Expr.number.lanes "xx"

/-- Two lanes of a number in storage make a vector, but what they are lowered to is defined as a
number. -/
theorem lower_number_twice_result_type : Workbench.inFunction.ReachableIn {} .small 0 ∧
      Workbench.inFunction.functions.get? = some Lowerer.inFunction.func ∧
      Workbench.inFunction.blocks.get? = some Lowerer.inFunction.block ∧
      Expr.numberTwice.WellTyped ∧ Expr.numberTwice.Over .small ∧
      Expr.numberTwice.ty = .vector .int 2 ∧
      ∃ id s', Lower.lower .numberTwice .inFunction = (.ok id, s') ∧ id ≠ noResult ∧
        ∃ type vector, s'.resultTypes id = [some type] ∧
          (Module.declareType (.vector .int 2) s'.module).1.toOption = some vector ∧
          type ≠ vector := by
  have hok : (Lower.lower .numberTwice .inFunction).1.isOk := by decide +kernel
  have hrun : (Lower.lower .numberTwice .inFunction).1.toOption = some 10 := by decide +kernel
  obtain ⟨id, h⟩ := Action.exists_ok hok
  obtain rfl : id = 10 := by
    rw [h] at hrun
    exact Option.some.inj hrun
  refine ⟨Workbench.inFunction_reachableIn .small, rfl, rfl, .lanes (.ident (.root _ _ _)) "xx",
    .lanes (.ident rfl) "xx", by decide +kernel, 10, _, h, by decide, 7, 11, ?_⟩
  decide +kernel

end Shader
