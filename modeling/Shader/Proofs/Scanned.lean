import Shader.Proofs.Requirements
import Shader.Proofs.SingleLowering

/-!
# Doubles that a scan finds

A scan looks at the types of expressions and of the variables in them. It finds all numbers of double
precision that lowering declares, but for those that do not show there: in the rest of a variable of
which only a member is used, in texels and in parameters of functions, and in literals and calls of
another type than their own.
-/

namespace Shader

namespace Expr

/-- The types that are looked at when an expression is scanned. -/
def scannedTypes (e : Expr) : List Ty := e.ty :: e.node.variable?.toList.map (·.ty)

/-- The scan of the expression itself meets numbers of double precision. -/
def showsDouble (e : Expr) : Bool := e.scannedTypes.any Ty.hasDouble

/-- Whether lowering declares doubles for the expression or one of its parts, and a scan sees none
there. -/
def hidesDouble (e : Expr) : Bool :=
  e.postOrder.any fun part => part.declaredTypes.any Ty.declaresDouble && !part.showsDouble

end Expr

namespace Capability

theorem float64_mem_ofType {ty : Ty} : .Float64 ∈ ofType ty ↔ ty.hasDouble := by
  unfold ofType
  split <;> simp [*]

theorem float64_notMem_ofImageArg (sampled : Bool) (args : List Expr) : .Float64 ∉ ofImageArg sampled args := fun h =>
  absurd (ofImageArg_subset sampled args h) (by decide)

theorem float64_notMem_ofImageAccess (access : ImageAccess) (args : List Expr) :
    .Float64 ∉ ofImageAccess access args := by
  unfold ofImageAccess
  have harg := float64_notMem_ofImageArg false args
  split <;> simp [harg]

theorem float64_notMem_ofTextureAccess (access : TextureAccess) (args : List Expr) :
    .Float64 ∉ ofTextureAccess access args := by
  unfold ofTextureAccess
  have harg := float64_notMem_ofImageArg true args
  dsimp only
  split <;> split <;> simp [harg]

end Capability

theorem Expr.float64_mem_ownCapabilities (e : Expr) : .Float64 ∈ e.ownCapabilities ↔ e.showsDouble := by
  obtain ⟨ty, node⟩ := e
  cases node <;>
    simp [ownCapabilities, showsDouble, scannedTypes, Node.variable?, Capability.float64_mem_ofType,
      Capability.float64_notMem_ofImageAccess, Capability.float64_notMem_ofTextureAccess]

theorem Requirements.scan_requires_float64 (r : Requirements) (e : Expr) : (r.scan e).requires .Float64 ↔
      r.requires .Float64 ∨ ∃ part ∈ e.postOrder, part.showsDouble := by
  rw [scan_requires]
  simp only [Expr.float64_mem_ownCapabilities]

/-! ## What lowering declares -/

/-- Lowering declares doubles in a module without them only if a scan of the expression finds some, or
if the expression hides them. -/
theorem lower_double_is_scanned {e : Expr} (hseen : e.hidesDouble = false) {s s' : Lowerer}
    (hs : s.module.declaresDouble = false) {result : Except Fault Id} (h : Lower.lower e s = (result, s'))
    (hdouble : s'.module.declaresDouble) (r : Requirements) : (r.scan e).requires .Float64 := by
  rw [Requirements.scan_requires_float64]
  by_contra hscan
  rw [not_or] at hscan
  -- No double shows and none is hidden, so there are none to declare.
  have hsingle : e.Single := by
    intro part hpart ty hty
    have hmem := hpart.mem_postOrder
    have hshows : part.showsDouble = false := by
      by_contra hshows
      exact hscan.2 ⟨part, hmem, by simpa using hshows⟩
    have hnone := List.any_eq_false.1 hseen part hmem
    rw [hshows, Bool.not_false, Bool.and_true, List.any_eq_true] at hnone
    exact Bool.eq_false_iff.2 fun hdeclares => hnone ⟨ty, hty, hdeclares⟩
  have hend : s'.module.declaresDouble = false := by
    have hmaintains := Lower.lower_maintains hsingle s hs
    rw [h] at hmaintains
    exact hmaintains
  rw [hend] at hdouble
  cases hdouble

def Ty.mixed : Ty := .struct "B" .std430 [⟨"m", .scalar .float, 0, none⟩, ⟨"d", .scalar .double, 8, none⟩]

def Variable.mixed : Variable := .root "b" .mixed { uniform := true }

/-- `float(b.d)`, where no type but that of a part shows a double. -/
def Expr.narrowed : Expr := ⟨.scalar .float, .cast ⟨.scalar .double, .member (.ident .mixed) 1⟩⟩

theorem narrowed_double_is_scanned :
    Expr.narrowed.hidesDouble = false ∧ Lowerer.inFunction.module.declaresDouble = false ∧
      ∃ id s', Lower.lower .narrowed .inFunction = (.ok id, s') ∧ s'.module.declaresDouble ∧
        (({} : Requirements).scan .narrowed).requires .Float64 := by
  have hseen : Expr.narrowed.hidesDouble = false := by decide +kernel
  have hs : Lowerer.inFunction.module.declaresDouble = false := by decide +kernel
  have hok : (Lower.lower .narrowed .inFunction).1.isOk := by decide +kernel
  have hdouble : (Lower.lower .narrowed .inFunction).2.module.declaresDouble := by decide +kernel
  obtain ⟨id, h⟩ := Action.exists_ok hok
  exact ⟨hseen, hs, id, _, h, hdouble, lower_double_is_scanned hseen hs h hdouble {}⟩

def Expr.ownMember : Expr := .ident (.member .mixed 0 "m" (.scalar .float))

/-- Reading a single number declares its variable, with a double that a scan does not find. -/
theorem ownMember_double_is_not_scanned : Lowerer.inFunction.module.declaresDouble = false ∧
      ∃ id s', Lower.lower .ownMember .inFunction = (.ok id, s') ∧ s'.module.declaresDouble ∧
        (({} : Requirements).scan .ownMember).requires .Float64 = false := by
  have hs : Lowerer.inFunction.module.declaresDouble = false := by decide +kernel
  have hok : (Lower.lower .ownMember .inFunction).1.isOk := by decide +kernel
  have hdouble : (Lower.lower .ownMember .inFunction).2.module.declaresDouble := by decide +kernel
  obtain ⟨id, h⟩ := Action.exists_ok hok
  exact ⟨hs, id, _, h, hdouble, by decide +kernel⟩

end Shader
