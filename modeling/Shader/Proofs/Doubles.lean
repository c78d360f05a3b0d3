import Shader.Literal
import Shader.Ty.Basic

/-!
# Numbers of double precision

A type brings numbers of double precision along if it holds them, directly or as part of another.
Some modules are to have no such numbers, and types that bring them may not be declared there.
-/

namespace Shader

mutual

/-- Whether declaring the type declares doubles, in its values, its texels or its signature. -/
def Ty.declaresDouble : Ty → Bool
  | .scalar s | .vector s _ | .matrix s _ _ => s = .double
  | .array element _ => element.declaresDouble
  | .struct _ _ members => Member.anyDeclaresDouble members
  | .image c | .sampledImage c => c.sampled = .double
  | .function ret params => ret.declaresDouble || Variable.anyDeclaresDouble params
  | .void | .sampler _ => false

def Member.anyDeclaresDouble : List Member → Bool
  | [] => false
  | ⟨_, t, _, _⟩ :: ms => t.declaresDouble || Member.anyDeclaresDouble ms

def Variable.declaresDouble : Variable → Bool
  | .root _ ty _ | .member _ _ _ ty => ty.declaresDouble

def Variable.anyDeclaresDouble : List Variable → Bool
  | [] => false
  | v :: vs => v.declaresDouble || Variable.anyDeclaresDouble vs

end

theorem Member.declaresDouble_of_mem {m : Member} : ∀ {ms : List Member}, m ∈ ms →
    m.ty.declaresDouble → anyDeclaresDouble ms
  | ⟨_, t, _, _⟩ :: ms, hm, h => by
    refine Bool.or_eq_true_iff.2 ?_
    rcases List.mem_cons.1 hm with rfl | hm
    · exact .inl h
    · exact .inr (declaresDouble_of_mem hm h)

/-- The type may be declared: it brings doubles only where there may be some. -/
class Ty.Allowed (doubles : Bool) (ty : Ty) : Prop where
  allowed : ty.declaresDouble → doubles

theorem Literal.scalar_of_one? {s : Scalar} {one : Literal} (h : one? s = some one) : one.scalar = s := by
  cases s <;> cases h <;> rfl

namespace Ty

variable {d : Bool} {s : Scalar} {c : ImageConfig} {ty : Ty}

instance : ty.Allowed true := ⟨fun _ => rfl⟩

instance : (scalar .bool).Allowed d := ⟨nofun⟩

instance (n : Word) : (scalar (Literal.uint n).scalar).Allowed d := ⟨nofun⟩

instance [h : (scalar s).Allowed d] (n : Word) : (vector s n).Allowed d := ⟨h.allowed⟩

instance [h : (scalar s).Allowed d] (columns rows : Word) : (matrix s columns rows).Allowed d := ⟨h.allowed⟩

instance [h : (scalar s).Allowed d] : (scalar (Literal.zero s).scalar).Allowed d := by
  cases s <;> exact ⟨h.allowed⟩

instance [h : (scalar s).Allowed d] (l : Literal) : (scalar (l.convert s).scalar).Allowed d := by
  cases s <;> exact ⟨h.allowed⟩

theorem Allowed.scalar (ty : Ty) [h : ty.Allowed d] (hs : ty.scalar? = some s) : (scalar s).Allowed d := by
  cases ty <;> cases hs <;> exact ⟨h.allowed⟩

theorem Allowed.texel (ty : Ty) [h : ty.Allowed d] (hc : ty.imageConfig? = some c) :
    (Ty.scalar c.sampled).Allowed d := by
  cases ty <;> cases hc <;> exact ⟨h.allowed⟩

theorem Allowed.part (ty : Ty) [h : ty.Allowed d] {part : Ty} (i : Word) (hpart : ty.part? i = some part) :
    part.Allowed d := by
  cases ty with
  | vector s n | matrix s columns rows =>
    rw [part?, Option.ite_none_right_eq_some] at hpart
    cases hpart.2
    exact ⟨h.allowed⟩
  | array element length =>
    cases hpart
    exact ⟨h.allowed⟩
  | struct name layout members =>
    obtain ⟨m, hm, rfl⟩ := Option.map_eq_some_iff.1 hpart
    exact ⟨fun hdouble => h.allowed (Member.declaresDouble_of_mem (List.mem_of_getElem? hm) hdouble)⟩
  | _ => cases hpart

end Ty

end Shader
