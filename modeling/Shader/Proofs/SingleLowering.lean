import Shader.Proofs.Descent

/-!
# Lowering without doubles

Lowering declares the types of an expression and of its parts, and a few beside them: of literals, of
variables around members, and of what called functions return. A module without numbers of double
precision stays without them as long as none of these types brings any.
-/

namespace Shader

def Inst.declaresDouble (inst : Inst) : Bool := inst.op = .TypeFloat && inst.operands.head? = some 64

/-- The module declares numbers of double precision. -/
def Module.declaresDouble (m : Module) : Bool := m.declarations.any Inst.declaresDouble

def Module.Single (m : Module) : Prop := m.declaresDouble = false

theorem Module.Single.snoc {m m' : Module} (h : m.Single) {inst : Inst}
    (hinst : inst.op = .TypeFloat → inst.operands.head? ≠ some 64)
    (hm' : m'.declarations = m.declarations ++ [inst]) : m'.Single := by
  have hnew : inst.declaresDouble = false := by
    simpa [Inst.declaresDouble] using hinst
  show m'.declarations.any _ = false
  rw [hm', List.any_append, Bool.or_eq_false_iff]
  exact ⟨h, by simp [hnew]⟩

theorem building_single : Building .any (.keeping Module.Single) false where
  alike {_ _ m m'} h hm' := by
    rw [hm']
    exact h
  note {_ _ m} inst h hnote _ _ _ := by
    rw [m.noted_insert hnote inst]
    exact h
  name h _ := h
  fresh h _ := h
  aggregate operands h hop _ := Module.Single.snoc h (by rintro ⟨⟩; cases hop) rfl
  remember {_ _ m m' _} h _ hm' := by
    rw [hm'.same]
    exact h
  share {_ _ m m' next op operands} h _ _ hm' _ hdouble _ := by
    rw [hm'.same]
    exact Module.Single.snoc h (fun hop hoperands => nomatch hdouble hop hoperands) rfl
  literal l h _ _ _ := by
    refine Module.Single.snoc h (fun hop => ?_) rfl
    rcases l with (_ | _) | _ | _ | _ | _ <;> cases hop
  composite h _ _ _ _ := Module.Single.snoc h (by rintro ⟨⟩) rfl
  specialize type operands h hop _ := Module.Single.snoc h (by rintro ⟨⟩; cases hop) rfl
  globalVariable id h _ _ _ := Module.Single.snoc h (by rintro ⟨⟩) rfl
  global h _ _ _ := h
  imported _ h _ := h
  named h _ _ := h
  member h _ _ := h

def Lowerer.Single (s : Lowerer) : Prop := s.module.Single

/-- Terms that allow no numbers of double precision. -/
def Terms.single : Terms := ⟨true, fun _ => True, .any, false, none, True⟩

theorem tracing_single : Tracing .single (.keeping Lowerer.Single) where
  building _ := building_single
  emit h _ _ _ := h
  take _ h _ _ _ _ _ _ := h

/-- No type that is declared for the expression or for one of its parts brings doubles. -/
def Expr.Single (e : Expr) : Prop := ∀ part : Expr, part.Within e → ∀ ty ∈ part.declaredTypes, ty.declaresDouble = false

theorem Expr.Single.meets {e : Expr} (h : e.Single) : e.Meets .single where
  passes _ _ _ _ := rfl
  calls _ _ _ _ _ := trivial
  names _ _ _ := trivial
  types part hpart ty hty := ⟨fun hdouble => (h part hpart ty hty).symm.trans hdouble⟩
  reaches := nofun
  places := trivial

/-- The action preserves `P`, also where it fails. -/
def Action.Maintains {σ α : Type} (P : σ → Prop) (x : Action σ α) : Prop := ∀ s, P s → P (x s).2

theorem Lower.lower_maintains {e : Expr} (he : e.Single) : Action.Maintains Lowerer.Single (lower e) := fun s hs =>
  (lower_steady tracing_single he.meets rfl).after_nil (List.nil_subset [])
    (show (Ledger.keeping Lowerer.Single).Stands [] [] s from hs)

end Shader
