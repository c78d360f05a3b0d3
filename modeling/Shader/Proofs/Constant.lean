import Shader.Proofs.Settled

/-!
# Constant expressions

An expression of literals and constructors is lowered to a constant exactly if every constructor takes
its arguments as they are. One that converts an argument, cuts a vector, or puts vectors together with
other components, is done at run time, and so is what is built on top of it.
-/

namespace Shader

open Action List

/-- Whether an argument is already of the scalar type, or a literal, which is converted on the spot. -/
def Expr.keepsConstant (arg : Expr) (target : Option Scalar) : Bool :=
  match target, arg.ty.scalar? with
  | some wanted, some own => own = wanted || arg.kind = .literal
  | _, _ => true

/-- Whether a value of the type is put together of the constants as they are. -/
def Ty.joins : Ty → List Expr → Bool
  | .scalar _, args => args.all (·.ty.isScalar)
  | .vector _ n, [arg] => arg.ty.isScalar || arg.ty.width? = some n
  | .vector .., args => args.all (·.ty.isScalar)
  | _, _ => true

namespace Expr

mutual

/-- Literals, and constructions of them that need no instruction. -/
def isPlainConstant : Expr → Bool
  | ⟨_, .literal _⟩ => true
  | ⟨ty, .construct args⟩ => !args.isEmpty && allPlain ty.scalar? args && ty.joins args
  | _ => false

/-- All arguments are plain and are taken as they are. -/
def allPlain (target : Option Scalar) : List Expr → Bool
  | [] => true
  | e :: es => e.isPlainConstant && e.keepsConstant target && allPlain target es

end

theorem keepsConstant_of_literal {e : Expr} (h : e.kind = .literal) (target : Option Scalar) :
    e.keepsConstant target := by
  unfold keepsConstant
  split <;> simp [h]

theorem exists_literal {e : Expr} (h : e.kind = .literal) : ∃ ty l, e = ⟨ty, .literal l⟩ := by
  obtain ⟨ty, node⟩ := e
  cases node <;> cases h
  exact ⟨_, _, rfl⟩

end Expr

namespace Lower

variable {s s' : Lowerer}

/-- Progress on constants: settled states, and identifiers that are declared constants. -/
def plainly : Progress where
  Moves := Lowerer.Settled
  Constant s id := ConstantIn s.module.declarations id
  refl := .refl
  trans := .trans
  sound h := h.sound
  block h := h.block
  mono h := h.constantIn
  declareType hs h := declareType_settled hs h
  atDepth := .at_depth

section

variable {need : List Id}

theorem composite_plainly (ty : Ty) {constituents : List Id} (h : constituents ⊆ need) :
    plainly.Within need (composite ty constituents true) (fun id => [id]) := by
  intro s s' id hs hneed hrun
  obtain ⟨hsettled, hconstant⟩ := composite_settled hs (fun i hi => hneed i (h hi)) hrun
  exact ⟨hsettled, forall_mem_singleton.2 hconstant⟩

theorem declareLiteral_plainly (l : Literal) :
    plainly.Within need (onModule (Module.declareLiteral l)) (fun id => [id]) := by
  intro s s' id hs _ hrun
  obtain ⟨hsettled, hregistered⟩ := declareLiteral_settled hs hrun
  exact ⟨hsettled, forall_mem_singleton.2 (hsettled.sound.constantIn_of_literal hregistered)⟩

end

/-- Parts whose value is a constant exactly for plain constant expressions. -/
structure Constants (parts : Parts) : Prop where
  steady : ∀ L : Ledger Lowerer, Emitting L → parts.Steady .any L
  value : ∀ {e : Expr} {s s' : Lowerer} {id : Id}, e.isConstant → s.module.Sound →
    parts.value e s = (.ok id, s') → plainly.Outcome e.isPlainConstant [id] s s'

/-! ## Conversions -/

theorem conversion_ne_none {a b : Scalar} (h : a ≠ b) : conversion a b ≠ .none := by
  cases a <;> cases b <;> simp_all [conversion]

theorem cast_count {o : Operand} {target : Ty} {a b : Scalar} {id : Id} (hown : o.ty.scalar? = some a)
    (hwanted : target.scalar? = some b) (hne : a ≠ b) (h : cast o target s = (.ok id, s')) : count s < count s' := by
  have hty : o.ty ≠ target := by
    intro heq
    rw [heq, hwanted] at hown
    exact hne (Option.some.inj hown).symm
  unfold cast at h
  rw [if_neg hty] at h
  cases hshape : castShape? o.ty target with
  | none =>
    rw [hshape] at h
    exact (refuse_ok h).elim
  | some p =>
    obtain ⟨a', b', size⟩ := p
    obtain ⟨hown', hwanted'⟩ := castShape?_scalars hshape
    cases hown.symm.trans hown'
    cases hwanted.symm.trans hwanted'
    rw [hshape] at h
    dsimp only at h
    cases hconversion : conversion a b with
    | none => exact absurd hconversion (conversion_ne_none hne)
    | instruction op =>
      rw [hconversion] at h
      exact emit_count h
    | ofBool =>
      rw [hconversion] at h
      cases hone : Literal.one? b with
      | none =>
        rw [hone] at h
        exact (refuse_ok h).elim
      | some one =>
        rw [hone] at h
        obtain ⟨oneId, t, ht, h⟩ := bind_ok h
        obtain ⟨zeroId, u, hu, h⟩ := bind_ok h
        have h₁ := count_le [] (fun _ hL => replicated_steady hL _ _) ht
        have h₂ := count_le [] (fun _ hL => replicated_steady hL _ _) hu
        exact Nat.lt_of_le_of_lt (Nat.le_trans h₁ h₂) (emit_count h)
    | toBool =>
      rw [hconversion] at h
      obtain ⟨zeroId, t, ht, h⟩ := bind_ok h
      have h₁ := count_le [] (fun _ hL => replicated_steady hL _ _) ht
      exact Nat.lt_of_le_of_lt h₁ (emit_count h)

/-! ## Arguments of constructors -/

theorem constructArg_converted {parts : Parts} {arg : Expr} {own wanted : Scalar}
    (hliteral : arg.kind ≠ .literal) (hown : arg.ty.scalar? = some own) (hne : own ≠ wanted) :
    ∃ converted : Ty, converted.scalar? = some wanted ∧ constructArg parts (some wanted) arg = (do
        let id ← parts.value arg
        return (← cast { ty := arg.ty, id } converted, false)) := by
  unfold constructArg
  rw [hown]
  dsimp only
  rw [if_neg hne]
  obtain ⟨ty, node⟩ := arg
  cases node with
  | literal l => exact absurd rfl hliteral
  | _ =>
    refine ⟨_, ?_, rfl⟩
    split <;> rfl

section Arguments

variable {parts : Parts} {target : Option Scalar}

theorem constructArg_kept (parts : Parts) (target : Option Scalar) (arg : Expr) :
    (constructArg parts target arg).Yields (·.2 = arg.keepsConstant target) := by
  unfold constructArg Expr.keepsConstant
  cases target with
  | none => exact .bind fun _ => .pure rfl
  | some wanted =>
    cases arg.ty.scalar? with
    | none => exact .bind fun _ => .pure rfl
    | some own =>
      dsimp only
      split
      case isTrue heq => exact .bind fun _ => .pure (by simp [heq])
      case isFalse hne =>
        obtain ⟨ty, node⟩ := arg
        cases node with
        | literal l => exact .bind fun _ => .pure (by simp [Expr.kind, Node.kind])
        | _ => exact .bind fun _ => .bind fun _ => .pure (by simp [hne, Expr.kind, Node.kind])

theorem constructArg_outcome (hparts : Constants parts) {arg : Expr} (harg : arg.isConstant)
    (hs : s.module.Sound) {p : Id × Bool} (h : constructArg parts target arg s = (.ok p, s')) :
    plainly.Outcome (arg.isPlainConstant ∧ arg.keepsConstant target) [p.1] s s' := by
  -- An argument that is taken as it is.
  have hkept : arg.keepsConstant target → ∀ {s'}, (do
      return (← parts.value arg, true) : Lower (Id × Bool)) s = (.ok p, s') →
      plainly.Outcome (arg.isPlainConstant ∧ arg.keepsConstant target) [p.1] s s' := by
    intro hkeeps s' h
    obtain ⟨id, t, hvalue, h⟩ := bind_ok h
    obtain ⟨rfl, rfl⟩ := pure_ok h
    exact (hparts.value harg hs hvalue).of_iff ⟨fun hplain => ⟨hplain, hkeeps⟩, And.left⟩
  cases target with
  | none => exact hkept rfl h
  | some wanted =>
    cases hown : arg.ty.scalar? with
    | none =>
      unfold constructArg at h
      rw [hown] at h
      exact hkept (by simp [Expr.keepsConstant, hown]) h
    | some own =>
      by_cases heq : own = wanted
      · unfold constructArg at h
        rw [hown] at h
        dsimp only at h
        rw [if_pos heq] at h
        exact hkept (by simp [Expr.keepsConstant, hown, heq]) h
      by_cases hliteral : arg.kind = .literal
      · -- A literal of another type is declared in the type that is wanted.
        obtain ⟨ty, l, rfl⟩ := Expr.exists_literal hliteral
        unfold constructArg at h
        rw [hown] at h
        dsimp only at h
        rw [if_neg heq] at h
        obtain ⟨id, t, hdeclare, h⟩ := bind_ok h
        obtain ⟨rfl, rfl⟩ := pure_ok h
        exact .inl ⟨⟨rfl, Expr.keepsConstant_of_literal hliteral _⟩,
          declareLiteral_plainly _ hs (forall_mem_nil _) hdeclare⟩
      · refine .inr ⟨fun hboth => ?_, ?_⟩
        · have hkeeps := hboth.2
          simp [Expr.keepsConstant, hown, heq, hliteral] at hkeeps
        · obtain ⟨converted, hwanted, heq'⟩ := constructArg_converted hliteral hown heq
          rw [heq'] at h
          obtain ⟨id, t, hvalue, h⟩ := bind_ok h
          obtain ⟨id', hcast, rfl⟩ := bind_pure_ok h
          have hle := count_le [] (fun L hL => (hparts.steady L hL).value arg.operable_any []) hvalue
          exact Nat.lt_of_le_of_lt hle (cast_count hown hwanted heq hcast)

theorem constructArgs_kept (parts : Parts) (target : Option Scalar) :
    ∀ args : List Expr, (constructArgs parts target args).Yields fun p =>
      p.1.length = args.length ∧ p.2 = args.all (·.keepsConstant target)
  | [] => .pure ⟨rfl, rfl⟩
  | arg :: args => by
    intro s p s' h
    obtain ⟨⟨id, kept⟩, t, harg, h⟩ := bind_ok h
    obtain ⟨⟨ids, allKept⟩, hrest, rfl⟩ := bind_pure_ok h
    obtain ⟨hlength, hall⟩ := constructArgs_kept parts target args _ _ _ hrest
    have hkept : kept = arg.keepsConstant target := constructArg_kept parts target arg _ _ _ harg
    refine ⟨congrArg (· + 1) hlength, ?_⟩
    rw [all_cons, ← hkept, ← hall]

theorem constructArgs_outcome (hparts : Constants parts) :
    ∀ {args : List Expr}, Expr.allConstant args → ∀ {s s' : Lowerer} {p : List Id × Bool},
      s.module.Sound → constructArgs parts target args s = (.ok p, s') →
      plainly.Outcome (Expr.allPlain target args) p.1 s s'
  | [], _, s, s', p, hs, h => by
    obtain ⟨rfl, rfl⟩ := pure_ok h
    exact .inl ⟨rfl, .refl hs, fun _ hi => nomatch hi⟩
  | arg :: args, hargs, s, s', p, hs, h => by
    rw [Expr.allConstant, Bool.and_eq_true] at hargs
    obtain ⟨⟨id, kept⟩, t, harg, h⟩ := bind_ok h
    obtain ⟨⟨ids, allKept⟩, hrest, rfl⟩ := bind_pure_ok h
    have hle := count_le [] (fun L hL => constructArgs_steady hL (hparts.steady L hL) (fun _ _ => inferInstance) args
        (fun a _ => a.operable_any) []) hrest
    have hboth := (constructArg_outcome hparts hargs.1 hs harg).and
      (fun _ hmoves _ => constructArgs_outcome hparts hargs.2 hmoves.sound hrest) hle
    exact hboth.of_iff (by rw [Expr.allPlain, Bool.and_eq_true, Bool.and_eq_true])

theorem all_keepsConstant {args : List Expr} (h : Expr.allPlain target args) : args.all (·.keepsConstant target) := by
  induction args with
  | nil => rfl
  | cons arg args ih =>
    rw [Expr.allPlain, Bool.and_eq_true, Bool.and_eq_true] at h
    rw [all_cons, h.1.2, ih h.2]
    rfl

end Arguments

/-! ## Constructors -/

section Constructors

variable {args : List Expr} {ids : List Id} {ty : Ty}

theorem constructScalar_plainly (hjoins : args.all (·.ty.isScalar)) :
    plainly.Within ids (constructScalar ty args ids) (fun id => [id]) := by
  unfold constructScalar
  split
  · rw [if_pos (by simpa using hjoins)]
    exact .pure _ (by simp)
  · exact .refuse _

theorem constructScalar_emits (hjoins : ¬ args.all (·.ty.isScalar)) : Emits (constructScalar ty args ids) := by
  intro s s' id h
  unfold constructScalar at h
  split at h
  · rw [if_neg (by simpa using hjoins)] at h
    exact emit_count h
  · exact (refuse_ok h).elim

theorem composite_emits : Emits (composite ty ids false) := emit_emits

theorem constructVector_single (s : Scalar) (n : Word) (arg : Expr) (id : Id) : (Ty.joins (.vector s n) [arg] ∧
        plainly.Within [id] (constructVector s n [arg] [id] true) (fun id => [id])) ∨
      (¬ Ty.joins (.vector s n) [arg] ∧ Emits (constructVector s n [arg] [id] true)) := by
  obtain ⟨ty, node⟩ := arg
  cases ty with
  | scalar _ =>
    refine .inl ⟨rfl, ?_⟩
    show plainly.Within [id] (composite (.vector s n) (replicate n.toNat id) true) _
    exact composite_plainly _ fun i hi => mem_singleton.2 (eq_of_mem_replicate hi)
  | vector _ m =>
    unfold constructVector
    dsimp only
    by_cases heq : m = n
    · rw [if_pos heq]
      exact .inl ⟨by simp [Ty.joins, Ty.width?, heq], .pure _ fun _ hi => hi⟩
    · refine .inr ⟨by simp [Ty.joins, Ty.width?, Ty.isScalar, heq], ?_⟩
      rw [if_neg heq]
      split
      · exact emit_emits
      · exact composite_emits
  | _ => exact .inr ⟨by simp [Ty.joins, Ty.width?, Ty.isScalar], composite_emits⟩

theorem constructVector_cases (s : Scalar) (n : Word) (hlength : ids.length = args.length) :
    (Ty.joins (.vector s n) args ∧ plainly.Within ids (constructVector s n args ids true) (fun id => [id])) ∨
      (¬ Ty.joins (.vector s n) args ∧ Emits (constructVector s n args ids true)) := by
  -- Several arguments, or none.
  have hjoin : (args.all (·.ty.isScalar) ∧
        plainly.Within ids (joinVector (.vector s n) args ids true) (fun id => [id])) ∨
      (¬ args.all (·.ty.isScalar) ∧ Emits (joinVector (.vector s n) args ids true)) := by
    unfold joinVector
    cases hall : args.all (·.ty.isScalar) with
    | true => exact .inl ⟨rfl, composite_plainly _ fun _ hi => hi⟩
    | false => exact .inr ⟨Bool.false_ne_true, composite_emits⟩
  match args, ids, hlength with
  | [], [], _ => exact hjoin
  | [arg], [id], _ => exact constructVector_single s n arg id
  | _ :: _ :: _, _ :: _ :: _, _ => exact hjoin

theorem diagonalMatrix_plainly (s : Scalar) (columns rows : Word) {diagonal : Id} (h : diagonal ∈ ids) :
    plainly.Within ids (diagonalMatrix s columns rows diagonal true) (fun id => [id]) := by
  refine Progress.Within.bind (declareLiteral_plainly _) fun zero => ?_
  refine Progress.Within.bind (Progress.Within.mapM_mem fun c _ need' hneed => ?_) fun columnIds =>
    composite_plainly _ (by simp)
  refine composite_plainly _ fun i hi => ?_
  obtain ⟨r, -, rfl⟩ := mem_map.1 hi
  split
  · exact hneed (by simp [h])
  · exact hneed (by simp)

theorem joinMatrix_plainly (s : Scalar) (columns rows : Word) :
    plainly.Within ids (joinMatrix s columns rows args ids true) (fun id => [id]) := by
  unfold joinMatrix
  split
  · exact composite_plainly _ fun _ hi => hi
  · refine Progress.Within.bind (Progress.Within.checked _) fun count => ?_
    split
    · refine Progress.Within.bind (Progress.Within.mapM_mem fun group hgroup need' h => ?_) fun columnIds =>
        composite_plainly _ (by simp)
      exact composite_plainly _ fun i hi => h (mem_of_mem_groups hgroup hi)
    · exact Progress.Within.refuse _

theorem constructMatrix_plainly (s : Scalar) (columns rows : Word) :
    plainly.Within ids (constructMatrix s columns rows args ids true) (fun id => [id]) := by
  unfold constructMatrix
  split
  · split
    · exact Progress.Within.pure _ fun _ hi => hi
    · split
      · exact diagonalMatrix_plainly s columns rows (by simp)
      · exact joinMatrix_plainly s columns rows
  · exact joinMatrix_plainly s columns rows

theorem assemble_cases (ty : Ty) (hlength : ids.length = args.length) :
    (ty.joins args ∧ plainly.Within ids (assemble ty args ids true) (fun id => [id])) ∨
      (¬ ty.joins args ∧ Emits (assemble ty args ids true)) := by
  cases ty with
  | scalar s =>
    by_cases hjoins : args.all (·.ty.isScalar)
    · exact .inl ⟨hjoins, constructScalar_plainly hjoins⟩
    · exact .inr ⟨hjoins, constructScalar_emits hjoins⟩
  | vector s n => exact constructVector_cases s n hlength
  | matrix s columns rows => exact .inl ⟨rfl, constructMatrix_plainly s columns rows⟩
  | array element length => exact .inl ⟨rfl, composite_plainly _ fun _ hi => hi⟩
  | struct name layout members => exact .inl ⟨rfl, composite_plainly _ fun _ hi => hi⟩
  | _ => exact .inl ⟨rfl, Progress.Within.refuse _⟩

theorem construct_outcome {parts : Parts} (hparts : Constants parts) (ty : Ty) (hargs : Expr.allConstant args) {id : Id} (hs : s.module.Sound) (h : construct parts ty args true s = (.ok id, s')) :
    plainly.Outcome (Expr.allPlain ty.scalar? args ∧ ty.joins args) [id] s s' := by
  obtain ⟨⟨ids, kept⟩, t, hlowered, hassemble⟩ := bind_ok h
  obtain ⟨hlength, hkept⟩ := constructArgs_kept _ _ _ _ _ _ hlowered
  have hle : count t ≤ count s' :=
    count_le (ids.map .value) (fun _ hL => assemble_steady hL (fun _ hv => mem_map_of_mem hv) ty args _) hassemble
  have hlast : Expr.allPlain ty.scalar? args → plainly.Moves s t →
      (∀ i ∈ ids, plainly.Constant t i) → plainly.Outcome (ty.joins args) [id] t s' := by
    intro hplain hmoves hids
    obtain rfl : kept = true := hkept.trans (all_keepsConstant hplain)
    rcases assemble_cases ty hlength with ⟨hjoins, hplainly⟩ | ⟨hjoins, hemits⟩
    · exact .inl ⟨hjoins, hplainly hmoves.sound hids hassemble⟩
    · exact .inr ⟨hjoins, hemits hassemble⟩
  exact ((constructArgs_outcome hparts hargs hs hlowered).and hlast hle).weaken (subset_append_right _ _)

end Constructors

theorem constants_within : ∀ height : Nat, Constants (partsOf (lowerWithin height))
  | 0 => {
      steady := partsOf_regular 0
      value := fun _ _ h => by
        obtain ⟨rest, _, _, hrest, -⟩ := valueWithin_ok h
        cases hrest }
  | height + 1 => {
      steady := partsOf_regular (height + 1)
      value := by
        rintro ⟨ty, node⟩ s s' id he hs h
        cases node with
        | literal l =>
          refine valued_outcome (fun _ => rfl) (fun _ hrun => .inl ⟨rfl, ?_⟩) h
          exact declareLiteral_plainly l (by exact hs) (forall_mem_nil _) hrun
        | construct args =>
          have hconstant := he
          rw [Expr.isConstant, Bool.and_eq_true] at he
          refine valued_outcome (fun _ => rfl) (fun hrest hrun => ?_) h
          cases hrest
          rw [hconstant] at hrun
          refine (construct_outcome (constants_within height) ty he.2 (by exact hs) hrun).of_iff ?_
          rw [Expr.isPlainConstant, he.1, Bool.true_and, Bool.and_eq_true]
        | _ => cases he }

end Lower

/-- An expression of literals and constructors takes no instruction and becomes a constant of earlier
constants exactly if nothing in it is converted or taken apart. -/
theorem lower_constant_iff {config : Config} {w : Workbench} (hw : w.Reachable config) {e : Expr} (he : e.isConstant)
    {s s' : Lowerer} (hs : s.module = w.module) {id : Id} (h : Lower.lower e s = (.ok id, s')) :
    s'.block = s.block ∧ ConstantIn s'.module.declarations id ↔ e.isPlainConstant := by
  have hsound : s.module.Sound := hs ▸ hw.sound.ledger.1
  rcases (Lower.constants_within _).value he hsound h with
    ⟨hplain, hsettled, hconstant⟩ | ⟨hplain, hlt⟩
  · exact ⟨fun _ => hplain, fun _ => ⟨hsettled.block, hconstant id mem_cons_self⟩⟩
  · refine ⟨fun hsame => absurd hlt ?_, fun h => absurd h hplain⟩
    rw [Lower.count, Lower.count, hsame.1]
    exact Nat.lt_irrefl _

def Lowerer.empty (m : Module) : Lowerer where
  module := m
  func := { function := { name := "main", id := 0, returnType := 0, functionType := 0 } }
  block := { label := 0 }

def Expr.pair (s : Scalar) (args : List Expr) : Expr := ⟨.vector s 2, .construct args⟩

def Expr.nestedPairs : Expr :=
  ⟨.array (.vector .float 2) (some 2), .construct [
    .pair .float [.literal (.int 1), .literal (.int 2)], .pair .float [.literal (.uint 3)]]⟩

theorem lower_nested_pairs_constant : Expr.nestedPairs.isConstant ∧ Expr.nestedPairs.isPlainConstant ∧
      ∃ id s', Lower.lower .nestedPairs (.empty (Workbench.start {}).module) = (.ok id, s') ∧
        s'.block = { label := 0 } ∧ ConstantIn s'.module.declarations id := by
  have hok : (Lower.lower .nestedPairs (.empty (Workbench.start {}).module)).1.isOk := by
    decide +kernel
  obtain ⟨id, h⟩ := exists_ok hok
  exact ⟨rfl, rfl, id, _, h, (lower_constant_iff .start rfl rfl h).2 rfl⟩

def Expr.convertedPairs : Expr := ⟨.array (.vector .float 2) (some 1), .construct [
  .pair .float [.pair .int [.literal (.int 1), .literal (.int 2)]]]⟩

/-- `vec2[1](vec2(ivec2(1, 2)))` is declared as a constant of what an instruction converts. -/
theorem lower_converted_pairs_mixed : Expr.convertedPairs.isConstant ∧
    let r := Lower.lower .convertedPairs (.empty (Workbench.start {}).module)
    ∃ id ∈ r.1.toOption, ∃ inst ∈ r.2.block.instructions, inst.op = .ConvertSToF ∧
      ∃ c ∈ inst.result, (∃ composite ∈ r.2.module.declarations, composite.op = .ConstantComposite ∧
          composite.result = some id ∧ c ∈ composite.operands) ∧
        ∀ declared ∈ r.2.module.declarations, declared.result ≠ some c := by
  decide +kernel

end Shader
