import Shader.Instruction.Binary
import Shader.Proofs.Doubles
import Shader.Proofs.Ledger

/-!
# Operands

An instruction refers to a result type, to values and, if it is a call, to a function; its other
operands are literals. Most expressions have a value: where one of the two kinds that have none is an
operand, `noResult` stands for it.
-/

namespace Shader

open List

variable {op : Op} {T : Terms}

/-! ## Operands of instructions -/

/-- Whether the operand in that place is a value, for instructions that expressions become. -/
def Op.takesValue (op : Op) (place : Nat) : Bool :=
  match op with
  | .FunctionCall => place != 0
  | .CompositeExtract => place < 1
  | .VectorShuffle => place < 2
  | .ExtInst => place != 1
  | .ImageSampleImplicitLod | .ImageSampleExplicitLod | .ImageSampleProjImplicitLod
  | .ImageSampleProjExplicitLod | .ImageFetch | .ImageRead => place != 2
  | .ImageSampleDrefImplicitLod | .ImageSampleDrefExplicitLod | .ImageSampleProjDrefImplicitLod
  | .ImageSampleProjDrefExplicitLod | .ImageGather | .ImageDrefGather | .ImageWrite => place != 3
  | _ => true

/-- The operands that are identifiers of values. -/
def Op.values (op : Op) (operands : List Word) : List Id :=
  (operands.zipIdx.filter fun p => op.takesValue p.2).map (·.1)

/-- The function that the instruction calls. -/
def Inst.callee? (inst : Inst) : Option Id :=
  if inst.op = .FunctionCall then inst.operands.head? else none

/-- Whether the instruction can stand between the label and the end of a block. -/
def Op.standsInBlock (op : Op) : Bool := op != .Label && op != .FunctionEnd && !op.isTerminator

/-- Whether the instruction stands in a block and has that shape, calls no function and declares no
variable. -/
def Op.isPlainOf (shape : Shape) (op : Op) : Bool :=
  op.standsInBlock && op.shape? == some shape && op != .FunctionCall && op != .Variable

def Op.isPlain (op : Op) : Bool := op.isPlainOf { resultType := true, result := true, tail := .operands }

def Op.isPlainEffect (op : Op) : Bool := op.isPlainOf { tail := .operands }

namespace Inst

theorem value_fits (type id : Id) (operands : List Word)
    (h : op.shape? = some { resultType := true, result := true, tail := .operands }) :
    (value op type id operands).matchShape = .ok () := by
  simp [matchShape, value, h]

theorem defining_fits (id : Id) (operands : List Word) (h : op.shape? = some { result := true, tail := .operands }) :
    (defining op id operands).matchShape = .ok () := by
  simp [matchShape, defining, h]

theorem effect_fits (operands : List Word) (h : op.shape? = some { tail := .operands }) :
    (effect op operands).matchShape = .ok () := by
  simp [matchShape, effect, h]

end Inst

variable {known : List Known} {a : Id}

namespace Op

variable {after : List Word} {v : Id}

theorem mem_values {operands : List Word} :
    v ∈ op.values operands ↔ ∃ i : Nat, operands[i]? = some v ∧ op.takesValue i := by
  simp [values, mem_zipIdx_iff_getElem?]

theorem values_subset (operands : List Word) : op.values operands ⊆ operands := by
  intro v hv
  obtain ⟨i, hi, -⟩ := mem_values.1 hv
  exact mem_of_getElem? hi

theorem mem_of_mem_values_append (before : List Word) (h : ∀ i : Nat, before.length ≤ i → op.takesValue i = false)
    (hv : v ∈ op.values (before ++ after)) : v ∈ before := by
  obtain ⟨i, hi, htakes⟩ := mem_values.1 hv
  by_cases hlt : i < before.length
  · rw [getElem?_append_left hlt] at hi
    exact mem_of_getElem? hi
  · rw [h i (by omega)] at htakes
    cases htakes

theorem mem_of_mem_values_around (before : List Word) {literal : Word} (h : op.takesValue before.length = false)
    (hv : v ∈ op.values (before ++ literal :: after)) : v ∈ before ++ after := by
  obtain ⟨i, hi, htakes⟩ := mem_values.1 hv
  rcases Nat.lt_trichotomy i before.length with hlt | rfl | hgt
  · rw [getElem?_append_left hlt] at hi
    exact mem_append_left _ (mem_of_getElem? hi)
  · rw [h] at htakes
    cases htakes
  · rw [getElem?_append_right (by omega)] at hi
    obtain ⟨j, hj⟩ : ∃ j, i - before.length = j + 1 := ⟨i - before.length - 1, by omega⟩
    rw [hj, getElem?_cons_succ] at hi
    exact mem_append_right _ (mem_of_getElem? hi)

theorem mem_values_extract {lanes : List Word} (hv : v ∈ values .CompositeExtract (a :: lanes)) : v = a := by
  refine mem_singleton.1 (mem_of_mem_values_append [a] (fun i hi => ?_) hv)
  exact decide_eq_false (Nat.not_lt.2 hi)

theorem mem_values_shuffle {b : Id} {lanes : List Word}
    (hv : v ∈ values .VectorShuffle ([a, b] ++ lanes)) : v ∈ [a, b] := by
  refine mem_of_mem_values_append [a, b] (fun i hi => ?_) hv
  exact decide_eq_false (Nat.not_lt.2 hi)

theorem mem_values_extended {set : Id} {number : Word} {operands : List Id}
    (hv : v ∈ values .ExtInst (set :: number :: operands)) : v ∈ set :: operands :=
  mem_of_mem_values_around [set] rfl hv

end Op

def PerFamily.all {α : Type} (choice : PerFamily α) (p : α → Bool) : Bool :=
  choice.float.all p && choice.sint.all p && choice.uint.all p && choice.bool.all p

theorem PerFamily.of_get? {α : Type} {choice : PerFamily α} {p : α → Bool} (h : choice.all p)
    {family : Family} {a : α} (ha : choice.get? family = some a) : p a := by
  simp only [all, Bool.and_eq_true] at h
  obtain ⟨⟨⟨hfloat, hsint⟩, huint⟩, hbool⟩ := h
  have hall : (choice.get? family).all p := by
    cases family <;> assumption
  rw [ha] at hall
  exact hall

theorem BinOp.opcodes_isPlain (op : BinOp) : op.opcodes.all Op.isPlain := by
  cases op <;> rfl

theorem UnOp.opcodes_isPlain (op : UnOp) : op.opcodes.all Op.isPlain := by
  cases op <;> rfl

/-- Forms of functions whose opcodes take operands and nothing else. -/
def IntrinsicForm.isPlain : IntrinsicForm → Bool
  | .core ops | .atomic ops => ops.all Op.isPlain
  | .carry op | .wideProduct op => op.isPlain
  | .extended _ | .extendedOutput _ => true

theorem Intrinsic.form_isPlain (f : Intrinsic) : f.form.isPlain := by
  cases f <;> rfl

theorem conversion_isPlain {a b : Scalar} (h : Lower.conversion a b = .instruction op) : op.isPlain := by
  cases a <;> cases b <;> cases h <;> rfl

theorem product?_isPlain {l r : Operand} {b : Id} (h : Lower.product? l r = some (op, a, b)) :
    op.isPlain ∧ ∀ v ∈ [a, b], v = l.id ∨ v = r.id := by
  unfold Lower.product? at h
  split at h <;> cases h <;> refine ⟨rfl, ?_⟩ <;> simp

theorem TextureAccess.form_isPlain (access : TextureAccess) : access.form.op.isPlain := by
  cases access <;> rfl

theorem TextureAccess.form_mask (access : TextureAccess) :
    access.form.operands = [] ∨ access.form.op.takesValue (1 + access.form.fixed) = false := by
  cases access <;> simp [form, Op.takesValue]

/-! ## Operands of expressions -/

theorem forall_mem_split {α : Type} {p : α → Prop} {l : List α} (h : ∀ a ∈ l, p a) (n : Nat) :
    (∀ a ∈ l.take n, p a) ∧ ∀ a ∈ l.drop n, p a :=
  ⟨fun a ha => h a (mem_of_mem_take ha), fun a ha => h a (mem_of_mem_drop ha)⟩

/-- The expressions right below. -/
def Node.operands {ε : Type} : Node ε → List ε
  | .literal _ | .ident _ => []
  | .init _ e | .unary _ e | .cast e | .step _ e | .member e _ | .swizzle e _ => [e]
  | .assign _ a b | .binary _ a b | .index a b => [a, b]
  | .construct args | .call _ args | .intrinsic _ args | .image _ args | .texture _ args => args
  | .select c t f => [c, t, f]

theorem Expr.height_le_heights {e : Expr} : ∀ {es : List Expr}, e ∈ es → e.height ≤ heights es
  | e' :: es, h => by
    rcases mem_cons.1 h with rfl | h
    · exact Nat.le_max_left _ _
    · exact Nat.le_trans (height_le_heights h) (Nat.le_max_right _ _)

theorem Expr.height_pos (e : Expr) : 0 < e.height := by
  obtain ⟨ty, node⟩ := e
  cases node <;> rw [height] <;> omega

theorem Expr.height_operand_lt {e o : Expr} (h : o ∈ e.node.operands) : o.height < e.height := by
  obtain ⟨ty, node⟩ := e
  cases node <;> simp only [Node.operands, mem_cons, not_mem_nil, or_false] at h <;>
    rw [height]
  case construct | call | intrinsic | image | texture => exact Nat.lt_succ_of_le (height_le_heights h)
  all_goals grind

/-- The variable that the node names. -/
def Node.variable? {ε : Type} : Node ε → Option Variable
  | .ident v | .init v _ => some v
  | _ => none

def Ty.result? : Ty → Option Ty
  | .function ret _ => some ret
  | _ => none

/-- The types that are declared for the operation of an expression, beside that of the expression. -/
def Node.declaredTypes {ε : Type} : Node ε → List Ty
  | .literal l => [.scalar l.scalar]
  | .ident v | .init v _ => [v.outermost.ty]
  | .call func _ => func.ty.result?.toList
  | _ => []

/-- All nodes have a value but wide products and stores to images. -/
def Node.yields {ε : Type} : Node ε → Bool
  | .intrinsic f _ => match f.form with
    | .wideProduct _ => false
    | _ => true
  | .image .store _ => false
  | _ => true

namespace Expr

def yields (e : Expr) : Bool := e.node.yields

/-- The types that lowering declares for the expression itself. -/
def declaredTypes (e : Expr) : List Ty := e.ty :: e.node.declaredTypes

/-- The first expression is the second one, or part of one of its operands. -/
inductive Within : Expr → Expr → Prop where
  | self (e : Expr) : Within e e
  | operand {e o part : Expr} (mem : o ∈ e.node.operands) (within : Within part o) : Within part e

/-- The variable is named within the expression. -/
def Uses (e : Expr) (v : Variable) : Prop := ∃ part : Expr, part.Within e ∧ part.node.variable? = some v

theorem Uses.self {e : Expr} {v : Variable} (h : e.node.variable? = some v) : e.Uses v := ⟨e, .self e, h⟩

theorem Uses.operand {e o : Expr} {v : Variable} (ho : o ∈ e.node.operands) (h : o.Uses v) : e.Uses v :=
  let ⟨part, hpart, hv⟩ := h
  ⟨part, .operand ho hpart, hv⟩

end Expr

/-! ## Terms -/

/-- Terms on which expressions are lowered: what they may call, name and declare, and how high they are. -/
structure Terms where
  lenient : Bool
  Calls : String → Prop
  names : Names
  doubles : Bool
  height : Option Nat
  /-- Whether there may be expressions at all, some of which cannot be assigned to. -/
  places : Prop

def Terms.passes (T : Terms) (e : Expr) : Bool := T.lenient || e.yields

/-- The expression is not higher than the terms allow. -/
def Terms.Reaches (T : Terms) (e : Expr) : Prop := ∀ n ∈ T.height, e.height ≤ n

/-- The terms for operands, which are less high. -/
def Terms.below (T : Terms) : Terms := { T with height := T.height.map (· - 1) }

def Terms.naming (N : Names) : Terms := ⟨true, fun _ => True, N, true, none, True⟩

abbrev Terms.any : Terms := .naming .any

/-- The terms that expressions of bounded height meet. -/
def Terms.upTo (limit : Nat) : Terms := { Terms.any with height := some limit }

/-- The terms that expressions meet whose operands have values and that call such functions. -/
def Terms.calling (Calls : String → Prop) : Terms := ⟨false, Calls, .any, true, none, True⟩

instance (N : Names) (ty : Ty) : ty.Allowed (Terms.naming N).doubles := inferInstanceAs (ty.Allowed true)

/-- Instructions that lowering appends to blocks. -/
structure Inst.InBody (inst : Inst) : Prop where
  inBlock : inst.op.standsInBlock
  notVariable : inst.op ≠ .Variable
  fits : inst.matchShape = .ok ()

/-- All that the instruction refers to is known. -/
structure Inst.Grounded (T : Terms) (known : List Known) (inst : Inst) : Prop extends inst.InBody where
  type : ∀ id, inst.resultType = some id → .type id ∈ known
  values : ∀ id ∈ inst.op.values inst.operands, .value id ∈ known
  callee : ∀ id, inst.callee? = some id → ∃ name, T.Calls name ∧ .function name id ∈ known

theorem Inst.Grounded.of_isPlainOf {inst : Inst} {shape : Shape}
    (hop : inst.op.isPlainOf shape) (hfits : inst.op.shape? = some shape → inst.matchShape = .ok ())
    (htype : ∀ id, inst.resultType = some id → .type id ∈ known)
    (hvalues : ∀ id ∈ inst.op.values inst.operands, .value id ∈ known) : inst.Grounded T known := by
  simp only [Op.isPlainOf, Bool.and_eq_true, beq_iff_eq, bne_iff_ne] at hop
  obtain ⟨⟨⟨hblock, hshape⟩, hcall⟩, hvariable⟩ := hop
  refine ⟨⟨hblock, hvariable, hfits hshape⟩, htype, hvalues, fun id hid => ?_⟩
  rw [Inst.callee?, if_neg hcall] at hid
  cases hid

theorem Inst.Grounded.of_isPlain {type id : Id} {operands : List Word} (hop : op.isPlain) (htype : .type type ∈ known)
    (hvalues : ∀ v ∈ op.values operands, .value v ∈ known) : (Inst.value op type id operands).Grounded T known := by
  refine .of_isPlainOf hop (Inst.value_fits type id operands) ?_ hvalues
  rintro _ ⟨⟩
  exact htype

theorem Inst.Grounded.of_isPlainEffect {operands : List Word} (hop : op.isPlainEffect)
    (hvalues : ∀ v ∈ op.values operands, .value v ∈ known) : (Inst.effect op operands).Grounded T known :=
  .of_isPlainOf hop (Inst.effect_fits operands) nofun hvalues

theorem Inst.Grounded.mono {known' : List Known} {inst : Inst}
    (h : inst.Grounded T known) (hknown : known ⊆ known') : inst.Grounded T known' where
  toInBody := h.toInBody
  type id hid := hknown (h.type id hid)
  values id hid := hknown (h.values id hid)
  callee id hid :=
    let ⟨name, hcalls, hname⟩ := h.callee id hid
    ⟨name, hcalls, hknown hname⟩

namespace Expr

/-- The expression keeps to the terms in its operands, calls, names, types and height. -/
structure Meets (T : Terms) (e : Expr) : Prop where
  passes : ∀ part : Expr, part.Within e → ∀ o ∈ part.node.operands, T.passes o
  calls : ∀ part : Expr, part.Within e → ∀ (func : Variable) (args : List Expr),
    part.node = .call func args → T.Calls func.name
  names : ∀ v, e.Uses v → v.NamedIn T.names
  types : ∀ part : Expr, part.Within e → ∀ ty ∈ part.declaredTypes, ty.Allowed T.doubles
  reaches : ∀ part : Expr, part.Within e → ∀ o ∈ part.node.operands, T.Reaches o
  places : T.places

/-- The expression meets the terms, passes as a value and is not too high. -/
structure Operable (T : Terms) (e : Expr) : Prop where
  meets : e.Meets T
  passes : T.passes e
  reaches : T.Reaches e

variable {e : Expr}

theorem Meets.operand (h : e.Meets T) {o : Expr} (ho : o ∈ e.node.operands) : o.Operable T where
  meets :=
    { passes := fun part hpart => h.passes part (.operand ho hpart)
      calls := fun part hpart => h.calls part (.operand ho hpart)
      names := fun v hv => h.names v (.operand ho hv)
      types := fun part hpart => h.types part (.operand ho hpart)
      reaches := fun part hpart => h.reaches part (.operand ho hpart)
      places := h.places }
  passes := h.passes e (.self e) o ho
  reaches := h.reaches e (.self e) o ho

theorem Within.height_le {part : Expr} (h : part.Within e) : part.height ≤ e.height := by
  induction h with
  | self => exact Nat.le_refl _
  | operand ho _ ih => exact Nat.le_trans ih (Nat.le_of_lt (height_operand_lt ho))

theorem Meets.below (h : e.Meets T) (he : T.Reaches e) : e.Meets T.below :=
  { h with
    reaches := fun part hpart o ho n hn => by
      obtain ⟨k, hk, rfl⟩ := Option.map_eq_some_iff.1 hn
      have hlt := height_operand_lt ho
      have hle := hpart.height_le
      have hreach := he k hk
      omega }

theorem Meets.ty (h : e.Meets T) : e.ty.Allowed T.doubles := h.types e (.self e) e.ty mem_cons_self

theorem Meets.node (h : e.Meets T) {ty : Ty} (hty : ty ∈ e.node.declaredTypes) :
    ty.Allowed T.doubles := h.types e (.self e) ty (mem_cons_of_mem _ hty)

theorem Meets.outermost (h : e.Meets T) {v : Variable} (hv : e.Uses v) : v.outermost.ty.Allowed T.doubles := by
  obtain ⟨part, hpart, hvariable⟩ := hv
  refine h.types part hpart _ (mem_cons_of_mem _ ?_)
  cases hnode : part.node <;> rw [hnode] at hvariable <;> cases hvariable <;>
    exact mem_singleton_self _

theorem meets_naming {N : Names} (h : ∀ v, e.Uses v → v.NamedIn N) : e.Meets (.naming N) :=
  ⟨fun _ _ _ _ => rfl, fun _ _ _ _ _ => trivial, h, fun _ _ _ _ => inferInstance, nofun, trivial⟩

theorem meets_any (e : Expr) : e.Meets .any := meets_naming fun _ _ _ => trivial

theorem operable_any (e : Expr) : e.Operable .any := ⟨e.meets_any, rfl, nofun⟩

theorem meets_upTo {limit : Nat} (h : e.height ≤ limit + 1) : e.Meets (.upTo limit) :=
  { e.meets_any with
    reaches := fun part hpart o ho n hn => by
      cases hn
      have hlt := height_operand_lt ho
      have hle := hpart.height_le
      omega }

theorem operable_upTo {limit : Nat} (h : e.height ≤ limit) : e.Operable (.upTo limit) where
  meets := meets_upTo (Nat.le_succ_of_le h)
  passes := rfl
  reaches n hn := by
    cases hn
    exact h

end Expr

/-! ## Paths -/

theorem Variable.outermost_outermost : ∀ v : Variable, v.outermost.outermost = v.outermost
  | .root .. => rfl
  | .member outer .. => outermost_outermost outer

theorem Variable.namedIn_outermost (N : Names) (v : Variable) : v.outermost.NamedIn N ↔ v.NamedIn N := by
  rw [Variable.NamedIn, Variable.outermost_outermost, Variable.NamedIn]

namespace Chain

/-- The indices on a path can be lowered to values, and it begins at a variable that may be named and
declared. -/
structure Operable (T : Terms) (path : Chain) : Prop where
  index : ∀ i, .index i ∈ path.steps → i.Operable T
  named : path.head.NamedIn T.names
  head : path.head.ty.Allowed T.doubles
  outermost : path.head.outermost.ty.Allowed T.doubles

theorem head_ofVariable : ∀ v, (ofVariable v).head = v.outermost
  | .root .. => rfl
  | .member outer .. => head_ofVariable outer

theorem ofVariable_index (i : Expr) : ∀ v, .index i ∉ (ofVariable v).steps
  | .root .., h => nomatch h
  | .member outer .., h => by
    rcases mem_append.1 h with h | h
    · exact ofVariable_index i outer h
    · simp at h

theorem ofVariable_operable {v : Variable} (hv : v.NamedIn T.names)
    [h : v.outermost.ty.Allowed T.doubles] : (ofVariable v).Operable T := by
  refine ⟨fun i hi => absurd hi (ofVariable_index i v), ?_, ?_, ?_⟩
  all_goals rw [head_ofVariable]
  · exact (Variable.namedIn_outermost _ v).2 hv
  · exact h
  · rw [Variable.outermost_outermost]
    exact h

theorem push_operable {path path' : Chain} (step : Step) (hpath : path.Operable T)
    (hstep : ∀ i, step = .index i → i.Operable T) (h : path.push step = .ok path') : path'.Operable T := by
  unfold push at h
  split at h
  · split at h
    · cases h
      refine { hpath with index := fun i hi => ?_ }
      rcases mem_append.1 hi with hi | hi
      · exact hpath.index i (dropLast_subset _ hi)
      · simp at hi
    · cases h
  · cases h
    refine { hpath with index := fun i hi => ?_ }
    rcases mem_append.1 hi with hi | hi
    · exact hpath.index i hi
    · exact hstep i (mem_singleton.1 hi).symm

theorem ofExpr_error {e : Expr} {error : BuildError} (h : ofExpr e = .error error) :
    (Fault.refused error).isOrdinary := by
  have hpush : ∀ (path : Chain) (step : Step), path.push step = .error error → (Fault.refused error).isOrdinary := by
    intro path step hstep
    unfold push at hstep
    split at hstep
    · split at hstep <;> cases hstep
      rfl
    · cases hstep
  fun_induction ofExpr e with
  | case1 => cases h
  | case2 _ outer _ ih | case3 _ outer _ ih | case4 _ outer _ ih =>
    cases houter : ofExpr outer with
    | error error' =>
      rw [houter] at h
      cases h
      exact ih houter
    | ok inner =>
      rw [houter] at h
      dsimp only [bind, Except.bind] at h
      exact hpush inner _ h
  | case5 =>
    cases h
    rfl

theorem exists_push {outer : Expr} {step : Step} {path : Chain} (h : (do (← ofExpr outer).push step) = .ok path) :
    ∃ inner, ofExpr outer = .ok inner ∧ inner.push step = .ok path := by
  cases houter : ofExpr outer with
  | error error =>
    rw [houter] at h
    cases h
  | ok inner =>
    rw [houter] at h
    exact ⟨inner, rfl, h⟩

theorem ofExpr_operable {e : Expr} {path : Chain} (he : e.Meets T) (h : ofExpr e = .ok path) : path.Operable T := by
  fun_induction ofExpr e generalizing path with
  | case1 ty v =>
    cases h
    have := he.outermost (v := v) (.self rfl)
    exact ofVariable_operable (he.names v (.self rfl))
  | case2 ty outer index ih | case3 ty outer index ih | case4 ty outer swizzle ih =>
    obtain ⟨inner, houter, hpush⟩ := exists_push h
    have hinner := ih (he.operand (by simp [Node.operands])).meets houter
    refine push_operable _ hinner ?_ hpush
    rintro i ⟨⟩
    all_goals exact he.operand (by simp [Node.operands])
  | case5 => cases h

end Chain

end Shader
