import Shader.Proofs.Events

/-!
# How deep expressions nest

Lowering refuses to go deeper into an expression than the configuration says. It counts the expressions
that it is in, so it never refuses one that is no higher than the limit. What it lowers may be higher,
since it goes into a path from a variable at once.
-/

namespace Shader

open Action List

/-! ## Permitted expressions -/

/-- Lowering is as deep in expressions as it was, and has not been refused to go any deeper. -/
def Ledger.permitting (limit depth : Nat) : Ledger Lowerer where
  Stands _ _ s := s.module.config.nestingLimit = limit ∧ s.depth = depth
  Ends f := ∀ limit, f ≠ .refused (.tooDeep limit)
  drop h _ _ := h
  ends h limit := by
    rintro rfl
    cases h

theorem tracing_permitting {height limit depth : Nat} (h : depth + height ≤ limit) :
    Tracing (.upTo height) (.permitting limit depth) where
  building s := {
    Building.keeping (P := fun m => m.config.nestingLimit = limit ∧ s.depth = depth)
      fun hm h => ⟨hm.config ▸ h.1, h.2⟩ with }
  emit h _ _ _ := h
  take _ h _ _ _ _ _ _ := h
  deep hs hlimit := by
    have hlt := hlimit height rfl
    rw [hs.1, hs.2] at hlt
    omega
  unassignable _ _ := nofun

namespace Lower

/-- Lowers an expression to its value or to a pointer. -/
def lowerAs : Demand → Expr → Lower Id
  | .value => lower
  | .pointer => lowerPointer

theorem lowerAs_extends (demand : Demand) (e : Expr) (s : Lowerer) : s.Extends (lowerAs demand e s).2 := by
  cases demand with
  | value => exact extends_of_keeps [] (fun L hL => lower_steady hL e.meets_any rfl) rfl
  | pointer => exact extends_of_keeps [] (fun L hL => lowerPointer_steady hL e.meets_any rfl) rfl

theorem lowerAs_depth (demand : Demand) (e : Expr) (s : Lowerer) : (lowerAs demand e s).2.depth = s.depth := by
  cases demand with
  | value => exact depth_of_keeps [] (fun L hL => lower_steady hL e.meets_any rfl) rfl
  | pointer => exact depth_of_keeps [] (fun L hL => lowerPointer_steady hL e.meets_any rfl) rfl

theorem lowerAs_not_tooDeep (demand : Demand) {e : Expr} {s : Lowerer}
    (h : s.depth + e.height ≤ s.module.config.nestingLimit) (limit : Nat) :
    (lowerAs demand e s).1 ≠ .error (.refused (.tooDeep limit)) := by
  have hparts : (partsOf (lowerWithin e.height)).Steady _ _ :=
    partsOf_lowerWithin_steady (tracing_permitting h) fun _ hn => Nat.le_of_eq (Option.some.inj hn).symm
  have he : e.Operable (.upTo e.height) := Expr.operable_upTo (Nat.le_refl _)
  intro hrun
  cases demand with
  | value => exact (hparts.value he []).ends ⟨rfl, rfl⟩ hrun limit rfl
  | pointer => exact (hparts.pointer he []).ends ⟨rfl, rfl⟩ hrun limit rfl

end Lower

/-- The state after expressions were lowered in turn, whether they succeeded or not. -/
def Lowerer.after (s : Lowerer) (requests : List (Demand × Expr)) : Lowerer :=
  requests.foldl (fun s request => (Lower.lowerAs request.1 request.2 s).2) s

theorem Lowerer.after_keeps (requests : List (Demand × Expr)) : ∀ s : Lowerer, (s.after requests).depth = s.depth ∧
      (s.after requests).module.config = s.module.config := by
  induction requests with
  | nil => exact fun s => ⟨rfl, rfl⟩
  | cons request requests ih =>
    intro s
    obtain ⟨hdepth, hconfig⟩ := ih (Lower.lowerAs request.1 request.2 s).2
    exact ⟨hdepth.trans (Lower.lowerAs_depth request.1 request.2 s),
      hconfig.trans (Lower.lowerAs_extends request.1 request.2 s).module.config⟩

/-- Whatever was lowered or refused, lowering is as deep as before, and never refuses an expression for
its nesting that is no higher than what is left of the limit. -/
theorem lowerAs_permitted (s : Lowerer) (earlier : List (Demand × Expr)) : (s.after earlier).depth = s.depth ∧
      ∀ (demand : Demand) (e : Expr), s.depth + e.height ≤ s.module.config.nestingLimit →
        ∀ limit, (Lower.lowerAs demand e (s.after earlier)).1 ≠ .error (.refused (.tooDeep limit)) := by
  obtain ⟨hdepth, hconfig⟩ := Lowerer.after_keeps earlier s
  refine ⟨hdepth, fun demand e he limit => Lower.lowerAs_not_tooDeep demand ?_ limit⟩
  rwa [hdepth, hconfig]

def Lowerer.limited (nestingLimit : Nat) : Lowerer :=
  { Lowerer.inFunction with module := (Workbench.start { nestingLimit }).module }

/-- `-(-n)` is refused where expressions may nest as deep as two, but not `-n` after it. -/
theorem lowerAs_permitted_negated :
    let twice : Expr := .unary .neg (.unary .neg .number)
    (Lower.lowerAs .value twice (.limited 2)).1 = .error (.refused (.tooDeep 2)) ∧
      ((Lowerer.limited 2).after [(.value, twice)]).depth = 0 ∧
      ∀ limit, (Lower.lowerAs .value (.unary .neg .number)
        ((Lowerer.limited 2).after [(.value, twice)])).1 ≠ .error (.refused (.tooDeep limit)) := by
  intro twice
  obtain ⟨hdepth, hpermitted⟩ := lowerAs_permitted (.limited 2) [(.value, twice)]
  exact ⟨rfl, hdepth, hpermitted .value _ (by decide +kernel)⟩

/-! ## What is lowered -/

mutual

/-- The height without literals, where a selection counts as one, and as none if it is written to. -/
def Expr.levels : Expr → Nat
  | ⟨_, .literal _⟩ => 0
  | ⟨_, .ident _⟩ => 1
  | ⟨_, .member e _⟩ | ⟨_, .swizzle e _⟩ | ⟨_, .step _ e⟩ =>
    if e.isChain then e.levels else e.levels + 1
  | ⟨ty, .index array index⟩ =>
    max (if Expr.isChain ⟨ty, .index array index⟩ then array.levels else array.levels + 1) (index.levels + 1)
  | ⟨_, .assign _ lhs rhs⟩ => max (if lhs.isChain then lhs.levels else lhs.levels + 1) (rhs.levels + 1)
  | ⟨_, .init _ e⟩ | ⟨_, .unary _ e⟩ | ⟨_, .cast e⟩ => e.levels + 1
  | ⟨_, .binary _ a b⟩ => max a.levels b.levels + 1
  | ⟨_, .select c t f⟩ => max c.levels (max t.levels f.levels) + 1
  | ⟨_, .construct args⟩ | ⟨_, .image _ args⟩ | ⟨_, .texture _ args⟩ => max 1 (Expr.argLevels [] args)
  | ⟨_, .call func args⟩ => max 1 (Expr.argLevels (Node.call func args).places args)
  | ⟨_, .intrinsic f args⟩ => max 1 (Expr.argLevels (Node.intrinsic f args).places args)

/-- The levels that arguments take. Places are walked on the level of the call. -/
def Expr.argLevels (places : List Bool) : List Expr → Nat
  | [] => 0
  | e :: es => max (if places.headD false && e.isChain then e.levels else e.levels + 1) (argLevels places.tail es)

end

/-- How many levels lowering may still go into. -/
def Lowerer.left (s : Lowerer) : Nat := s.module.config.nestingLimit - s.depth

theorem Lowerer.left_eq {s t : Lowerer} (h : s.Extends t) (hdepth : t.depth = s.depth) : t.left = s.left := by
  rw [left, left, h.module.config, hdepth]

theorem Lower.left_of_keeps {α : Type} {x : Lower α} {gains : α → List Known}
    (hx : ∀ L : Ledger Lowerer, Emitting L → Steady L [] x gains) {s s' : Lowerer} {r : Except Fault α}
    (h : x s = (r, s')) : s'.left = s.left := Lowerer.left_eq (extends_of_keeps [] hx h) (depth_of_keeps [] hx h)

/-- What succeeds only where so many levels are left. -/
def Lower.Takes {α : Type} (x : Lower α) (levels : Nat) : Prop :=
  ∀ ⦃s t : Lowerer⦄ ⦃a : α⦄, x s = (.ok a, t) → levels ≤ s.left

/-- The lowering of parts takes as many levels as the expression has. -/
structure Parts.Bounded (parts : Parts) : Prop where
  regular : parts.Regular
  value : ∀ e, (parts.value e).Takes e.levels
  pointer : ∀ e, (parts.pointer e).Takes e.levels

/-- The visit takes no more than `n` levels. -/
def Visit.Bounded (n : Nat) : Visit → Prop
  | .part e => e.levels ≤ n
  | .own _ => True

theorem Lowerer.Trail.bounded {parts : Parts} (hparts : parts.Bounded) {s t : Lowerer}
    {vs : List Visit} (h : s.Trail parts vs t) : t.left = s.left ∧ ∀ v ∈ vs, v.Bounded s.left := by
  have hpart : ∀ {n : Nat} {e : Expr}, e.levels ≤ n → ∀ v ∈ e.asPart, v.Bounded n := by
    intro n e he v hv
    unfold Expr.asPart at hv
    split at hv
    · cases hv
    · cases mem_singleton.1 hv
      exact he
  induction h with
  | idle h => exact ⟨left_eq h.later h.depth, forall_mem_nil _⟩
  | value h =>
    have hleft := Lower.left_of_keeps (fun L hL => (hparts.regular L hL).value (Expr.operable_any _) []) h
    exact ⟨hleft, hpart (hparts.value _ h)⟩
  | pointer h =>
    have hleft := Lower.left_of_keeps (fun L hL => (hparts.regular L hL).pointer (Expr.operable_any _) []) h
    exact ⟨hleft, hpart (hparts.pointer _ h)⟩
  | own h => exact ⟨left_eq h.later h.depth, forall_mem_singleton.2 trivial⟩
  | trans h h' ih ih' =>
    rw [ih.1] at ih'
    exact ⟨ih'.1, forall_mem_append.2 ⟨ih.2, ih'.2⟩⟩
  | rotate he h ih => exact ⟨ih.1, forall_mem_append.2 (forall_mem_append.1 ih.2).symm⟩

namespace Expr

variable {n : Nat} {e : Expr}

theorem asPart_levels (h : ∀ v ∈ e.asPart, v.Bounded n) : e.levels ≤ n := by
  obtain ⟨ty, node⟩ := e
  cases node with
  | literal => exact Nat.zero_le n
  | _ => exact h _ (mem_singleton.2 rfl)

theorem onPath_levels (hchain : e.isChain) (h : ∀ v ∈ e.onPath, v.Bounded n) : e.levels ≤ n + 1 := by
  fun_induction onPath e with
  | case1 ty outer index ih | case2 ty outer s ih =>
    rw [levels, if_pos (show outer.isChain from hchain)]
    exact ih hchain h
  | case3 ty array i ih =>
    obtain ⟨harray, hi⟩ := forall_mem_append.1 h
    rw [levels, if_pos hchain]
    have hlevels := ih (Bool.and_eq_true_iff.1 hchain).2 harray
    have hindex := asPart_levels hi
    omega
  | case4 e =>
    obtain ⟨ty, node⟩ := e
    cases node with
    | ident v => exact Nat.le_add_left 1 n
    | _ => simp_all [isChain]

theorem asPlace_levels (h : ∀ v ∈ e.asPlace, v.Bounded n) : (if e.isChain then e.levels else e.levels + 1) ≤ n + 1 := by
  unfold asPlace at h
  split at h
  case isTrue hchain =>
    rw [if_pos hchain]
    exact onPath_levels hchain h
  case isFalse hchain =>
    rw [if_neg hchain]
    exact Nat.succ_le_succ (asPart_levels h)

theorem asArgs_levels {places : List Bool} {es : List Expr} (h : ∀ v ∈ asArgs places es, v.Bounded n) :
    argLevels places es ≤ n + 1 := by
  induction es generalizing places with
  | nil => exact Nat.zero_le _
  | cons e es ih =>
    obtain ⟨he, hes⟩ := forall_mem_append.1 h
    refine Nat.max_le.2 ⟨?_, ih hes⟩
    cases hplace : places.headD false <;> rw [hplace] at he
    · exact Nat.succ_le_succ (asPart_levels he)
    · exact asPlace_levels he

theorem visits_levels (h : ∀ v ∈ e.visits, v.Bounded n) : e.levels ≤ n + 1 := by
  have hargs : (∀ v ∈ asArgs e.node.places e.node.operands ++ (if e.isEvent then [.own e] else []), v.Bounded n) →
      argLevels e.node.places e.node.operands ≤ n + 1 := fun h => asArgs_levels (forall_mem_append.1 h).1
  obtain ⟨ty, node⟩ := e
  cases node with
  | ident v => exact Nat.le_add_left 1 n
  | member outer index | swizzle outer s =>
    unfold visits at h
    dsimp only at h
    split at h
    case isTrue hchain => exact onPath_levels hchain h
    case isFalse hchain =>
      rw [levels, if_neg (show ¬outer.isChain from hchain)]
      exact Nat.succ_le_succ (asPart_levels h)
  | index array i =>
    unfold visits at h
    dsimp only at h
    split at h
    case isTrue hchain => exact onPath_levels hchain h
    case isFalse hchain =>
      obtain ⟨harray, hi⟩ := forall_mem_append.1 h
      rw [levels, if_neg hchain]
      exact Nat.max_le.2 ⟨Nat.succ_le_succ (asPart_levels harray), Nat.succ_le_succ (asPart_levels hi)⟩
  | assign op lhs rhs =>
    obtain ⟨hlhs, hrhs⟩ := forall_mem_append.1 h
    exact Nat.max_le.2 ⟨asPlace_levels hlhs, Nat.succ_le_succ (asPart_levels hrhs)⟩
  | step op target => exact asPlace_levels h
  | literal => exact Nat.zero_le _
  | construct | call | intrinsic | image | texture => exact Nat.max_le.2 ⟨Nat.le_add_left 1 n, hargs h⟩
  | _ =>
    have hlevels := hargs h
    simp only [argLevels, Node.places, Node.operands, headD_nil, Bool.false_and, tail_nil] at hlevels
    simp only [levels]
    grind

end Expr

theorem Lower.Takes.bind {α β : Type} {x : Lower α} {f : α → Lower β} {levels : Nat} (hx : x.Takes levels) :
    (x >>= f).Takes levels := fun _ _ _ h =>
  let ⟨_, _, hrun, _⟩ := bind_ok h
  hx hrun

theorem Lower.lowerWithin_takes (height : Nat) (e : Expr) (demand : Demand) :
    (lowerWithin height e demand).Takes e.levels := by
  induction height generalizing e demand with
  | zero => exact fun _ _ _ => nofun
  | succ height ih =>
    intro s s' entity h
    have hparts : (partsOf (lowerWithin height)).Bounded :=
      { regular := partsOf_regular height
        value := fun e => (ih e .value).bind
        pointer := fun e => (ih e .pointer).bind }
    obtain ⟨_, t, ⟨⟩, hlt, hrun, -⟩ := lowerWithin_ok h
    have htrail := node_visits (partsOf_regular height) e demand hrun
    have hlevels : e.levels ≤ s.module.config.nestingLimit - (s.depth + 1) + 1 :=
      Expr.visits_levels (htrail.bounded hparts).2
    rw [Lowerer.left]
    omega

/-! ## Heights -/

namespace Expr

theorem heights_le {k : Nat} : ∀ {es : List Expr}, (∀ e ∈ es, e.height ≤ k) → heights es ≤ k
  | [], _ => Nat.zero_le k
  | _ :: _, h => Nat.max_le.2 ⟨h _ mem_cons_self, heights_le fun e he => h e (mem_cons_of_mem _ he)⟩

theorem height_le {k : Nat} {e : Expr} (h : ∀ o ∈ e.node.operands, o.height ≤ k) : e.height ≤ k + 1 := by
  obtain ⟨ty, node⟩ := e
  cases node <;> rw [height]
  case construct | call | intrinsic | image | texture => exact Nat.succ_le_succ (heights_le h)
  all_goals
    simp only [Node.operands, forall_mem_cons, not_mem_nil, false_implies, implies_true, and_true] at h
    omega

theorem levels_le_argLevels {o : Expr} : ∀ {es : List Expr} (places : List Bool), o ∈ es →
    o.levels ≤ argLevels places es ∧ (o.isChain = false → o.levels < argLevels places es)
  | e :: es, places, ho => by
    rw [argLevels]
    rcases mem_cons.1 ho with rfl | ho
    · grind
    · have hes := levels_le_argLevels places.tail ho
      grind

theorem levels_operand {e o : Expr} (ho : o ∈ e.node.operands) :
    o.levels ≤ e.levels ∧ (e.isChain = false → o.isChain = false → o.levels < e.levels) := by
  obtain ⟨ty, node⟩ := e
  cases node <;> simp only [Node.operands, mem_cons, not_mem_nil, or_false] at ho <;>
    rw [levels]
  case construct | image | texture =>
    have hlevels := levels_le_argLevels [] ho
    grind
  case call func args =>
    have hlevels := levels_le_argLevels (Node.call func args).places ho
    grind
  case intrinsic f args =>
    have hlevels := levels_le_argLevels (Node.intrinsic f args).places ho
    grind
  all_goals grind

theorem height_le_levels (e : Expr) (h : ∀ part : Expr, part.Within e → part.isChain → ∃ v, part.node = .ident v) :
    e.height ≤ e.levels + 1 := by
  have hparts : ∀ o ∈ e.node.operands, o.height ≤ o.levels + 1 := fun o ho =>
    height_le_levels o fun part hpart => h part (.operand ho hpart)
  have hleaf : ∀ {part : Expr}, part.Within e → part.isChain → part.height = 1 ∧ part.levels = 1 := by
    rintro ⟨ty, node⟩ hpart hchain
    obtain ⟨v, rfl⟩ := h _ hpart hchain
    exact ⟨rfl, rfl⟩
  cases he : e.isChain with
  | true =>
    have hheight := hleaf (.self e) he
    omega
  | false =>
    refine height_le fun o ho => ?_
    obtain ⟨hle, hlt⟩ := levels_operand ho
    cases hchain : o.isChain with
    | true =>
      have hheight := hleaf (.operand ho (.self o)) hchain
      omega
    | false => exact Nat.le_trans (hparts o ho) (hlt he hchain)
termination_by e.height
decreasing_by exact height_operand_lt ho

end Expr

/-- An expression is lowered only if its levels are within what is left of the limit. If nothing in it
is selected from a variable, its height is that but for literals. -/
theorem lowerAs_levels {demand : Demand} {e : Expr} {s s' : Lowerer} {id : Id}
    (h : Lower.lowerAs demand e s = (.ok id, s')) : s.depth + e.levels ≤ s.module.config.nestingLimit ∧
      ((∀ part : Expr, part.Within e → part.isChain → ∃ v, part.node = .ident v) →
        s.depth + e.height ≤ s.module.config.nestingLimit + 1) := by
  have hlevels : s.depth + e.levels ≤ s.module.config.nestingLimit := by
    cases demand with
    | value | pointer =>
      obtain ⟨_, _, hentity, -⟩ := bind_ok h
      obtain ⟨-, -, -, hlt, -⟩ := Lower.lowerWithin_ok hentity
      have hlevels : e.levels ≤ s.module.config.nestingLimit - s.depth := Lower.lowerWithin_takes _ e _ hentity
      omega
  refine ⟨hlevels, fun hflat => ?_⟩
  have hheight := e.height_le_levels hflat
  omega

/-- `-n` has no more levels than its height, which is the limit. -/
theorem lowerAs_levels_negated :
    let e : Expr := .unary .neg .number
    (Lower.lowerAs .value e (.limited 2)).1.isOk ∧ e.levels = 2 ∧ e.levels ≤ 2 ∧ e.height ≤ 2 + 1 := by
  intro e
  have hok : (Lower.lowerAs .value e (.limited 2)).1.isOk := by decide +kernel
  obtain ⟨id, h⟩ := exists_ok hok
  obtain ⟨hlevels, hheight⟩ := lowerAs_levels h
  refine ⟨hok, rfl, hlevels, hheight fun part hpart hchain => ?_⟩
  cases hpart with
  | self => cases hchain
  | operand ho hpart =>
    cases mem_singleton.1 ho
    cases hpart with
    | self => exact ⟨_, rfl⟩
    | operand ho => cases ho

/-- `v.xy.x` is of height three, and is lowered although expressions may not nest at all. -/
theorem lowerAs_beyond_limit :
    let e : Expr := ((Expr.ident (.root "v" (typeOfName "v") { functionLocal := true })).lanes "xy").lanes "x"
    (Lower.lowerAs .value e (.limited 1)).1.isOk ∧ (Lowerer.limited 1).module.config.nestingLimit + 1 < e.height := by
  decide +kernel

end Shader
