import Shader.Proofs.ResultType

/-!
# What a chain selects

A nest of selections on a variable is turned into a path, where one swizzle stands for all lanes that
are taken one after the other. Whatever the values of the variable and of the indices are, the path
selects what the nest does.
-/

namespace Shader

open List Swizzle
open Option (bind_eq_some_iff)

variable {α : Type} {s : Swizzle} {path path' : Chain} {e : Expr} {i : Word} {step : Step}

theorem map_of_mapM {β γ : Type} {f : α → Option β} {g : β → Option γ} :
    ∀ {l : List α} {l' : List β}, l.mapM f = some l' → (l.map fun a => (f a).bind g) = l'.map g
  | [], _, h => by
    cases h
    rfl
  | a :: l, _, h => by
    rw [mapM_cons] at h
    obtain ⟨b, hb, h⟩ := bind_eq_some_iff.1 h
    obtain ⟨bs, hbs, h⟩ := bind_eq_some_iff.1 h
    cases h
    rw [map_cons, map_cons, map_of_mapM hbs, hb, Option.bind_some]

theorem Swizzle.lanes_ofLanes? {lanes : List (Fin 4)} (h : ofLanes? lanes = some s) : s.lanes = lanes := by
  unfold ofLanes? at h
  split at h <;> cases h
  rfl

theorem Swizzle.lanes_ofIndices? (h : ofIndices? [i] = some s) : ∃ hi : i.toNat < 4, s.lanes = [⟨i.toNat, hi⟩] := by
  unfold ofIndices? lane? at h
  obtain ⟨lanes, hlanes, hswizzle⟩ := bind_eq_some_iff.1 h
  rw [lanes_ofLanes? hswizzle]
  rw [mapM_cons, mapM_nil] at hlanes
  split at hlanes
  case isTrue hi =>
    cases hlanes
    exact ⟨hi, rfl⟩
  case isFalse => cases hlanes

/-! ## Values -/

/-- Numbers, which can be undefined, several of them side by side, or what is made of parts. -/
inductive Datum (α : Type) where
  | scalar (a : Option α)
  | vector (lanes : List (Option α))
  | composite (parts : List (Datum α))

namespace Datum

def undefined : Datum α := .scalar none

/-- A lane of a vector, if there is such a lane. -/
def lane : Datum α → Nat → Option α
  | .scalar a, 0 => a
  | .vector lanes, i => lanes[i]?.join
  | _, _ => none

/-- A member of a struct or a column. -/
def part : Datum α → Nat → Datum α
  | .composite parts, i => parts.getD i undefined
  | _, _ => undefined

/-- The element at an index that is known at run time only. -/
def element : Datum α → Int → Datum α
  | .composite parts, .ofNat i => parts.getD i undefined
  | d, .ofNat i => .scalar (d.lane i)
  | _, .negSucc _ => undefined

/-- The lanes that a swizzle takes. -/
def pick (d : Datum α) (s : Swizzle) : Datum α :=
  match s.lanes.map fun l => d.lane l.val with
  | [a] => .scalar a
  | lanes => .vector lanes

theorem lane_pick (d : Datum α) (s : Swizzle) (i : Nat) :
    (d.pick s).lane i = s.lanes[i]?.bind fun l => d.lane l.val := by
  have hmap : (s.lanes.map fun l => d.lane l.val)[i]?.join = s.lanes[i]?.bind fun l => d.lane l.val := by
    rw [getElem?_map]
    cases s.lanes[i]? <;> rfl
  rw [← hmap]
  unfold pick
  split
  case h_1 a hlanes =>
    rw [hlanes]
    cases i <;> rfl
  case h_2 => rfl

theorem element_pick (d : Datum α) (s : Swizzle) (i : Nat) : (d.pick s).element i = .scalar ((d.pick s).lane i) := by
  unfold pick
  split <;> rfl

theorem pick_of_compose? {inner s' : Swizzle} (h : s.compose? inner = some s') (d : Datum α) :
    d.pick s' = (d.pick inner).pick s := by
  obtain ⟨lanes, hlanes, hswizzle⟩ := bind_eq_some_iff.1 h
  have hpicked : s.lanes.map (fun l => (d.pick inner).lane l.val) = s'.lanes.map fun l => d.lane l.val := by
    simp only [lane_pick]
    rw [lanes_ofLanes? hswizzle]
    exact map_of_mapM (g := fun l => d.lane l.val) hlanes
  rw [pick, pick, hpicked]

theorem pick_of_index {lane inner s' : Swizzle} (hlane : ofIndices? [i] = some lane)
    (h : lane.compose? inner = some s') (d : Datum α) : d.pick s' = (d.pick inner).element i.toNat := by
  obtain ⟨hi, hlanes⟩ := lanes_ofIndices? hlane
  rw [pick_of_compose? h, element_pick, pick, hlanes]
  rfl

end Datum

/-! ## Selections -/

section

variable (ι : Expr → Int) (d : Datum α)

/-- The value of a variable; that of a member is a part of the value of the outermost one. -/
def Variable.valueFrom : Variable → Datum α
  | .root .. => d
  | .member outer index _ _ => outer.valueFrom.part index.toNat

/-- What an expression selects from the value of the variable in it, with the values of indices. -/
def Expr.valueFrom : Expr → Datum α
  | ⟨_, .ident v⟩ => v.valueFrom d
  | ⟨_, .member outer index⟩ => outer.valueFrom.part index.toNat
  | ⟨_, .index array index⟩ => array.valueFrom.element (ι index)
  | ⟨_, .swizzle outer s⟩ => outer.valueFrom.pick s
  | _ => .undefined

/-- What a step selects. -/
def Step.valueFrom : Step → Datum α
  | .member i _ => d.part i.toNat
  | .index i => d.element (ι i)
  | .swizzle s => d.pick s

/-- What a path selects, step by step. -/
def Chain.valueFrom (path : Chain) : Datum α := path.steps.foldl (Step.valueFrom ι) d

end

/-- Constant indices have the value that they show. -/
def Reads (ι : Expr → Int) : Prop := ∀ i n, i.constantIndex? = some n → ι i = n.toNat

def Step.isSwizzle : Step → Bool
  | .swizzle _ => true
  | _ => false

namespace Chain

variable {ι : Expr → Int}

/-- Swizzles stand nowhere but at the end. -/
def IsFlat (path : Chain) : Prop := ∀ step ∈ path.steps.dropLast, step.isSwizzle = false

theorem ofVariable_valueFrom (d : Datum α) : ∀ v, (ofVariable v).valueFrom ι d = v.valueFrom d
  | .root .. => rfl
  | .member outer .. => by
    rw [Variable.valueFrom, ← ofVariable_valueFrom d outer]
    exact foldl_append ..

theorem ofVariable_isSwizzle : ∀ {v : Variable}, ∀ step ∈ (ofVariable v).steps, step.isSwizzle = false
  | .root .., _, h => nomatch h
  | .member outer .., step, h => by
    rcases mem_append.1 h with h | h
    · exact ofVariable_isSwizzle step h
    · cases mem_singleton.1 h
      rfl

theorem push_cases (h : path.push step = .ok path') : path' = ⟨path.head, path.steps ++ [step]⟩ ∧
        (∀ last, path.steps.getLast? = some last → last.isSwizzle = false) ∨
      ∃ steps inner composed, path.steps = steps ++ [.swizzle inner] ∧
        afterSwizzle? inner step = some composed ∧ path' = ⟨path.head, steps ++ [.swizzle composed]⟩ := by
  have hpush := h
  unfold push at h
  split at h
  case h_1 inner hlast =>
    have hends := (dropLast_append_getLast? _ hlast).symm
    obtain ⟨composed, hcomposed, rfl⟩ := eq_of_push_swizzle hends hpush
    exact .inr ⟨_, inner, composed, hends, hcomposed, rfl⟩
  case h_2 hlast =>
    cases h
    refine .inl ⟨rfl, fun last h => ?_⟩
    cases last with
    | swizzle s => exact absurd h (hlast s)
    | _ => rfl

theorem push_isFlat (h : path.push step = .ok path') (hflat : path.IsFlat) : path'.IsFlat := by
  rcases push_cases h with ⟨rfl, hlast⟩ | ⟨steps, inner, composed, hends, -, rfl⟩
  · rw [IsFlat, dropLast_concat]
    intro s hs
    rcases eq_nil_or_concat path.steps with hnil | ⟨before, last, hconcat⟩
    · rw [hnil] at hs
      cases hs
    · rw [IsFlat, hconcat, concat_eq_append, dropLast_concat] at hflat
      rw [hconcat, concat_eq_append, mem_append, mem_singleton] at hs
      rcases hs with hs | rfl
      · exact hflat s hs
      · exact hlast s (by simp [hconcat])
  · rw [IsFlat, hends, dropLast_concat] at hflat
    rw [IsFlat, dropLast_concat]
    exact hflat

theorem push_valueFrom (hι : Reads ι) (h : path.push step = .ok path') (d : Datum α) :
    path'.valueFrom ι d = step.valueFrom ι (path.valueFrom ι d) := by
  rcases push_cases h with ⟨rfl, -⟩ | ⟨steps, inner, composed, hends, hcomposed, rfl⟩
  · exact foldl_append ..
  · have hinner : path.valueFrom ι d = (steps.foldl (Step.valueFrom ι) d).pick inner := by
      rw [valueFrom, hends, foldl_append]
      rfl
    rw [valueFrom, foldl_append, hinner]
    cases step with
    | member => cases hcomposed
    | swizzle s => exact Datum.pick_of_compose? hcomposed _
    | index i =>
      obtain ⟨n, hn, hcomposed⟩ := bind_eq_some_iff.1 hcomposed
      obtain ⟨lane, hlane, hcomposed⟩ := bind_eq_some_iff.1 hcomposed
      rw [Step.valueFrom, hι i n hn]
      exact Datum.pick_of_index hlane hcomposed _

theorem ofExpr_isFlat (h : ofExpr e = .ok path) : path.IsFlat := by
  fun_induction ofExpr e generalizing path with
  | case1 ty v =>
    cases h
    exact fun step hstep => ofVariable_isSwizzle step (dropLast_subset _ hstep)
  | case2 ty outer i ih | case3 ty outer i ih | case4 ty outer s ih =>
    obtain ⟨inner, hinner, hpush⟩ := exists_push h
    exact push_isFlat hpush (ih hinner)
  | case5 => cases h

theorem ofExpr_valueFrom (hι : Reads ι) (h : ofExpr e = .ok path) (d : Datum α) :
    path.valueFrom ι d = e.valueFrom ι d := by
  fun_induction ofExpr e generalizing path with
  | case1 ty v =>
    cases h
    exact ofVariable_valueFrom d v
  | case2 ty outer i ih | case3 ty outer i ih | case4 ty outer s ih =>
    obtain ⟨inner, hinner, hpush⟩ := exists_push h
    rw [Expr.valueFrom, push_valueFrom hι hpush, ih hinner]
    rfl
  | case5 => cases h

end Chain

/-! ## Which expressions have a path -/

/-- A nest of members, elements and lanes of one variable. -/
inductive Expr.Selects (v : Variable) : Expr → Prop where
  | ident : Selects v (.ident v)
  | member {outer e : Expr} (index : Word) (inner : Selects v outer) (made : outer.member? index = some e) : Selects v e
  | index {array e : Expr} (index : Expr) (inner : Selects v array) (made : array.index? index = some e) : Selects v e
  | swizzle {outer e : Expr} (letters : String) (inner : Selects v outer)
      (made : outer.swizzle? letters = some e) : Selects v e

/-- Whether every literal index directly into a swizzle is one of its lanes. -/
def Expr.indexesLanes : Expr → Bool
  | ⟨_, .member outer _⟩ | ⟨_, .swizzle outer _⟩ => outer.indexesLanes
  | ⟨_, .index array index⟩ =>
    array.swizzleLength?.all (fun n => !index.isIntegerLiteral || index.constantIndex?.any (·.toNat < n)) &&
      array.indexesLanes
  | _ => true

theorem Expr.isIntegerLiteral_of_constantIndex? {i : Expr} {n : Word} (h : i.constantIndex? = some n) :
    i.isIntegerLiteral := by
  unfold constantIndex? at h
  unfold isIntegerLiteral
  split at h <;> simp_all

theorem Expr.eq_of_member? {outer : Expr} (h : outer.member? i = some e) : ∃ ty, e = ⟨ty, .member outer i⟩ := by
  unfold member? at h
  split at h
  · obtain ⟨m, -, rfl⟩ := Option.map_eq_some_iff.1 h
    exact ⟨m.ty, rfl⟩
  · cases h

theorem Expr.eq_of_index? {array i : Expr} (h : array.index? i = some e) : ∃ ty, e = ⟨ty, .index array i⟩ := by
  unfold index? at h
  split at h <;> cases h <;> exact ⟨_, rfl⟩

theorem Expr.lanes_of_swizzle? {outer : Expr} {letters : String} {inner : Swizzle} {ty : Ty}
    {scalar : Scalar} (h : outer.swizzle? letters = some ⟨ty, .swizzle outer s⟩)
    (hty : outer.ty = inner.typeOf scalar) : ∀ l ∈ s.lanes, l.val < inner.length := by
  have hless : ∀ {n : Nat}, n ≤ 4 → ¬ s.components.any (n.toUInt32 ≤ ·) → ∀ l ∈ s.lanes, l.val < n := by
    intro n hn hsize l hl
    rw [any_eq_true] at hsize
    have hlane : ¬ n.toUInt32 ≤ l.val.toUInt32 := fun hle => hsize ⟨_, mem_map_of_mem hl, decide_eq_true hle⟩
    rw [UInt32.le_iff_toNat_le] at hlane
    simp only [Nat.toUInt32_eq, UInt32.toNat_ofNat'] at hlane
    omega
  obtain ⟨s', -, h⟩ := bind_eq_some_iff.1 h
  dsimp only at h
  split at h
  case h_3 => cases h
  all_goals
    rename_i hvector
    obtain ⟨p, hp, h⟩ := bind_eq_some_iff.1 h
    cases hp
    rw [hty, typeOf] at hvector
    split at hvector <;> cases hvector
    split at h <;> cases h
    rename_i hlength hsize _
  · exact hless inner.atMostFour hsize
  · rw [of_decide_eq_true hlength]
    exact hless (by decide) hsize

namespace Swizzle

variable {inner : Swizzle}

theorem exists_compose? (h : ∀ l ∈ s.lanes, l.val < inner.length) : ∃ s', s.compose? inner = some s' := by
  obtain ⟨lanes, hlanes, hlength, -⟩ := exists_mapM (l := s.lanes) (f := fun l => inner.lanes[l.val]?)
    (P := fun _ => True) fun l hl => ⟨_, getElem?_eq_getElem (h l hl), trivial⟩
  have hmost := s.atMostFour
  have hsome := length_pos_iff.2 s.nonempty
  have hfour : lanes ≠ [] ∧ lanes.length ≤ 4 := ⟨length_pos_iff.1 (by omega), by omega⟩
  exact ⟨⟨lanes, hfour.1, hfour.2⟩, by rw [compose?, hlanes, Option.bind_some, ofLanes?, dif_pos hfour]⟩

theorem exists_ofIndices? (h : i.toNat < 4) :
    ofIndices? [i] = some ⟨[⟨i.toNat, h⟩], cons_ne_nil _ _, Nat.le_of_ble_eq_true rfl⟩ := by
  simp [ofIndices?, lane?, h, ofLanes?]

end Swizzle

namespace Chain

theorem length_afterSwizzle? {i : Expr} {inner composed : Swizzle}
    (h : afterSwizzle? inner (.index i) = some composed) :
    composed.length = 1 ∧ ∃ n, i.constantIndex? = some n ∧ n.toNat < inner.length := by
  obtain ⟨n, hn, hcomposed⟩ := bind_eq_some_iff.1 h
  obtain ⟨lane, hlane, hcomposed⟩ := bind_eq_some_iff.1 hcomposed
  refine ⟨(length_compose? hcomposed).trans (length_ofIndices? hlane), n, hn, ?_⟩
  obtain ⟨hi, hlanes⟩ := lanes_ofIndices? hlane
  obtain ⟨lanes, hmapM, -⟩ := bind_eq_some_iff.1 hcomposed
  rw [hlanes, mapM_cons] at hmapM
  obtain ⟨l, hl, -⟩ := bind_eq_some_iff.1 hmapM
  exact (List.getElem?_eq_some_iff.1 hl).1

theorem ofExpr_ends (h : ofExpr e = .ok path) {n : Nat} (hn : e.swizzleLength? = some n) :
    ∃ steps s, path.steps = steps ++ [.swizzle s] ∧ s.length = n := by
  obtain ⟨ty, node⟩ := e
  cases node with
  | swizzle outer s =>
    cases hn
    obtain ⟨inner, -, hpush⟩ := exists_push h
    rcases push_cases hpush with ⟨rfl, -⟩ | ⟨steps, inner, composed, -, hcomposed, rfl⟩
    · exact ⟨_, s, rfl, rfl⟩
    · exact ⟨steps, composed, rfl, length_compose? hcomposed⟩
  | _ => cases hn

theorem isChain_of_ofExpr (h : ofExpr e = .ok path) : e.isChain ∧ e.indexesLanes := by
  fun_induction ofExpr e generalizing path with
  | case1 ty v => exact ⟨rfl, rfl⟩
  | case2 ty outer i ih | case4 ty outer s ih =>
    obtain ⟨inner, hinner, -⟩ := exists_push h
    exact ih hinner
  | case3 ty array i ih =>
    obtain ⟨inner, hinner, hpush⟩ := exists_push h
    obtain ⟨hchain, hlanes⟩ := ih hinner
    rw [Expr.isChain, Expr.indexesLanes, hchain, hlanes, Bool.and_true, Bool.and_true]
    cases hn : array.swizzleLength? with
    | none => exact ⟨rfl, rfl⟩
    | some n =>
      obtain ⟨steps, s, hends, rfl⟩ := ofExpr_ends hinner hn
      obtain ⟨composed, hcomposed, -⟩ := eq_of_push_swizzle hends hpush
      obtain ⟨-, number, hnumber, hlt⟩ := length_afterSwizzle? hcomposed
      simp [Expr.isIntegerLiteral_of_constantIndex? hnumber, hnumber, hlt]
  | case5 => cases h

/-- The type is that of as many lanes, which are those of a swizzle if they are several. -/
def EndsIn (s : Swizzle) (e : Expr) : Prop :=
  ∃ scalar, e.ty = s.typeOf scalar ∧ (s.isSingle = false → e.swizzleLength? = some s.length)

/-- Lanes that are taken at the end of the path are those that the expression ends in. -/
def Fits (path : Chain) (e : Expr) : Prop := ∀ steps s, path.steps = steps ++ [.swizzle s] → EndsIn s e

theorem exists_push_fits (path : Chain) (step : Step) (hstep : ∀ s, step = .swizzle s → EndsIn s e)
    (hafter : ∀ steps s, path.steps = steps ++ [.swizzle s] →
      ∃ composed, afterSwizzle? s step = some composed ∧ EndsIn composed e) :
    ∃ path', path.push step = .ok path' ∧ path'.head = path.head ∧ path'.Fits e := by
  unfold push
  split
  case h_1 inner hlast =>
    obtain ⟨composed, hcomposed, hends⟩ := hafter _ inner (dropLast_append_getLast? _ hlast).symm
    refine ⟨{ path with steps := path.steps.dropLast ++ [.swizzle composed] }, by rw [hcomposed], rfl,
      fun steps s hsteps => ?_⟩
    cases singleton_inj.1 (append_inj' hsteps rfl).2
    exact hends
  case h_2 =>
    refine ⟨_, rfl, rfl, fun steps s hsteps => hstep s ?_⟩
    exact singleton_inj.1 (append_inj' hsteps rfl).2

theorem exists_afterSwizzle? {ty : Ty} {array i : Expr} (hdirect : (⟨ty, .index array i⟩ : Expr).isChain)
    (hrange : (⟨ty, .index array i⟩ : Expr).indexesLanes) (hends : EndsIn s array)
    (hinto : (Step.index i).into? array.ty = some ty) :
    ∃ composed, afterSwizzle? s (.index i) = some composed ∧ EndsIn composed ⟨ty, .index array i⟩ := by
  obtain ⟨scalar, hty, hlength⟩ := hends
  rw [hty, typeOf] at hinto
  split at hinto <;> cases hinto
  rename_i hseveral
  have hmany : 1 < s.length := Nat.lt_of_le_of_ne (length_pos_iff.2 s.nonempty)
    fun hone => hseveral (decide_eq_true hone.symm)
  replace hdirect := (Bool.and_eq_true_iff.1 hdirect).1
  replace hrange := (Bool.and_eq_true_iff.1 hrange).1
  rw [hlength (by simpa using hseveral)] at hdirect hrange
  simp only [Option.any_some, hmany, decide_true, Bool.true_and, Bool.not_not] at hdirect
  simp only [Option.all_some, hdirect, Bool.not_true, Bool.false_or, Option.any_eq_true,
    decide_eq_true_eq] at hrange
  obtain ⟨n, hn, hlt⟩ := hrange
  have hfour : n.toNat < 4 := Nat.lt_of_lt_of_le hlt s.atMostFour
  let lane : Swizzle := ⟨[⟨n.toNat, hfour⟩], by simp, by simp⟩
  have hlane : ∀ l ∈ lane.lanes, l.val < s.length := by simpa [lane] using hlt
  obtain ⟨composed, hcomposed⟩ := exists_compose? hlane
  have hafter : afterSwizzle? s (.index i) = some composed := by
    simp [afterSwizzle?, hn, exists_ofIndices? hfour, hcomposed, lane]
  have hone : composed.isSingle := decide_eq_true (length_afterSwizzle? hafter).1
  exact ⟨composed, hafter, scalar, (if_pos hone).symm, by simp [hone]⟩

theorem exists_ofExpr {v : Variable} (he : e.Selects v) (hchain : e.isChain) (hlanes : e.indexesLanes) :
    ∃ path, ofExpr e = .ok path ∧ path.head = v.outermost ∧ path.Fits e := by
  induction he with
  | ident =>
    refine ⟨ofVariable v, rfl, head_ofVariable v, fun steps s hends => ?_⟩
    have hstep := ofVariable_isSwizzle (v := v) (.swizzle s) (by rw [hends]; simp)
    cases hstep
  | @member outer e i _ made ih =>
    obtain ⟨ty, rfl⟩ := Expr.eq_of_member? made
    obtain ⟨path, hpath, hhead, hfits⟩ := ih hchain hlanes
    have hinto := Expr.into?_of_member? made none
    obtain ⟨path', hpush, hsame, hfits'⟩ := path.exists_push_fits (.member i none)
      (e := ⟨ty, .member outer i⟩) (fun _ hs => by cases hs) fun steps s hends => by
        obtain ⟨scalar, hty, -⟩ := hfits steps s hends
        rw [hty, typeOf] at hinto
        split at hinto <;> cases hinto
    exact ⟨path', by rw [ofExpr, hpath]; exact hpush, hsame.trans hhead, hfits'⟩
  | @index array e i _ made ih =>
    obtain ⟨ty, rfl⟩ := Expr.eq_of_index? made
    obtain ⟨path, hpath, hhead, hfits⟩ := ih (Bool.and_eq_true_iff.1 hchain).2 (Bool.and_eq_true_iff.1 hlanes).2
    obtain ⟨path', hpush, hsame, hfits'⟩ := path.exists_push_fits (.index i) (fun _ hs => by cases hs)
      fun steps s hends => exists_afterSwizzle? hchain hlanes (hfits steps s hends) (Expr.into?_of_index? made)
    exact ⟨path', by rw [ofExpr, hpath]; exact hpush, hsame.trans hhead, hfits'⟩
  | @swizzle outer e letters _ made ih =>
    obtain ⟨s', scalar, -, rfl⟩ := Expr.eq_of_swizzle? made
    obtain ⟨path, hpath, hhead, hfits⟩ := ih hchain hlanes
    have hends : ∀ {s : Swizzle}, s.length = s'.length → EndsIn s ⟨s'.typeOf scalar, .swizzle outer s'⟩ :=
      fun h => ⟨scalar, typeOf_congr h.symm scalar, fun _ => congrArg some h.symm⟩
    obtain ⟨path', hpush, hsame, hfits'⟩ := path.exists_push_fits (.swizzle s')
      (fun s hs => hends (by cases hs; rfl)) fun steps s hlast => by
        obtain ⟨_, hty, -⟩ := hfits steps s hlast
        obtain ⟨composed, hcomposed⟩ := exists_compose? (Expr.lanes_of_swizzle? made hty)
        exact ⟨composed, hcomposed, hends (length_compose? hcomposed)⟩
    exact ⟨path', by rw [ofExpr, hpath]; exact hpush, hsame.trans hhead, hfits'⟩

end Chain

/-- A nest of selections has a path exactly if it is a chain and its literal indices into swizzles are
lanes of these. The path starts at the outermost variable, swizzles at most at its end, and selects what
the nest does. -/
theorem ofExpr_faithful {v : Variable} {e : Expr} (he : e.Selects v) :
    ((∃ path, Chain.ofExpr e = .ok path) ↔ e.isChain ∧ e.indexesLanes) ∧ ∀ path, Chain.ofExpr e = .ok path →
        path.head = v.outermost ∧ (∀ step ∈ path.steps.dropLast, step.isSwizzle = false) ∧
        ∀ {α : Type} {ι : Expr → Int} (d : Datum α), Reads ι → path.valueFrom ι d = e.valueFrom ι d := by
  refine ⟨⟨?_, ?_⟩, fun path h => ?_⟩
  · rintro ⟨path, h⟩
    exact Chain.isChain_of_ofExpr h
  · rintro ⟨hchain, hlanes⟩
    obtain ⟨path, h, -⟩ := Chain.exists_ofExpr he hchain hlanes
    exact ⟨path, h⟩
  · obtain ⟨hchain, hlanes⟩ := Chain.isChain_of_ofExpr h
    obtain ⟨path', h', hhead, -⟩ := Chain.exists_ofExpr he hchain hlanes
    cases h.symm.trans h'
    exact ⟨hhead, Chain.ofExpr_isFlat h, fun d hι => Chain.ofExpr_valueFrom hι h d⟩

def Variable.rows : Variable :=
  .member (.root "b" (.struct "B" .std430 [⟨"m", .array (.vector .float 4) (some 2), 0, none⟩]) {}) 0 "m"
    (.array (.vector .float 4) (some 2))

/-- `m[n].wzyx.xz[1]`, which is `m[n].y`. -/
def Expr.laneOfLanes : Expr :=
  let row : Expr := ⟨.vector .float 4, .index (.ident .rows) .number⟩
  ⟨.scalar .float, .index ((row.lanes "wzyx").lanes "xz") (.literal (.int 1))⟩

def indicesFrom (rest : Int) (i : Expr) : Int := (i.constantIndex?.map fun n => (n.toNat : Int)).getD rest

theorem reads_indicesFrom (rest : Int) : Reads (indicesFrom rest) := by
  intro i n hn
  rw [indicesFrom, hn]
  rfl

theorem lane_of_lanes_faithful :
    Expr.laneOfLanes.Selects .rows ∧ Expr.laneOfLanes.isChain ∧ Expr.laneOfLanes.indexesLanes ∧
      Reads (indicesFrom 1) ∧ ∃ path, Chain.ofExpr .laneOfLanes = .ok path ∧ path.head.name = "b" ∧
        ∀ a b c d : Option Nat, path.valueFrom (indicesFrom 1)
          (.composite [.composite [.undefined, .vector [a, b, c, d]]]) = .scalar b := by
  have hselects : Expr.laneOfLanes.Selects .rows :=
    .index _ (.swizzle "xz" (.swizzle "wzyx" (.index .number .ident rfl) rfl) rfl) rfl
  obtain ⟨hpath, hfaithful⟩ := ofExpr_faithful hselects
  obtain ⟨path, h⟩ := hpath.2 ⟨by decide, by decide⟩
  obtain ⟨hhead, -, hvalue⟩ := hfaithful path h
  refine ⟨hselects, by decide, by decide, reads_indicesFrom 1, path, h, by rw [hhead]; rfl, ?_⟩
  intro a b c d
  rw [hvalue _ (reads_indicesFrom 1)]
  rfl

end Shader
