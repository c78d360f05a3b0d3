import Shader.Proofs.Arguments
import Shader.Proofs.Continued

/-!
# Copies of arguments

What a call writes to goes through a local copy unless it stands in local storage. The copy is a new
variable that nothing else knows of: it is written before the call if the function reads it, and read
once after the call, when its value goes to where the argument stands.
-/

namespace Shader

open Action List

variable {code : List Inst} {id : Id} {s s' : Lowerer} {α : Type}

/-- The instruction uses the identifier as a value. -/
def Inst.uses (id : Id) (inst : Inst) : Bool := decide (id ∈ inst.op.values inst.operands)

theorem Inst.uses_store (copy value : Id) : (Inst.effect .Store [copy, value]).uses copy := decide_eq_true mem_cons_self

theorem Inst.uses_load (type id pointer : Id) : (Inst.value .Load type id [pointer]).uses pointer :=
  decide_eq_true mem_cons_self

theorem filter_uses_eq_nil
    (h : ∀ inst ∈ code, ∀ v ∈ inst.op.values inst.operands, v ≠ id) : code.filter (·.uses id) = [] :=
  filter_eq_nil_iff.2 fun inst hinst huses => h inst hinst id (of_decide_eq_true huses) rfl

/-- Everything is known but the identifier `c`, which is neither old nor new. -/
def Ledger.sparing (c : Id) (old : List Id) (first : Id) : Ledger Lowerer where
  Stands held known s :=
    ((Ledger.traced (· ≠ c)).framed [] s.func.locals.known (.issued old first)).Stands held known s.module
  drop {_ _ _ _ s} h := ((Ledger.traced (· ≠ c)).framed [] s.func.locals.known (.issued old first)).drop h

section

variable {c first : Id} {old : List Id} {held : List Id} {id : Id}

theorem Issued.ne {m : Module} (h : Issued old first held m) (hold : c ∉ old) (hfirst : c < first)
    (hid : id ∈ held ++ m.ids) : id ≠ c := by
  rintro rfl
  rcases h.sourced id hid with hid | ⟨hle, -⟩
  · exact hold hid
  · exact UInt32.lt_irrefl _ (UInt32.lt_of_lt_of_le hfirst hle)

theorem Issued.tail {m : Module} (h : Issued old first (id :: held) m) : Issued old first held m :=
  h.moved (subset_cons_self _ _) rfl

theorem emitting_sparing (hold : c ∉ old) (hfirst : c < first) (hc : c ≠ noResult) :
    Emitting (.sparing c old first) where
  building s := (building_traced _).framed [] s.func.locals.known (building_issued old first)
  noResult _ h := ⟨h.1.know_after _ (.inl hc.symm), h.2⟩
  locals h := ⟨(Ledger.traced _).drop h.1 (Subperm.refl _) (by simp), h.2⟩
  emit {held known s next inst} h hadd _ _ := by
    have hissued := h.2.fresh hadd
    exact ⟨(h.1.fresh hadd).know_after _ (.inl (hissued.ne hold hfirst mem_cons_self)), hissued.tail⟩
  queue pointer h := ⟨h.1.know_after _ (.inl (h.2.ne hold hfirst mem_cons_self)), h.2.tail⟩
  take {held known s name ty e} pointer h he _ _ _ _ _ := by
    refine ⟨?_, h.2.tail⟩
    have hknown := h.1.know (k := .value e.id) (.inl (h.2.ne hold hfirst mem_cons_self))
    exact ⟨hknown.closed, fun k hk => hknown.known k (taken_known_subset _ name _ he hk)⟩

theorem Ledger.sparing_ne (hold : c ∉ old) (hfirst : c < first) {known : List Known}
    (h : (Ledger.sparing c old first).Stands held known s) (hid : .value id ∈ known) : id ≠ c := by
  rcases h.1.known _ (mem_append_right _ hid) with hne | himport | hdeclared
  · exact hne
  · exact h.2.ne hold hfirst (by simp [Module.ids, himport])
  · exact h.2.ne hold hfirst (by simp [Module.ids, hdeclared])

end

/-! ## Values in code -/

/-- A ledger, and what it says of the values that instructions from the `n`-th on refer to. -/
def Ledger.coding (L : Ledger Lowerer) (P : Id → Id → Prop) (n : Nat) : Ledger Lowerer where
  Stands held known s := L.Stands held known s ∧
    ∀ inst ∈ s.block.instructions.drop n, ∀ v ∈ inst.op.values inst.operands, P s.module.bound v
  drop h hheld hknown := ⟨L.drop h.1 hheld hknown, h.2⟩

theorem forall_drop_snoc {p : α → Prop} {l : List α} {n : Nat} (h : ∀ a ∈ l.drop n, p a) {a : α}
    (ha : p a) : ∀ b ∈ (l ++ [a]).drop n, p b := by
  intro b hb
  rw [drop_append, mem_append] at hb
  rcases hb with hb | hb
  · exact h b hb
  · rw [mem_singleton.1 (mem_of_mem_drop hb)]
    exact ha

theorem emitting_coding {L : Ledger Lowerer} (hL : Emitting L) {P : Id → Id → Prop}
    (hP : ∀ {held known} {s : Lowerer}, L.Stands held known s → ∀ v, .value v ∈ known → P s.module.bound v)
    (hmono : ∀ {a b v : Id}, a ≤ b → P a v → P b v) (n : Nat) : Emitting (L.coding P n) where
  building s := (hL.building s).framed [] [] (.keeping (P := fun m => ∀ inst ∈ s.block.instructions.drop n,
      ∀ v ∈ inst.op.values inst.operands, P m.bound v)
      fun hm h inst hinst v hv => hmono hm.bound (h inst hinst v hv))
  noResult hlenient h := ⟨hL.noResult hlenient h.1, h.2⟩
  locals h := ⟨hL.locals h.1, h.2⟩
  emit h hadd hresult hinst := by
    have hle := Word.le_of_add_one hadd
    refine ⟨hL.emit h.1 hadd hresult hinst, forall_drop_snoc (fun i hi v hv => hmono hle (h.2 i hi v hv)) ?_⟩
    exact fun v hv => hmono hle (hP h.1 v (hinst.values v hv))
  effect h hresult hinst := ⟨hL.effect h.1 hresult hinst, forall_drop_snoc h.2 fun v hv => hP h.1 v (hinst.values v hv)⟩
  queue pointer h := ⟨hL.queue pointer h.1, h.2⟩
  take pointer h htype hname hfinds hstorage habsent hpointer :=
    ⟨hL.take pointer h.1 htype hname hfinds hstorage habsent hpointer, h.2⟩

/-- The invariants that hold of a lowerer between two steps. -/
structure Lowerer.Intact (s : Lowerer) : Prop where
  sound : (Ledger.sound.lowering fun _ => True).Stands [] [] s
  final : s.Final
  traced : ((Ledger.traced fun _ => True).lowering FunctionScope.Placed).Stands [] [] s

/-- The steps of lowering that hold for every ledger, and what they make known. -/
def Lower.Regular {α : Type} (x : Lower α) (gains : α → List Known) : Prop :=
  ∀ L : Ledger Lowerer, Emitting L → Steady L [] x gains

namespace Lower.Regular

variable {α : Type} {x : Lower α} {gains : α → List Known} {s s' : Lowerer} {a : α}

theorem intact (hx : Regular x gains) (hs : s.Intact) (h : x s = (.ok a, s')) : s'.Intact := by
  have hend : ∀ {L : Ledger Lowerer}, Emitting L → L.Stands [] [] s → L.Stands [] [] s' := by
    intro L hL hL'
    have hafter := (hx L hL).after_nil (nil_subset _) hL'
    rwa [h] at hafter
  exact ⟨hend running_sound.emitting hs.sound, hend running_distinct.emitting hs.final,
    hend running_traced.emitting hs.traced⟩

theorem later (hx : Regular x gains) (h : x s = (.ok a, s')) : s.Extends s' := extends_of_keeps [] hx h

theorem values (hx : Regular x gains) {L : Ledger Lowerer} (hL : Emitting L) {P : Id → Id → Prop}
    (hP : ∀ {held known} {s : Lowerer}, L.Stands held known s → ∀ v, .value v ∈ known → P s.module.bound v)
    (hmono : ∀ {a b v : Id}, a ≤ b → P a v → P b v) (hs : L.Stands [] [] s)
    (h : x s = (.ok a, s')) : ∃ code, s'.block.instructions = s.block.instructions ++ code ∧
      (∀ inst ∈ code, ∀ v ∈ inst.op.values inst.operands, P s'.module.bound v) ∧ L.Stands [] (gains a) s' := by
  obtain ⟨code, hcode⟩ := (hx.later h).code
  have hend := (hx _ (emitting_coding hL hP hmono s.block.instructions.length)).of_ok_nil h (nil_subset _) ⟨hs, by simp⟩
  refine ⟨code, hcode.symm, ?_, by simpa using hend.1⟩
  have hvalues := hend.2
  rwa [← hcode, drop_left] at hvalues

theorem values_lt (hx : Regular x gains) (hs : s.Intact) (h : x s = (.ok a, s')) :
    ∃ code, s'.block.instructions = s.block.instructions ++ code ∧
      (∀ inst ∈ code, ∀ v ∈ inst.op.values inst.operands, v < s'.module.bound) ∧
      ∀ v, .value v ∈ gains a → v < s'.module.bound := by
  have hbelow : ∀ {held known} {s : Lowerer}, (Ledger.sound.lowering fun _ => True).Stands held known s →
      ∀ v, .value v ∈ known → v < s.module.bound :=
    fun h v hv => h.1.2.known (.value v) (mem_append_right _ hv)
  obtain ⟨code, hcode, hvalues, hend⟩ := hx.values running_sound.emitting (P := fun bound v => v < bound)
    hbelow (fun hle hlt => UInt32.lt_of_lt_of_le hlt hle) hs.sound h
  exact ⟨code, hcode, hvalues, hbelow hend⟩

end Lower.Regular

/-! ## Code at places -/

/-- The code that reads the place into `value`: a load, and a shuffle where lanes are taken. -/
inductive Place.ReadBy (p : Place) (value : Id) : List Inst → Prop where
  | whole (swizzle : p.swizzle = none) : ReadBy p value [.value .Load p.entity.type value [p.entity.id]]
  | lanes {s : Swizzle} {type vector : Id} (swizzle : p.swizzle = some s) :
      ReadBy p value [.value .Load p.entity.type vector [p.entity.id],
        .value .VectorShuffle type value ([vector, vector] ++ s.components)]

/-- The instructions that write the value of the place to the copy, if it is read. -/
inductive Place.CopiedBy (p : Place) (copy : Id) : Bool → List Inst → List Inst → Prop where
  | unread : CopiedBy p copy false [] []
  | read {value : Id} {reading : List Inst} (reads : p.ReadBy value reading) :
      CopiedBy p copy true reading [.effect .Store [copy, value]]

/-- The mask takes the lanes from a value and the other components from the vector that they are
written to. -/
def Swizzle.MergedBy (s : Swizzle) (size : Word) (mask : List Word) : Prop :=
  ∀ whole part : List Atom, size.toNat = whole.length → whole.length ≤ 4 → part.length = s.length →
    (∀ lane ∈ s.lanes, lane.val < whole.length) → shuffle? (whole ++ part) mask =
      some ((s.lanes.zip part).foldl (fun w p => w.set p.1.val p.2) whole)

/-- The code that writes `value` to the place: a store, merged first where only lanes are written. -/
inductive Place.WrittenBy (p : Place) (value : Id) : List Inst → Prop where
  | whole (swizzle : p.swizzle = none) : WrittenBy p value [.effect .Store [p.entity.id, value]]
  | lanes {s : Swizzle} {mask : List Word} {vector merged : Id} (swizzle : p.swizzle = some s)
      (merges : s.MergedBy (p.ty.width?.getD 1) mask) :
      WrittenBy p value [.value .Load p.entity.type vector [p.entity.id],
        .value .VectorShuffle p.entity.type merged ([vector, value] ++ mask),
        .effect .Store [p.entity.id, merged]]

/-- The instructions that take the copy back to where the argument stands. -/
inductive CopyOut.DoneBy (w : CopyOut) : List Inst → Prop where
  | mk {value : Id} {code : List Inst} (writes : w.place.WrittenBy value code) :
      DoneBy w (.value .Load w.copyType value [w.copy] :: code)

variable {p : Place} {value : Id}

namespace Lower

variable {s s' : Lowerer} {id : Id}

theorem load_appends {e : Entity} (hpointer : e.isPointer) (hid : e.id ≠ noResult) (h : load e s = (.ok id, s')) :
    s'.func = s.func ∧ s'.block.instructions = s.block.instructions ++ [.value .Load e.type id [e.id]] := by
  have hnot : ¬ (e.isValue || decide (e.id = noResult)) := by
    simpa [Entity.isValue, Entity.isPointer, hid, Option.isSome_iff_ne_none] using hpointer
  rw [load, if_neg hnot] at h
  exact (emitAs_appends h).2

theorem readPlace_appends (hpointer : p.entity.isPointer) (hid : p.entity.id ≠ noResult)
    (h : readPlace p s = (.ok value, s')) : s'.func = s.func ∧
      ∃ code, p.ReadBy value code ∧ s'.block.instructions = s.block.instructions ++ code := by
  obtain ⟨vector, t, hload, h⟩ := bind_ok h
  obtain ⟨hfunc, hcode⟩ := load_appends hpointer hid hload
  cases hswizzle : p.swizzle with
  | none =>
    rw [hswizzle] at h
    obtain ⟨rfl, rfl⟩ := pure_ok h
    exact ⟨hfunc, _, .whole hswizzle, hcode⟩
  | some sw =>
    rw [hswizzle] at h
    obtain ⟨type, u, htype, h⟩ := bind_ok h
    obtain ⟨-, hframe⟩ := onModule_ok htype
    obtain ⟨-, hfunc', hshuffle⟩ := emitAs_appends h
    exact ⟨by rw [hfunc', hframe, hfunc], _, .lanes hswizzle, by
      rw [hshuffle, hframe, hcode, append_assoc]; rfl⟩

theorem writePlace_appends (hpointer : p.entity.isPointer) (hid : p.entity.id ≠ noResult)
    (h : writePlace p value s = (.ok (), s')) :
    ∃ code, p.WrittenBy value code ∧ s'.block.instructions = s.block.instructions ++ code := by
  unfold writePlace at h
  cases hswizzle : p.swizzle with
  | none =>
    rw [hswizzle] at h
    cases h
    exact ⟨_, .whole hswizzle, rfl⟩
  | some sw =>
    rw [hswizzle] at h
    obtain ⟨vector, t, hload, h⟩ := bind_ok h
    obtain ⟨mask, u, hchecked, h⟩ := bind_ok h
    obtain ⟨merged, v, hshuffle, hstore⟩ := bind_ok h
    obtain ⟨hmask, rfl⟩ := Build.checked_ok hchecked
    cases hstore
    have hcode : v.block.instructions ++ [.effect .Store [p.entity.id, merged]] =
        s.block.instructions ++ [.value .Load p.entity.type vector [p.entity.id],
          .value .VectorShuffle p.entity.type merged ([vector, value] ++ mask),
          .effect .Store [p.entity.id, merged]] := by
      rw [(emitAs_appends hshuffle).2.2, (load_appends hpointer hid hload).2, append_assoc, append_assoc]
      rfl
    exact ⟨_, .lanes hswizzle fun whole part hsize hfour hpart hlanes =>
      Swizzle.shuffle_writeMask hsize hfour hpart hlanes hmask, hcode⟩

end Lower

theorem Lowerer.Final.not_mem_code (hs : s.Final)
    (hid : id ∈ results s.func.function.queued) : id ∉ results s.block.instructions := by
  intro hmem
  have hcount := hs.count_le id
  have hqueued := count_pos_iff.2 hid
  have hcode := count_pos_iff.2 hmem
  omega

theorem Lowerer.Extends.defines (h : s.Extends s') (hid : s.Defines id) : s'.Defines id :=
  hid.imp (fun hhas => hhas.imp (fun hparam => h.params ▸ hparam)
      (Or.imp (fun hqueued => (h.queued.filterMap _).subset hqueued) fun hcode => (h.code.filterMap _).subset hcode))
    (Or.imp (fun himport => (h.module.imports.filterMap _).subset himport)
      fun hdeclared => (h.module.declarations.filterMap _).subset hdeclared)

namespace Lower

variable {parts : Parts} {s s' : Lowerer}

theorem resolve_defines {v : Variable} {e : Entity} (hs : s.Intact) (h : resolve v s = (.ok e, s')) :
    s'.Defines e.id := by
  have hstart : (Ledger.stepping (fun _ => True) s).Stands [] [] s := Ledger.stepping_start hs.traced _
  have : v.outermost.ty.Allowed (Terms.calling fun _ => True).doubles := inferInstanceAs (Ty.Allowed true _)
  have hresolve : Steady (.stepping (fun _ => True) s) [] (resolve v) Entity.known :=
    resolve_steady (tracing_stepping _ s) fun _ => trivial
  have hend := hresolve.of_ok_nil h (nil_subset _) hstart
  exact hend.1.known (.value e.id) (by simp [Entity.known])

theorem follow_assignable {path : Chain} {root base : Entity}
    (h : follow parts path root base s = (.ok p, s')) : p.assignable = root.isPointer := by
  suffices hyields : (follow parts path root base).Yields fun p => p.assignable = root.isPointer from hyields s p s' h
  refine .bind fun w => ?_
  split
  · exact .pure rfl
  · exact .bind fun _ => .bind fun _ => .bind fun _ => .bind fun _ => .pure rfl

theorem follow_entity {path : Chain} {root base : Entity} (h : follow parts path root base s = (.ok p, s')) :
    p.entity = base ∨ p.entity.id ∈ results s'.block.instructions := by
  obtain ⟨w, t, -, h⟩ := bind_ok h
  split at h
  · obtain ⟨rfl, -⟩ := pure_ok h
    exact .inl rfl
  · obtain ⟨type, t₁, -, h⟩ := bind_ok h
    obtain ⟨pointer, t₂, -, h⟩ := bind_ok h
    obtain ⟨id, t₃, -, h⟩ := bind_ok h
    obtain ⟨_, hpush, rfl⟩ := bind_pure_ok h
    cases hpush
    exact .inr (mem_results_snoc _ rfl)

theorem placeToAssign_defines (hsteady : parts.Regular) {e : Expr} (hs : s.Intact)
    (h : placeToAssign parts e s = (.ok p, s')) : p.entity.isPointer ∧ s'.Defines p.entity.id := by
  obtain ⟨hplace, hassignable⟩ := placeToAssign_ok h
  rcases place_ok hplace with ⟨_, _, _, entity, -, hresolve, rfl⟩ |
    ⟨path, root, t, base, u, -, -, -, hresolve, hbase, hfollow⟩
  · exact ⟨hassignable, resolve_defines hs hresolve⟩
  · have hroot : root.isPointer := follow_assignable hfollow ▸ hassignable
    rw [pathBase, if_pos hroot] at hbase
    obtain ⟨rfl, rfl⟩ := pure_ok hbase
    obtain ⟨storage, hstorage⟩ := Option.isSome_iff_exists.1 hroot
    have hlater : t.Extends s' := extends_of_keeps root.known (fun L hL =>
      follow_steady hL (hsteady L hL) ⟨fun i _ => i.operable_any, fun _ => trivial, inferInstance,
        inferInstance⟩ root (fun _ hk => hk)) hfollow
    refine ⟨by rw [Entity.isPointer, follow_storage hstorage t p s' hfollow]; rfl, ?_⟩
    rcases follow_entity hfollow with hsame | hcode
    · exact hsame ▸ hlater.defines (resolve_defines hs hresolve)
    · exact .inl (.inr (.inr hcode))

end Lower

/-- A local variable without a name, so that no expression reaches it. -/
structure Lowerer.Hides (s : Lowerer) (c : Id) : Prop where
  isVariable : c ∈ results s.func.function.queued
  nameless : ∀ e ∈ s.func.locals.values, e.id ≠ c

theorem Lower.Regular.values_ne {x : Lower α} {gains : α → List Known} {a : α} (hx : Regular x gains) (hs : s.Intact)
    {c : Id} (hc : s.Hides c) (h : x s = (.ok a, s')) : ∃ code, s'.block.instructions = s.block.instructions ++ code ∧
      (∀ inst ∈ code, ∀ v ∈ inst.op.values inst.operands, v ≠ c) ∧ ∀ v, .value v ∈ gains a → v ≠ c := by
  have hrange := hs.final.1.inRange c (by simp [Function.ids, hc.isVariable])
  have hold : c ∉ s.module.ids := by
    intro hmem
    have hcount := hs.final.1.once c
    have hvariable := count_pos_iff.2 hc.isVariable
    have hmodule := count_pos_iff.2 hmem
    simp only [Function.ids, count_append] at hcount
    omega
  have hstart : (Ledger.sparing c s.module.ids s.module.bound).Stands [] [] s := by
    refine ⟨⟨hs.traced.1.closed, fun k hk => ?_⟩, UInt32.le_refl _, fun id hid => .inl (by simpa using hid)⟩
    have hdefined := hs.traced.1.known k hk
    rw [append_nil] at hk
    obtain ⟨e, he, hk⟩ := mem_flatMap.1 hk
    simp only [Entity.known, mem_cons, not_mem_nil, or_false] at hk
    rcases hk with rfl | rfl
    · exact .inl (hc.nameless e he)
    · exact hdefined
  have hne : c ≠ noResult := by
    rintro rfl
    exact UInt32.lt_irrefl _ hrange.1
  obtain ⟨code, hcode, hvalues, hend⟩ := hx.values (emitting_sparing hold hrange.2 hne)
    (P := fun _ v => v ≠ c) (fun h v hv => Ledger.sparing_ne hold hrange.2 h hv) (fun _ h => h) hstart h
  exact ⟨code, hcode, hvalues, fun v hv => Ledger.sparing_ne hold hrange.2 hend hv⟩

/-! ## Arguments -/

/-- How an argument gets to its parameter: the code, the identifier that is passed and the copy. -/
structure Route where
  param : Variable
  arg : Expr
  passed : Id
  code : List Inst
  back : Option CopyOut

/-- How an argument gets to a call: local storage as it is, and all else that is written as a new
variable, which is written before the call only if the function reads it. -/
inductive Route.Sound (parts : Parts) (s fin : Lowerer) (before : List Inst) : Route → Prop where
  | input {param : Variable} {arg : Expr} {passed : Id} {code : List Inst}
      (isInput : param.roles.outParameter = false) : Sound parts s fin before ⟨param, arg, passed, code, none⟩
  | inPlace {param : Variable} {arg : Expr} {p : Place} {t u : Lowerer} {code : List Inst}
      (isOutput : param.roles.outParameter) (since : s.Extends t)
      (located : Lower.placeToAssign parts arg t = (.ok p, u))
      (locating : u.block.instructions = t.block.instructions ++ code) (till : u.Extends fin)
      (inFunction : p.isInFunction) : Sound parts s fin before ⟨param, arg, p.entity.id, code, none⟩
  | copied {param : Variable} {arg : Expr} {p : Place} {t u : Lowerer} {code reading stores : List Inst}
      {copy type pointer : Id} (isOutput : param.roles.outParameter) (since : s.Extends t)
      (located : Lower.placeToAssign parts arg t = (.ok p, u))
      (locating : u.block.instructions = t.block.instructions ++ code) (till : u.Extends fin)
      (elsewhere : p.isInFunction = false) (isNew : ¬ u.Defines copy)
      (isVariable : .localVariable pointer copy ∈ fin.func.function.queued)
      (isPointer : fin.module.pointers.get? (type, .Function) = some pointer)
      (finds : fin.module.Finds none none arg.ty type)
      (stored : p.CopiedBy copy param.roles.inParameter reading stores)
      (used : before.filter (·.uses copy) = stores) :
      Sound parts s fin before ⟨param, arg, copy, code ++ (reading ++ stores), some ⟨copy, type, p⟩⟩

theorem Route.Sound.widen {parts : Parts} {s₀ fin fin' : Lowerer} {before l k : List Inst} {r : Route}
    (h : r.Sound parts s fin before) (hs : s₀.Extends s) (hfin : fin.Extends fin')
    (hl : ∀ w, r.back = some w → ∀ inst ∈ l ++ k, ∀ v ∈ inst.op.values inst.operands, v ≠ w.copy) :
    r.Sound parts s₀ fin' (l ++ before ++ k) := by
  cases h with
  | input isInput => exact .input isInput
  | inPlace isOutput since located locating till inFunction =>
    exact .inPlace isOutput (hs.trans since) located locating (till.trans hfin) inFunction
  | copied isOutput since located locating till elsewhere isNew isVariable isPointer finds stored used =>
    refine .copied isOutput (hs.trans since) located locating (till.trans hfin) elsewhere isNew
      (hfin.queued.subset isVariable) (hfin.module.pointers _ _ isPointer)
      (finds.mono hfin.module.toRetains) stored ?_
    obtain ⟨hl, hk⟩ := forall_mem_append.1 (hl _ rfl)
    rw [filter_append, filter_append, used, filter_uses_eq_nil hl, filter_uses_eq_nil hk, nil_append, append_nil]

/-- A copy that is new and stays apart from the place that it is written back to. -/
structure CopyOut.Kept (first : Id) (s : Lowerer) (w : CopyOut) : Prop where
  isNew : first ≤ w.copy
  isVariable : w.copy ∈ results s.func.function.queued
  isPointer : w.place.entity.isPointer
  isDefined : s.Defines w.place.entity.id
  apart : w.place.entity.id ≠ w.copy

theorem CopyOut.Kept.mono {first first' : Id} {w : CopyOut} (h : w.Kept first s)
    (hfirst : first' ≤ first) (hs : s.Extends s') : w.Kept first' s' where
  isNew := UInt32.le_trans hfirst h.isNew
  isVariable := (hs.queued.filterMap _).subset h.isVariable
  isPointer := h.isPointer
  isDefined := hs.defines h.isDefined
  apart := h.apart

/-- Neither copy has to do with the other one or with where it is taken. -/
structure CopyOut.Apart (w w' : CopyOut) : Prop where
  copies : w.copy ≠ w'.copy
  left : w.place.entity.id ≠ w'.copy
  right : w'.place.entity.id ≠ w.copy

theorem Place.ReadBy.values (h : p.ReadBy value code) :
    ∀ inst ∈ code, ∀ v ∈ inst.op.values inst.operands, v = p.entity.id ∨ v ∈ results code := by
  cases h with
  | whole =>
    refine forall_mem_singleton.2 fun v hv => ?_
    exact .inl (mem_singleton.1 (Op.values_subset _ hv))
  | @lanes s type vector swizzle =>
    refine forall_mem_cons.2 ⟨fun v hv => ?_, forall_mem_singleton.2 fun v hv => ?_⟩
    · exact .inl (mem_singleton.1 (Op.values_subset _ hv))
    · refine .inr (mem_cons.2 (.inl ?_))
      simpa using Op.mem_values_shuffle hv

theorem Place.CopiedBy.filter_uses {copy : Id} {copyIn : Bool} {reading stores : List Inst}
    (h : p.CopiedBy copy copyIn reading stores) (hplace : p.entity.id ≠ copy)
    (hresults : copy ∉ results reading) : (reading ++ stores).filter (·.uses copy) = stores := by
  cases h with
  | unread => rfl
  | @read value _ reads =>
    rw [filter_append, filter_uses_eq_nil, filter_cons_of_pos (Inst.uses_store copy value)]
    · rfl
    · rintro inst hinst v hv rfl
      exact (reads.values inst hinst v hv).elim (fun hv => hplace hv.symm) hresults

/-- The code of all arguments is that of their routes one after the other, with copies apart. -/
structure Routes (parts : Parts) (s s' : Lowerer) (routes : List Route) : Prop where
  code : s'.block.instructions = s.block.instructions ++ routes.flatMap (·.code)
  sound : ∀ r ∈ routes, r.Sound parts s s' (routes.flatMap (·.code))
  kept : ∀ w ∈ routes.filterMap (·.back), w.Kept s.module.bound s'
  apart : (routes.filterMap (·.back)).Pairwise CopyOut.Apart

namespace Lower

variable {parts : Parts} {s s' : Lowerer} {arg : Expr} {passed : Id} {back : Option CopyOut}

theorem copyIn_appends (hpointer : p.entity.isPointer) (hid : p.entity.id ≠ noResult) {copyIn : Bool}
    {copy : Id} {a b : α} (h : (do
      if copyIn then store copy (← readPlace p)
      return a : Lower α) s = (.ok b, s')) : a = b ∧ s.Extends s' ∧ s'.func = s.func ∧ ∃ reading stores, p.CopiedBy copy copyIn reading stores ∧
      s'.block.instructions = s.block.instructions ++ (reading ++ stores) := by
  cases copyIn with
  | false =>
    obtain ⟨rfl, rfl⟩ := pure_ok h
    exact ⟨rfl, .refl s, rfl, [], [], .unread, by simp⟩
  | true =>
    obtain ⟨value, t, hread, h⟩ := bind_ok h
    obtain ⟨_, hstore, rfl⟩ := bind_pure_ok h
    obtain ⟨hfunc, reading, hreading, hcode⟩ := readPlace_appends hpointer hid hread
    have hlater : s.Extends t := extends_of_keeps p.entity.known
      (fun L hL => readPlace_steady hL (fun _ hk => hk)) hread
    have hpushed := hlater.trans (Extending.push _ hstore)
    cases hstore
    refine ⟨rfl, hpushed, hfunc, reading, _, .read hreading, ?_⟩
    rw [← append_assoc, ← hcode]
    rfl

theorem outputArg_route (hsteady : parts.Regular) {param : Variable} (hout : param.roles.outParameter) (hs : s.Intact)
    (h : outputArg parts arg param.roles.inParameter s = (.ok (passed, back), s')) :
    ∃ code, s'.block.instructions = s.block.instructions ++ code ∧
      Route.Sound parts s s' code ⟨param, arg, passed, code, back⟩ ∧
      ∀ w, back = some w → w.Kept s.module.bound s' ∧ s'.Hides w.copy := by
  have hregular : Regular (outputArg parts arg param.roles.inParameter) _ :=
    fun L hL => outputArg_steady hL (hsteady L hL) arg.meets_any _
  have hs' := hregular.intact hs h
  have hlocates : Regular (placeToAssign parts arg) _ :=
    fun L hL => placeToAssign_steady hL (hsteady L hL) arg.meets_any
  obtain ⟨p, u, hplace, h⟩ := bind_ok h
  obtain ⟨locating, hlocating, hbelow, hknown⟩ := hlocates.values_lt hs hplace
  have hu := hlocates.intact hs hplace
  obtain ⟨hpointer, hdefines⟩ := placeToAssign_defines hsteady hs hplace
  cases hin : p.isInFunction with
  | true =>
    rw [hin] at h
    obtain ⟨hpair, rfl⟩ := pure_ok h
    cases hpair
    exact ⟨locating, hlocating, .inPlace hout (.refl s) hplace hlocating (.refl u) hin, nofun⟩
  | false =>
    rw [hin] at h
    obtain ⟨copy, t₁, htemp, h⟩ := bind_ok h
    obtain ⟨copyType, t₂, hcopyType, h⟩ := bind_ok h
    obtain ⟨type, pointer, hfinds, hregistered, hfunc, hblock, hbound⟩ := temp_ok htemp
    obtain ⟨hdeclare, hframe⟩ := onModule_ok hcopyType
    have htaken : u.Extends t₁ := extends_of_keeps [] (fun L hL => temp_steady hL arg.ty) htemp
    have hdeclared : t₁.Extends t₂ := extends_of_keeps [] (fun L hL => declareType_steady hL arg.ty) hcopyType
    obtain rfl : type = copyType := (hfinds.mono hdeclared.module.toRetains).unique (Module.finds_of_ok hdeclare)
    obtain ⟨hpair, hlater, hsame, reading, stores, hcopied, hcode⟩ :=
      copyIn_appends hpointer (hu.final.ne_noResult hdefines) h
    obtain ⟨rfl, rfl⟩ := Prod.mk.inj hpair
    have hend : u.Extends s' := (htaken.trans hdeclared).trans hlater
    have hne : ∀ {v : Id}, v < u.module.bound → v ≠ copy := by
      rintro v hv rfl
      exact UInt32.lt_irrefl _ (UInt32.lt_of_lt_of_le hv hbound)
    have hplaced : p.entity.id ≠ copy := hne (hknown _ (by simp [Entity.known]))
    replace hfunc : s'.func = u.func.queue (.localVariable pointer copy) := by
      rw [hsame, hframe, hfunc]
    replace hcode : s'.block.instructions = u.block.instructions ++ (reading ++ stores) := by
      rw [hcode, hframe, hblock]
    have hvariable : .localVariable pointer copy ∈ s'.func.function.queued := by
      rw [hfunc]
      exact mem_append_right _ mem_cons_self
    have hresult : copy ∈ results s'.func.function.queued := mem_filterMap.2 ⟨_, hvariable, rfl⟩
    have hfresh : copy ∉ results reading := fun hmem => hs'.final.not_mem_code hresult (by
      rw [hcode, results_append, results_append]
      exact mem_append_right _ (mem_append_left _ hmem))
    refine ⟨locating ++ (reading ++ stores), by rw [hcode, hlocating, append_assoc], ?_, ?_⟩
    · refine .copied hout (.refl s) hplace hlocating hend hin (fun hmem => hne (hu.final.inRange hmem).2 rfl)
        hvariable ((hdeclared.trans hlater).module.pointers _ _ hregistered)
        (hfinds.mono (hdeclared.trans hlater).module.toRetains) hcopied ?_
      rw [filter_append, filter_uses_eq_nil fun inst hinst v hv => hne (hbelow inst hinst v hv),
        nil_append, hcopied.filter_uses hplaced hfresh]
    · rintro w ⟨⟩
      refine ⟨⟨UInt32.le_trans (hlocates.later hplace).module.bound hbound, hresult, hpointer,
        hend.defines hdefines, hplaced⟩, hresult, fun e he => hne ?_⟩
      rw [hfunc] at he
      exact hu.sound.1.2.known (.value e.id) (mem_append_left _ (mem_flatMap.2 ⟨e, he, mem_cons_self⟩))

theorem callArg_route (hsteady : parts.Regular) {param : Variable} (hs : s.Intact)
    (h : callArg parts param arg s = (.ok (passed, back), s')) :
    ∃ code, s'.block.instructions = s.block.instructions ++ code ∧
      Route.Sound parts s s' code ⟨param, arg, passed, code, back⟩ ∧
      ∀ w, back = some w → w.Kept s.module.bound s' ∧ s'.Hides w.copy := by
  cases hout : param.roles.outParameter with
  | true =>
    rw [callArg, if_pos hout] at h
    exact outputArg_route hsteady hout hs h
  | false =>
    have hregular : Regular (callArg parts param arg) _ :=
      fun L hL => callArg_steady hL (hsteady L hL) param arg.operable_any
    obtain ⟨code, hcode⟩ := (hregular.later h).code
    have hback : (callArg parts param arg).Yields fun r => r.2 = none := by
      rw [callArg, if_neg (by simp [hout])]
      split <;> exact .bind fun _ => .pure rfl
    obtain rfl : back = none := hback s _ s' h
    exact ⟨code, hcode.symm, .input hout, nofun⟩

/-- What comes before a copy is older than it, and what comes after it does not know of it. -/
theorem routes_cons {t u : Lowerer} {r : Route} {routes : List Route} (hearlier : s.Extends t)
    (hlater : t.Extends u) (hcode : t.block.instructions = s.block.instructions ++ r.code)
    (hsound : r.Sound parts s t r.code) (hkept : ∀ w, r.back = some w → w.Kept s.module.bound t)
    (hbelow : ∀ inst ∈ r.code, ∀ v ∈ inst.op.values inst.operands, v < t.module.bound)
    (hknown : ∀ w, r.back = some w → w.place.entity.id < t.module.bound) (hhidden : ∀ w, r.back = some w →
      (∀ inst ∈ routes.flatMap (·.code), ∀ v ∈ inst.op.values inst.operands, v ≠ w.copy) ∧
      ∀ w' ∈ routes.filterMap (·.back), w'.copy ≠ w.copy ∧ w'.place.entity.id ≠ w.copy)
    (h : Routes parts t u routes) : Routes parts s u (r :: routes) := by
  have hnew : ∀ w ∈ routes.filterMap (·.back), ∀ {v : Id}, v < t.module.bound → v ≠ w.copy := by
    rintro w hw v hv rfl
    exact UInt32.lt_irrefl _ (UInt32.lt_of_lt_of_le hv (h.kept w hw).isNew)
  have hbacks : (r :: routes).filterMap (·.back) = r.back.toList ++ routes.filterMap (·.back) := by
    cases hback : r.back <;> simp [hback]
  refine ⟨?_, forall_mem_cons.2 ⟨?_, fun r' hr' => ?_⟩, ?_, ?_⟩
  · rw [h.code, hcode, flatMap_cons, append_assoc]
  · exact hsound.widen (l := []) (.refl s) hlater fun w hw => (hhidden w hw).1
  · have hwide := (h.sound r' hr').widen (l := r.code) (k := []) hearlier (.refl u)
      fun w hw inst hinst v hv => hnew w (mem_filterMap.2 ⟨r', hr', hw⟩) (hbelow inst (by simpa using hinst) v hv)
    rwa [append_nil] at hwide
  · rw [hbacks]
    refine forall_mem_append.2 ⟨fun w hw => ?_, fun w hw => ?_⟩
    · exact (hkept w (by simpa using hw)).mono (UInt32.le_refl _) hlater
    · exact (h.kept w hw).mono hearlier.module.bound (.refl u)
  · rw [hbacks]
    refine pairwise_append.2 ⟨?_, h.apart, fun w hw w' hw' => ?_⟩
    · cases r.back <;> simp
    · have hw : r.back = some w := by simpa using hw
      obtain ⟨hcopies, hright⟩ := (hhidden w hw).2 w' hw'
      exact ⟨hcopies.symm, hnew w' hw' (hknown w hw), hright⟩

theorem callArgs_routes (hsteady : parts.Regular) {params : List Variable} {args : List Expr}
    {ids : List Id} {backs : List CopyOut} (hlength : args.length = params.length) (hs : s.Intact)
    (h : callArgs parts params args s = (.ok (ids, backs), s')) :
    ∃ routes : List Route, routes.map (·.param) = params ∧ routes.map (·.arg) = args ∧
      routes.map (·.passed) = ids ∧ routes.filterMap (·.back) = backs ∧ Routes parts s s' routes := by
  induction params generalizing args s ids backs with
  | nil =>
    obtain rfl := length_eq_zero_iff.1 hlength
    obtain ⟨hpair, rfl⟩ := pure_ok h
    cases hpair
    exact ⟨[], rfl, rfl, rfl, rfl, by simp, nofun, nofun, .nil⟩
  | cons param params ih =>
    obtain ⟨arg, args, rfl⟩ := exists_cons_of_length_eq_add_one hlength
    obtain ⟨⟨passed, back⟩, t, hfirst, h⟩ := bind_ok h
    obtain ⟨⟨ids', backs'⟩, hrest, hpair⟩ := bind_pure_ok h
    cases hpair
    have hregular : Regular (callArg parts param arg) _ :=
      fun L hL => callArg_steady hL (hsteady L hL) param arg.operable_any
    have hregular' : Regular (callArgs parts params args) _ :=
      fun L hL => callArgs_steady hL (hsteady L hL) params args (fun a _ => a.operable_any) _
    have ht := hregular.intact hs hfirst
    obtain ⟨code, hcode, hroute, hback⟩ := callArg_route hsteady hs hfirst
    obtain ⟨routes, rfl, rfl, rfl, rfl, hroutes⟩ := ih (Nat.succ.inj hlength) ht hrest
    obtain ⟨code', hcode', hbelow, hknown⟩ := hregular.values_lt hs hfirst
    obtain rfl : code = code' := append_cancel_left (hcode.symm.trans hcode')
    refine ⟨⟨param, arg, passed, code, back⟩ :: routes, rfl, rfl, rfl, by cases back <;> rfl, ?_⟩
    refine routes_cons (hregular.later hfirst) (hregular'.later hrest) hcode hroute
      (fun w hw => (hback w hw).1) hbelow (fun w hw => hknown _ ?_) (fun w hw => ?_) hroutes
    · obtain rfl : back = some w := hw
      simp [CopyOut.known, Entity.known]
    · obtain ⟨rest, hrestCode, hne, hgains⟩ := hregular'.values_ne ht (hback w hw).2 hrest
      obtain rfl : routes.flatMap (·.code) = rest := append_cancel_left (hroutes.code.symm.trans hrestCode)
      refine ⟨hne, fun w' hw' => ⟨hgains _ ?_, hgains _ ?_⟩⟩ <;>
        exact mem_append_right _ (mem_flatMap.2 ⟨w', hw', by simp [CopyOut.known, Entity.known]⟩)

theorem copyOuts_append : ∀ {backs : List CopyOut} {s s' : Lowerer}, (∀ w ∈ backs,
      w.place.entity.isPointer ∧ w.place.entity.id ≠ noResult ∧ w.copy ≠ noResult) →
    backs.forM copyOut s = (.ok (), s') → ∃ codes, Forall₂ CopyOut.DoneBy backs codes ∧
      s'.block.instructions = s.block.instructions ++ codes.flatten
  | [], s, s', _, h => by
    obtain ⟨-, rfl⟩ := pure_ok h
    exact ⟨[], .nil, by simp⟩
  | w :: backs, s, s', hthere, h => by
    obtain ⟨⟨hpointer, hplace, hcopy⟩, hbacks⟩ := forall_mem_cons.1 hthere
    obtain ⟨_, t, hfirst, hrest⟩ := bind_ok h
    obtain ⟨value, u, hload, hwrite⟩ := bind_ok hfirst
    obtain ⟨-, hread⟩ := load_appends rfl hcopy hload
    obtain ⟨code, hwrites, hcode⟩ := writePlace_appends hpointer hplace hwrite
    obtain ⟨codes, hdone, hcodes⟩ := copyOuts_append hbacks hrest
    refine ⟨_ :: codes, .cons (.mk hwrites) hdone, ?_⟩
    rw [hcodes, hcode, hread, flatten_cons, append_assoc, append_assoc]
    rfl

end Lower

theorem Place.WrittenBy.values (h : p.WrittenBy value code) :
    ∀ inst ∈ code, ∀ v ∈ inst.op.values inst.operands, v = p.entity.id ∨ v = value ∨ v ∈ results code := by
  cases h with
  | whole =>
    refine forall_mem_singleton.2 fun v hv => ?_
    have hv : v ∈ [p.entity.id, value] := Op.values_subset _ hv
    simp only [mem_cons, not_mem_nil, or_false] at hv
    exact hv.imp_right .inl
  | @lanes s mask vector merged =>
    have hresults : results [.value .Load p.entity.type vector [p.entity.id],
        .value .VectorShuffle p.entity.type merged ([vector, value] ++ mask),
        .effect .Store [p.entity.id, merged]] = [vector, merged] := rfl
    rw [hresults]
    refine forall_mem_cons.2 ⟨fun v hv => ?_, forall_mem_cons.2 ⟨fun v hv => ?_, forall_mem_singleton.2 fun v hv => ?_⟩⟩
    · exact .inl (mem_singleton.1 (Op.values_subset _ hv))
    · have hv := Op.mem_values_shuffle hv
      simp only [mem_cons, not_mem_nil, or_false] at hv ⊢
      tauto
    · have hv : v ∈ [p.entity.id, merged] := Op.values_subset _ hv
      simp only [mem_cons, not_mem_nil, or_false] at hv ⊢
      tauto

namespace CopyOut.DoneBy

variable {w : CopyOut} {code : List Inst}

theorem values_ne (h : w.DoneBy code) {c : Id} (hcopy : w.copy ≠ c) (hplace : w.place.entity.id ≠ c)
    (hresults : c ∉ results code) : code.filter (·.uses c) = [] := by
  obtain @⟨value, code, writes⟩ := h
  refine filter_uses_eq_nil (forall_mem_cons.2 ⟨fun v hv => ?_, fun inst hinst v hv => ?_⟩)
  · rw [mem_singleton.1 (Op.values_subset _ hv)]
    exact hcopy
  · rintro rfl
    rcases writes.values inst hinst v hv with rfl | rfl | hv
    · exact hplace rfl
    · exact hresults mem_cons_self
    · exact hresults (mem_cons_of_mem _ hv)

theorem filter_uses (h : w.DoneBy code) (hplace : w.place.entity.id ≠ w.copy) (hresults : w.copy ∉ results code) :
    ∃ value, code.filter (·.uses w.copy) = [.value .Load w.copyType value [w.copy]] := by
  obtain @⟨value, code, writes⟩ := h
  refine ⟨value, ?_⟩
  rw [filter_cons_of_pos (Inst.uses_load ..), filter_uses_eq_nil]
  rintro inst hinst v hv rfl
  rcases writes.values inst hinst _ hv with hv | hv | hv
  · exact hplace hv.symm
  · exact hresults (hv ▸ mem_cons_self)
  · exact hresults (mem_cons_of_mem _ hv)

end CopyOut.DoneBy

theorem filter_uses_copyOuts {backs : List CopyOut} {codes : List (List Inst)} (h : Forall₂ CopyOut.DoneBy backs codes)
    (hapart : backs.Pairwise CopyOut.Apart) (hself : ∀ w ∈ backs, w.place.entity.id ≠ w.copy) {w : CopyOut}
    (hw : w ∈ backs) (hresults : w.copy ∉ results codes.flatten) :
    ∃ value, codes.flatten.filter (·.uses w.copy) = [.value .Load w.copyType value [w.copy]] := by
  have hnone : ∀ {backs : List CopyOut} {codes : List (List Inst)}, Forall₂ CopyOut.DoneBy backs codes →
      (∀ w' ∈ backs, w'.copy ≠ w.copy ∧ w'.place.entity.id ≠ w.copy) → w.copy ∉ results codes.flatten →
      codes.flatten.filter (·.uses w.copy) = [] := by
    intro backs codes h
    induction h with
    | nil => exact fun _ _ => rfl
    | cons hfirst _ ih =>
      intro hne hresults
      rw [flatten_cons, results_append, mem_append, not_or] at hresults
      obtain ⟨⟨hcopy, hplace⟩, hne⟩ := forall_mem_cons.1 hne
      rw [flatten_cons, filter_append, hfirst.values_ne hcopy hplace hresults.1, ih hne hresults.2, nil_append]
  induction h with
  | nil => cases hw
  | @cons w₀ code backs codes hfirst hrest ih =>
    rw [flatten_cons, results_append, mem_append, not_or] at hresults
    obtain ⟨hapart₀, hapart⟩ := pairwise_cons.1 hapart
    obtain ⟨hself₀, hself⟩ := forall_mem_cons.1 hself
    rw [flatten_cons, filter_append]
    rcases mem_cons.1 hw with rfl | hw
    · obtain ⟨value, hvalue⟩ := hfirst.filter_uses hself₀ hresults.1
      refine ⟨value, ?_⟩
      rw [hvalue, hnone hrest (fun w' hw' => ⟨(hapart₀ w' hw').copies.symm, (hapart₀ w' hw').right⟩)
        hresults.2, append_nil]
    · rw [hfirst.values_ne (hapart₀ w hw).copies (hapart₀ w hw).left hresults.1, nil_append]
      exact ih hapart hself hw hresults.2

/-- The code of a call: its arguments, the call, and what was copied taken back, in the order of the
parameters. -/
structure CallCode (parts : Parts) (s s' : Lowerer) (func : Variable) (id : Id)
    (routes : List Route) (codes : List (List Inst)) : Prop where
  code : ∃ type function, s'.module.functionIds.get? func.name = some function ∧
    s'.block.instructions = s.block.instructions ++ routes.flatMap (·.code) ++
      .value .FunctionCall type id (function :: routes.map (·.passed)) :: codes.flatten
  sound : ∀ r ∈ routes, r.Sound parts s s' (routes.flatMap (·.code))
  done : Forall₂ CopyOut.DoneBy (routes.filterMap (·.back)) codes
  loaded : ∀ w ∈ routes.filterMap (·.back), ∃ value,
    codes.flatten.filter (·.uses w.copy) = [.value .Load w.copyType value [w.copy]]

theorem Lower.call_routes {parts : Parts} (hsteady : parts.Regular) {func : Variable}
    {args : List Expr} {ret : Ty} {params : List Variable} (hfunc : func.ty = .function ret params)
    (hs : s.Intact) (hs' : s'.Final) (h : call parts func args s = (.ok id, s')) :
    ∃ routes codes, routes.map (·.param) = params ∧ routes.map (·.arg) = args ∧
      CallCode parts s s' func id routes codes := by
  obtain ⟨_, _, hfunc', hlength, function, s₁, ids, backs, s₂, s₃, hfunction, hfound, hargs, hemit, hbacks⟩ := call_ok h
  obtain ⟨rfl, rfl⟩ := Ty.function.inj (hfunc.symm.trans hfunc')
  have hnames : Regular (onModule (Module.functionNamed func.name)) _ := fun L hL =>
    onModule_keeps fun s => Module.functionNamed_steady (hL.building s) func.name
  have hregular : Regular (callArgs parts params args) _ :=
    fun L hL => callArgs_steady hL (hsteady L hL) params args (fun a _ => a.operable_any) _
  have hs₁ := hnames.intact hs hfunction
  obtain ⟨routes, hparams, rfl, rfl, rfl, hroutes⟩ := callArgs_routes hsteady hlength hs₁ hargs
  obtain ⟨hcalled, type, -, hcall⟩ := emit_appends hemit
  have hs₂ := (hregular.intact hs₁ hargs).final
  have hthere : ∀ w ∈ routes.filterMap (·.back),
      w.place.entity.isPointer ∧ w.place.entity.id ≠ noResult ∧ w.copy ≠ noResult := by
    intro w hw
    have hkept := hroutes.kept w hw
    exact ⟨hkept.isPointer, hs₂.ne_noResult hkept.isDefined, hs₂.ne_noResult (.inl (.inr (.inl hkept.isVariable)))⟩
  obtain ⟨codes, hdone, hcodes⟩ := copyOuts_append hthere hbacks
  have hafter : s₃.Extends s' := extends_of_keeps (routes.filterMap (·.back) |>.flatMap CopyOut.known)
    (fun L hL => copyOuts_steady hL _ _ fun _ hk => hk) hbacks
  have hend := hcalled.trans hafter
  refine ⟨routes, codes, hparams, rfl, ⟨type, function, ?_, ?_⟩, fun r hr => ?_, hdone, fun w hw => ?_⟩
  · exact ((hregular.later hargs).trans hend).module.functionIds _ _ hfound
  · rw [hcodes, hcall, hroutes.code, (onModule_ok hfunction).2]
    simp
  · have hwide := (hroutes.sound r hr).widen (l := []) (k := []) (hnames.later hfunction) hend
      (fun _ _ _ hinst => nomatch hinst)
    rwa [nil_append, append_nil] at hwide
  · have hkept := (hroutes.kept w hw).mono (UInt32.le_refl _) hend
    refine filter_uses_copyOuts hdone hroutes.apart (fun w hw => (hroutes.kept w hw).apart) hw ?_
    refine fun hmem => hs'.not_mem_code hkept.isVariable ?_
    rw [hcodes, results_append]
    exact mem_append_right _ hmem

theorem Workbench.Reachable.intact {config : Config} {w : Workbench} (hw : w.Reachable config)
    {f : FunctionScope} {b : Block} (hf : w.functions.get? = some f) (hb : w.blocks.get? = some b)
    (depth : Nat) : Lowerer.Intact ⟨w.module, f, b, depth⟩ :=
  ⟨hw.sound.lowerer hf hb, hw.distinct.lowerer hf hb, hw.attainable.traced.lowerer hf hb⟩

/-- Over every run of building operations: what a call is lowered to. -/
theorem lower_call_copies {config : Config} {w : Workbench} (hw : w.Reachable config) {f : FunctionScope} {b : Block}
    (hf : w.functions.get? = some f) (hb : w.blocks.get? = some b) {ty ret : Ty} {func : Variable}
    {params : List Variable} {args : List Expr} (hfunc : func.ty = .function ret params) {id : Id} {s' : Lowerer}
    (h : Lower.lower ⟨ty, .call func args⟩ ⟨w.module, f, b, 0⟩ = (.ok id, s')) :
    ∃ height routes codes, routes.map (·.param) = params ∧ routes.map (·.arg) = args ∧
      CallCode (Lower.partsOf (Lower.lowerWithin height)) ⟨w.module, f, b, 0⟩ s' func id routes codes := by
  obtain ⟨height, t, u, entity, -, hcall, hvalue, rfl⟩ := Lower.valueWithin_value
    (x := fun parts => Lower.call parts func args) (fun parts => rfl) h
  have hsteady := Lower.partsOf_regular height
  have hs := hw.intact hf hb 1
  have ht : t.Intact := Lower.Regular.intact (fun L hL => Lower.call_steady hL (hsteady L hL) trivial
    (fun _ _ => inferInstance) fun a _ => a.operable_any) hs hcall
  obtain ⟨routes, codes, hparams, hargs, hcalled⟩ := Lower.call_routes hsteady hfunc hs ht.final hcall
  obtain ⟨type, function, hfunction, hcode⟩ := hcalled.code
  have hblock : u.block = t.block := by
    obtain ⟨type, htype, -⟩ := bind_pure_ok hvalue
    rw [(Lower.onModule_ok htype).2]
  have hlater : t.Extends u := Lower.extends_of_keeps [.value id]
    (fun L hL => Lower.value_steady hL _ mem_cons_self) hvalue
  have hend : t.Extends { u with depth := 0 } := { hlater with }
  refine ⟨height, routes, codes, hparams, hargs, ⟨type, function,
    hend.module.functionIds _ _ hfunction, ?_⟩, fun r hr => ?_, hcalled.done, hcalled.loaded⟩
  · show u.block.instructions = _
    rw [hblock, hcode]
  · have hwide := (hcalled.sound r hr).widen (l := []) (k := [])
      { Lowerer.Extends.refl (⟨w.module, f, b, 0⟩ : Lowerer) with } hend
      (fun _ _ _ hinst => nomatch hinst)
    rwa [nil_append, append_nil] at hwide

/-- `(out int x, inout ivec2 y, out int z)` -/
def Variable.turnParams : List Variable :=
  [.root "x" (.scalar .int) { parameter := true, outParameter := true },
    .root "y" (.vector .int 2) { parameter := true, inParameter := true, outParameter := true },
    .root "z" (.scalar .int) { parameter := true, outParameter := true }]

/-- `(n, v.zx, g)`, where `g` is an output of the shader. -/
def Expr.turnArgs : List Expr :=
  [.number, (Expr.ident (.root "v" (typeOfName "v") { functionLocal := true })).lanes "zx",
    .ident (.root "g" (.scalar .int) { output := true })]

def Expr.callsTurn : Expr := ⟨.void, .call (.root "turn" (.function .void Variable.turnParams) {}) turnArgs⟩

/-- One variable is passed as it is, two lanes are read before and merged after the call, one is only
written. -/
theorem lower_callsTurn_copies : Workbench.inFunction.Reachable {} ∧
      Workbench.inFunction.functions.get? = some Lowerer.inFunction.func ∧
      Workbench.inFunction.blocks.get? = some Lowerer.inFunction.block ∧
      ∃ id s', Lower.lower .callsTurn .inFunction = (.ok id, s') ∧
        s'.block.instructions.map (·.op) = [.Load, .VectorShuffle, .Store, .FunctionCall, .Load, .Load,
          .VectorShuffle, .Store, .Load, .Store] ∧
        ∃ height routes codes, routes.map (·.param) = Variable.turnParams ∧ routes.map (·.arg) = Expr.turnArgs ∧
          CallCode (Lower.partsOf (Lower.lowerWithin height)) .inFunction s'
            (.root "turn" (.function .void Variable.turnParams) {}) id routes codes := by
  have hok : (Lower.lower .callsTurn .inFunction).1.isOk := by decide +kernel
  have hops : (Lower.lower .callsTurn .inFunction).2.block.instructions.map (·.op) =
      [.Load, .VectorShuffle, .Store, .FunctionCall, .Load, .Load, .VectorShuffle, .Store, .Load,
        .Store] := by decide +kernel
  have hw := (Workbench.inFunction_reachableIn .small).reachable
  obtain ⟨id, h⟩ := exists_ok hok
  exact ⟨hw, rfl, rfl, id, _, h, hops, lower_call_copies hw rfl rfl rfl h⟩

end Shader
