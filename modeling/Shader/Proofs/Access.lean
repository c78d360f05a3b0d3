import Shader.Proofs.AccessLaw
import Shader.Proofs.ResultType

/-!
# Access through pointers

Whatever lowering appends keeps to the law of access, for each kind of expression if its operands do.
-/

namespace Shader

open Action List Module Option Law

variable {e : Expr} {s : Lowerer}

/-! ## Calls -/

/-- What is known of a copy and of its place when the copy is written back after a call. -/
structure CopyOut.Ready (Γ : Context) (Q : Lowerer → Prop) (s : Lowerer) (w : CopyOut) (e : Expr) : Prop where
  aims : w.place.Aims Γ s e
  pointer : w.place.entity.isPointer
  copy : s.PointsTo Γ ⟨w.copy, some .Function, w.copyType⟩
  copyType : s.IsType Γ e.ty w.copyType
  accepts : ∀ t, Q t → t.Accepts e e.ty

theorem CopyOut.Ready.mono {Γ : Context} {Q : Lowerer → Prop} {t : Lowerer} {w : CopyOut}
    (h : w.Ready Γ Q s e) (hs : s.Extends t) : w.Ready Γ Q t e where
  aims := h.aims.mono hs
  pointer := h.pointer
  copy := h.copy.mono hs
  copyType := h.copyType.mono hs
  accepts := h.accepts

namespace Lower

variable {Γ : Context} {Q : Lowerer → Prop} {parts : Parts}

theorem copyOut_obeysAt {w : CopyOut} (hw : w.Ready Γ Q s e) : ObeysAt (.access Γ Q) (copyOut w) s := by
  refine (load_obeysAt hw.copy).bind fun value t hload => ?_
  have hyields : t.Yields Γ e.ty value := load_yields hw.copyType hload
  exact writePlace_obeysAt (hw.aims.mono (load_obeysAt (Q := Q) hw.copy hload).later) hw.pointer
    (hyields.suits hw.accepts)

theorem copyOuts_obeysAt : ∀ {backs : List CopyOut} {s : Lowerer},
    (∀ w ∈ backs, ∃ e, w.Ready Γ Q s e) → ObeysAt (.access Γ Q) (backs.forM copyOut) s
  | [], s, _ => Obeys.pure _ s
  | w :: backs, s, h => by
    obtain ⟨⟨e, hw⟩, hbacks⟩ := forall_mem_cons.1 h
    refine (copyOut_obeysAt hw).bind fun _ t hcopy => copyOuts_obeysAt fun w' hw' => ?_
    obtain ⟨e', hready⟩ := hbacks w' hw'
    exact ⟨e', hready.mono (copyOut_obeysAt hw hcopy).later⟩

section

variable (hparts : parts.Lawful Γ Q) {ty : Ty} {arg : Expr} {args : List Expr} {f : Intrinsic}

include hparts

theorem referenceArg_obeys (harg : arg.Regular Γ Q) (hcopies : ∀ t, Q t → t.Copies arg) :
    Obeys (.access Γ Q) (referenceArg parts arg) := by
  unfold referenceArg
  intro s
  split
  · refine (place_obeys hparts harg s).bind fun p t hplace => ?_
    split
    · exact Obeys.pure _ t
    · have hp := place_aims hparts.steady harg.built harg.context s p t hplace
      refine (readPlace_obeysAt hp.points).bind fun id u hread => ?_
      refine spill_obeysAt fun v hv hconsistent hQ => ?_
      have hprovides := place_provides hparts.toCarried harg.built harg.context hplace (.refl t) hread
      exact hprovides.suitsCopy hcopies hv hconsistent hQ
  · refine (hparts.obeys harg s).bind fun id u hvalue => ?_
    refine spill_obeysAt fun v hv hconsistent hQ => ?_
    have hprovides := hparts.provides (harg.stores v hQ).1 harg.context s id u hvalue
    exact hprovides.suitsCopy hcopies hv hconsistent hQ

theorem outputArg_obeys (harg : arg.Regular Γ Q) (hcopies : ∀ t, Q t → t.Copies arg) (copyIn : Bool) :
    Obeys (.access Γ Q) (outputArg parts arg copyIn) := by
  intro s
  refine (placeToAssign_obeys hparts harg s).bind fun p t hplace => ?_
  obtain ⟨hplace, -⟩ := placeToAssign_ok hplace
  have hp := place_aims hparts.steady harg.built harg.context s p t hplace
  split
  · exact Obeys.pure _ t
  · refine (temp_obeys arg.ty t).bind fun copy t₁ htemp => ?_
    refine (declareType_obeys arg.ty t₁).bind fun copyType t₂ htype => ?_
    obtain ⟨type, hfinds, hpoints⟩ := temp_points arg.ty t copy t₁ htemp
    have hlater := (declareType_obeys (W := .access Γ Q) arg.ty t₁ htype).later
    have hsince := (temp_obeys (W := .access Γ Q) arg.ty t htemp).later.trans hlater
    split
    · refine (readPlace_obeysAt (hp.points.mono hsince)).bind fun id t₃ hread => ?_
      have hextends := (readPlace_obeysAt (Q := Q) (hp.points.mono hsince) hread).later
      have hstored := hlater.trans hextends
      refine (store_obeysAt (fun u hu _ => hpoints.mono (hstored.trans hu)) fun u hu hconsistent hQ =>
        ?_).bind fun _ t₄ _ => Obeys.pure _ t₄
      have hprovides := place_provides hparts.toCarried harg.built harg.context hplace hsince hread
      exact fun hne => hprovides.suitsCopy hcopies hu hconsistent hQ hne type
        (hfinds.mono (hstored.trans hu).module.toRetains)
    · exact Obeys.pure _ t₂

theorem outputArg_ready (harg : arg.Regular Γ Q) (hcopies : ∀ t, Q t → t.Copies arg) (copyIn : Bool) :
    (outputArg parts arg copyIn).Ensures fun r s => ∀ w ∈ r.2, w.Ready Γ Q s arg := by
  intro s r s' h
  obtain ⟨p, t, hplace, h⟩ := bind_ok h
  obtain ⟨hplace, hassignable⟩ := placeToAssign_ok hplace
  have hp := place_aims hparts.steady harg.built harg.context s p t hplace
  have haccepts : ∀ t, Q t → t.Accepts arg arg.ty := fun t hQ => (hcopies t hQ).accepts hp.isChain
  cases hin : p.isInFunction with
  | true =>
    rw [hin] at h
    obtain ⟨rfl, rfl⟩ := pure_ok h
    exact nofun
  | false =>
    rw [hin] at h
    obtain ⟨copy, t₁, htemp, h⟩ := bind_ok h
    obtain ⟨copyType, t₂, htype, h⟩ := bind_ok h
    obtain ⟨type, hfinds, hpoints⟩ := temp_points arg.ty t copy t₁ htemp
    have hlater := (declareType_obeys (W := .access Γ Q) arg.ty t₁ htype).later
    have hsince := (temp_obeys (W := .access Γ Q) arg.ty t htemp).later.trans hlater
    obtain rfl : type = copyType := (hfinds.mono hlater.module.toRetains).unique (finds_of_ok (onModule_ok htype).1)
    have hready : CopyOut.Ready Γ Q t₂ ⟨copy, type, p⟩ arg :=
      { aims := hp.mono hsince
        pointer := hp.assignable hassignable
        copy := fun storage hstorage u hu _ => by
          cases hstorage
          exact hpoints.mono (hlater.trans hu)
        copyType := declareType_isType arg.ty t₁ type t₂ htype
        accepts := haccepts }
    cases copyIn with
    | true =>
      obtain ⟨id, t₃, hread, h⟩ := bind_ok h
      obtain ⟨_, hstore, rfl⟩ := bind_pure_ok h
      have hextends := (readPlace_obeysAt (Q := Q) (hp.points.mono hsince) hread).later.trans (Extending.push _ hstore)
      intro w hw
      cases hw
      exact hready.mono hextends
    | false =>
      obtain ⟨rfl, rfl⟩ := pure_ok h
      intro w hw
      cases hw
      exact hready

theorem callArg_obeys {param : Variable} (harg : arg.Regular Γ Q)
    (hcopies : param.isByReference → ∀ t, Q t → t.Copies arg) : Obeys (.access Γ Q) (callArg parts param arg) := by
  unfold callArg
  split
  case isTrue hout => exact outputArg_obeys hparts harg (hcopies (by simp [Variable.isByReference, hout])) _
  · split
    case isTrue href => exact (referenceArg_obeys hparts harg (hcopies href)).bind fun _ => .pure _
    · exact (hparts.obeys harg).bind fun _ => .pure _

theorem callArg_ready {param : Variable} (harg : arg.Regular Γ Q)
    (hcopies : param.isByReference → ∀ t, Q t → t.Copies arg) :
    (callArg parts param arg).Ensures fun r s => ∀ w ∈ r.2, w.Ready Γ Q s arg := by
  unfold callArg
  split
  case isTrue hout => exact outputArg_ready hparts harg (hcopies (by simp [Variable.isByReference, hout])) _
  · split
    · exact .bind fun _ => .pure fun _ => nofun
    · exact .bind fun _ => .pure fun _ => nofun

theorem callArgs_obeys : ∀ {params : List Variable} {args : List Expr},
    (∀ p ∈ params.zip args, p.2.Regular Γ Q ∧ (p.1.isByReference → ∀ t, Q t → t.Copies p.2)) →
    Obeys (.access Γ Q) (callArgs parts params args)
  | param :: params, arg :: args, h => by
    obtain ⟨⟨harg, hcopies⟩, hrest⟩ := forall_mem_cons.1 h
    exact (callArg_obeys hparts harg hcopies).bind fun _ => (callArgs_obeys hrest).bind fun _ => .pure _
  | [], _, _ => .pure _
  | _ :: _, [], _ => .pure _

theorem callArgs_ready : ∀ {params : List Variable} {args : List Expr},
    (∀ p ∈ params.zip args, p.2.Regular Γ Q ∧ (p.1.isByReference → ∀ t, Q t → t.Copies p.2)) →
    (callArgs parts params args).Ensures fun r s => ∀ w ∈ r.2, ∃ e, w.Ready Γ Q s e
  | param :: params, arg :: args, h => by
    obtain ⟨⟨harg, hcopies⟩, hrest⟩ := forall_mem_cons.1 h
    intro s r s' hrun
    obtain ⟨⟨id, back⟩, t, hfirst, hrun⟩ := bind_ok hrun
    obtain ⟨⟨ids, backs⟩, hothers, rfl⟩ := bind_pure_ok hrun
    have hready := callArg_ready hparts harg hcopies s _ t hfirst
    have hlater := (callArgs_obeys hparts hrest t hothers).later
    refine forall_mem_append.2 ⟨fun w hw => ?_, callArgs_ready hrest t _ _ hothers⟩
    exact ⟨arg, (hready w (mem_toList.1 hw)).mono hlater⟩
  | [], _, _ => .pure fun _ => forall_mem_nil _
  | _ :: _, [], _ => .pure fun _ => forall_mem_nil _

/-- A call obeys the law of accesses, copies out included. -/
theorem call_obeys {func : Variable} (he : Expr.Regular Γ Q ⟨ty, .call func args⟩) :
    Obeys (.access Γ Q) (call parts func args) := by
  unfold call
  split
  case h_2 => exact .refuse _
  case h_1 ret params hfunc =>
    split
    · exact .refuse_bind _ _
    · have hargs : ∀ p ∈ params.zip args, p.2.Regular Γ Q ∧ (p.1.isByReference → ∀ t, Q t → t.Copies p.2) := by
        intro p hp
        refine ⟨he.operand (of_mem_zip hp).2, fun href t hQ => ?_⟩
        have hstores := he.storesAlike hQ
        simp only [Expr.StoresAlike, hfunc] at hstores
        exact hstores p hp href
      refine (functionNamed_obeys func.name).bind fun function s => ?_
      refine (callArgs_obeys hparts hargs s).bind fun p t hrun => ?_
      have hready := callArgs_ready hparts hargs s p t hrun
      have hcall : Obeys (.access Γ Q) (emit .FunctionCall ret (function :: p.1)) :=
        emit_obeys (access_allows_engaging rfl) _ _
      refine (hcall t).bind fun id u hemit => ?_
      refine (copyOuts_obeysAt fun w hw => ?_).bind fun _ v _ => Obeys.pure id v
      obtain ⟨e, hw⟩ := hready w hw
      exact ⟨e, hw.mono (hcall t hemit).later⟩

/-! ## Intrinsic functions -/

theorem assignTo_obeysAt {target : Expr} {value : Id} (htarget : target.Regular Γ Q)
    (hvalue : s.Suits Γ Q value target) :
    ObeysAt (.access Γ Q) (assignTo parts target value) s := by
  refine (placeToAssign_obeys hparts htarget s).bind fun p t hrun => ?_
  have hlater := (placeToAssign_obeys hparts htarget s hrun).later
  obtain ⟨hplace, hassignable⟩ := placeToAssign_ok hrun
  have hp := place_aims hparts.steady htarget.built htarget.context s p t hplace
  exact writePlace_obeysAt hp (hp.assignable hassignable) (hvalue.mono hlater)

omit hparts in
theorem atomic_obeys {ops : PerFamily Op} (hform : f.form = .atomic ops)
    (semantics : MemorySemantics) (scalar : Option Scalar) (pointer : Id) (values : List Id)
    (ty : Ty) : Obeys (.access Γ Q) (atomic f ops semantics scalar pointer values ty) := by
  have hacts := f.form_computes
  rw [hform] at hacts
  unfold atomic
  split
  · exact .refuse _
  case h_2 op hop =>
    obtain ⟨scalar, -, hop⟩ := bind_eq_some_iff.1 hop
    have hemit : ∀ operands, Obeys (.access Γ Q) (emit op ty operands) := fun operands =>
      emit_obeys (access_allows_engaging (Op.engages_of_acts (PerFamily.of_get? hacts hop))) ty operands
    refine (declareLiteral_obeys _).bind fun scope => (declareLiteral_obeys _).bind fun equal => ?_
    split
    · exact (declareLiteral_obeys _).bind fun _ => hemit _
    · exact .refuse _
    · exact hemit _

theorem values_obeys {es : List Expr} (hes : ∀ e ∈ es, e.Regular Γ Q) :
    Obeys (.access Γ Q) (es.mapM parts.value) := .mapM fun e he => hparts.obeys (hes e he)

theorem intrinsicOfForm_obeys {first : Expr} {rest : List Expr}
    (he : Expr.Regular Γ Q ⟨ty, .intrinsic f (first :: rest)⟩) :
    Obeys (.access Γ Q) (intrinsicOfForm parts f ty first rest) := by
  have hcomputes := f.form_computes
  have hargs : ∀ arg ∈ first :: rest, arg.Regular Γ Q := fun arg harg => he.operand harg
  have hfirst := hargs first mem_cons_self
  have hstores : ∀ t, Q t → _ := fun t hQ => he.storesAlike hQ
  unfold intrinsicOfForm
  split
  case h_1 rest _ _ ops hform =>
    rw [hform] at hcomputes
    split
    · exact .refuse _
    case h_2 op hop =>
      obtain ⟨scalar, -, hop⟩ := bind_eq_some_iff.1 hop
      have hemit : Obeys (.access Γ Q) (do emit op ty (← (first :: rest).mapM parts.value)) :=
        (values_obeys hparts hargs).bind fun ids =>
          emit_obeys (access_spares _ (PerFamily.of_get? hcomputes hop)) ty ids
      split
      · exact (Obeys.declaring [] fun _ hJ => addCapability_steady hJ _).bind fun _ => hemit
      · exact hemit
  case h_2 rest _ _ ops hform =>
    split
    · exact .refuse _
    · exact (values_obeys hparts hargs).bind fun ids => emitExtended_obeys access_spares _ ty ids
  case h_3 op output hform =>
    have hcopies : ∀ t, Q t → t.Copies output := fun t hQ => by
      simpa only [Expr.StoresAlike, hform] using hstores t hQ
    have houtput := hargs output (by simp)
    refine (hparts.obeys hfirst).bind fun x s => ?_
    refine (outputArg_obeys hparts houtput hcopies false s).bind fun p t hrun => ?_
    have hready := outputArg_ready hparts houtput hcopies false s p t hrun
    have hemit : Obeys (.access Γ Q) (emitExtended op ty [x, p.1]) := emitExtended_obeys access_spares _ ty _
    refine (hemit t).bind fun id u hrun => ?_
    have hlater := (hemit t hrun).later
    obtain ⟨pointer, back⟩ := p
    cases back with
    | none => exact (Obeys.pure _ u).bind fun _ v _ => Obeys.pure id v
    | some w => exact (copyOut_obeysAt ((hready w rfl).mono hlater)).bind fun _ v _ => Obeys.pure id v
  case h_4 rest _ _ ops hform =>
    refine (hparts.pointer_obeys hfirst).bind fun pointer => ?_
    refine (values_obeys hparts fun arg harg => hargs arg (mem_cons_of_mem _ harg)).bind fun _ => ?_
    exact atomic_obeys hform _ _ _ _ _
  case h_5 op second output hform =>
    rw [hform] at hcomputes
    have haccepts : ∀ t, Q t → t.Accepts output ty := fun t hQ => by
      simpa only [Expr.StoresAlike, hform] using hstores t hQ
    refine (hparts.obeys hfirst).bind fun x => ?_
    refine (hparts.obeys (hargs second (by simp))).bind fun y s => ?_
    refine (emitPair_obeys access_spares hcomputes ty x y s).bind fun p t hpair => ?_
    have hyields := (emitPair_gives (Γ := Γ) op ty x y s p t hpair).2
    exact (assignTo_obeysAt hparts (hargs output (by simp)) (hyields.suits haccepts)).bind fun _ u _ => Obeys.pure _ u
  case h_6 op second high low hform =>
    rw [hform] at hcomputes
    have haccepts : ∀ t, Q t → t.Accepts high first.ty ∧ t.Accepts low first.ty := fun t hQ => by
      simpa only [Expr.StoresAlike, hform] using hstores t hQ
    have hhigh := hargs high (by simp)
    refine (hparts.obeys hfirst).bind fun x => ?_
    refine (hparts.obeys (hargs second (by simp))).bind fun y s => ?_
    refine (emitPair_obeys access_spares hcomputes first.ty x y s).bind fun p t hpair => ?_
    obtain ⟨hlowHalf, hhighHalf⟩ := emitPair_gives (Γ := Γ) op first.ty x y s p t hpair
    have hwrites := assignTo_obeysAt hparts hhigh (hhighHalf.suits fun t hQ => (haccepts t hQ).1)
    refine hwrites.bind fun _ u hwrite => ?_
    have hlater := (hwrites hwrite).later
    exact (assignTo_obeysAt hparts (hargs low (by simp))
      ((hlowHalf.mono hlater).suits fun t hQ => (haccepts t hQ).2)).bind fun _ v _ => Obeys.pure _ v
  case h_7 => exact .refuse _

theorem intrinsic_obeys (he : Expr.Regular Γ Q ⟨ty, .intrinsic f args⟩) :
    Obeys (.access Γ Q) (intrinsic parts f args ty) := by
  unfold intrinsic
  dsimp only
  split
  · exact .refuse_bind _ _
  · split
    · exact .refuse _
    case h_2 x y choice _ =>
      split
      · have hargs : ∀ arg ∈ [x, y, choice], arg.Regular Γ Q := fun arg harg => he.operand harg
        refine (hparts.obeys (hargs x (by simp))).bind fun _ => ?_
        refine (hparts.obeys (hargs y (by simp))).bind fun _ => ?_
        exact (hparts.obeys (hargs choice (by simp))).bind fun _ => emit_obeys (access_spares _ rfl) ty _
      · exact intrinsicOfForm_obeys hparts he
    · exact intrinsicOfForm_obeys hparts he

/-! ## Texels -/

theorem atomicTexel_obeys {ops : PerFamily Op} (hform : f.form = .atomic ops) (config : ImageConfig)
    {image : Expr} {address values : List Expr} (himage : image.Regular Γ Q)
    (haddress : ∀ e ∈ address, e.Regular Γ Q) (hvalues : ∀ e ∈ values, e.Regular Γ Q) (ty : Ty) :
    Obeys (.access Γ Q) (atomicTexel parts f ops config image address values ty) := by
  refine (declareType_obeys _).bind fun texel => (declarePointer_obeys _ _).bind fun type => ?_
  refine (hparts.pointer_obeys himage).bind fun base => (values_obeys hparts haddress).bind fun ids => ?_
  have hrest : ∀ sample : List Id, Obeys (.access Γ Q) (do
      let pointer ← emitAs .ImageTexelPointer type (base :: ids ++ sample)
      let values ← values.mapM parts.value
      atomic f ops .image (some config.sampled) pointer values ty) := fun sample =>
    (emitAs_obeys (access_spares _ rfl) _ _).bind fun pointer =>
      (values_obeys hparts hvalues).bind fun _ => atomic_obeys hform _ _ _ _ _
  split
  · exact (Obeys.pure _).bind hrest
  · exact (declareLiteral_obeys _).bind fun _ => (Obeys.pure _).bind hrest

theorem imageAccess_obeys {access : ImageAccess} (hargs : ∀ arg ∈ args, arg.Regular Γ Q) :
    Obeys (.access Γ Q) (imageAccess parts access args ty) := by
  intro s
  refine (imageArg_obeys _ args s).bind fun p t himage => ?_
  obtain ⟨image, config⟩ := p
  obtain ⟨-, -, rest, rfl⟩ := imageArg_ok himage
  have hfirst := hargs image mem_cons_self
  obtain ⟨haddress, hvalues⟩ := forall_mem_split (forall_mem_cons.1 hargs).2 config.addressLength
  refine ((checkCount_obeys _ _ _).bind fun _ => ?_) t
  rw [tail_cons, splitAt_eq]
  dsimp only
  split
  · split
    case h_1 ops hform => exact atomicTexel_obeys hparts hform config hfirst haddress hvalues ty
    · exact .refuse _
  · refine (hparts.obeys hfirst).bind fun base => (values_obeys hparts haddress).bind fun ids => ?_
    refine (values_obeys hparts hvalues).bind fun texel => ?_
    split
    · exact emit_obeys (access_allows_engaging rfl) ty _
    · exact emit_obeys (access_allows_engaging rfl) ty _
    · exact (emitEffect_obeys (access_allows_engaging rfl) _).bind fun _ => .pure _
    · exact emit_obeys (access_allows_engaging rfl) ty _

theorem announced_obeys (multisampled : Bool) : ∀ (operands : List ImageOperand) {args : List Expr},
    (∀ arg ∈ args, arg.Regular Γ Q) →
    Obeys (.access Γ Q) (announced parts multisampled operands args)
  | [], _, _ => .pure _
  | operand :: operands, args, h => by
    obtain ⟨hown, hrest⟩ := forall_mem_split h operand.arity
    exact (values_obeys hparts hown).bind fun ids => (announced_obeys multisampled operands hrest).bind fun _ => .pure _

theorem textureAccess_obeys {access : TextureAccess} (hargs : ∀ arg ∈ args, arg.Regular Γ Q) :
    Obeys (.access Γ Q) (textureAccess parts access args ty) := by
  intro s
  refine (imageArg_obeys _ args s).bind fun p t himage => ?_
  obtain ⟨image, config⟩ := p
  obtain ⟨-, -, rest, rfl⟩ := imageArg_ok himage
  obtain ⟨hfixed, hoptional⟩ := forall_mem_split (forall_mem_cons.1 hargs).2 access.form.fixed
  have hhandle : Obeys (.access Γ Q) (textureHandle parts access.form image) := by
    refine (hparts.obeys (hargs image mem_cons_self)).bind fun id => ?_
    split
    · exact emit_obeys (access_spares _ rfl) _ _
    · exact .pure _
  refine ((checkCount_obeys _ _ _).bind fun _ => hhandle.bind fun handle => ?_) t
  rw [tail_cons, splitAt_eq]
  refine (values_obeys hparts hfixed).bind fun ids => (announced_obeys hparts _ _ hoptional).bind fun _ => ?_
  exact emit_obeys (access_allows_engaging access.form_engages) ty _

/-! ## Expressions -/

theorem constructArg_obeys (target : Option Scalar) (harg : arg.Regular Γ Q) :
    Obeys (.access Γ Q) (constructArg parts target arg) := by
  have hvalue := hparts.obeys harg
  unfold constructArg
  split
  · split
    · exact hvalue.bind fun _ => .pure _
    · split
      · exact (declareLiteral_obeys _).bind fun _ => .pure _
      · exact hvalue.bind fun _ => (cast_obeys access_spares _ _).bind fun _ => .pure _
  · exact hvalue.bind fun _ => .pure _

theorem constructArgs_obeys (target : Option Scalar) : ∀ {args : List Expr},
    (∀ arg ∈ args, arg.Regular Γ Q) → Obeys (.access Γ Q) (constructArgs parts target args)
  | [], _ => .pure _
  | arg :: args, h => by
    obtain ⟨harg, hrest⟩ := forall_mem_cons.1 h
    exact (constructArg_obeys hparts target harg).bind fun _ => (constructArgs_obeys target hrest).bind fun _ => .pure _

theorem swizzleValue_obeys {outer : Expr} (houter : outer.Regular Γ Q) (sw : Swizzle) :
    Obeys (.access Γ Q) (swizzleValue parts ty outer sw) := by
  refine (hparts.obeys houter).bind fun vector => ?_
  split
  · exact .pure _
  · exact splat_obeys access_spares _ _ _ _
  · exact emit_obeys (access_spares _ rfl) ty _
  · exact emit_obeys (access_spares _ rfl) ty _

theorem indexValue_obeys {array index : Expr} (harray : array.Regular Γ Q) (hindex : index.Regular Γ Q)
    (hinto : (Step.index index).into? array.ty = some ty) (hcopies : ∀ t, Q t → t.Copies array) :
    Obeys (.access Γ Q) (indexValue parts ty array index) := by
  intro s
  refine (hparts.obeys harray s).bind fun whole s₁ hwhole => ?_
  split
  · exact emit_obeys (access_spares _ rfl) ty _ s₁
  · refine (hparts.obeys hindex s₁).bind fun i s₂ hi => ?_
    have hlater := (hparts.obeys hindex s₁ hi).later
    split
    · exact emit_obeys (access_spares _ rfl) ty _ s₂
    · have hspill : ObeysAt (.access Γ Q) (spill array.ty whole) s₂ := by
        refine spill_obeysAt fun u hu hconsistent hQ => ?_
        have hprovides := hparts.provides (harray.stores u hQ).1 harray.context s whole s₁ hwhole
        exact (hprovides.mono hlater).suitsCopy hcopies hu hconsistent hQ
      refine hspill.bind fun copy s₃ hcopy => ?_
      refine (declareType_obeys ty s₃).bind fun element s₄ helement => ?_
      refine (declarePointer_obeys element .Function s₄).bind fun pointerType s₅ hpointerType => ?_
      refine (takeIntermediate_obeys s₅).bind fun pointer s₆ hpointer => ?_
      obtain ⟨type, hfinds, hpoints⟩ := spill_points array.ty whole s₂ copy s₃ hcopy
      have htaken := (takeIntermediate_obeys (W := .access Γ Q) s₅ hpointer).later.trans
        (Extending.push (.value .AccessChain pointerType pointer [copy, i]) rfl)
      have hdeclared := (declarePointer_obeys (W := .access Γ Q) element .Function s₄ hpointerType).later.trans htaken
      have hsince := (declareType_obeys (W := .access Γ Q) ty s₃ helement).later.trans hdeclared
      have hregistered := declarePointer_ok (onModule_ok hpointerType).1
      have hfound := finds_of_ok (onModule_ok helement).1
      have hpushed : ObeysAt (.access Γ Q) (push (.value .AccessChain pointerType pointer [copy, i])) s₆ := by
        refine push_obeysAt fun u hu hconsistent => ⟨?_, fun _ hop => by cases hop⟩
        obtain ⟨part, hpart, hpartFinds⟩ := part_of_element hconsistent.module
          hconsistent.final.nodup_declarations (hfinds.mono (hsince.trans hu).module.toRetains) hinto i
        obtain rfl : part = element := hpartFinds.unique (hfound.mono (hdeclared.trans hu).module.toRetains)
        refine hconsistent.accessChain_typed (hpoints.mono (hsince.trans hu)) ?_
          ((htaken.trans hu).module.toRetains.pointers _ _ hregistered) pointer
        show [i].foldlM u.module.partAt? type = some part
        simp [hpart]
      refine hpushed.bind fun _ s₇ hpush => ?_
      cases hpush
      refine (load_obeysAt fun storage hstorage u hu _ => ?_).bind fun _ s₈ _ =>
        ((releaseIntermediate_obeys _).bind fun _ => .pure _) s₈
      cases hstorage
      refine ⟨pointerType, .inl (Lowerer.Types.mono (.inr ⟨.value .AccessChain pointerType pointer
        [copy, i], ?_, rfl, rfl⟩) hu), (htaken.trans hu).module.toRetains.pointers _ _ hregistered⟩
      exact mem_append_right _ (mem_append_right _ mem_cons_self)

omit hparts in
theorem binary_scalar? (op : BinOp) (l r : Operand) (ty : Ty) (fold : Bool) :
    (binary op l r ty fold).Yields fun _ => l.ty.scalar?.isSome := by
  cases hscalar : l.ty.scalar? with
  | some scalar => exact fun _ _ _ _ => rfl
  | none =>
    unfold binary vectorBinary
    rw [hscalar]
    split <;> exact Ensures.refuse _

theorem operand_obeys (he : e.Regular Γ Q) : Obeys (.access Γ Q) (operand parts e) :=
  (hparts.obeys he).bind fun _ => .pure _

theorem assign_obeys {op : Option BinOp} {lhs rhs : Expr} (demand : Demand)
    (he : Expr.Regular Γ Q ⟨ty, .assign op lhs rhs⟩) : Obeys (.access Γ Q) (assign parts ty op lhs rhs demand) := by
  have hlhs : lhs.Regular Γ Q := he.operand (by simp [Node.operands])
  have hrhs : rhs.Regular Γ Q := he.operand (by simp [Node.operands])
  intro s
  refine (placeToAssign_obeys hparts hlhs s).bind fun p t hplace => ?_
  obtain ⟨hplace, hassignable⟩ := placeToAssign_ok hplace
  have hp := place_aims hparts.steady hlhs.built hlhs.context s p t hplace
  have hwrite : ∀ {id : Id} {u : Lowerer}, t.Extends u → u.Suits Γ Q id lhs →
      ObeysAt (.access Γ Q) (writePlace p id) u := fun hlater hsuits =>
    writePlace_obeysAt (hp.mono hlater) (hp.assignable hassignable) hsuits
  cases op with
  | none =>
    refine (hparts.obeys hrhs t).bind fun id u hvalue => ?_
    refine (hwrite (hparts.obeys hrhs t hvalue).later fun v hv hconsistent hQ => ?_).bind fun _ v _ =>
      assigned_obeys p ty id demand v
    have hprovides := hparts.provides (hrhs.stores v hQ).1 hrhs.context t id u hvalue
    exact hprovides.suits (fun v hQ => he.storesAlike hQ) hv hconsistent hQ
  | some op =>
    refine (readPlace_obeysAt hp.points).bind fun current t₁ hread => ?_
    refine (operand_obeys hparts hrhs t₁).bind fun r t₂ hoperand => ?_
    refine (binary_obeys access_spares op _ r lhs.ty false t₂).bind fun id t₃ hbinary => ?_
    have hlater := ((readPlace_obeysAt (Q := Q) hp.points hread).later.trans
      (operand_obeys hparts hrhs t₁ hoperand).later).trans (Extending.binary _ _ _ _ _ hbinary)
    have hyields : t₃.Yields Γ lhs.ty id := binary_gives op _ r lhs.ty false t₂ id t₃ hbinary
    have hty := binary_scalar? op _ r lhs.ty false t₂ id t₃ hbinary
    refine (hwrite hlater (hyields.suits fun v _ => ?_)).bind fun _ v _ => assigned_obeys p ty id demand v
    exact .inr (Setting.alike_of_scalar? hty _ _)

theorem init_obeys {v : Variable} {initial : Expr} (demand : Demand) (he : Expr.Regular Γ Q ⟨ty, .init v initial⟩) :
    Obeys (.access Γ Q) (init parts ⟨ty, .init v initial⟩ v initial demand) := by
  have hinitial : initial.Regular Γ Q := he.operand (by simp [Node.operands])
  intro s
  refine (resolve_obeys v s).bind fun entity t hresolve => ?_
  have hdenotes := resolve_denotes (he.context v (.self rfl)) s entity t hresolve
  dsimp only
  split
  · exact Obeys.refuse_bind _ _ t
  case isFalse hpointer =>
    obtain ⟨storage, hstorage⟩ : ∃ storage, entity.storage = some storage :=
      ne_none_iff_exists'.1 (by simpa [Entity.isPointer] using hpointer)
    refine (hparts.obeys hinitial t).bind fun id u hvalue => ?_
    have hlater := (hparts.obeys hinitial t hvalue).later
    have hpoints : u.Hence Γ fun w => w.Points entity.id storage entity.type :=
      (hdenotes.mono hlater).imp fun w _ hw => hw.pointer storage hstorage
    have hsuits : u.Hence Γ fun w => Q w → id ≠ noResult → w.Types id entity.type := by
      intro w hw hconsistent hQ hne
      have hprovides := hparts.provides (hinitial.stores w hQ).1 hinitial.context t id u hvalue
      obtain ⟨own, hown, htypes⟩ := hprovides hw hconsistent hne
      have hentity := hdenotes (hlater.trans hw) hconsistent
      have hfinds := hentity.finds
      rw [← hentity.layoutOf] at hfinds
      have halike : Setting.Alike _ _ ⟨w.layoutOf v, none⟩ _ := he.storesAlike hQ
      exact halike.finds_unique hown hfinds ▸ htypes
    refine (store_obeysAt hpoints hsuits).bind fun _ u' _ => ?_
    cases demand with
    | pointer => exact Obeys.pure _ u'
    | value => exact value_obeys _ _ u'

theorem step_obeys (op : StepOp) {target : Expr} (htarget : target.Regular Γ Q) :
    Obeys (.access Γ Q) (step parts op target) := by
  intro s
  refine (placeToAssign_obeys hparts htarget s).bind fun p t hplace => ?_
  obtain ⟨hplace, hassignable⟩ := placeToAssign_ok hplace
  have hp := place_aims hparts.steady htarget.built htarget.context s p t hplace
  refine (readPlace_obeysAt hp.points).bind fun old t₁ hread => ?_
  have hextends := (readPlace_obeysAt (Q := Q) hp.points hread).later
  split
  case h_1 one size hone hsize =>
    obtain ⟨scalar, hscalar, -⟩ := bind_eq_some_iff.1 hone
    have hrest : ∀ (one : Operand) {u : Lowerer}, t₁.Extends u → ObeysAt (.access Γ Q) (do
        let new ← binary (if op.isIncrement then .add else .sub) { ty := target.ty, id := old } one target.ty false
        writePlace p new
        return if op.yieldsNew then new else old : Lower Id) u := by
      intro one u hu
      refine (binary_obeys access_spares _ _ one target.ty false u).bind fun new v hbinary => ?_
      have hlater := (hextends.trans hu).trans (Extending.binary _ _ _ _ _ hbinary)
      have hyields : v.Yields Γ target.ty new := binary_gives _ _ one target.ty false u new v hbinary
      refine (writePlace_obeysAt (hp.mono hlater) (hp.assignable hassignable)
        (hyields.suits fun w _ => .inr ?_)).bind fun _ w _ => Obeys.pure _ w
      exact Setting.alike_of_scalar? (by rw [hscalar]; rfl) _ _
    refine (declareLiteral_obeys one t₁).bind fun literal t₂ hliteral => ?_
    have hlater := (declareLiteral_obeys (W := .access Γ Q) one t₁ hliteral).later
    dsimp only
    split
    · refine (splat_obeys access_spares _ _ _ _ t₂).bind fun ones t₃ hones => ?_
      exact hrest _ (hlater.trans (Extending.splat _ _ _ _ hones))
    · exact (Obeys.pure _ t₂).bind fun ones t₃ hones => by
        cases hones
        exact hrest _ hlater
  · exact Obeys.refuse _ t₁

theorem select_obeys {c t f : Expr} (hc : c.Regular Γ Q) (ht : t.Regular Γ Q) (hf : f.Regular Γ Q) :
    Obeys (.access Γ Q) (select parts e c t f) :=
  (operand_obeys hparts hc).bind fun _ => (hparts.obeys ht).bind fun _ =>
    (hparts.obeys hf).bind fun _ => choose_obeys access_spares _ _ _ _ _

/-- One node obeys the law of accesses, if its parts do. -/
theorem node_obeys (demand : Demand) (he : e.Regular Γ Q) : Obeys (.access Γ Q) (node parts e demand) := by
  have hoperand : ∀ o ∈ e.node.operands, o.Regular Γ Q := fun o ho => he.operand ho
  have hchain := chain_obeys hparts he
  have hchecked := he.built e (.self e)
  have hstores : ∀ t, Q t → e.StoresAlike t := fun t hQ => he.storesAlike hQ
  obtain ⟨ty, node⟩ := e
  cases node with
  | literal l => exact bind_value_obeys (declareLiteral_obeys l) ty
  | ident v =>
    show Obeys _ (if v.isMember then chain parts _ else resolve v)
    split
    · exact hchain
    · exact resolve_obeys v
  | member outer index =>
    unfold node
    dsimp only
    split
    · exact hchain
    · exact (hparts.obeys (hoperand outer mem_cons_self)).bind fun whole =>
        bind_value_obeys (emit_obeys (access_spares _ rfl) ty _) ty
  | index array i =>
    unfold node
    dsimp only
    split
    · exact hchain
    case isFalse hvalue =>
      refine bind_value_obeys (indexValue_obeys hparts (hoperand array (by simp [Node.operands]))
        (hoperand i (by simp [Node.operands])) (Expr.into?_of_index? hchecked) fun t hQ => ?_) ty
      exact (hstores t hQ).resolve_left hvalue
  | swizzle outer sw =>
    unfold node
    dsimp only
    split
    · exact hchain
    · exact bind_value_obeys (swizzleValue_obeys hparts (hoperand outer mem_cons_self) sw) ty
  | assign op lhs rhs => exact assign_obeys hparts demand he
  | init v initial => exact init_obeys hparts demand he
  | unary op x =>
    exact (operand_obeys hparts (hoperand x mem_cons_self)).bind fun _ =>
      bind_value_obeys (unary_obeys access_spares _ _ _) ty
  | binary op l r =>
    exact (operand_obeys hparts (hoperand l (by simp [Node.operands]))).bind fun _ =>
      (operand_obeys hparts (hoperand r (by simp [Node.operands]))).bind fun _ =>
        bind_value_obeys (binary_obeys access_spares _ _ _ _ _) ty
  | cast x =>
    exact (operand_obeys hparts (hoperand x mem_cons_self)).bind fun _ =>
      bind_value_obeys (cast_obeys access_spares _ _) ty
  | step op x => exact bind_value_obeys (step_obeys hparts op (hoperand x mem_cons_self)) ty
  | construct args =>
    exact bind_value_obeys ((constructArgs_obeys hparts _ hoperand).bind fun _ =>
      assemble_obeys access_spares _ _ _ _) ty
  | call func args => exact bind_value_obeys (call_obeys hparts he) ty
  | intrinsic f args => exact bind_value_obeys (intrinsic_obeys hparts he) ty
  | image access args => exact bind_value_obeys (imageAccess_obeys hparts hoperand) ty
  | texture access args => exact bind_value_obeys (textureAccess_obeys hparts hoperand) ty
  | select c t f =>
    exact bind_value_obeys (select_obeys hparts (hoperand c (by simp [Node.operands]))
      (hoperand t (by simp [Node.operands])) (hoperand f (by simp [Node.operands]))) ty

omit hparts in
theorem assigned_points (p : Place) (ty : Ty) (id : Id) : Ensures (match p.swizzle, Demand.value with
      | none, .pointer => pure p.entity
      | _, _ => value ty id : Lower Entity) fun entity s => s.PointsTo Γ entity := by
  split
  case h_1 hdemand => cases hdemand
  · exact value_points ty id

omit hparts in
/-- A pointer that a node yields points to a value of the entity's type. -/
theorem node_points (hsteady : parts.Regular) (he : e.Built) (hover : e.Over Γ) :
    (node parts e .value).Ensures fun entity s => s.PointsTo Γ entity := by
  have hchain := chain_points hsteady he hover
  have hvalue : ∀ {x : Lower Id} (ty : Ty), Ensures (x >>= fun id => value ty id) fun entity s => s.PointsTo Γ entity :=
    fun ty => .bind fun id => value_points ty id
  obtain ⟨ty, node⟩ := e
  cases node with
  | ident v =>
    show Ensures (if v.isMember then chain parts _ else resolve v) _
    split
    · exact hchain
    · intro s entity s' h storage hstorage
      exact (resolve_denotes (hover v (.self rfl)) s entity s' h).imp fun t _ ht => ht.pointer storage hstorage
  | member outer index =>
    unfold node
    dsimp only
    split
    · exact hchain
    · exact .bind fun _ => hvalue ty
  | index array i | swizzle outer sw =>
    unfold node
    dsimp only
    split
    · exact hchain
    · exact hvalue ty
  | assign op lhs rhs =>
    refine .bind fun p => ?_
    cases op with
    | none => exact .bind fun id => .bind fun _ => assigned_points p ty id
    | some op => exact .bind fun _ => .bind fun _ => .bind fun id => .bind fun _ => assigned_points p ty id
  | init v initial =>
    refine .bind fun entity => ?_
    dsimp only
    split
    · exact .refuse_bind _ _
    · exact .bind fun id => .bind fun _ => value_points _ id
  | unary op x => exact .bind fun _ => hvalue ty
  | binary op l r => exact .bind fun _ => .bind fun _ => hvalue ty
  | cast x => exact .bind fun _ => hvalue ty
  | _ => exact hvalue ty

end

/-! ## Whole expressions -/

theorem nested_obeys {α : Type} {W : Law} {x : Lower α} (h : Obeys W x) : Obeys W (nested x) := by
  intro s r s' hrun
  rcases nested_cases hrun with ⟨-, rfl⟩ | ⟨-, t, hx, rfl⟩
  · exact .refl _
  · obtain ⟨hlater, hdepth, code, hcode, hlaw⟩ := h _ hx
    have hback : t.Extends { t with depth := t.depth - 1 } := { Lowerer.Extends.refl t with }
    exact ⟨{ hlater with }, congrArg (· - 1) hdepth, code, hcode, fun inst hi => W.mono hback (hlaw inst hi)⟩

theorem nested_points {x : Lower Entity} (hx : x.Ensures fun entity s => s.PointsTo Γ entity) :
    (nested x).Ensures fun entity s => s.PointsTo Γ entity := by
  intro s entity s' h
  obtain ⟨t, hrun, rfl⟩ := eq_of_nested h
  exact (hx _ entity t hrun).mono { Lowerer.Extends.refl t with }

theorem partsOf_lawful {entity : Expr → Demand → Lower Entity} (hcarried : (partsOf entity).Carried Γ)
    (hobeys : ∀ e demand, e.Regular Γ Q → Obeys (.access Γ Q) (entity e demand))
    (hpoints : ∀ e, e.Built → e.Over Γ → (entity e .value).Ensures fun result s => s.PointsTo Γ result) :
    (partsOf entity).Lawful Γ Q where
  toCarried := hcarried
  obeys {e} he s := (hobeys e .value he s).bind fun result t hrun =>
    load_obeysAt (hpoints e he.built he.context s result t hrun)
  pointer_obeys {e} he := (hobeys e .pointer he).bind fun result => by
    unfold pointerOf
    split
    · exact .refuse_bind _ _
    · exact .pure _

/-- At every height, parts obey the law and carry what they should. -/
theorem lowerWithin_lawful (height : Nat) : (partsOf (lowerWithin height)).Lawful Γ Q := by
  induction height with
  | zero =>
    exact partsOf_lawful (lowerWithin_carried 0) (fun _ _ _ => .get_bind fun _ => .refuse _)
      fun _ _ _ => .bind fun _ => .refuse _
  | succ height ih =>
    exact partsOf_lawful (lowerWithin_carried _) (fun e demand he => nested_obeys (node_obeys ih demand he))
      fun e he hover => nested_points (node_points ih.steady he hover)

theorem lower_obeys (he : e.Regular Γ Q) : Obeys (.access Γ Q) (lower e) := (lowerWithin_lawful e.height).obeys he

theorem lowerPointer_obeys (he : e.Regular Γ Q) : Obeys (.access Γ Q) (lowerPointer e) :=
  (lowerWithin_lawful e.height).pointer_obeys he

end Lower

/-- Whether lowering succeeds or not: what is loaded is of the type that its pointer points to, and
paths lead to the type that their indices lead to, in the storage where they start. -/
theorem lower_pointers_typed {config : Config} {Γ : Context} {i : Nat} {w : Workbench} (hw : w.ReachableIn config Γ i)
    (hi : w.functions.current = some i) {f : FunctionScope} {b : Block} (hf : w.functions.get? = some f)
    (hb : w.blocks.get? = some b) {e : Expr} (he : e.Built) (hover : e.Over Γ) {x : Lower Id}
    (hx : x = Lower.lower e ∨ x = Lower.lowerPointer e) {r : Except Fault Id} {s' : Lowerer}
    (h : x ⟨w.module, f, b, 0⟩ = (r, s')) :
    ∃ code, s'.block.instructions = b.instructions ++ code ∧ ∀ inst ∈ code, inst.PointerTyped s' := by
  have hconsistent := hw.consistent hi hf hb hover hx h
  have hregular : e.Regular Γ fun _ => False := ⟨he, hover, fun _ hs => hs.elim⟩
  have hadds : Lowerer.Adds (.access Γ fun _ => False) ⟨w.module, f, b, 0⟩ s' := by
    rcases hx with rfl | rfl
    · exact Lower.lower_obeys hregular _ h
    · exact Lower.lowerPointer_obeys hregular _ h
  obtain ⟨code, hcode, hlaw⟩ := hadds.code
  exact ⟨code, hcode, fun inst hi => (hlaw inst hi (.refl s') hconsistent).1⟩

def Ty.row : Ty := .struct "Row" .std430 [⟨"height", .scalar .float, 0, none⟩,
  ⟨"weights", .array (.scalar .float) (some 3), 16, some 16⟩]

def Ty.table : Ty := .struct "Table" .std140 [⟨"rows", .array .row (some 4), 0, none⟩]

def Context.withTable : Context := fun name => some (if name = "t" then .table else .scalar .int)

/-- `t.rows[n].weights`, in a uniform buffer. -/
def Expr.weights : Expr :=
  let rows : Expr := ⟨.array .row (some 4), .member (.ident (.root "t" .table { uniform := true })) 0⟩
  ⟨.array (.scalar .float) (some 3), .member ⟨.row, .index rows .number⟩ 1⟩

def Expr.weight : Expr := ⟨.scalar .float, .index .weights .number⟩

theorem Expr.wellTyped_weights : weights.WellTyped :=
  .member (.index (.member (.ident (.root _ _ _)) rfl) (.ident (.root _ _ _)) rfl) rfl

theorem Expr.wellTyped_weight : weight.WellTyped := .index wellTyped_weights (.ident (.root _ _ _)) rfl

theorem Expr.over_weights {Γ : Context} (ht : Γ "t" = some .table) (hn : Γ "n" = some (.scalar .int)) :
    weights.Over Γ :=
  .of_operand rfl rfl (.of_pair rfl rfl (.of_operand rfl rfl (.ident ht)) (.ident hn))

theorem Expr.over_weight : weight.Over .withTable := .of_pair rfl rfl (over_weights rfl rfl) (.ident rfl)

theorem lower_weight_pointers_typed : Workbench.inFunction.ReachableIn {} .withTable 0 ∧
      Workbench.inFunction.functions.get? = some Lowerer.inFunction.func ∧
      Workbench.inFunction.blocks.get? = some Lowerer.inFunction.block ∧
      Expr.weight.Built ∧ Expr.weight.Over .withTable ∧
      ∃ id s' code, Lower.lower .weight .inFunction = (.ok id, s') ∧
        s'.block.instructions = code ∧ code.map (·.op) = [.Load, .Load, .AccessChain, .Load] ∧
        ∀ inst ∈ code, inst.PointerTyped s' := by
  have hok : (Lower.lower .weight .inFunction).1.isOk := by decide +kernel
  have hops : (Lower.lower .weight .inFunction).2.block.instructions.map (·.op) =
      [.Load, .Load, .AccessChain, .Load] := by decide +kernel
  have hw := Workbench.inFunction_reachableIn .withTable
  have hbuilt := Expr.wellTyped_weight.built
  obtain ⟨id, h⟩ := exists_ok hok
  obtain ⟨code, hcode, htyped⟩ := lower_pointers_typed hw rfl rfl rfl hbuilt Expr.over_weight (.inl rfl) h
  replace hcode : (Lower.lower .weight .inFunction).2.block.instructions = code := hcode
  exact ⟨hw, rfl, rfl, hbuilt, Expr.over_weight, id, _, code, h, hcode, hcode ▸ hops, htyped⟩

end Shader
