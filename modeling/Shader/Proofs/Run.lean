import Shader.Proofs.Change

/-!
# Ledgers through runs

The identifiers in finished and unfinished functions and blocks are held back from the module. Seen like
this, a ledger of modules that stands through construction stands through every run of a workbench.
-/

namespace Shader

open List Module OrderedMap Option Rack

variable {J : Ledger Module} {f : FunctionScope} {next : Id}

/-! ## Growth -/

namespace Word

theorem add_ok {a b c : Word} (h : add a b = .ok c) : c.toNat = a.toNat + b.toNat := by
  unfold add at h
  split at h
  · cases h
    rw [UInt32.toNat_add, Nat.mod_eq_of_lt (by assumption)]
  · cases h

theorem lt_of_add_one {a b : Word} (h : add a 1 = .ok b) : a < b := by
  rw [UInt32.lt_iff_toNat_lt, add_ok h]
  exact Nat.lt_succ_self _

theorem le_of_add_one {a b : Word} (h : add a 1 = .ok b) : a ≤ b := UInt32.le_of_lt (lt_of_add_one h)

end Word

/-- What a module keeps while it is built: it is only added to, and finished functions stay. -/
structure Module.Grown (m₀ m : Module) : Prop extends m₀.Retains m where
  config : m.config = m₀.config
  functions : m.functions = m₀.functions
  bound : m₀.bound ≤ m.bound
  imports : m₀.imports <+: m.imports
  debug : m₀.debug <+: m.debug
  declarations : m₀.declarations <+: m.declarations

theorem Module.Grown.refl (m : Module) : m.Grown m :=
  ⟨.refl m, rfl, rfl, UInt32.le_refl _, prefix_rfl, prefix_rfl, prefix_rfl⟩

theorem Module.Grown.trans {m₁ m₂ m₃ : Module} (h : m₁.Grown m₂) (h' : m₂.Grown m₃) : m₁.Grown m₃ :=
  ⟨h.toRetains.trans h'.toRetains, h'.config.trans h.config, h'.functions.trans h.functions,
    UInt32.le_trans h.bound h'.bound, h.imports.trans h'.imports, h.debug.trans h'.debug,
    h.declarations.trans h'.declarations⟩

variable {m m₀ m' : Module} {name : String} {N : Names} {P : Module → Prop} {id : Id} {inst : Inst}

theorem Module.Grown.fresh (h : m₀.Grown m) (hnext : Word.add m.bound 1 = .ok next) :
    m₀.Grown { m with bound := next } :=
  { h with bound := UInt32.le_trans h.bound (Word.le_of_add_one hnext) }

theorem Module.Grown.addDebug (h : m₀.Grown m) (inst : Inst) : m₀.Grown { m with debug := m.debug ++ [inst] } :=
  { h with debug := h.debug.trans (prefix_append _ _) }

theorem Module.Grown.addDeclaration (h : m₀.Grown m) (inst : Inst) :
    m₀.Grown { m with declarations := m.declarations ++ [inst] } :=
  { h with declarations := h.declarations.trans (prefix_append _ _) }

theorem Module.Grown.insert (h : m₀.Grown m) (s : Section) (inst : Inst) : m₀.Grown (m.insert s inst) := by
  cases s with
  | debug => exact h.addDebug inst
  | imports => exact { h with imports := h.imports.trans (prefix_append _ _) }
  | declarations => exact h.addDeclaration inst
  | _ => exact { h with }

theorem Module.Grown.addFunction (h : m₀.Grown m)
    (hname : m.functionIds.get? name = none) (hnext : Word.add m.bound 1 = .ok next) :
    m₀.Grown { m with bound := next, functionIds := m.functionIds.put name m.bound } :=
  { h.fresh hnext with
    functionIds := fun name' id' hn => get?_put_of_get? _ hname (h.functionIds name' id' hn) }

theorem Module.Grown.remember (h : m₀.Grown m) (hm' : m.Remembers P id m') : m₀.Grown m' := by
  have hretains := h.toRetains.trans (.remembers hm')
  rw [hm'.same] at hretains ⊢
  exact { hretains, h with }

theorem Module.Grown.putLiteral (h : m₀.Grown m) {l : Literal} (id : Id)
    (hnew : m.literals.get? l = none) : m₀.Grown { m with literals := m.literals.put l id } :=
  { h with
    literals := fun l' id' hl' => get?_put_of_get? _ hnew (h.literals l' id' hl') }

theorem Module.Grown.putComposite (h : m₀.Grown m) {key : List Id × Id} (id : Id)
    (hnew : m.composites.get? key = none) :
    m₀.Grown { m with composites := m.composites.put key id } :=
  { h with
    composites := fun k' id' hk' => get?_put_of_get? _ hnew (h.composites k' id' hk') }

theorem Module.Grown.putGlobal (h : m₀.Grown m) (e : Entity) (hnew : m.globals.get? name = none) :
    m₀.Grown { m with globals := m.globals.put name e } :=
  { h with
    globals := fun name' e' he' => get?_put_of_get? _ hnew (h.globals name' e' he') }

/-- All that a module finds things by. -/
def Module.findings (m : Module) := (m.types, m.pointers, m.functionTypes, m.literals, m.composites, m.globals)

/-- A property of findings that stands while the module grows, and through new ones. -/
structure Enduring (P : Module → Prop) : Prop where
  grow : ∀ {m m' : Module}, P m → m.Grown m' → m'.findings = m.findings → P m'
  remember : ∀ {m m' : Module} {id : Id}, P m → m.Remembers P id m' → P m'
  literal : ∀ {m : Module} {l : Literal} {type id : Id}, P m → m.Lacks l type →
    l.inst type id ∈ m.declarations → P { m with literals := m.literals.put l id }

/-- The same through composites and globals, if no other names are introduced. -/
structure Lasting (N : Names) (P : Module → Prop) : Prop extends Enduring P where
  composite : ∀ {m : Module} {constituents : List Id} {type id : Id}, P m →
    m.composites.get? (constituents, type) = none →
    .value .ConstantComposite type id constituents ∈ m.declarations →
    P { m with composites := m.composites.put (constituents, type) id }
  global : ∀ {m : Module} {name : String} {ty : Ty} {e : Entity}, P m → N name e.storage ty →
    m.Introduces name ty e → P { m with globals := m.globals.put name e }

theorem Enduring.declare (hP : Enduring P) (hm : P m) (inst : Inst) :
    P { m with declarations := m.declarations ++ [inst] } :=
  hP.grow hm ((Grown.refl m).addDeclaration inst) rfl

theorem Enduring.fresh (hP : Enduring P) (hm : P m)
    (hnext : Word.add m.bound 1 = .ok next) : P { m with bound := next } :=
  hP.grow hm ((Grown.refl m).fresh hnext) rfl

theorem Enduring.stepwise (hP : Enduring P) : Stepwise (.keeping P) where
  alike {_ _ m _} h ha := by
    rw [ha]
    exact hP.grow h { Grown.refl m with } rfl
  note {_ _ m} inst h hs _ := by
    refine hP.grow h ((Grown.refl m).insert _ inst) ?_
    rw [noted_insert m hs inst]
    rfl
  name {_ _ m _ _} h _ := hP.grow h ((Grown.refl m).addDebug _) rfl
  fresh h hnext := hP.fresh h hnext
  type _ h _ := hP.declare h _
  remember h _ hm' := hP.remember h hm'
  literal l h _ hlacks hnext := hP.literal (hP.declare (hP.fresh h hnext) _)
    ⟨hlacks.literal, hlacks.type⟩ (mem_append_right _ mem_cons_self)

theorem Lasting.building (hP : Lasting N P) : Building N (.keeping P) where
  toDeclaring := hP.stepwise.declaring
  composite h _ _ hnew hnext := hP.composite (hP.declare (hP.fresh h hnext) _) hnew (mem_append_right _ mem_cons_self)
  specialize _ _ h _ _ := hP.declare h _
  globalVariable {_ _ m _ _ storage pointer _} id h _ hname hnew :=
    have hdeclared : P (m.declaring storage pointer id) := hP.declare h _
    hP.global hdeclared hname (hnew.introduces id)
  global h _ hname hnew := hP.global h hname hnew
  imported {_ _ m _} _ h hnext := hP.grow h { (Grown.refl m).fresh hnext with imports := prefix_append _ _ } rfl
  named {_ _ m _ _} h hname hnext := hP.grow h ((Grown.refl m).addFunction hname hnext) rfl
  member {_ _ m _ _ _} h _ _ := hP.grow h { Grown.refl m with } rfl

theorem Lasting.of_grown (hP : ∀ {m m' : Module}, m.Grown m' → P m → P m') : Lasting N P where
  grow h hm _ := hP hm h
  remember {m _ _} h hm' := hP ((Grown.refl m).remember hm') h
  literal {m _ _ id} h hlacks _ := hP ((Grown.refl m).putLiteral id hlacks.literal) h
  composite {m _ _ id} h hnew _ := hP ((Grown.refl m).putComposite id hnew) h
  global {m _ _ e} h _ hnew := hP ((Grown.refl m).putGlobal e hnew.isNew) h

theorem Building.keeping (hP : ∀ {m m' : Module}, m.Grown m' → P m → P m') : Building N (.keeping P) :=
  (Lasting.of_grown hP).building

theorem Building.tracing (hP : Building N (.keeping P)) : Tracing (.naming N) (.keeping fun s => P s.module) where
  building _ := hP
  emit h hadd _ _ := hP.fresh (show (Ledger.keeping P).Stands [] [] _ from h) hadd
  take _ h _ _ _ _ _ _ := h

/-- What is true of each declaration, stands while the module grows, and is true of new ones. -/
structure Cataloguing (N : Names) (R : Module → Inst → Prop) (d : Bool := true) : Prop where
  mono : ∀ {m m' : Module} {inst : Inst}, m.Retains m' → R m inst → R m' inst
  aggregate : ∀ {m : Module} {id : Id} {op : Op} (operands : List Word), op.isAggregateType →
    R m (.defining op id operands)
  shared : ∀ {m : Module} {id : Id} {op : Op} {operands : List Word}, op.isType → m.Files id op operands →
    (op = .TypeFloat → operands.head? = some 64 → d) → R m (.defining op id operands)
  literal : ∀ {m : Module} {l : Literal} {type id : Id}, m.types.get? (.plain (.scalar l.scalar)) = some type →
    m.literals.get? l = some id → R m (l.inst type id)
  composite : ∀ {m : Module} {constituents : List Id} {type id : Id},
    m.composites.get? (constituents, type) = some id → R m (.value .ConstantComposite type id constituents)
  specialize : ∀ {m : Module} {id : Id} {op : Op} (type : Id) (operands : List Word), op.isSpecialization →
    R m (.value op type id operands)
  global : ∀ {m : Module} {name : String} {ty : Ty} {storage : StorageClass} {id type : Id} (pointer : Id),
    N name (some storage) ty → m.globals.get? name = some ⟨id, some storage, type⟩ →
    R m (.value .Variable pointer id [Enumerated.number storage])

section

variable {R : Module → Inst → Prop} {d : Bool} (hR : Cataloguing N R d)

include hR

theorem Cataloguing.same (h : ∀ inst ∈ m.declarations, R m inst) (hm : m.Retains m')
    (hsame : m'.declarations = m.declarations) : ∀ inst ∈ m'.declarations, R m' inst :=
  fun inst hinst => hR.mono hm (h inst (hsame ▸ hinst))

theorem Cataloguing.declare (h : ∀ inst ∈ m.declarations, R m inst) (hm : m.Retains m')
    (hdeclared : m'.declarations = m.declarations ++ [inst]) (hinst : R m' inst) :
    ∀ inst ∈ m'.declarations, R m' inst := by
  rw [hdeclared]
  exact forall_mem_append.2 ⟨fun i hi => hR.mono hm (h i hi), forall_mem_singleton.2 hinst⟩

theorem Cataloguing.building : Building N (.keeping fun m => ∀ inst ∈ m.declarations, R m inst) d where
  alike h ha := hR.same h (.noted ha.noted) (by rw [ha])
  note inst h hs _ _ _ :=
    have hnoted := noted_insert _ hs inst
    hR.same h (.noted hnoted) (by rw [hnoted])
  name {_ _ m _ _} h _ := hR.same h { Retains.refl m with } rfl
  fresh {_ _ m _} h _ := hR.same h { Retains.refl m with } rfl
  aggregate {_ _ m _ _} operands h hop _ := hR.declare h { Retains.refl m with } rfl (hR.aggregate operands hop)
  remember h _ hm' := hR.same h (.remembers hm') (by rw [hm'.same])
  share {_ _ m _ next op operands} h hop _ hm' hfiles hdouble _ := by
    let inst := Inst.defining op m.bound operands
    have hdeclared : m.Retains { m with bound := next, declarations := m.declarations ++ [inst] } :=
      { Retains.refl m with }
    exact hR.declare h (hdeclared.trans (.remembers hm')) (by rw [hm'.same]) (hR.shared hop hfiles hdouble)
  literal {_ _ m _ type} l h _ hlacks hnext :=
    have hm := (((Grown.refl m).fresh hnext).addDeclaration (l.inst type m.bound)).putLiteral m.bound hlacks.literal
    hR.declare h hm.toRetains rfl (hR.literal hlacks.type (get?_put_self _ _ _))
  composite {_ _ m _ type constituents} h _ _ hnew hnext :=
    have hm := (((Grown.refl m).fresh hnext).addDeclaration
      (.value .ConstantComposite type m.bound constituents)).putComposite m.bound hnew
    hR.declare h hm.toRetains rfl (hR.composite (get?_put_self _ _ _))
  specialize {_ _ m _ _} type operands h hop _ :=
    hR.declare h { Retains.refl m with } rfl (hR.specialize type operands hop)
  globalVariable {_ _ m _ _ storage pointer type} id h _ hname hnew :=
    have hm := ((Grown.refl m).addDeclaration
      (.value .Variable pointer id [Enumerated.number storage])).putGlobal ⟨id, some storage, type⟩ hnew.isNew
    hR.declare h hm.toRetains rfl (hR.global pointer hname (get?_put_self _ _ _))
  global {_ _ m _ _ e} h _ _ hnew := hR.same h ((Grown.refl m).putGlobal e hnew.isNew).toRetains rfl
  imported {_ _ m _} _ h _ := hR.same h { Retains.refl m with } rfl
  named {_ _ m _ _} h hname hnext := hR.same h ((Grown.refl m).addFunction hname hnext).toRetains rfl
  member h _ _ := hR.same h (.noted rfl) rfl

end

theorem Building.trivial {d : Bool} (hJ : ∀ held known m, J.Stands held known m) : Building N J d := by
  have hrecording : Recording J := by
    constructor <;> try unfold autoParam
    all_goals intros; apply hJ
  have hdeclaring : Declaring J d := by
    constructor
    · exact hrecording
    all_goals intros; apply hJ
  constructor <;> try unfold autoParam
  · exact hdeclaring
  all_goals intros; apply hJ

/-- The module has grown from `m₀`. -/
def Ledger.grown (m₀ : Module) : Ledger Module := .keeping m₀.Grown

theorem building_grown (m₀ : Module) : Building N (.grown m₀) := .keeping fun hm h => h.trans hm

theorem Module.Grown.of_keeps {α : Type} {x : Build α} (need : List Known) {gives : α → List Id}
    {gains : α → List Known} (h : ∀ J : Ledger Module, Building .any J → Keeps J [] need x gives gains)
    {r : Except Fault α} (hrun : x m = (r, m')) : m.Grown m' :=
  (h (.grown m) (building_grown m)).keeping (.refl m) (congrArg Prod.snd hrun)

/-! ## Ledgers of functions under construction -/

/-- A ledger of modules with entries that all steps leave alone, beside another one. -/
def Ledger.framed (J : Ledger Module) (held₀ : List Id) (known₀ : List Known) (K : Ledger Module) : Ledger Module where
  Stands held known m := J.Stands (held₀ ++ held) (known₀ ++ known) m ∧ K.Stands held known m
  drop h hheld hknown :=
    ⟨J.drop h.1 ((subperm_append_left held₀).2 hheld) (append_subset.2 ⟨subset_append_left _ _,
        fun _ hi => mem_append_right _ (hknown hi)⟩), K.drop h.2 hheld hknown⟩

theorem Ledger.cons_middle {held : List Id} {known : List Known} (before : List Id)
    (h : J.Stands (before ++ id :: held) known m) : J.Stands (id :: (before ++ held)) known m :=
  J.drop h perm_middle.symm.subperm (fun _ hi => hi)

theorem Ledger.known_append_after {held : List Id} {gained known : List Known} (before : List Known)
    (h : J.Stands held (gained ++ (before ++ known)) m) : J.Stands held (before ++ (gained ++ known)) m := by
  refine J.drop h (Subperm.refl _) fun k hk => ?_
  simp only [mem_append] at hk ⊢
  tauto

theorem Ledger.known_cons_after {held : List Id} {k : Known} {known : List Known} (before : List Known)
    (h : J.Stands held (k :: (before ++ known)) m) : J.Stands held (before ++ k :: known) m :=
  J.known_append_after before (show J.Stands held ([k] ++ (before ++ known)) m from h)

theorem Building.framed {K : Ledger Module} (hJ : Building N J) (held₀ : List Id)
    (known₀ : List Known) (hK : Building N K) : Building N (J.framed held₀ known₀ K) where
  alike h ha := ⟨hJ.alike h.1 ha, hK.alike h.2 ha⟩
  note inst h hs hinst hrecent _ :=
    ⟨hJ.note inst h.1 hs hinst (fun id hid => (hrecent id hid).imp fun _ h₀ =>
        J.drop h₀.1 nil_subperm (nil_subset _)) nofun,
      hK.note inst h.2 hs hinst (fun id hid => (hrecent id hid).imp fun _ h₀ => h₀.2) nofun⟩
  name h hname := ⟨hJ.name h.1 (hname.mono (subset_append_right _ _) (subset_append_right _ _)), hK.name h.2 hname⟩
  fresh h hnext := ⟨J.drop (hJ.fresh h.1 hnext) perm_middle.subperm (fun _ hk => hk), hK.fresh h.2 hnext⟩
  aggregate operands h hop _ :=
    ⟨J.known_cons_after _ (hJ.aggregate operands (J.cons_middle _ h.1) hop nofun), hK.aggregate operands h.2 hop nofun⟩
  remember h hid hm' :=
    ⟨hJ.remember h.1 (mem_append_right _ hid) (hm'.imp fun _ h₀ =>
        J.drop h₀.1 nil_subperm (nil_subset _)), hK.remember h.2 hid (hm'.imp fun _ h₀ => h₀.2)⟩
  share h hop hnext hm' hfiles hdouble _ :=
    ⟨J.known_cons_after _ (hJ.share h.1 hop hnext (hm'.imp fun _ h₀ =>
        J.drop h₀.1 nil_subperm (nil_subset _)) hfiles hdouble nofun),
      hK.share h.2 hop hnext (hm'.imp fun _ h₀ => h₀.2) hfiles hdouble nofun⟩
  foundType h hid := ⟨J.known_cons_after _ (hJ.foundType h.1 hid), hK.foundType h.2 hid⟩
  literal l h htype hlacks hnext :=
    ⟨J.known_cons_after _ (hJ.literal l h.1 (mem_append_right _ htype) hlacks hnext),
      hK.literal l h.2 htype hlacks hnext⟩
  foundLiteral h hl := ⟨J.known_cons_after _ (hJ.foundLiteral h.1 hl), hK.foundLiteral h.2 hl⟩
  composite h htype hknown hnew hnext :=
    ⟨J.known_cons_after _ (hJ.composite h.1 (mem_append_right _ htype)
      (fun _ hk => mem_append_right _ (hknown hk)) hnew hnext),
      hK.composite h.2 htype hknown hnew hnext⟩
  foundComposite h hkey := ⟨J.known_cons_after _ (hJ.foundComposite h.1 hkey), hK.foundComposite h.2 hkey⟩
  specialize type operands h hop _ :=
    ⟨J.known_cons_after _ (hJ.specialize type operands (J.cons_middle _ h.1) hop nofun),
      hK.specialize type operands h.2 hop nofun⟩
  globalVariable id h htype hname hnew :=
    ⟨J.known_cons_after _ (hJ.globalVariable id (J.cons_middle _ h.1)
      (mem_append_right _ htype) hname hnew), hK.globalVariable id h.2 htype hname hnew⟩
  global h he hname hnew :=
    ⟨hJ.global h.1 (fun _ hk => mem_append_right _ (he hk)) hname hnew, hK.global h.2 he hname hnew⟩
  foundGlobal h hname := ⟨J.known_append_after _ (hJ.foundGlobal h.1 hname), hK.foundGlobal h.2 hname⟩
  imported hlax h hnext := ⟨J.known_cons_after _ (hJ.imported hlax h.1 hnext), hK.imported hlax h.2 hnext⟩
  foundImport hlax h hid := ⟨J.known_cons_after _ (hJ.foundImport hlax h.1 hid), hK.foundImport hlax h.2 hid⟩
  named h hname hnext := ⟨J.known_cons_after _ (hJ.named h.1 hname hnext), hK.named h.2 hname hnext⟩
  foundFunction h hname := ⟨J.known_cons_after _ (hJ.foundFunction h.1 hname), hK.foundFunction h.2 hname⟩
  member h hid hnew :=
    ⟨hJ.member h.1 (mem_append_right _ hid) (hnew.imp fun _ _ h₀ =>
        J.drop h₀.1 nil_subperm (subset_append_right _ _)), hK.member h.2 hid (hnew.imp fun _ _ h₀ => h₀.2)⟩

/-- A ledger of modules that takes what is in a function for defined, and a property of functions that
stands through new local variables. -/
structure Scoped (J : Ledger Module) (Q : FunctionScope → Prop) : Prop where
  building : Building .any J
  noResult : ∀ {held known} {m : Module}, J.Stands held known m → J.Stands held (.value noResult :: known) m := by
    exact fun h => h
  placed : ∀ {held known} {m : Module} {id : Id}, J.Stands held known m →
    id ∈ held → J.Stands held (.value id :: known) m := by
    exact fun h _ => h
  queue : ∀ {f : FunctionScope} (pointer id : Id), Q f → Q (f.queue (.localVariable pointer id)) := by
    exact fun _ _ h => h
  take : ∀ {f : FunctionScope} {name : String} {e : Entity} {known : List Known} {m : Module}
    (pointer : Id), Q f → J.Stands (e.id :: f.function.ids) known m →
    e.storage = some .Function → f.locals.get? name = none →
    Q (f.take name ⟨e, some (.localVariable pointer e.id)⟩) := by
    exact fun _ h _ _ _ => h

/-- The same, where functions that are begun have the property, and the ledger looks at no finished
ones. -/
structure Running (J : Ledger Module) (Q : FunctionScope → Prop) : Prop extends Scoped J Q where
  opened : ∀ {name : String} {ret : Ty} {params : List Variable} {f : FunctionScope}
    {known : List Known} {m m' : Module}, openFunction name ret params m = (.ok f, m') →
    J.Stands f.function.ids known m' → Q f := by
    exact fun _ _ => trivial
  appended : ∀ {f : FunctionScope} (b : Block), Q f → Q (f.appendBlock b) := by exact fun _ h => h
  closed : ∀ {held known} {m : Module} (functions : List Function),
    J.Stands held known m → J.Stands held known { m with functions }

/-- The ledger of a lowerer: what its function and its block hold is held back from the module. -/
def Ledger.lowering (J : Ledger Module) (Q : FunctionScope → Prop) : Ledger Lowerer where
  Stands held known s :=
    J.Stands ((s.func.function.ids ++ s.block.ids) ++ held) (s.func.locals.known ++ known) s.module ∧ Q s.func
  drop {_ _ _ _ s} h := (J.framed _ _ (.keeping fun _ => Q s.func)).drop h

theorem FunctionScope.queue_ids_perm (f : FunctionScope) (pointer id : Id) :
    (f.queue (.localVariable pointer id)).function.ids.Perm (id :: f.function.ids) := by
  have h : results (f.function.queued ++ [.localVariable pointer id]) = results f.function.queued ++ [id] := by
    rw [results_append]
    rfl
  show (f.function.params.map (·.2) ++ (results (f.function.queued ++ [.localVariable pointer id]) ++
    f.function.blocks.flatMap Block.ids)).Perm _
  rw [h]
  simp only [Function.ids, append_assoc, cons_append, nil_append]
  rw [← append_assoc, ← append_assoc]
  exact perm_middle

theorem Block.push_ids (b : Block) (inst : Inst) : (b.push inst).ids = b.ids ++ results [inst] := by
  simp [Block.push, Block.ids]

section

variable (f : FunctionScope) (b : Block) (held : List Id)

theorem pushed_perm (hid : inst.result = some id) : ((f.function.ids ++ (b.push inst).ids) ++ held).Perm
      (id :: ((f.function.ids ++ b.ids) ++ held)) := by
  rw [Block.push_ids]
  simp only [results, filterMap_cons, hid, filterMap_nil]
  rw [← append_assoc, append_assoc, singleton_append]
  exact perm_middle

theorem pushed_ids (hid : inst.result = none) : (b.push inst).ids = b.ids := by
  rw [Block.push_ids]
  simp [results, hid]

theorem queued_perm (pointer id : Id) : (((f.queue (.localVariable pointer id)).function.ids ++ b.ids) ++ held).Perm
      ((f.function.ids ++ b.ids) ++ id :: held) :=
  (((f.queue_ids_perm pointer id).append_right _).append_right _).trans perm_middle.symm

theorem taken_known_subset (name : String) {e : Entity} (inst : Inst) {known : List Known} (he : .type e.type ∈ known) :
    (f.take name ⟨e, some inst⟩).locals.known ++ .value e.id :: known ⊆ .value e.id :: (f.locals.known ++ known) := by
  have hput := Scope.known_put_subset f.locals name e
  intro k hk
  rcases mem_append.1 hk with hk | hk
  · rcases mem_append.1 (hput hk) with hk | hk
    · simp only [Entity.known, mem_cons, not_mem_nil, or_false] at hk
      rcases hk with rfl | rfl
      · exact mem_cons_self
      · simp [he]
    · simp [hk]
  · rcases mem_cons.1 hk with rfl | hk
    · exact mem_cons_self
    · simp [hk]

end

theorem Scoped.emitting {Q : FunctionScope → Prop} (hJ : Scoped J Q) : Emitting (J.lowering Q) where
  building s :=
    hJ.building.framed (s.func.function.ids ++ s.block.ids) s.func.locals.known
      (.keeping (P := fun _ => Q s.func) fun _ h => h)
  noResult _ h := ⟨J.known_cons_after _ (hJ.noResult h.1), h.2⟩
  locals h := ⟨J.drop h.1 (Subperm.refl _) (by simp), h.2⟩
  emit {held known s next inst} h hadd hid _ := by
    have hplaced := hJ.placed (hJ.building.fresh h.1 hadd) mem_cons_self
    exact ⟨J.known_cons_after _ (J.drop hplaced (pushed_perm _ _ _ hid).subperm (fun _ hk => hk)), h.2⟩
  effect {held known s inst} h hid _ := by
    refine ⟨?_, h.2⟩
    rw [pushed_ids s.block hid]
    exact h.1
  queue {held known s id} pointer h := by
    have hplaced := hJ.placed h.1 (by simp : id ∈ _)
    exact ⟨J.known_cons_after _ (J.drop hplaced (queued_perm _ _ _ pointer id).subperm
      (fun _ hk => hk)), hJ.queue pointer id h.2⟩
  take {held known s name ty e} pointer h he _ _ hstorage habsent _ := by
    have hplaced := hJ.placed h.1 (by simp : e.id ∈ _)
    refine ⟨J.drop hplaced (queued_perm _ _ _ pointer e.id).subperm
      (taken_known_subset _ name _ he), hJ.take pointer h.2 (J.drop h.1 ?_ (fun _ hi => hi)) hstorage
        (lookup_eq_none.1 habsent).1⟩
    refine Subperm.trans (Sublist.subperm ?_) perm_middle.symm.subperm
    simp

/-! ## Later states -/

theorem Module.lookup_retains (h : m.Retains m') {locals : Option Scope} {e : Entity}
    (he : m.lookup locals name = some e) : m'.lookup locals name = some e := by
  rcases or_eq_some_iff.1 he with hlocal | ⟨hnone, hglobal⟩
  · exact or_eq_some_iff.2 (.inl hlocal)
  · exact or_eq_some_iff.2 (.inr ⟨hnone, h.globals name e hglobal⟩)

theorem Module.lookup_put {locals : Scope} {name' : String} {e' : Entity}
    (habsent : m.lookup (some locals) name = none) (e : Entity) (he' : m.lookup (some locals) name' = some e') :
    m.lookup (some (locals.put name e)) name' = some e' := by
  have hne : name ≠ name' := by
    rintro rfl
    cases habsent.symm.trans he'
  rw [← he']
  unfold lookup
  rw [bind_some, bind_some, get?_put_of_ne _ _ hne]

/-- From one state of lowering to a later one. A new local variable hides no other. -/
structure Lowerer.Extends (s s' : Lowerer) : Prop where
  module : s.module.Grown s'.module
  code : s.block.instructions <+: s'.block.instructions
  queued : s.func.function.queued <+: s'.func.function.queued
  params : s'.func.function.params = s.func.function.params
  locals : ∀ name e, s.func.locals.get? name = some e → s'.func.locals.get? name = some e
  names : ∀ name e, s.module.lookup (some s.func.locals) name = some e →
    s'.module.lookup (some s'.func.locals) name = some e

theorem Lowerer.Extends.refl (s : Lowerer) : s.Extends s :=
  ⟨.refl _, prefix_rfl, prefix_rfl, rfl, fun _ _ h => h, fun _ _ h => h⟩

theorem Lowerer.Extends.trans {s t u : Lowerer} (h : s.Extends t) (h' : t.Extends u) : s.Extends u :=
  ⟨h.module.trans h'.module, h.code.trans h'.code, h.queued.trans h'.queued,
    h'.params.trans h.params, fun name e he => h'.locals name e (h.locals name e he),
    fun name e he => h'.names name e (h.names name e he)⟩

theorem emitting_extending (s₀ : Lowerer) : Emitting (.keeping s₀.Extends) where
  building s := .keeping (P := fun m => s₀.Extends { s with module := m }) fun hm h => { h with
      module := h.module.trans hm
      names := fun name e he => lookup_retains hm.toRetains (h.names name e he) }
  emit h hadd _ _ :=
    { h with module := h.module.fresh hadd, code := h.code.trans (prefix_append _ _) }
  effect h _ _ := { h with code := h.code.trans (prefix_append _ _) }
  queue _ h := { h with queued := h.queued.trans (prefix_append _ _) }
  take _ h _ _ _ _ habsent _ := { h with
    queued := h.queued.trans (prefix_append _ _)
    locals := fun name e he => get?_put_of_get? _ (lookup_eq_none.1 habsent).1 (h.locals name e he)
    names := fun name e he => lookup_put habsent _ (h.names name e he) }

theorem emitting_depth (depth : Nat) : Emitting (.keeping (·.depth = depth)) where
  building _ := .keeping fun _ h => h
  emit h _ _ _ := h
  take _ h _ _ _ _ _ _ := h

section

variable {α : Type} {x : Lower α} (need : List Known) {gives : α → List Id} {gains : α → List Known}
  (hx : ∀ L : Ledger Lowerer, Emitting L → Keeps L [] need x gives gains) {s s' : Lowerer} {r : Except Fault α}
  (h : x s = (r, s'))

include hx h

theorem Lower.extends_of_keeps : s.Extends s' := (hx _ (emitting_extending s)).keeping (.refl s) (congrArg Prod.snd h)

theorem Lower.depth_of_keeps : s'.depth = s.depth := (hx _ (emitting_depth s.depth)).keeping rfl (congrArg Prod.snd h)

end

/-- What is counted when an expression is left is as deep as lowering was before it. -/
theorem Lower.lowerWithin_ok {height : Nat} {e : Expr} {demand : Demand} {s s' : Lowerer} {entity : Entity}
    (h : lowerWithin height e demand s = (.ok entity, s')) :
    ∃ rest t, height = rest + 1 ∧ s.depth < s.module.config.nestingLimit ∧
      node (partsOf (lowerWithin rest)) e demand { s with depth := s.depth + 1 } = (.ok entity, t) ∧
      s' = { t with depth := s.depth } := by
  cases height with
  | zero => cases h
  | succ rest =>
    rcases nested_cases h with ⟨hrefused, -⟩ | ⟨hlt, t, hrun, rfl⟩
    · cases hrefused
    · have hdepth := depth_of_keeps [] (fun L hL => node_steady hL (partsOf_regular rest L hL) e.meets_any demand) hrun
      refine ⟨rest, t, rfl, hlt, hrun, ?_⟩
      rw [hdepth]
      rfl

/-- A property of functions that stands through new local variables and new blocks. -/
structure Housing (N : Names) (Q : Module → FunctionScope → Prop) : Prop where
  mono : ∀ {m m' : Module} {f : FunctionScope}, m.Retains m' → Q m f → Q m' f
  queue : ∀ {m : Module} {f : FunctionScope} (pointer id : Id), Q m f → Q m (f.queue (.localVariable pointer id)) := by
    exact fun _ _ h => h
  take : ∀ {m : Module} {f : FunctionScope} {name : String} {ty : Ty} {e : Entity} {pointer : Id}, Q m f →
    N name (some .Function) ty → m.Finds none none ty e.type → e.storage = some .Function →
    m.pointers.get? (e.type, .Function) = some pointer →
    Q m (f.take name ⟨e, some (.localVariable pointer e.id)⟩)
  append : ∀ {m : Module} {f : FunctionScope} (b : Block), Q m f → Q m (f.appendBlock b) := by
    exact fun _ h => h

theorem Housing.tracing {Q : Module → FunctionScope → Prop} (hQ : Housing N Q) :
    Tracing (.naming N) (.keeping fun s => Q s.module s.func) where
  building s := .keeping (P := fun m => Q m s.func) fun hm => hQ.mono hm.toRetains
  emit {_ _ s _ _} h hadd _ _ := hQ.mono ((Grown.refl s.module).fresh hadd).toRetains h
  queue pointer h := hQ.queue pointer _ h
  take _ h _ hname hfinds hstorage _ hpointer := hQ.take h hname hfinds hstorage hpointer

/-! ## Workbenches -/

theorem Stepwise.mark (hJ : Stepwise J) {op : Operation} {held : List Id} {known : List Known} (hinst : inst ∈ op.marks)
    (h : J.Stands held known m) : J.Stands held known { m with decorations := m.decorations ++ [inst] } := by
  obtain ⟨hsection, hremark⟩ := Operation.section_of_mem_marks hinst
  have hnoted := hJ.note inst h (hsection ▸ rfl) hremark
  rw [hsection] at hnoted
  exact hnoted

namespace Workbench

/-- The identifiers of all functions and blocks. -/
def held (w : Workbench) : List Id :=
  w.module.functions.flatMap Function.ids ++
    (w.functions.things.flatMap (·.function.ids) ++ w.blocks.things.flatMap Block.ids)

/-- What names of open functions stand for. -/
def known (w : Workbench) : List Known := w.functions.things.flatMap (·.locals.known)

/-- The ledger stands for all that functions hold, and `Q` for each open function. -/
structure Stands (J : Ledger Module) (Q : FunctionScope → Prop) (w : Workbench) : Prop where
  ledger : J.Stands w.held w.known w.module
  scopes : ∀ f ∈ w.functions.things, Q f

variable {Q : FunctionScope → Prop} {w w' : Workbench} {op : Operation} {d : Declared}

theorem scoped_grown (m₀ : Module) (name : String) (id : Id) :
    Scoped (.grown m₀) fun f => f.function.name = name ∧ f.function.id = id where
  building := building_grown m₀

theorem grown_of_lowering {x : Lower Id} (h : ∀ L : Ledger Lowerer, Tracing (.naming N) L → Supplies L [] x)
    (s : Lowerer) : s.module.Grown (x s).2.module ∧ (x s).2.func.function.name = s.func.function.name ∧
      (x s).2.func.function.id = s.func.function.id := by
  let L := (Ledger.grown s.module).lowering fun f =>
    f.function.name = s.func.function.name ∧ f.function.id = s.func.function.id
  have hs : L.Stands [] [] (x s).2 :=
    (h L ((scoped_grown s.module _ _).emitting.restrict N)).after_nil (nil_subset _) ⟨Grown.refl s.module, rfl, rfl⟩
  exact hs

theorem recount {held held' : List Id} {known known' : List Known} (h : J.Stands held known m)
    (hheld : ∀ i, held'.count i ≤ held.count i) (hknown : known' ⊆ known) : J.Stands held' known' m :=
  J.drop h (subperm_ext_iff.2 fun i _ => hheld i) hknown

theorem take_ids_perm {ty : Ty} (h : ∀ inst, d.queued = some inst → NewLocal m (some f.locals) name ty d inst) :
    (f.take name d).function.ids.Perm (d.held ++ f.function.ids) := by
  unfold FunctionScope.take Declared.held
  cases hq : d.queued with
  | none => exact Perm.refl _
  | some inst =>
    obtain ⟨pointer, rfl, -⟩ := (h inst hq).isVariable
    exact f.queue_ids_perm pointer d.entity.id

theorem take_locals_subset (f : FunctionScope) (name : String) (d : Declared) :
    (f.take name d).locals.known ⊆ d.entity.known ++ f.locals.known := by
  unfold FunctionScope.take
  split
  · exact subset_append_right _ _
  · exact Scope.known_put_subset _ _ _

theorem placed_all (hJ : Scoped J Q) {held : List Id} {known : List Known} (h : J.Stands held known m) (ids : List Id)
    (hids : ids ⊆ held) : J.Stands held (ids.map .value ++ known) m := by
  induction ids with
  | nil => exact h
  | cons id ids ih =>
    obtain ⟨hid, hids⟩ := cons_subset.1 hids
    exact hJ.placed (ih hids) hid

theorem opened_known (hJ : Scoped J Q) {ret : Ty} {params : List Variable} {held : List Id}
    {known : List Known} (run : openFunction name ret params m = (.ok f, m'))
    (h : J.Stands (f.function.ids ++ held) (f.locals.types ++ known) m') :
    J.Stands (f.function.ids ++ held) (f.locals.known ++ known) m' := by
  have hplaced := placed_all hJ h (f.locals.values.map (·.id)) fun i hi => by
    obtain ⟨e, he, rfl⟩ := mem_map.1 hi
    exact mem_append_left _ (mem_append_left _ ((openFunction_begins run).id_mem he))
  refine J.drop hplaced (Subperm.refl _) fun k hk => ?_
  rcases mem_append.1 hk with hk | hk
  · obtain ⟨e, he, hk⟩ := mem_flatMap.1 hk
    simp only [Entity.known, mem_cons, not_mem_nil, or_false] at hk
    rcases hk with rfl | rfl
    · exact mem_append_left _ (mem_map_of_mem (mem_map_of_mem he))
    · exact mem_append_right _ (mem_append_left _ (mem_map.2 ⟨e, he, rfl⟩))
  · exact mem_append_right _ (mem_append_right _ hk)

theorem declared_known (hJ : Scoped J Q) {held : List Id} {known : List Known}
    (h : J.Stands (d.held ++ held) (d.known ++ known) m) : J.Stands (d.held ++ held) (d.entity.known ++ known) m := by
  unfold Declared.held Declared.known at *
  cases hq : d.queued with
  | none =>
    rw [hq] at h
    exact h
  | some inst =>
    rw [hq] at h
    exact hJ.placed h mem_cons_self

theorem take_scoped (hJ : Scoped J Q) {ty : Ty} {known : List Known} (hf : Q f)
    (h : ∀ inst, d.queued = some inst → NewLocal m (some f.locals) name ty d inst)
    (hm : J.Stands (d.held ++ f.function.ids) known m) : Q (f.take name d) := by
  cases hq : d.queued with
  | none =>
    unfold FunctionScope.take
    rw [hq]
    exact hf
  | some inst =>
    obtain ⟨-, habsent, ⟨pointer, rfl, -⟩, hstorage, -⟩ := h inst hq
    have hd : d = ⟨d.entity, some (.localVariable pointer d.entity.id)⟩ := by rw [← hq]
    rw [hd]
    unfold Declared.held at hm
    rw [hq] at hm
    exact hJ.take pointer hf hm hstorage habsent

section

variable {f : FunctionScope} {b : Block}

theorem locals_known (current : w.functions.get? = some f) : f.locals.known ⊆ w.known :=
  fun _ hk => mem_flatMap.2 ⟨f, mem_of_get? current, hk⟩

theorem put_known {f' : FunctionScope} (gained : List Known) (current : w.functions.get? = some f)
    (hlocals : f'.locals.known ⊆ gained ++ f.locals.known) :
    (w.functions.put f').things.flatMap (·.locals.known) ⊆ gained ++ w.known := by
  refine Subset.trans (put_subset current (·.locals.known) f') (append_subset.2 ⟨fun k hk => ?_, ?_⟩)
  · exact mem_append.2 ((mem_append.1 (hlocals hk)).imp_right fun hk => locals_known current hk)
  · exact subset_append_right _ _

theorem takeAway_known (current : w.functions.get? = some f) :
    w.functions.takeAway.things.flatMap (·.locals.known) ⊆ w.known := by
  intro k hk
  obtain ⟨g, hg, hk⟩ := mem_flatMap.1 hk
  exact mem_flatMap.2 ⟨g, (takeAway_sublist current).subset hg, hk⟩

theorem Stands.put_function {f' : FunctionScope} {extra : List Id} {gained : List Known} (hw : w.Stands J Q)
    (current : w.functions.get? = some f) (hm : J.Stands (extra ++ w.held) (gained ++ w.known) m)
    (hfunctions : m.functions = w.module.functions) (hids : f'.function.ids.Perm (extra ++ f.function.ids))
    (hlocals : f'.locals.known ⊆ gained ++ f.locals.known) (hf' : Q f') :
    Stands J Q { w with module := m, functions := w.functions.put f' } := by
  refine ⟨recount hm (fun i => ?_) ?_, forall_put current hw.scopes hf'⟩
  · have hput := count_put current (·.function.ids) f' i
    have hi := hids.count_eq i
    simp only [held, hfunctions, count_append] at hi ⊢
    omega
  · exact put_known gained current hlocals

theorem Stands.takeAway_function (extra : List Id) (hw : w.Stands J Q)
    (current : w.functions.get? = some f) (hm : J.Stands w.held w.known m)
    (hfunctions : (m.functions.flatMap Function.ids).Perm (w.module.functions.flatMap Function.ids
      ++ extra)) (hids : ∀ i, extra.count i ≤ f.function.ids.count i) :
    Stands J Q { w with module := m, functions := w.functions.takeAway } := by
  have hless := takeAway_sublist current
  refine ⟨recount hm (fun i => ?_) ?_, fun g hg => hw.scopes g (hless.subset hg)⟩
  · have haway := count_takeAway current (·.function.ids) i
    have hi := hfunctions.count_eq i
    have hi' := hids i
    simp only [held, count_append] at hi ⊢
    omega
  · exact takeAway_known current

theorem Stands.lowering (hw : w.Stands J Q) (hf : w.functions.get? = some f) (hb : w.blocks.get? = some b) :
    ∃ rest others, (J.lowering Q).Stands rest others ⟨w.module, f, b, 0⟩ ∧
      ∀ s : Lowerer, s.module.functions = w.module.functions → (J.lowering Q).Stands rest others s → Stands J Q { w with
          module := s.module
          functions := w.functions.put s.func
          blocks := w.blocks.put s.block } := by
  obtain ⟨before, after, hthings, hput, -⟩ := exists_others hf
  obtain ⟨before', after', hthings', hput', -⟩ := exists_others hb
  refine ⟨w.module.functions.flatMap Function.ids ++
      ((before ++ after).flatMap (·.function.ids) ++ (before' ++ after').flatMap Block.ids),
    (before ++ after).flatMap (·.locals.known), ⟨recount hw.ledger (fun i => ?_) ?_, ?_⟩,
    fun s hfunctions hs => ⟨recount hs.1 (fun i => ?_) ?_, ?_⟩⟩
  · simp only [held, hthings, hthings', flatMap_append, flatMap_cons, count_append]
    omega
  · simp only [known, hthings, flatMap_append, flatMap_cons]
    grind
  · exact hw.scopes f (mem_of_get? hf)
  · simp only [held, hfunctions, hput, hput', flatMap_append, flatMap_cons, count_append]
    omega
  · simp only [known, hput, flatMap_append, flatMap_cons]
    grind
  · exact forall_put hf hw.scopes hs.2

theorem Stands.lowerer (hw : w.Stands J Q) (hf : w.functions.get? = some f) (hb : w.blocks.get? = some b) :
    (J.lowering Q).Stands [] [] ⟨w.module, f, b, 0⟩ := by
  obtain ⟨rest, others, hstands, -⟩ := hw.lowering hf hb
  exact (J.lowering Q).drop hstands (nil_sublist rest).subperm (nil_subset others)

end

theorem Change.keeps_or (hP : Building (op.names w) (.keeping P))
    (hmarks : ∀ {held known} {inst : Inst}, inst ∈ op.marks → (Ledger.keeping P).Stands held known w.module →
      P { w.module with decorations := w.module.decorations ++ [inst] })
    (hc : Change w op w') (hw : P w.module) : P w'.module ∨
    ∃ f, w.functions.get? = some f ∧ f.function.Ended ∧ w' = { w with
      module := { w.module with functions := w.module.functions ++ [f.function.hoist] }
      functions := w.functions.takeAway } := by
  cases hc with
  | built x needs requirements keeps known => exact .inl ((keeps _ hP).keeping hw rfl)
  | marked inst mem => exact .inl (hmarks mem (show (Ledger.keeping P).Stands [] [] _ from hw))
  | declared x name ty f d m current keeps isNew run => exact .inl ((keeps _ hP).keeping hw (congrArg Prod.snd run))
  | queued ty f id pointer m current run =>
    have hkeeps : Keeps (.keeping P) [] [] _ _ _ := declareTemporary_keeps hP.toDeclaring ty
    exact .inl (hkeeps.keeping hw (congrArg Prod.snd run))
  | lowered x f b s currentFunction currentBlock keeps run => exact .inl ((keeps _ hP.tracing).keeping hw run)
  | opened name ret params f m isOpen run =>
    have hkeeps : Keeps (.keeping P) [] [] _ _ _ := openFunction_keeps hP name ret params
    exact .inl (hkeeps.keeping hw (congrArg Prod.snd run))
  | labelled b m run =>
    have hkeeps : Keeps (.keeping P) [] [] _ _ _ := freshBlock_keeps hP.toDeclaring
    exact .inl (hkeeps.keeping hw (congrArg Prod.snd run))
  | chosen | terminated | appended | dropped => exact .inl hw
  | closed f current ended => exact .inr ⟨f, current, ended, rfl⟩

theorem Change.keeps (hP : Building (op.names w) (.keeping P))
    (hmarks : ∀ {held known} {inst : Inst}, inst ∈ op.marks → (Ledger.keeping P).Stands held known w.module →
      P { w.module with decorations := w.module.decorations ++ [inst] })
    (hclosed : ∀ functions, P w.module → P { w.module with functions }) (hc : Change w op w')
    (hw : P w.module) : P w'.module := by
  rcases hc.keeps_or hP hmarks hw with hkept | ⟨f, -, -, rfl⟩
  · exact hkept
  · exact hclosed _ hw

theorem Change.catalogues {R : Module → Inst → Prop} (hR : Cataloguing N R)
    (hN : ∀ name storage ty, op.names w name storage ty → N name storage ty) (hc : Change w op w')
    (hw : ∀ inst ∈ w.module.declarations, R w.module inst) : ∀ inst ∈ w'.module.declarations, R w'.module inst :=
  hc.keeps (P := fun m => ∀ inst ∈ m.declarations, R m inst) (hR.building.mono hN)
    (fun _ h => hR.same h { Retains.refl w.module with } rfl)
    (fun _ h => hR.same h { Retains.refl w.module with } rfl) hw

theorem Change.grown (hc : Change w op w') : w.module.Grown w'.module ∨
    ∃ f, w.functions.get? = some f ∧ f.function.Ended ∧ w' = { w with
      module := { w.module with functions := w.module.functions ++ [f.function.hoist] }
      functions := w.functions.takeAway } :=
  hc.keeps_or (building_grown w.module) (fun _ h => { h with }) (.refl w.module)

theorem Change.retains (hc : Change w op w') : w.module.Retains w'.module := by
  rcases hc.grown with hgrown | ⟨f, current, ended, rfl⟩
  · exact hgrown.toRetains
  · exact { Retains.refl w.module with }

section

variable {Q : Module → FunctionScope → Prop}
  (hmono : ∀ {m m' : Module} {f : FunctionScope}, m.Retains m' → Q m f → Q m' f)

include hmono

theorem Change.scope {i : Nat} (hQ : w.functions.current = some i → Housing (op.names w) Q)
    (hopened : ∀ {m : Module} {name : String} {ret : Ty} {params : List Variable} {f : FunctionScope},
      op = .openFunction name ret params → w.functions.places.length = i → m.Begins name ret params f → Q m f)
    (hc : Change w op w') (hw : ∀ f, w.functions.places[i]? = some (some f) → Q w.module f) :
    ∀ f, w'.functions.places[i]? = some (some f) → Q w'.module f := by
  have hretains := hc.retains
  have hlater : ∀ f, w.functions.places[i]? = some (some f) → Q w'.module f := fun f hf => hmono hretains (hw f hf)
  have hput : ∀ {f f' : FunctionScope}, w.functions.get? = some f →
      (Housing (op.names w) Q → Q w.module f → Q w'.module f') →
      ∀ g, (w.functions.put f').places[i]? = some (some g) → Q w'.module g := by
    intro f f' hf hf' g hg
    rcases current_or_getElem?_of_put hg with ⟨hcurrent, rfl⟩ | hold
    · exact hf' (hQ hcurrent) (hw f (getElem?_of_current hcurrent hf))
    · exact hlater g hold
  cases hc with
  | built | marked | labelled | chosen | terminated => exact hlater
  | declared x name ty f d m current keeps isNew run =>
    refine hput current fun hQ hf => ?_
    replace hf := hmono hretains hf
    cases hq : d.queued with
    | none =>
      unfold FunctionScope.take
      rw [hq]
      exact hf
    | some inst =>
      obtain ⟨hname, hnew⟩ := isNew inst hq
      obtain ⟨pointer, rfl, hpointer⟩ := hnew.isVariable
      have hd : d = ⟨d.entity, some (.localVariable pointer d.entity.id)⟩ := by rw [← hq]
      rw [hd]
      exact hQ.take hf hname hnew.finds hnew.inFunction hpointer
  | queued ty f id pointer m current run => exact hput current fun hQ hf => hQ.queue pointer id (hmono hretains hf)
  | lowered x f b s currentFunction currentBlock keeps run =>
    exact hput currentFunction fun hQ hf => (keeps _ hQ.tracing).keeping hf run
  | opened name ret params f m isOpen run =>
    intro g hg
    rcases length_or_getElem?_of_add hg with ⟨hi, rfl⟩ | hold
    · exact hopened isOpen hi (openFunction_begins run)
    · exact hlater g hold
  | appended f b currentFunction currentBlock => exact hput currentFunction fun hQ hf => hQ.append b hf
  | closed | dropped => exact fun g hg => hlater g (getElem?_of_takeAway hg)

end

theorem Change.scopes {Q : Module → FunctionScope → Prop} (hQ : Housing (op.names w) Q)
    (hopened : ∀ {m : Module} {name : String} {ret : Ty} {params : List Variable} {f : FunctionScope},
      op = .openFunction name ret params → m.Begins name ret params f → Q m f)
    (hc : Change w op w') (hw : ∀ f ∈ w.functions.things, Q w.module f) :
    ∀ f ∈ w'.functions.things, Q w'.module f := by
  intro f hf
  obtain ⟨i, hi⟩ := exists_getElem? hf
  exact hc.scope (Q := Q) hQ.mono (fun _ => hQ) (fun isOpen _ => hopened isOpen)
    (fun g hg => hw g (mem_of_getElem? hg)) f hi

theorem Change.stands (hJ : Running J Q) (hrefers : ∀ {held known}, J.Stands held known w.module →
      J.Stands held (op.refers.map .value ++ known) w.module)
    (hmarks : ∀ {held known} {inst : Inst}, inst ∈ op.marks → J.Stands held known w.module →
      J.Stands held known { w.module with decorations := w.module.decorations ++ [inst] })
    (hw : w.Stands J Q) (hc : Change w op w') : w'.Stands J Q := by
  have hbuilding : Building (op.names w) J := hJ.building.restrict _
  rcases hc.grown with hgrown | ⟨f, current, ended, rfl⟩
  case inr =>
    refine Stands.takeAway_function f.function.hoist.ids hw current (hJ.closed _ hw.ledger) ?_ ?_
    · simp
    · exact fun i => Nat.le_of_eq (f.function.hoist_ids_perm.count_eq i)
  have hfunctions := hgrown.functions
  cases hc with
  | built x needs requirements keeps known =>
    have hafter := (keeps J hbuilding).after_nil known (hrefers hw.ledger)
    refine ⟨recount hafter (fun i => ?_) (subset_append_right _ _), hw.scopes⟩
    dsimp only at hfunctions
    simp only [held, hfunctions]
    exact Nat.le_refl _
  | marked inst mem => exact ⟨hmarks mem hw.ledger, hw.scopes⟩
  | declared x name ty f d m current keeps isNew run =>
    have hnew := fun inst hq => (isNew inst hq).2
    have hstep := declared_known hJ.toScoped ((keeps J hbuilding).of_ok_nil run (locals_known current) hw.ledger)
    refine hw.put_function current hstep hfunctions (take_ids_perm hnew) (take_locals_subset f name d) ?_
    refine take_scoped hJ.toScoped (hw.scopes f (mem_of_get? current)) hnew
      (recount hstep (fun i => ?_) (fun _ hi => hi))
    have haway := count_takeAway current (·.function.ids) i
    simp only [held, count_append]
    omega
  | queued ty f id pointer m current run =>
    have hstep := (declareTemporary_keeps hJ.building.toDeclaring ty).of_ok_nil run (nil_subset _) hw.ledger
    exact hw.put_function current hstep hfunctions (f.queue_ids_perm pointer id)
      (subset_append_right _ _) (hJ.queue pointer id (hw.scopes f (mem_of_get? current)))
  | lowered x f b s currentFunction currentBlock keeps run =>
    obtain ⟨rest, others, hstart, hback⟩ := hw.lowering currentFunction currentBlock
    have hend := (keeps _ (hJ.toScoped.emitting.restrict _)).after_nil (nil_subset _) hstart
    rw [run] at hend
    exact hback s hfunctions hend
  | opened name ret params f m isOpen run =>
    have hstep := (openFunction_keeps hJ.building name ret params).of_ok_nil run (nil_subset _) hw.ledger
    have hQ : Q f := hJ.opened run (J.drop hstep (sublist_append_left _ _).subperm (fun _ hi => hi))
    refine ⟨recount (opened_known hJ.toScoped run hstep) (fun i => ?_) ?_, ?_⟩
    · dsimp only at hfunctions
      simp only [held, hfunctions, things_add, flatMap_append, flatMap_cons, flatMap_nil, count_append, count_nil]
      omega
    · simp [known, things_add]
    · rw [things_add]
      exact forall_mem_append.2 ⟨hw.scopes, forall_mem_singleton.2 hQ⟩
  | labelled b m run =>
    have hstep := (freshBlock_keeps hJ.building.toDeclaring).of_ok_nil run (nil_subset _) hw.ledger
    refine ⟨recount hstep (fun i => ?_) (fun _ hi => hi), hw.scopes⟩
    dsimp only at hfunctions
    simp only [held, hfunctions, things_add, flatMap_append, flatMap_cons, flatMap_nil, count_append, count_nil]
    omega
  | chosen functions blocks => exact ⟨hw.ledger, hw.scopes⟩
  | terminated b inst current ends =>
    refine ⟨recount hw.ledger (fun i => ?_) (fun _ hi => hi), hw.scopes⟩
    have hput := count_put current Block.ids { b with terminator := some inst } i
    simp only [held, count_append, Block.ids] at hput ⊢
    omega
  | appended f b currentFunction currentBlock =>
    have hids : (f.appendBlock b).function.ids = f.function.ids ++ b.ids := by
      simp [FunctionScope.appendBlock, Function.ids]
    refine ⟨recount hw.ledger (fun i => ?_) ?_, forall_put currentFunction hw.scopes
      (hJ.appended b (hw.scopes f (mem_of_get? currentFunction)))⟩
    · have hput := count_put currentFunction (·.function.ids) (f.appendBlock b) i
      have haway := count_takeAway currentBlock Block.ids i
      simp only [held, hids, count_append] at hput ⊢
      omega
    · exact put_known [] currentFunction (fun _ hk => hk)
  | closed => simp at hfunctions
  | dropped f current => exact Stands.takeAway_function [] hw current hw.ledger (by simp) (by simp)

theorem run_keeps {P : Workbench → Prop} (hstep : ∀ {w w' : Workbench} {op : Operation}, Change w op w' → P w → P w')
    (ops : List Operation) (hops : ∀ op ∈ ops, op.builds) (hw : P w) : P (w.run ops) := by
  induction ops generalizing w with
  | nil => exact hw
  | cons op ops ih =>
    obtain ⟨hop, hops⟩ := forall_mem_cons.1 hops
    exact ih hops (hstep (perform_change hop) hw)

end Workbench

end Shader
