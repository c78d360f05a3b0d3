import Shader.Proofs.Orderly
import Shader.Proofs.Paths

/-!
# Identity of types

A type that is not found is declared after all that it is made of, under a new identifier. So types are
told apart by their identifiers, and so are arrays that differ only in their strides. Types of functions
are an exception, since only their signatures count.
-/

namespace Shader

open Action List Module

variable {held : List Id} {known : List Known} {id : Id}

/-- Whether types under that key are declared each under an identifier of its own. -/
def TypeIdentity.isOwn : TypeIdentity → Bool
  | .plain (.array ..) | .plain (.sampler true) | .plain (.function ..) => false
  | _ => true

theorem Orderly.type_lt {m : Module} (h : Orderly held known m) {key : TypeIdentity}
    (hid : m.types.get? key = some id) : id < m.bound := by
  have hdeclared : id ∈ results m.declarations :=
    h.traced.closed.types _ (mem_append_left _ (OrderedMap.mem_values hid))
  exact (h.distinct.inRange _ (by simp [ids, hdeclared])).2

namespace Module

/-! ## New identifiers -/

/-- The identifier that `x` yields is not that of a type. -/
def Novel (x : Build Id) : Prop :=
  ∀ (m m' : Module) (id : Id), Orderly [] [] m → x m = (.ok id, m') → ∀ key, m'.types.get? key ≠ some id

theorem define_novel (op : Op) (operands : List Word) : Novel (define op operands) := by
  intro m m' id hm h key hkey
  obtain ⟨rfl, next, -, rfl⟩ := eq_of_define h
  exact UInt32.lt_irrefl _ (hm.type_lt hkey)

theorem Novel.after {α : Type} {x : Build α} {f : α → Build Id} {gains : α → List Known}
    (hx : Steady .orderly [] x gains) (hf : ∀ a, Novel (f a)) : Novel (x >>= f) := by
  intro m m' id hm h
  obtain ⟨a, m₁, hrun, h⟩ := bind_ok h
  have hm₁ := hx.of_ok_nil hrun (nil_subset []) hm
  exact hf a m₁ m' id (Ledger.orderly.drop hm₁ nil_subperm (nil_subset _)) h

theorem Novel.described {x : Build Id} {describe : Id → Build Unit} (hx : Novel x)
    (hlacking : ∀ id key, Upholds (.lacking key) [] (describe id))
    (hretains : ∀ {id m m'}, describe id m = (.ok (), m') → m.Retains m') :
    Novel (x >>= fun id => describe id >>= fun _ => pure id) := by
  intro m m' id hm h key hkey
  obtain ⟨id', m₁, hrun, h⟩ := bind_ok h
  obtain ⟨_, m₂, hdescribe, h⟩ := bind_ok h
  obtain ⟨rfl, rfl⟩ := pure_ok h
  cases hbefore : m₁.types.get? key with
  | none =>
    have hafter : (Ledger.lacking key).Stands [] [] m₂ := (hlacking id' key).of_ok_nil hdescribe (nil_subset []) hbefore
    exact Option.some_ne_none _ (hkey.symm.trans hafter)
  | some type =>
    have hsame := ((hretains hdescribe).types key type hbefore).symm.trans hkey
    exact hx m m₁ id' hm hrun key (hbefore.trans hsame)

theorem makeArray_novel (element : Id) (length stride : Option Word) : Novel (do
    let id ← match length with
      | some n => do
        let n ← declareLiteral (.uint n)
        define .TypeArray [element, n]
      | none => define .TypeRuntimeArray [element]
    if let some stride := stride then decorate id .ArrayStride [stride]
    return id : Build Id) := by
  have hdecorated : ∀ {x : Build Id}, Novel x → Novel (do
      let id ← x
      if let some stride := stride then decorate id .ArrayStride [stride]
      return id) := by
    intro x hx
    cases stride with
    | none => rwa [bind_pure]
    | some stride =>
      refine hx.described (fun _ _ => lacking_of_types fun _ => rfl) fun hdecorate => ?_
      cases hdecorate
      exact .noted rfl
  cases length with
  | none => exact hdecorated (define_novel _ _)
  | some n => exact .after (declareLiteral_steady building_orderly.toDeclaring _) fun _ => hdecorated (define_novel _ _)

theorem defineStruct_novel (name : String) (layout : MemoryLayout) (members : List Member)
    (types : List Id) : Novel (defineStruct name layout members types) := by
  have hdescribe : Novel (define .TypeStruct types >>= fun id => (do
      addDebug (.nameOf id name)
      describeMembers id layout 0 members) >>= fun _ => pure id) := by
    refine (define_novel _ _).described (fun id key => ?_) fun h => ?_
    · exact Steady.bind (lacking_of_types fun _ => rfl) fun _ => describeMembers_lacking _ _ _ _
    · obtain ⟨_, m₁, hname, hdescribe⟩ := bind_ok h
      cases hname
      refine .trans ?_ (.noted (describeMembers_noted hdescribe))
      exact .noted rfl
  intro m m' id hm h
  refine hdescribe m m' id hm ?_
  exact h

theorem ne_of_new {key : TypeIdentity} {m m' : Module} (hm : Orderly [] [] m) (hkey : key.isOwn)
    (hnew : m.types.get? key = none) (h : declareKey key m = (.ok id, m')) {other : TypeIdentity}
    (hother : other ≠ key) : m'.types.get? other ≠ some id := by
  have hcached : ∀ {make : Build Id}, declareKey key = cachedType key make → Novel make →
      m'.types.get? other ≠ some id := by
    intro make hmake hnovel
    rw [hmake] at h
    rcases findOrMake_ok h with ⟨hfound, -⟩ | ⟨-, m₁, hrun, rfl⟩
    · cases hnew.symm.trans hfound
    · rw [OrderedMap.get?_put_of_ne _ _ hother.symm]
      exact hnovel m m₁ id hm hrun other
  have hJ := building_orderly.toDeclaring
  cases key with
  | tuple members => exact hcached rfl (define_novel _ _)
  | array element length stride => exact hcached rfl (makeArray_novel element length stride)
  | plain ty =>
    cases ty with
    | void => exact hcached rfl (define_novel _ _)
    | scalar s => exact hcached rfl (define_novel _ _)
    | vector s n => exact hcached rfl (.after (declareScalar_steady hJ s) fun _ => define_novel _ _)
    | matrix s columns rows => exact hcached rfl (.after (declareVector_steady hJ s rows) fun _ => define_novel _ _)
    | struct name layout members =>
      exact hcached rfl (.after (declareMembers_steady hJ layout members _ fun _ => rfl) fun types =>
        defineStruct_novel name layout members types)
    | image c => exact hcached rfl (.after (declareScalar_steady hJ _) fun _ => define_novel _ _)
    | sampledImage c => exact hcached rfl (.after (declareImage_steady hJ c) fun _ => define_novel _ _)
    | sampler compares =>
      cases compares with
      | false => exact hcached rfl (define_novel _ _)
      | true => cases hkey
    | array element length | function ret params => cases hkey

/-! ## Modules -/

/-- Types of their own are told apart by their identifiers. -/
def Apart (m : Module) : Prop :=
  ∀ key key' id, key.isOwn → key'.isOwn → m.types.get? key = some id → m.types.get? key' = some id → key = key'

theorem Apart.remember {m m' : Module} (h : m.Apart) (hm' : m.Remembers (Orderly [] []) id m') : m'.Apart := by
  have hnew : ∀ {key key' type}, key.isOwn → m'.types.get? key' = some type →
      (∃ m₀, Orderly [] [] m₀ ∧ m₀.types.get? key = none ∧ declareKey key m₀ = (.ok type, m')) →
      key' = key := by
    intro key key' type hkey htype ⟨m₀, hm₀, hmissing, hrun⟩
    by_contra hne
    exact ne_of_new hm₀ hkey hmissing hrun hne htype
  intro key key' type hkey hkey' htype htype'
  rcases hm'.newType key type htype with hold | hdeclared
  · rcases hm'.newType key' type htype' with hold' | hdeclared'
    · exact h key key' type hkey hkey' hold hold'
    · exact hnew hkey' htype hdeclared'
  · exact (hnew hkey htype' hdeclared).symm

end Module

def Ledger.apart : Ledger Module where
  Stands held known m := Orderly held known m ∧ m.Apart
  drop h hheld hknown := ⟨Ledger.orderly.drop h.1 hheld hknown, h.2⟩

theorem attached_apart : Attached Apart where
  grow h _ htypes _ key key' := htypes ▸ h key key'
  insert {m inst} h hs _ := by
    rw [noted_insert m hs inst]
    exact h
  remember hm' h := h.remember (hm'.imp fun _ h₀ => h₀.1)

theorem running_apart : Running .apart (fun _ => True) := attached_apart.running rfl

theorem Ledger.apart_mark {op : Operation} {m : Module} {inst : Inst} (hinst : inst ∈ op.marks)
    (h : apart.Stands held known m) : apart.Stands held known { m with decorations := m.decorations ++ [inst] } :=
  ⟨stepwise_orderly.mark hinst h.1, h.2⟩

theorem Workbench.Reachable.apart {config : Config} {w : Workbench} (h : w.Reachable config) :
    w.Stands .apart (fun _ => True) := by
  induction h with
  | start => exact ⟨⟨(start_orderly config).ledger, nofun⟩, fun _ _ => trivial⟩
  | perform _ builds _ ih =>
    exact (perform_change builds).stands running_apart (fun hm => ⟨hm.1.refers _, hm.2⟩) Ledger.apart_mark ih

/-- Declared once each and found by what they are: types are known by their identifiers. -/
structure Module.Exact (m : Module) : Prop where
  backed : m.Backed
  apart : m.Apart
  nodup : (results m.declarations).Nodup

theorem Orderly.nodup_declarations {m : Module} (h : Orderly held known m) : (results m.declarations).Nodup := by
  refine nodup_iff_count_le_one.2 fun id => ?_
  have honce := h.distinct.once id
  simp only [ids, count_append] at honce
  omega

theorem Module.Backed.exact {m : Module} (h : m.Backed) (hm : Ledger.apart.Stands held known m) : m.Exact :=
  ⟨h, hm.2, hm.1.nodup_declarations⟩

namespace Workbench

/-- Workbenches whose modules are exact between operations. -/
structure Exact (w : Workbench) : Prop where
  apart : w.Stands .apart (fun _ => True)
  backed : w.Stands (.keeping Module.Backed) (fun _ => True)

variable {w w' : Workbench}

theorem Exact.module (h : w.Exact) : w.module.Exact := h.backed.ledger.exact h.apart.ledger

theorem Exact.change {op : Operation} (h : w.Exact) (hchange : w.Change op w') : w'.Exact where
  apart := hchange.stands running_apart (fun hm => ⟨hm.1.refers _, hm.2⟩) Ledger.apart_mark h.apart
  backed := hchange.stands running_backed (fun hm => hm) lasting_backed.stepwise.mark h.backed

theorem start_exact (config : Config) : (start config).Exact :=
  ⟨⟨⟨(start_orderly config).ledger, nofun⟩, fun _ _ => trivial⟩, ⟨new_backed config, fun _ _ => trivial⟩⟩

theorem Exact.run (h : w.Exact) (ops : List Operation) (hops : ∀ op ∈ ops, op.builds) : (w.run ops).Exact :=
  run_keeps (fun hchange hw => hw.change hchange) ops hops h

end Workbench

/-! ## Types at two places -/

namespace Setting

variable {m : Module} {σ σ' : Setting} {ty ty' : Ty} {type : Id}

theorem strides_eq (hm : m.Apart) (h : m.Finds σ.layout σ.stride ty type)
    (h' : m.Finds σ'.layout σ'.stride ty type) : ty.strides σ = ty.strides σ' := by
  induction ty using Ty.arrayInduction generalizing σ σ' type with
  | array element length ih =>
    obtain ⟨part, hpart, htype⟩ := finds_array h
    obtain ⟨part', hpart', htype'⟩ := finds_array h'
    obtain ⟨rfl, -, hstride⟩ := TypeIdentity.array.inj (hm _ _ type rfl rfl htype htype')
    have hrest : element.strides ⟨σ.layout, none⟩ = element.strides ⟨σ'.layout, none⟩ := ih hpart hpart'
    rw [Ty.strides, Ty.strides, hstride, hrest]
  | other ty hty =>
    cases ty with
    | array element length => exact absurd rfl (hty element length)
    | _ => rfl

theorem types_of_finds (hty : (TypeIdentity.plain ty).isOwn)
    (h : m.Finds σ.layout σ.stride ty type) : m.types.get? (.plain ty) = some type := by
  cases ty with
  | array | function => cases hty
  | sampler compares =>
    cases compares with
    | false => exact cachedType_ok h
    | true => cases hty
  | _ => exact cachedType_ok h

theorem ty_eq (hm : m.Exact)
    (hty : (∃ s n, ty' = .vector s n) ∨ ∃ name layout members, ty' = .struct name layout members)
    (h : m.Finds σ.layout σ.stride ty type) (h' : m.Finds σ'.layout σ'.stride ty' type) : ty = ty' := by
  have hown : (TypeIdentity.plain ty').isOwn := by
    rcases hty with ⟨s, n, rfl⟩ | ⟨name, layout, members, rfl⟩ <;> rfl
  have htype' := types_of_finds hown h'
  have hkey : ∀ {key : TypeIdentity}, key.isOwn → m.types.get? key = some type → key = .plain ty' :=
    fun hkey htype => hm.apart _ _ type hkey hown htype htype'
  cases ty with
  | array element length =>
    obtain ⟨part, -, htype⟩ := finds_array h
    cases hkey rfl htype
  | sampler compares =>
    rcases hty with ⟨s, n, rfl⟩ | ⟨name, layout, members, rfl⟩ <;>
      cases hkey rfl (cachedType_ok h)
  | function ret params =>
    obtain ⟨_, _, -, -, hsignature⟩ := hm.backed.types _ type (cachedType_ok h)
    have hfunction := declaration?_of_mem hm.nodup (hm.backed.functionTypes _ type hsignature) rfl
    rcases hty with ⟨s, n, rfl⟩ | ⟨name, layout, members, rfl⟩
    · obtain ⟨component, -, hmem⟩ := hm.backed.types _ type htype'
      cases hfunction.symm.trans (declaration?_of_mem hm.nodup hmem rfl)
    · obtain ⟨types, -, hmem⟩ := hm.backed.types _ type htype'
      cases hfunction.symm.trans (declaration?_of_mem hm.nodup hmem rfl)
  | _ => exact TypeIdentity.plain.inj (hkey rfl (types_of_finds rfl h))

/-- Whether types at two places have one identifier is a matter of their strides. -/
theorem eq_iff_alike {type' : Id} (hm : m.Exact) (hty : ty = ty' ∨ (∃ s n, ty' = .vector s n) ∨
      ∃ name layout members, ty' = .struct name layout members)
    (h : m.Finds σ.layout σ.stride ty type) (h' : m.Finds σ'.layout σ'.stride ty' type') :
    type = type' ↔ σ.Alike ty σ' ty' := by
  refine ⟨fun heq => ?_, fun halike => halike.finds_unique h h'⟩
  subst heq
  obtain rfl : ty = ty' := hty.elim id fun hty => ty_eq hm hty h h'
  exact ⟨rfl, strides_eq hm.apart h h'⟩

end Setting

end Shader
