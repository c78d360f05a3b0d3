import Shader.Proofs.RoundTrip

/-!
# What is built can be written

Whatever a module is built from has the fields that its opcode asks for, also where expressions make no
sense. Only what ends a block comes as it is given. So writing a module fails only for an instruction
that is too long, or for one that ends a block and lacks the fields of its opcode.
-/

namespace Shader

open List

variable {inst : Inst} {op : Op} {e : FormatError}

/-! ## Sections -/

theorem Op.shape?_of_isType (h : op.isType) :
    op.shape? = some { result := true, tail := .operands } ∧ op ≠ .Variable := by
  revert h
  unfold Op.isType
  split <;> simp [Op.shape?]

theorem Op.shape?_of_isFixedConstant (h : op.isFixedConstant) :
    op.shape? = some { resultType := true, result := true, tail := .operands } ∧ op ≠ .Variable := by
  revert h
  unfold Op.isFixedConstant
  split <;> simp [Op.shape?]

theorem Op.shape?_of_isSpecialization (h : op.isSpecialization) :
    op.shape? = some { resultType := true, result := true, tail := .operands } ∧ op ≠ .Variable := by
  revert h
  unfold Op.isSpecialization
  split <;> simp [Op.shape?]

namespace Module

/-- What stands outside of functions has the fields of its opcode, and variables there are none of a
function. -/
structure Proper (m : Module) : Prop where
  fits : ∀ s, ∀ inst ∈ m.inSection s, inst.matchShape = .ok ()
  outside : ∀ inst ∈ m.declarations, inst.op = .Variable →
    ∃ storage : StorageClass, storage ≠ .Function ∧ inst.operands = [Enumerated.number storage]

namespace Proper

variable {m m' : Module}

theorem of_same (h : m.Proper) (hsections : ∀ s, m'.inSection s = m.inSection s) : m'.Proper where
  fits s := hsections s ▸ h.fits s
  outside inst hinst :=
    have hinst : inst ∈ m.inSection .declarations := hsections .declarations ▸ hinst
    h.outside inst hinst

theorem insert (h : m.Proper) {s : Section} (hfits : inst.matchShape = .ok ())
    (hvariable : s = .declarations → inst.op = .Variable → ∃ storage : StorageClass, storage ≠
      .Function ∧ inst.operands = [Enumerated.number storage]) : (m.insert s inst).Proper where
  fits s' i hi := by
    rcases mem_inSection_insert hi with hi | ⟨-, rfl⟩
    · exact h.fits s' i hi
    · exact hfits
  outside i hi := by
    rcases @mem_inSection_insert m s .declarations inst i hi with hi | ⟨rfl, rfl⟩
    · exact h.outside i hi
    · exact hvariable rfl

theorem declare (h : m.Proper) (hfits : inst.matchShape = .ok ()) (hop : inst.op ≠ .Variable) :
    Proper { m with declarations := m.declarations ++ [inst] } :=
  h.insert (s := .declarations) hfits fun _ heq => absurd heq hop

end Proper

theorem stepwise_proper : Stepwise (.keeping Proper) where
  alike h ha := by
    rw [ha]
    exact h.of_same fun s => by cases s <;> rfl
  note {_ _ m} inst h hs hinst := h.insert hinst.fits fun heq => by
    rw [heq] at hs
    cases hs
  name h _ := h.insert (s := .debug) rfl (by simp)
  fresh h _ := h.of_same fun s => by cases s <;> rfl
  type {_ _ _ id _} operands h hop :=
    have hshape := Op.shape?_of_isType hop
    h.declare (Inst.defining_fits id operands hshape.1) hshape.2
  remember h _ hm' := by
    rw [hm'.same]
    exact h.of_same fun s => by cases s <;> rfl
  literal {_ _ m next type} l h _ _ _ := by
    obtain ⟨hshape, hvariable⟩ := Op.shape?_of_isFixedConstant (l.inst_isFixedConstant type m.bound)
    exact (h.declare (Inst.value_fits type m.bound _ hshape) hvariable).of_same fun s => by
      cases s <;> rfl

theorem building_proper : Building .any (.keeping Proper) where
  toDeclaring := stepwise_proper.declaring
  composite {_ _ m _ type constituents} h _ _ _ _ := by
    let inst := Inst.value .ConstantComposite type m.bound constituents
    exact (h.declare (rfl : inst.matchShape = _) nofun).of_same fun s => by cases s <;> rfl
  specialize {_ _ _ id _} type operands h hop _ :=
    have hshape := Op.shape?_of_isSpecialization hop
    h.declare (Inst.value_fits type id operands hshape.1) hshape.2
  globalVariable {_ _ m _ _ storage pointer _} id h _ _ hnew := by
    let inst := Inst.value .Variable pointer id [Enumerated.number storage]
    have hdeclared : (m.insert .declarations inst).Proper := h.insert rfl fun _ _ => ⟨storage, hnew.isGlobal, rfl⟩
    exact hdeclared.of_same fun s => by cases s <;> rfl
  global h _ _ _ := h.of_same fun s => by cases s <;> rfl
  imported {_ _ m _} _ h _ := by
    let inst : Inst := { op := .ExtInstImport, result := some m.bound, name := some setName }
    have himported : (m.insert .imports inst).Proper := h.insert rfl (by simp)
    exact himported.of_same fun s => by cases s <;> rfl
  named h _ _ := h.of_same fun s => by cases s <;> rfl
  member h _ _ := h.of_same fun s => by cases s <;> rfl

end Module

theorem running_proper : Running (.keeping Module.Proper) (fun _ => True) where
  building := Module.building_proper
  closed _ h := h.of_same fun s => by cases s <;> rfl

theorem Workbench.run_proper (config : Config) (ops : List Operation)
    (hops : ∀ op ∈ ops, op.builds) : ((start config).run ops).module.Proper := by
  have hstart : (start config).module.Proper := by
    refine ⟨fun s inst hinst => ?_, fun _ hinst => (nomatch hinst)⟩
    cases s with
    | capabilities | imports | memoryModel | debug =>
      cases mem_singleton.1 hinst
      rfl
    | _ => cases hinst
  exact (run_keeps (fun hchange hw => hchange.stands running_proper (fun hm => hm)
    Module.stepwise_proper.mark hw) ops hops ⟨hstart, fun _ _ => trivial⟩).ledger

/-! ## Functions -/

/-- Every instruction of the function has the fields that its opcode asks for. -/
structure Function.Fits (f : Function) : Prop where
  queued : ∀ inst ∈ f.queued, inst.matchShape = .ok ()
  blocks : ∀ b ∈ f.blocks, ∀ inst ∈ b.instructions, inst.matchShape = .ok ()

namespace Function

variable {f : Function}

theorem Filled.fits (h : f.Filled) : f.Fits where
  queued inst hinst := by
    obtain ⟨pointer, id, rfl⟩ := h.queued inst hinst
    rfl
  blocks b hb inst hinst := ((h.blocks b hb).instructions inst hinst).fits

theorem Fits.hoist (h : f.Fits) : f.hoist.Fits := by
  unfold Function.hoist
  cases hblocks : f.blocks with
  | nil => exact h
  | cons first rest =>
    have hall := h.blocks
    rw [hblocks] at hall
    obtain ⟨hfirst, hrest⟩ := forall_mem_cons.1 hall
    refine ⟨fun _ hinst => (nomatch hinst), forall_mem_cons.2 ⟨?_, hrest⟩⟩
    exact forall_mem_append.2 ⟨h.queued, hfirst⟩

theorem Fits.of_mem_code (h : f.Fits) (hoisted : f.queued = []) (hinst : inst ∈ f.code) :
    inst.matchShape = .ok () ∨ ∃ b ∈ f.blocks, b.terminator = some inst := by
  rw [code_of_hoisted hoisted] at hinst
  rcases mem_cons.1 hinst with rfl | hinst
  · exact .inl rfl
  rcases mem_append.1 hinst with hinst | hinst
  · obtain ⟨p, -, rfl⟩ := mem_map.1 hinst
    exact .inl rfl
  rcases mem_append.1 hinst with hinst | hinst
  · obtain ⟨b, hb, hinst⟩ := mem_flatMap.1 hinst
    rcases mem_cons.1 hinst with rfl | hinst
    · exact .inl rfl
    rcases mem_append.1 hinst with hinst | hinst
    · exact .inl (h.blocks b hb inst hinst)
    · exact .inr ⟨b, hb, Option.mem_toList.1 hinst⟩
  · cases mem_singleton.1 hinst
    exact .inl rfl

end Function

/-! ## Writing -/

theorem Inst.encode_eq_error (h : inst.encode = .error e) :
    (∃ fault, inst.matchShape = .error fault ∧ e = .unencodable inst.op fault) ∨
      2 ^ 16 ≤ inst.wordCount ∧ e = .unencodable inst.op (.tooLong inst.wordCount) := by
  unfold encode at h
  cases hshape : inst.matchShape with
  | error fault =>
    rw [hshape] at h
    cases h
    exact .inl ⟨fault, rfl, rfl⟩
  | ok =>
    rw [hshape] at h
    dsimp only at h
    split at h
    case isTrue hlong =>
      cases h
      exact .inr ⟨hlong, rfl⟩
    case isFalse => cases h

theorem Inst.encodeAll_eq_error :
    ∀ {insts : List Inst}, encodeAll insts = .error e → ∃ inst ∈ insts, inst.encode = .error e
  | inst :: insts, h => by
    rw [encodeAll] at h
    cases hfirst : inst.encode with
    | error e' =>
      rw [hfirst] at h
      cases h
      exact ⟨inst, mem_cons_self, hfirst⟩
    | ok first =>
      rw [hfirst] at h
      cases hrest : encodeAll insts with
      | error e' =>
        rw [hrest] at h
        cases h
        obtain ⟨i, hi, he⟩ := encodeAll_eq_error hrest
        exact ⟨i, mem_cons_of_mem _ hi, he⟩
      | ok rest =>
        rw [hrest] at h
        cases h

theorem Module.toWords_eq_error {m : Module} (h : m.toWords = .error e) :
    ∃ inst ∈ m.instructions, inst.encode = .error e := by
  unfold toWords at h
  cases hall : Inst.encodeAll m.instructions with
  | error e' =>
    rw [hall] at h
    cases h
    exact Inst.encodeAll_eq_error hall
  | ok words =>
    rw [hall] at h
    cases h

theorem Module.Proper.of_mem_globalInstructions {m : Module} (h : m.Proper)
    (hinst : inst ∈ m.globalInstructions) : inst.matchShape = .ok () := by
  simp only [globalInstructions, mem_append] at hinst
  rcases hinst with (((((((hinst | hinst) | hinst) | hinst) | hinst) | hinst) | hinst) | hinst) | hinst
  · exact h.fits .capabilities inst hinst
  · exact h.fits .extensions inst hinst
  · exact h.fits .imports inst hinst
  · exact h.fits .memoryModel inst hinst
  · exact h.fits .entryPoint inst hinst
  · exact h.fits .executionModes inst hinst
  · exact h.fits .debug inst hinst
  · exact h.fits .decorations inst hinst
  · exact h.fits .declarations inst hinst

/-- All that building operations put anywhere has the fields of its opcode, whichever failed. Only what
is too long or ends a block can keep the module from being written. -/
theorem run_encodable (config : Config) (ops : List Operation) (hops : ∀ op ∈ ops, op.builds) :
    let w := (Workbench.start config).run ops
    (∀ inst ∈ w.module.globalInstructions, inst.matchShape = .ok ()) ∧
    (∀ f ∈ w.module.functions ++ w.functions.things.map (·.function), f.Fits) ∧
    (∀ b ∈ w.blocks.things, ∀ inst ∈ b.instructions, inst.matchShape = .ok ()) ∧
    ∀ e, w.module.toWords = .error e → ∃ inst ∈ w.module.instructions,
      2 ^ 16 ≤ inst.wordCount ∧ e = .unencodable inst.op (.tooLong inst.wordCount) ∨
      ∃ fault, inst.matchShape = .error fault ∧ e = .unencodable inst.op fault ∧
        ∃ f ∈ w.module.functions, ∃ b ∈ f.blocks, b.terminator = some inst := by
  intro w
  have hsections : ∀ inst ∈ w.module.globalInstructions, inst.matchShape = .ok () :=
    fun inst hinst => (Workbench.run_proper config ops hops).of_mem_globalInstructions hinst
  have hassembled := Workbench.run_assembled config ops hops
  have hfinished : ∀ f ∈ w.module.functions, f.Fits := fun f hf => by
    obtain ⟨g, hg, -, rfl⟩ := hassembled.finished f hf
    exact hg.fits.hoist
  refine ⟨hsections, forall_mem_append.2 ⟨hfinished, fun f hf => ?_⟩,
    fun b hb inst hinst => ((hassembled.blocks b hb).instructions inst hinst).fits, fun e he => ?_⟩
  · obtain ⟨scope, hscope, rfl⟩ := mem_map.1 hf
    exact (hassembled.functions scope hscope).fits
  obtain ⟨inst, hinst, hencode⟩ := Module.toWords_eq_error he
  refine ⟨inst, hinst, ?_⟩
  rcases Inst.encode_eq_error hencode with ⟨fault, hfault, rfl⟩ | hlong
  · -- What does not have the fields of its opcode stands in a function, and ends a block there.
    have hunfit : inst.matchShape ≠ .ok () := by
      rw [hfault]
      simp
    rcases mem_append.1 hinst with hglobal | hlocal
    · exact absurd (hsections inst hglobal) hunfit
    obtain ⟨f, hf, hcode⟩ := mem_flatMap.1 hlocal
    rcases (hfinished f hf).of_mem_code (hassembled.isFinished hf).hoisted hcode with hfits | hends
    · exact absurd hfits hunfit
    · exact .inr ⟨fault, hfault, rfl, f, hf, hends⟩
  · exact .inl hlong

/-- `k = 0.5 + 0.25` with a sum that is taken for an integer, in a block that ends with an operand too
many. -/
def Operation.misended : List Operation :=
  let k : Variable := .root "k" (.scalar .int) { functionLocal := true }
  let sum : Expr := ⟨.scalar .int, .binary .add (.literal (.float 0x3f000000)) (.literal (.float 0x3e800000))⟩
  [.openFunction "main" .void [], .freshBlock, .lower (.assign none (.ident k) sum),
    .terminate (.effect .Return [1]), .appendBlock, .closeFunction]

theorem misended_encodable : (∀ op ∈ Operation.misended, op.builds) ∧
    let w := (Workbench.start {}).run Operation.misended
    (∀ f ∈ w.module.functions ++ w.functions.things.map (·.function), f.Fits) ∧
      w.module.functions.length = 1 ∧ ∃ e, w.module.toWords = .error e ∧ ∃ inst ∈ w.module.instructions,
          2 ^ 16 ≤ inst.wordCount ∧ e = .unencodable inst.op (.tooLong inst.wordCount) ∨
          ∃ fault, inst.matchShape = .error fault ∧ e = .unencodable inst.op fault ∧
            ∃ f ∈ w.module.functions, ∃ b ∈ f.blocks, b.terminator = some inst := by
  have hops : ∀ op ∈ Operation.misended, op.builds := by decide
  have hone : ((Workbench.start {}).run Operation.misended).module.functions.length = 1 := by
    decide +kernel
  have herror : ((Workbench.start {}).run Operation.misended).module.toWords.isOk = false := by
    decide +kernel
  have h := run_encodable {} Operation.misended hops
  refine ⟨hops, h.2.1, hone, ?_⟩
  cases hwords : ((Workbench.start {}).run Operation.misended).module.toWords with
  | error e => exact ⟨e, rfl, h.2.2.2 e hwords⟩
  | ok words =>
    rw [hwords] at herror
    cases herror

end Shader
