import Mathlib.Logic.Function.Basic
import Shader.Module.Constant

/-!
# Running instructions

What the instructions of a block do, one after the other, on integers of one word, truth values and
vectors of them. Types are of no concern here: an instruction takes as many components as it finds.
-/

namespace Shader

open List

/-! ## Components -/

/-- A scalar at run time. Floating point numbers are kept as bits. -/
inductive Atom where
  | bool (b : Bool)
  | word (w : Word)
  | long (bits : UInt64)
deriving DecidableEq

/-- What a device makes of operands for which the result is not defined. -/
abbrev Device := Op → Word → Word → Word

namespace Op

/-- Instructions that compute a word from two. -/
def onWords (device : Device) : Op → Option (Word → Word → Word)
  | .IAdd => some (· + ·)
  | .ISub => some (· - ·)
  | .IMul => some (· * ·)
  | .UDiv => some fun a b => if b = 0 then device .UDiv a b else a / b
  | .UMod => some fun a b => if b = 0 then device .UMod a b else a % b
  | .SDiv => some fun a b =>
    if b.toInt32 = 0 ∨ a.toInt32 = Int32.minValue ∧ b.toInt32 = -1 then device .SDiv a b
    else (a.toInt32 / b.toInt32).toUInt32
  | .SMod => some fun a b =>
    if b.toInt32 = 0 ∨ a.toInt32 = Int32.minValue ∧ b.toInt32 = -1 then device .SMod a b
    else (Int32.ofInt (a.toInt32.toInt.fmod b.toInt32.toInt)).toUInt32
  | .ShiftLeftLogical => some fun a b => if b < 32 then a <<< b else device .ShiftLeftLogical a b
  | .ShiftRightLogical => some fun a b => if b < 32 then a >>> b else device .ShiftRightLogical a b
  | .ShiftRightArithmetic => some fun a b =>
    if b < 32 then (a.toInt32 >>> b.toInt32).toUInt32 else device .ShiftRightArithmetic a b
  | .BitwiseAnd => some (· &&& ·)
  | .BitwiseOr => some (· ||| ·)
  | .BitwiseXor => some (· ^^^ ·)
  | _ => none

/-- Instructions that compare words. -/
def onWordsToBool : Op → Option (Word → Word → Bool)
  | .IEqual => some fun a b => a = b
  | .INotEqual => some fun a b => a ≠ b
  | .SLessThan => some fun a b => a.toInt32 < b.toInt32
  | .SLessThanEqual => some fun a b => a.toInt32 ≤ b.toInt32
  | .SGreaterThan => some fun a b => b.toInt32 < a.toInt32
  | .SGreaterThanEqual => some fun a b => b.toInt32 ≤ a.toInt32
  | .ULessThan => some fun a b => a < b
  | .ULessThanEqual => some fun a b => a ≤ b
  | .UGreaterThan => some fun a b => b < a
  | .UGreaterThanEqual => some fun a b => b ≤ a
  | _ => none

/-- Instructions on truth values. -/
def onBools : Op → Option (Bool → Bool → Bool)
  | .LogicalAnd => some (· && ·)
  | .LogicalOr => some (· || ·)
  | .LogicalEqual => some (· == ·)
  | .LogicalNotEqual => some (· != ·)
  | _ => none

/-- What an instruction makes of two atoms. -/
def binary? (device : Device) (op : Op) : Atom → Atom → Option Atom
  | .word a, .word b => ((op.onWords device).map fun f => .word (f a b)) <|> op.onWordsToBool.map fun f => .bool (f a b)
  | .bool a, .bool b => op.onBools.map fun f => .bool (f a b)
  | _, _ => none

/-- What an instruction makes of one atom. -/
def unary? : Op → Atom → Option Atom
  | .SNegate, .word a => some (.word (-a))
  | .Not, .word a => some (.word (~~~a))
  | .Bitcast, .word a => some (.word a)
  | .LogicalNot, .bool a => some (.bool !a)
  | _, _ => none

end Op

/-- Applies `f` in pairs, if there are as many on both sides. -/
def zipAll {α β γ : Type} (f : α → β → Option γ) (as : List α) (bs : List β) : Option (List γ) :=
  if as.length = bs.length then (as.zip bs).mapM fun p => f p.1 p.2 else none

section

variable {α β γ α' β' γ' : Type} {f : α → Option β} {l : List α}

theorem exists_mapM {P : β → Prop} (h : ∀ a ∈ l, ∃ b, f a = some b ∧ P b) :
    ∃ l', l.mapM f = some l' ∧ l'.length = l.length ∧ ∀ b ∈ l', P b := by
  induction l with
  | nil => exact ⟨[], rfl, rfl, nofun⟩
  | cons a l ih =>
    obtain ⟨b, hb, hP⟩ := h a mem_cons_self
    obtain ⟨l', hl, hlen, hall⟩ := ih fun a ha => h a (mem_cons_of_mem _ ha)
    refine ⟨b :: l', ?_, by simp [hlen], forall_mem_cons.2 ⟨hP, hall⟩⟩
    rw [mapM_cons, hb, hl]
    rfl

theorem mapM_congr {g : α → Option β} (h : ∀ a ∈ l, f a = g a) : l.mapM f = l.mapM g := by
  induction l with
  | nil => rfl
  | cons a l ih => rw [mapM_cons, mapM_cons, h a mem_cons_self, ih fun a ha => h a (mem_cons_of_mem _ ha)]

theorem mapM_map {g : α' → Option β'} {φ : α → α'} {ψ : β → β'} {l' : List β} (h : l.mapM f = some l')
    (hf : ∀ a ∈ l, ∀ b, f a = some b → g (φ a) = some (ψ b)) : (l.map φ).mapM g = some (l'.map ψ) := by
  induction l generalizing l' with
  | nil =>
    cases h
    rfl
  | cons a l ih =>
    rw [mapM_cons] at h
    obtain ⟨b, hb, h⟩ := Option.bind_eq_some_iff.1 h
    obtain ⟨l'', hl, h⟩ := Option.bind_eq_some_iff.1 h
    cases h
    rw [map_cons, mapM_cons, hf a mem_cons_self b hb, ih hl fun a ha => hf a (mem_cons_of_mem _ ha)]
    rfl

theorem exists_zipAll {f : α → β → Option γ} {P : γ → Prop} {as : List α} {bs : List β}
    (hlength : as.length = bs.length) (h : ∀ a ∈ as, ∀ b ∈ bs, ∃ c, f a b = some c ∧ P c) :
    ∃ cs, zipAll f as bs = some cs ∧ cs.length = as.length ∧ ∀ c ∈ cs, P c := by
  rw [zipAll, if_pos hlength]
  obtain ⟨cs, hcs, hlen, hall⟩ := exists_mapM (l := as.zip bs) (f := fun p => f p.1 p.2) (P := P)
    fun p hp => h p.1 (of_mem_zip hp).1 p.2 (of_mem_zip hp).2
  exact ⟨cs, hcs, by rw [hlen, length_zip, hlength, Nat.min_self], hall⟩

theorem zipAll_map {f : α → β → Option γ} {g : α' → β' → Option γ'} {φ : α → α'} {ψ : β → β'}
    {χ : γ → γ'} {as : List α} {bs : List β} {cs : List γ} (h : zipAll f as bs = some cs)
    (hf : ∀ a ∈ as, ∀ b ∈ bs, ∀ c, f a b = some c → g (φ a) (ψ b) = some (χ c)) :
    zipAll g (as.map φ) (bs.map ψ) = some (cs.map χ) := by
  unfold zipAll at h ⊢
  split at h
  case isFalse => cases h
  case isTrue hlength =>
    rw [if_pos (by simpa using hlength), zip_map]
    exact mapM_map h fun p hp => hf p.1 (of_mem_zip hp).1 p.2 (of_mem_zip hp).2

end

def truths? (atoms : List Atom) : Option (List Bool) :=
  atoms.mapM fun
    | .bool b => some b
    | _ => none

/-- One of two values by one condition, or atom by atom. -/
def choose? : List Bool → List Atom → List Atom → Option (List Atom)
  | [c], onTrue, onFalse => some (if c then onTrue else onFalse)
  | conditions, onTrue, onFalse => do
    zipAll (fun c (p : Atom × Atom) => some (if c then p.1 else p.2)) conditions
      (← zipAll (fun t f => some (t, f)) onTrue onFalse)

/-! ## Machines -/

/-- What an identifier stands for at run time. -/
inductive Register where
  | data (atoms : List Atom)
  /-- A variable, or one lane of it. -/
  | pointer (target : Id) (lane : Option Word)

/-- The state of an invocation: what identifiers stand for, and what variables hold. -/
structure Machine where
  registers : Id → Option Register
  memory : Id → List Atom

namespace Machine

def data? (σ : Machine) (id : Id) : Option (List Atom) :=
  match σ.registers id with
  | some (.data atoms) => some atoms
  | _ => none

/-- What a pointer points to. -/
def load? (σ : Machine) (pointer : Id) : Option (List Atom) :=
  match σ.registers pointer with
  | some (.pointer x none) => some (σ.memory x)
  | some (.pointer x (some lane)) => (σ.memory x)[lane.toNat]?.map ([·])
  | _ => none

/-- Replaces what a pointer points to. -/
def store? (σ : Machine) (pointer : Id) (atoms : List Atom) : Option Machine :=
  match σ.registers pointer, atoms with
  | some (.pointer x none), _ =>
    some { σ with memory := Function.update σ.memory x atoms }
  | some (.pointer x (some lane)), [a] =>
    some { σ with memory := Function.update σ.memory x ((σ.memory x).set lane.toNat a) }
  | _, _ => none

def define (σ : Machine) (id : Id) (r : Register) : Machine :=
  { σ with registers := Function.update σ.registers id (some r) }

/-- What an instruction defines. -/
def compute? (device : Device) (σ : Machine) : Op → List Word → Option Register
  | .Load, [pointer] => do return .data (← σ.load? pointer)
  | .AccessChain, [pointer, index] => do
    match σ.registers pointer, ← σ.data? index with
    | some (.pointer x none), [.word lane] => some (.pointer x (some lane))
    | _, _ => none
  | .VectorShuffle, a :: b :: lanes => do
    let both := (← σ.data? a) ++ (← σ.data? b)
    return .data (← lanes.mapM fun lane => both[lane.toNat]?)
  | .CompositeConstruct, constituents => do
    return .data (← constituents.mapM σ.data?).flatten
  | .Select, [c, t, f] => do
    return .data (← choose? (← truths? (← σ.data? c)) (← σ.data? t) (← σ.data? f))
  | .Any, [a] => do return .data [.bool ((← truths? (← σ.data? a)).any id)]
  | .All, [a] => do return .data [.bool ((← truths? (← σ.data? a)).all id)]
  | op, [a] => do return .data (← (← σ.data? a).mapM op.unary?)
  | op, [a, b] => do return .data (← zipAll (op.binary? device) (← σ.data? a) (← σ.data? b))
  | _, _ => none

/-- Runs one instruction. -/
def execute? (device : Device) (σ : Machine) (inst : Inst) : Option Machine :=
  match inst.result, inst.op, inst.operands with
  | some id, op, operands => do return σ.define id (← σ.compute? device op operands)
  | none, .Store, [pointer, value] => do σ.store? pointer (← σ.data? value)
  | _, _, _ => none

/-- Runs instructions one after the other. -/
def run? (device : Device) : List Inst → Machine → Option Machine
  | [], σ => some σ
  | inst :: rest, σ => do run? device rest (← σ.execute? device inst)

theorem run?_append (device : Device) : ∀ (code code' : List Inst) (σ : Machine),
    run? device (code ++ code') σ = (run? device code σ).bind (run? device code')
  | [], _, _ => rfl
  | inst :: code, code', σ => by
    rw [cons_append, run?, run?]
    cases σ.execute? device inst with
    | none => rfl
    | some σ' => exact run?_append device code code' σ'

end Machine

/-- The declaration of an identifier. -/
def declaration? (decls : List Inst) (id : Id) : Option Inst := decls.find? (·.result = some id)

/-- The value of a scalar constant. -/
def scalarConstant? (decls : List Inst) (id : Id) : Option Atom := do
  let inst ← declaration? decls id
  match inst.op, inst.operands with
  | .ConstantTrue, _ => some (.bool true)
  | .ConstantFalse, _ => some (.bool false)
  | .Constant, [w] => some (.word w)
  | .Constant, [low, high] => some (.long (low.toUInt64 ||| high.toUInt64 <<< 32))
  | _, _ => none

/-- The value of a constant, with one level of composites. -/
def constant? (decls : List Inst) (id : Id) : Option (List Atom) := do
  let inst ← declaration? decls id
  match inst.op with
  | .ConstantComposite => inst.operands.mapM (scalarConstant? decls)
  | _ => return [← scalarConstant? decls id]

/-- The machine before it runs: constants, and variables with what they hold. -/
def Machine.start (decls : List Inst) (pointers : List Id) (memory : Id → List Atom) : Machine where
  registers id :=
    if id ∈ pointers then some (.pointer id none) else (constant? decls id).map .data
  memory := memory

end Shader
