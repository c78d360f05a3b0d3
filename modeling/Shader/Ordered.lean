/-!
# Collections in insertion order

A map that remembers the order in which its keys were first put, and sets kept as lists in the order
in which their members were first added.
-/

namespace Shader

/-- Keys with a value each, in the order in which the keys were first put. -/
structure OrderedMap (κ ν : Type) where
  entries : List (κ × ν)
deriving Repr

namespace OrderedMap

variable {κ ν : Type}

instance : EmptyCollection (OrderedMap κ ν) := ⟨⟨[]⟩⟩

def keys (m : OrderedMap κ ν) : List κ := m.entries.map (·.1)

def values (m : OrderedMap κ ν) : List ν := m.entries.map (·.2)

def size (m : OrderedMap κ ν) : Nat := m.entries.length

variable [DecidableEq κ]

def get? (m : OrderedMap κ ν) (k : κ) : Option ν := (m.entries.find? (fun e => e.1 = k)).map (·.2)

def contains (m : OrderedMap κ ν) (k : κ) : Bool := (m.get? k).isSome

/-- The entries with `k` set to `v`: in place if `k` has an entry, and at the end if not. -/
def putEntries (k : κ) (v : ν) : List (κ × ν) → List (κ × ν)
  | [] => [(k, v)]
  | e :: es => if e.1 = k then (e.1, v) :: es else e :: putEntries k v es

def put (m : OrderedMap κ ν) (k : κ) (v : ν) : OrderedMap κ ν := ⟨putEntries k v m.entries⟩

def putNew (m : OrderedMap κ ν) (k : κ) (v : ν) : OrderedMap κ ν :=
  if m.contains k then m else m.put k v

def keyOf? (m : OrderedMap κ ν) (p : ν → Bool) : Option κ := (m.entries.find? (fun e => p e.2)).map (·.1)

end OrderedMap

def addNew {α : Type} [DecidableEq α] (l : List α) (a : α) : List α :=
  if a ∈ l then l else l ++ [a]

end Shader
