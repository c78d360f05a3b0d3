import Shader.Word

/-!
# Swizzles

A swizzle selects one to four lanes of a vector, in any order and with repetitions. Lanes are named
by letters of one of three sets.
-/

namespace Shader

structure Swizzle where
  lanes : List (Fin 4)
  nonempty : lanes ≠ []
  atMostFour : lanes.length ≤ 4
deriving DecidableEq

namespace Swizzle

def ofLanes? (lanes : List (Fin 4)) : Option Swizzle :=
  if h : lanes ≠ [] ∧ lanes.length ≤ 4 then some ⟨lanes, h.1, h.2⟩ else none

def lane? (i : Word) : Option (Fin 4) :=
  if h : i.toNat < 4 then some ⟨i.toNat, h⟩ else none

def ofIndices? (indices : List Word) : Option Swizzle := (indices.mapM lane?).bind ofLanes?

def letterSets : List (List Char) := [['x', 'y', 'z', 'w'], ['r', 'g', 'b', 'a'], ['s', 't', 'p', 'q']]

def laneOfLetter? (set : List Char) (c : Char) : Option (Fin 4) :=
  (List.finRange 4).find? (fun lane => set[lane.val]? = some c)

/-- The swizzle spelled by the letters, which are all of the first one's set. -/
def parse? (s : String) : Option Swizzle := do
  let first ← s.toList.head?
  let set ← letterSets.find? (·.contains first)
  ofLanes? (← s.toList.mapM (laneOfLetter? set))

def components (s : Swizzle) : List Word := s.lanes.map (fun lane => lane.val.toUInt32)

def length (s : Swizzle) : Nat := s.lanes.length

def isSingle (s : Swizzle) : Bool := s.length = 1

/-- The swizzle that selects with `inner` first and then with `s`, if `inner` has the lanes. -/
def compose? (s inner : Swizzle) : Option Swizzle := (s.lanes.mapM (fun lane => inner.lanes[lane.val]?)).bind ofLanes?

/-- Sets position `lane` to the number of the value's component `i`, which stands after the
components of the vector of `size`. -/
def writeLanes (size : Word) : Word → List (Fin 4) → List Word → Checked (List Word)
  | _, [], mask => .ok mask
  | i, lane :: lanes, mask => do
    if lane.val < mask.length then writeLanes size (i + 1) lanes (mask.set lane.val (← Word.add size i))
    else writeLanes size (i + 1) lanes mask

/-- For a vector of `size` components and a value of as many as the swizzle has: where each
component of the vector comes from, once the value is written into the lanes of the swizzle. The
value's components are numbered after the vector's. -/
def writeMask (s : Swizzle) (size : Word) : Checked (List Word) :=
  writeLanes size 0 s.lanes ((List.range (min size.toNat 4)).map (·.toUInt32))

def letter (lane : Fin 4) : Char := ['x', 'y', 'z', 'w'].get lane

def text (s : Swizzle) : String := "." ++ String.ofList (s.lanes.map letter)

end Swizzle

end Shader
