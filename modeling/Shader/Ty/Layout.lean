import Shader.Ty.Basic

/-!
# Layout in buffers

Sizes, alignments and strides of values in a buffer, under the two layouts. In `std140` arrays,
structs and matrix columns are aligned to 16 bytes at least; in `std430` to what they hold. Nothing
is placed past the range of a word: the computation that leaves it is refused.
-/

namespace Shader

/-- Alignment of an array, a struct or a matrix column, from the alignment of what it holds. -/
def MemoryLayout.roundAlign (layout : MemoryLayout) (align : Word) : Checked Word :=
  match layout with
  | .std140 => Word.roundUp align 16
  | .std430 => .ok align

/-- Size and alignment of a vector; three components are aligned as four are. -/
def vectorExtent (s : Scalar) (n : Word) : Checked (Word × Word) := do
  let size ← Word.mul s.size n
  let align ← Word.mul s.size (if n = 3 then 4 else n)
  return (size, align)

def columnStride (s : Scalar) (rows : Word) (layout : MemoryLayout) : Checked Word := do
  let (_, align) ← vectorExtent s rows
  layout.roundAlign align

def strideOf (layout : MemoryLayout) (size align : Word) : Checked Word := do
  Word.roundUp size (← layout.roundAlign align)

mutual

/-- Size and alignment of a value in a buffer. Handles and functions take no room. -/
def Ty.extent (layout : MemoryLayout) : Ty → Checked (Word × Word)
  | .void | .function .. | .image _ | .sampledImage _ | .sampler _ => .ok (0, 1)
  | .scalar s => .ok (s.size, s.size)
  | .vector s n => vectorExtent s n
  | .matrix s columns rows => do
    let stride ← columnStride s rows layout
    return (← Word.mul stride columns, stride)
  | .array element length => do
    let (size, align) ← element.extent layout
    let stride ← strideOf layout size align
    return (← Word.mul stride (length.getD 0), ← layout.roundAlign align)
  | .struct _ _ members => do
    let (last, align) ← Member.extent layout (0, 1) members
    let align ← layout.roundAlign align
    return (← Word.roundUp last align, align)

/-- Where the last member ends and the largest alignment, given those of the members before. -/
def Member.extent (layout : MemoryLayout) : Word × Word → List Member → Checked (Word × Word)
  | acc, [] => .ok acc
  | (_, align), ⟨_, ty, offset, _⟩ :: ms => do
    let (size, memberAlign) ← ty.extent layout
    Member.extent layout (← Word.add offset size, max align memberAlign) ms

end

namespace Ty

def arrayStride (element : Ty) (layout : MemoryLayout) : Checked Word := do
  let (size, align) ← element.extent layout
  strideOf layout size align

/-- Distance of consecutive columns. A type that is no matrix counts as one of empty columns. -/
def matrixStride (matrix : Ty) (layout : MemoryLayout) : Checked Word :=
  match matrix with
  | .matrix s _ rows => columnStride s rows layout
  | _ => layout.roundAlign 1

/-- The members from offset `offset` on, each at the first place its alignment allows. -/
def placeMembers (layout : MemoryLayout) : Word → List (String × Ty) → Checked (List Member)
  | _, [] => .ok []
  | offset, (name, ty) :: rest => do
    let (size, align) ← ty.extent layout
    let offset ← Word.roundUp offset align
    let members ← placeMembers layout (← Word.add offset size) rest
    return ⟨name, ty, offset, none⟩ :: members

def structOf (name : String) (layout : MemoryLayout) (members : List (String × Ty)) :
    Checked Ty := do
  return .struct name layout (← placeMembers layout 0 members)

end Ty

end Shader
