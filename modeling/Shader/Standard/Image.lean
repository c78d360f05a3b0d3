import Shader.Standard.Enumerated

/-!
# Image dimensions, formats and operands

The parameters of image types, and the mask bits that announce the optional operands of image
instructions.
-/

namespace Shader

inductive Dim where
  | Dim1D | Dim2D | Dim3D | DimCube | DimRect | DimBuffer | DimSubpassData | DimTileImageDataEXT
deriving DecidableEq

instance : Enumerated Dim where
  all := (List.range 8).map Dim.ofNat
  entry a := [ ("Dim1D", 0), ("Dim2D", 1), ("Dim3D", 2), ("DimCube", 3), ("DimRect", 4), ("DimBuffer", 5),
    ("DimSubpassData", 6), ("DimTileImageDataEXT", 4173)].getD a.ctorIdx ("", 0)

inductive ImageFormat where
  | Unknown | Rgba32f | Rgba16f | R32f | Rgba8 | Rgba8Snorm | Rg32f | Rg16f | R11fG11fB10f | R16f
  | Rgba16 | Rgb10A2 | Rg16 | Rg8 | R16 | R8 | Rgba16Snorm | Rg16Snorm | Rg8Snorm | R16Snorm
  | R8Snorm | Rgba32i | Rgba16i | Rgba8i | R32i | Rg32i | Rg16i | Rg8i | R16i | R8i | Rgba32ui
  | Rgba16ui | Rgba8ui | R32ui | Rgb10a2ui | Rg32ui | Rg16ui | Rg8ui | R16ui | R8ui | R64ui | R64i
deriving DecidableEq

instance : Enumerated ImageFormat where
  all := (List.range 42).map ImageFormat.ofNat
  entry a := [ ("Unknown", 0), ("Rgba32f", 1), ("Rgba16f", 2), ("R32f", 3), ("Rgba8", 4), ("Rgba8Snorm", 5),
    ("Rg32f", 6), ("Rg16f", 7), ("R11fG11fB10f", 8), ("R16f", 9), ("Rgba16", 10), ("Rgb10A2", 11),
    ("Rg16", 12), ("Rg8", 13), ("R16", 14), ("R8", 15), ("Rgba16Snorm", 16), ("Rg16Snorm", 17),
    ("Rg8Snorm", 18), ("R16Snorm", 19), ("R8Snorm", 20), ("Rgba32i", 21), ("Rgba16i", 22),
    ("Rgba8i", 23), ("R32i", 24), ("Rg32i", 25), ("Rg16i", 26), ("Rg8i", 27), ("R16i", 28),
    ("R8i", 29), ("Rgba32ui", 30), ("Rgba16ui", 31), ("Rgba8ui", 32), ("R32ui", 33),
    ("Rgb10a2ui", 34), ("Rg32ui", 35), ("Rg16ui", 36), ("Rg8ui", 37), ("R16ui", 38), ("R8ui", 39),
    ("R64ui", 40), ("R64i", 41)].getD a.ctorIdx ("", 0)

end Shader
