import Shader.Standard.Enumerated

/-!
# Execution models, execution modes and memory models

How an entry point is run and how memory behaves under it.
-/

namespace Shader

inductive ExecutionModel where
  | Vertex | TessellationControl | TessellationEvaluation | Geometry | Fragment | GLCompute
  | Kernel | TaskNV | MeshNV | RayGenerationNV | IntersectionNV | AnyHitNV | ClosestHitNV | MissNV
  | CallableNV | TaskEXT | MeshEXT
deriving DecidableEq

instance : Enumerated ExecutionModel where
  all := (List.range 17).map ExecutionModel.ofNat
  entry a := [ ("Vertex", 0), ("TessellationControl", 1), ("TessellationEvaluation", 2), ("Geometry", 3),
    ("Fragment", 4), ("GLCompute", 5), ("Kernel", 6), ("TaskNV", 5267), ("MeshNV", 5268),
    ("RayGenerationNV", 5313), ("IntersectionNV", 5314), ("AnyHitNV", 5315),
    ("ClosestHitNV", 5316), ("MissNV", 5317), ("CallableNV", 5318), ("TaskEXT", 5364),
    ("MeshEXT", 5365)].getD a.ctorIdx ("", 0)

inductive ExecutionMode where
  | Invocations | SpacingEqual | SpacingFractionalEven | SpacingFractionalOdd | VertexOrderCw
  | VertexOrderCcw | PixelCenterInteger | OriginUpperLeft | OriginLowerLeft | EarlyFragmentTests
  | PointMode | Xfb | DepthReplacing | DepthGreater | DepthLess | DepthUnchanged | LocalSize
  | LocalSizeHint | InputPoints | InputLines | InputLinesAdjacency | Triangles
  | InputTrianglesAdjacency | Quads | Isolines | OutputVertices | OutputPoints | OutputLineStrip
  | OutputTriangleStrip | VecTypeHint | ContractionOff | Initializer | Finalizer | SubgroupSize
  | SubgroupsPerWorkgroup | SubgroupsPerWorkgroupId | LocalSizeId | LocalSizeHintId
  | NonCoherentColorAttachmentReadEXT | NonCoherentDepthAttachmentReadEXT
  | NonCoherentStencilAttachmentReadEXT | SubgroupUniformControlFlowKHR | PostDepthCoverage
  | DenormPreserve | DenormFlushToZero | SignedZeroInfNanPreserve | RoundingModeRTE
  | RoundingModeRTZ | EarlyAndLateFragmentTestsAMD | StencilRefReplacingEXT | CoalescingAMDX
  | MaxNodeRecursionAMDX | StaticNumWorkgroupsAMDX | ShaderIndexAMDX | MaxNumWorkgroupsAMDX
  | StencilRefUnchangedFrontAMD | StencilRefGreaterFrontAMD | StencilRefLessFrontAMD
  | StencilRefUnchangedBackAMD | StencilRefGreaterBackAMD | StencilRefLessBackAMD | OutputLinesNV
  | OutputPrimitivesNV | DerivativeGroupQuadsNV | DerivativeGroupLinearNV | OutputTrianglesNV
  | PixelInterlockOrderedEXT | PixelInterlockUnorderedEXT | SampleInterlockOrderedEXT
  | SampleInterlockUnorderedEXT | ShadingRateInterlockOrderedEXT | ShadingRateInterlockUnorderedEXT
  | SharedLocalMemorySizeINTEL | RoundingModeRTPINTEL | RoundingModeRTNINTEL
  | FloatingPointModeALTINTEL | FloatingPointModeIEEEINTEL | MaxWorkgroupSizeINTEL
  | MaxWorkDimINTEL | NoGlobalOffsetINTEL | NumSIMDWorkitemsINTEL | SchedulerTargetFmaxMhzINTEL
  | StreamingInterfaceINTEL | RegisterMapInterfaceINTEL | NamedBarrierCountINTEL
deriving DecidableEq

instance : Enumerated ExecutionMode where
  all := (List.range 85).map ExecutionMode.ofNat
  entry a := [ ("Invocations", 0), ("SpacingEqual", 1), ("SpacingFractionalEven", 2),
    ("SpacingFractionalOdd", 3), ("VertexOrderCw", 4), ("VertexOrderCcw", 5),
    ("PixelCenterInteger", 6), ("OriginUpperLeft", 7), ("OriginLowerLeft", 8),
    ("EarlyFragmentTests", 9), ("PointMode", 10), ("Xfb", 11), ("DepthReplacing", 12),
    ("DepthGreater", 14), ("DepthLess", 15), ("DepthUnchanged", 16), ("LocalSize", 17),
    ("LocalSizeHint", 18), ("InputPoints", 19), ("InputLines", 20), ("InputLinesAdjacency", 21),
    ("Triangles", 22), ("InputTrianglesAdjacency", 23), ("Quads", 24), ("Isolines", 25),
    ("OutputVertices", 26), ("OutputPoints", 27), ("OutputLineStrip", 28),
    ("OutputTriangleStrip", 29), ("VecTypeHint", 30), ("ContractionOff", 31), ("Initializer", 33),
    ("Finalizer", 34), ("SubgroupSize", 35), ("SubgroupsPerWorkgroup", 36),
    ("SubgroupsPerWorkgroupId", 37), ("LocalSizeId", 38), ("LocalSizeHintId", 39),
    ("NonCoherentColorAttachmentReadEXT", 4169), ("NonCoherentDepthAttachmentReadEXT", 4170),
    ("NonCoherentStencilAttachmentReadEXT", 4171), ("SubgroupUniformControlFlowKHR", 4421),
    ("PostDepthCoverage", 4446), ("DenormPreserve", 4459), ("DenormFlushToZero", 4460),
    ("SignedZeroInfNanPreserve", 4461), ("RoundingModeRTE", 4462), ("RoundingModeRTZ", 4463),
    ("EarlyAndLateFragmentTestsAMD", 5017), ("StencilRefReplacingEXT", 5027),
    ("CoalescingAMDX", 5069), ("MaxNodeRecursionAMDX", 5071), ("StaticNumWorkgroupsAMDX", 5072),
    ("ShaderIndexAMDX", 5073), ("MaxNumWorkgroupsAMDX", 5077),
    ("StencilRefUnchangedFrontAMD", 5079), ("StencilRefGreaterFrontAMD", 5080),
    ("StencilRefLessFrontAMD", 5081), ("StencilRefUnchangedBackAMD", 5082),
    ("StencilRefGreaterBackAMD", 5083), ("StencilRefLessBackAMD", 5084), ("OutputLinesNV", 5269),
    ("OutputPrimitivesNV", 5270), ("DerivativeGroupQuadsNV", 5289),
    ("DerivativeGroupLinearNV", 5290), ("OutputTrianglesNV", 5298),
    ("PixelInterlockOrderedEXT", 5366), ("PixelInterlockUnorderedEXT", 5367),
    ("SampleInterlockOrderedEXT", 5368), ("SampleInterlockUnorderedEXT", 5369),
    ("ShadingRateInterlockOrderedEXT", 5370), ("ShadingRateInterlockUnorderedEXT", 5371),
    ("SharedLocalMemorySizeINTEL", 5618), ("RoundingModeRTPINTEL", 5620),
    ("RoundingModeRTNINTEL", 5621), ("FloatingPointModeALTINTEL", 5622),
    ("FloatingPointModeIEEEINTEL", 5623), ("MaxWorkgroupSizeINTEL", 5893),
    ("MaxWorkDimINTEL", 5894), ("NoGlobalOffsetINTEL", 5895), ("NumSIMDWorkitemsINTEL", 5896),
    ("SchedulerTargetFmaxMhzINTEL", 5903), ("StreamingInterfaceINTEL", 6154),
    ("RegisterMapInterfaceINTEL", 6160), ("NamedBarrierCountINTEL", 6417)].getD a.ctorIdx ("", 0)

inductive MemoryModel where
  | Simple | GLSL450 | OpenCL | Vulkan
deriving DecidableEq

instance : Enumerated MemoryModel where
  all := (List.range 4).map MemoryModel.ofNat
  entry a := [ ("Simple", 0), ("GLSL450", 1), ("OpenCL", 2), ("Vulkan", 3)].getD a.ctorIdx ("", 0)

end Shader
