import Shader.Standard.Enumerated

/-!
# Decorations

What may be said about an identifier, or a struct member, apart from its definition.
-/

namespace Shader

inductive Decoration where
  | RelaxedPrecision | SpecId | Block | BufferBlock | RowMajor | ColMajor | ArrayStride
  | MatrixStride | GLSLShared | GLSLPacked | CPacked | BuiltIn | NoPerspective | Flat | Patch
  | Centroid | Sample | Invariant | Restrict | Aliased | Volatile | Constant | Coherent
  | NonWritable | NonReadable | Uniform | UniformId | SaturatedConversion | Stream | Location
  | Component | Index | Binding | DescriptorSet | Offset | XfbBuffer | XfbStride | FuncParamAttr
  | FPRoundingMode | FPFastMathMode | LinkageAttributes | NoContraction | InputAttachmentIndex
  | Alignment | MaxByteOffset | AlignmentId | MaxByteOffsetId | NoSignedWrap | NoUnsignedWrap
  | WeightTextureQCOM | BlockMatchTextureQCOM | ExplicitInterpAMD | NodeSharesPayloadLimitsWithAMDX
  | NodeMaxPayloadsAMDX | TrackFinishWritingAMDX | PayloadNodeNameAMDX | OverrideCoverageNV
  | PassthroughNV | ViewportRelativeNV | SecondaryViewportRelativeNV | PerPrimitiveNV | PerViewNV
  | PerTaskNV | PerVertexKHR | NonUniform | RestrictPointer | AliasedPointer
  | HitObjectShaderRecordBufferNV | BindlessSamplerNV | BindlessImageNV | BoundSamplerNV
  | BoundImageNV | SIMTCallINTEL | ReferencedIndirectlyINTEL | ClobberINTEL | SideEffectsINTEL
  | VectorComputeVariableINTEL | FuncParamIOKindINTEL | VectorComputeFunctionINTEL | StackCallINTEL
  | GlobalVariableOffsetINTEL | CounterBuffer | UserSemantic | UserTypeGOOGLE
  | FunctionRoundingModeINTEL | FunctionDenormModeINTEL | RegisterINTEL | MemoryINTEL
  | NumbanksINTEL | BankwidthINTEL | MaxPrivateCopiesINTEL | SinglepumpINTEL | DoublepumpINTEL
  | MaxReplicatesINTEL | SimpleDualPortINTEL | MergeINTEL | BankBitsINTEL | ForcePow2DepthINTEL
  | BurstCoalesceINTEL | CacheSizeINTEL | DontStaticallyCoalesceINTEL | PrefetchINTEL
  | StallEnableINTEL | FuseLoopsInFunctionINTEL | MathOpDSPModeINTEL | AliasScopeINTEL
  | NoAliasINTEL | InitiationIntervalINTEL | MaxConcurrencyINTEL | PipelineEnableINTEL
  | BufferLocationINTEL | IOPipeStorageINTEL | FunctionFloatingPointModeINTEL
  | SingleElementVectorINTEL | VectorComputeCallableFunctionINTEL | MediaBlockIOINTEL
  | InitModeINTEL | ImplementInRegisterMapINTEL | HostAccessINTEL | FPMaxErrorDecorationINTEL
  | LatencyControlLabelINTEL | LatencyControlConstraintINTEL | ConduitKernelArgumentINTEL
  | RegisterMapKernelArgumentINTEL | MMHostInterfaceAddressWidthINTEL
  | MMHostInterfaceDataWidthINTEL | MMHostInterfaceLatencyINTEL | MMHostInterfaceReadWriteModeINTEL
  | MMHostInterfaceMaxBurstINTEL | MMHostInterfaceWaitRequestINTEL | StableKernelArgumentINTEL
  | CacheControlLoadINTEL | CacheControlStoreINTEL
deriving DecidableEq

instance : Enumerated Decoration where
  all := (List.range 133).map Decoration.ofNat
  entry a := [ ("RelaxedPrecision", 0), ("SpecId", 1), ("Block", 2), ("BufferBlock", 3), ("RowMajor", 4),
    ("ColMajor", 5), ("ArrayStride", 6), ("MatrixStride", 7), ("GLSLShared", 8), ("GLSLPacked", 9),
    ("CPacked", 10), ("BuiltIn", 11), ("NoPerspective", 13), ("Flat", 14), ("Patch", 15),
    ("Centroid", 16), ("Sample", 17), ("Invariant", 18), ("Restrict", 19), ("Aliased", 20),
    ("Volatile", 21), ("Constant", 22), ("Coherent", 23), ("NonWritable", 24), ("NonReadable", 25),
    ("Uniform", 26), ("UniformId", 27), ("SaturatedConversion", 28), ("Stream", 29),
    ("Location", 30), ("Component", 31), ("Index", 32), ("Binding", 33), ("DescriptorSet", 34),
    ("Offset", 35), ("XfbBuffer", 36), ("XfbStride", 37), ("FuncParamAttr", 38),
    ("FPRoundingMode", 39), ("FPFastMathMode", 40), ("LinkageAttributes", 41),
    ("NoContraction", 42), ("InputAttachmentIndex", 43), ("Alignment", 44), ("MaxByteOffset", 45),
    ("AlignmentId", 46), ("MaxByteOffsetId", 47), ("NoSignedWrap", 4469), ("NoUnsignedWrap", 4470),
    ("WeightTextureQCOM", 4487), ("BlockMatchTextureQCOM", 4488), ("ExplicitInterpAMD", 4999),
    ("NodeSharesPayloadLimitsWithAMDX", 5019), ("NodeMaxPayloadsAMDX", 5020),
    ("TrackFinishWritingAMDX", 5078), ("PayloadNodeNameAMDX", 5091), ("OverrideCoverageNV", 5248),
    ("PassthroughNV", 5250), ("ViewportRelativeNV", 5252), ("SecondaryViewportRelativeNV", 5256),
    ("PerPrimitiveNV", 5271), ("PerViewNV", 5272), ("PerTaskNV", 5273), ("PerVertexKHR", 5285),
    ("NonUniform", 5300), ("RestrictPointer", 5355), ("AliasedPointer", 5356),
    ("HitObjectShaderRecordBufferNV", 5386), ("BindlessSamplerNV", 5398),
    ("BindlessImageNV", 5399), ("BoundSamplerNV", 5400), ("BoundImageNV", 5401),
    ("SIMTCallINTEL", 5599), ("ReferencedIndirectlyINTEL", 5602), ("ClobberINTEL", 5607),
    ("SideEffectsINTEL", 5608), ("VectorComputeVariableINTEL", 5624),
    ("FuncParamIOKindINTEL", 5625), ("VectorComputeFunctionINTEL", 5626), ("StackCallINTEL", 5627),
    ("GlobalVariableOffsetINTEL", 5628), ("CounterBuffer", 5634), ("UserSemantic", 5635),
    ("UserTypeGOOGLE", 5636), ("FunctionRoundingModeINTEL", 5822),
    ("FunctionDenormModeINTEL", 5823), ("RegisterINTEL", 5825), ("MemoryINTEL", 5826),
    ("NumbanksINTEL", 5827), ("BankwidthINTEL", 5828), ("MaxPrivateCopiesINTEL", 5829),
    ("SinglepumpINTEL", 5830), ("DoublepumpINTEL", 5831), ("MaxReplicatesINTEL", 5832),
    ("SimpleDualPortINTEL", 5833), ("MergeINTEL", 5834), ("BankBitsINTEL", 5835),
    ("ForcePow2DepthINTEL", 5836), ("BurstCoalesceINTEL", 5899), ("CacheSizeINTEL", 5900),
    ("DontStaticallyCoalesceINTEL", 5901), ("PrefetchINTEL", 5902), ("StallEnableINTEL", 5905),
    ("FuseLoopsInFunctionINTEL", 5907), ("MathOpDSPModeINTEL", 5909), ("AliasScopeINTEL", 5914),
    ("NoAliasINTEL", 5915), ("InitiationIntervalINTEL", 5917), ("MaxConcurrencyINTEL", 5918),
    ("PipelineEnableINTEL", 5919), ("BufferLocationINTEL", 5921), ("IOPipeStorageINTEL", 5944),
    ("FunctionFloatingPointModeINTEL", 6080), ("SingleElementVectorINTEL", 6085),
    ("VectorComputeCallableFunctionINTEL", 6087), ("MediaBlockIOINTEL", 6140),
    ("InitModeINTEL", 6147), ("ImplementInRegisterMapINTEL", 6148), ("HostAccessINTEL", 6168),
    ("FPMaxErrorDecorationINTEL", 6170), ("LatencyControlLabelINTEL", 6172),
    ("LatencyControlConstraintINTEL", 6173), ("ConduitKernelArgumentINTEL", 6175),
    ("RegisterMapKernelArgumentINTEL", 6176), ("MMHostInterfaceAddressWidthINTEL", 6177),
    ("MMHostInterfaceDataWidthINTEL", 6178), ("MMHostInterfaceLatencyINTEL", 6179),
    ("MMHostInterfaceReadWriteModeINTEL", 6180), ("MMHostInterfaceMaxBurstINTEL", 6181),
    ("MMHostInterfaceWaitRequestINTEL", 6182), ("StableKernelArgumentINTEL", 6183),
    ("CacheControlLoadINTEL", 6442), ("CacheControlStoreINTEL", 6443)].getD a.ctorIdx ("", 0)

end Shader
