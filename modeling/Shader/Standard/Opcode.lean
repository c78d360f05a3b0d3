import Shader.Standard.Enumerated

/-!
# Opcodes

The instructions of the standard that this library names. Their layout in words is in
`Shader.Instruction.Shape`.
-/

namespace Shader

inductive Op where
  | Nop | Undef | Source | SourceExtension | Name | MemberName | String | Line | Extension
  | ExtInstImport | ExtInst | MemoryModel | EntryPoint | ExecutionMode | Capability | TypeVoid
  | TypeBool | TypeInt | TypeFloat | TypeVector | TypeMatrix | TypeImage | TypeSampler
  | TypeSampledImage | TypeArray | TypeRuntimeArray | TypeStruct | TypeOpaque | TypePointer
  | TypeFunction | ConstantTrue | ConstantFalse | Constant | ConstantComposite | ConstantNull
  | SpecConstantTrue | SpecConstantFalse | SpecConstant | SpecConstantComposite | SpecConstantOp
  | Function | FunctionParameter | FunctionEnd | FunctionCall | Variable | ImageTexelPointer | Load
  | Store | CopyMemory | AccessChain | InBoundsAccessChain | ArrayLength | Decorate
  | MemberDecorate | DecorationGroup | GroupDecorate | VectorExtractDynamic | VectorInsertDynamic
  | VectorShuffle | CompositeConstruct | CompositeExtract | CompositeInsert | CopyObject
  | Transpose | SampledImage | ImageSampleImplicitLod | ImageSampleExplicitLod
  | ImageSampleDrefImplicitLod | ImageSampleDrefExplicitLod | ImageSampleProjImplicitLod
  | ImageSampleProjExplicitLod | ImageSampleProjDrefImplicitLod | ImageSampleProjDrefExplicitLod
  | ImageFetch | ImageGather | ImageDrefGather | ImageRead | ImageWrite | Image | ImageQuerySizeLod
  | ImageQuerySize | ImageQueryLod | ImageQueryLevels | ImageQuerySamples | ConvertFToU
  | ConvertFToS | ConvertSToF | ConvertUToF | UConvert | SConvert | FConvert | QuantizeToF16
  | Bitcast | SNegate | FNegate | IAdd | FAdd | ISub | FSub | IMul | FMul | UDiv | SDiv | FDiv
  | UMod | SRem | SMod | FRem | FMod | VectorTimesScalar | MatrixTimesScalar | VectorTimesMatrix
  | MatrixTimesVector | MatrixTimesMatrix | OuterProduct | Dot | IAddCarry | ISubBorrow
  | UMulExtended | SMulExtended | Any | All | IsNan | IsInf | LogicalEqual | LogicalNotEqual
  | LogicalOr | LogicalAnd | LogicalNot | Select | IEqual | INotEqual | UGreaterThan | SGreaterThan
  | UGreaterThanEqual | SGreaterThanEqual | ULessThan | SLessThan | ULessThanEqual | SLessThanEqual
  | FOrdEqual | FUnordEqual | FOrdNotEqual | FUnordNotEqual | FOrdLessThan | FOrdGreaterThan
  | FOrdLessThanEqual | FOrdGreaterThanEqual | ShiftRightLogical | ShiftRightArithmetic
  | ShiftLeftLogical | BitwiseOr | BitwiseXor | BitwiseAnd | Not | BitFieldInsert
  | BitFieldSExtract | BitFieldUExtract | BitReverse | BitCount | DPdx | DPdy | Fwidth | DPdxFine
  | DPdyFine | FwidthFine | DPdxCoarse | DPdyCoarse | FwidthCoarse | EmitVertex | EndPrimitive
  | ControlBarrier | MemoryBarrier | AtomicLoad | AtomicStore | AtomicExchange
  | AtomicCompareExchange | AtomicIIncrement | AtomicIDecrement | AtomicIAdd | AtomicISub
  | AtomicSMin | AtomicUMin | AtomicSMax | AtomicUMax | AtomicAnd | AtomicOr | AtomicXor | Phi
  | LoopMerge | SelectionMerge | Label | Branch | BranchConditional | Switch | Kill | Return
  | ReturnValue | Unreachable | GroupAsyncCopy | NoLine | SizeOf | ModuleProcessed
  | ExecutionModeId | TerminateInvocation
deriving DecidableEq

instance : Enumerated Op where
  all := (List.range 205).map Op.ofNat
  entry a := [ ("Nop", 0), ("Undef", 1), ("Source", 3), ("SourceExtension", 4), ("Name", 5),
    ("MemberName", 6), ("String", 7), ("Line", 8), ("Extension", 10), ("ExtInstImport", 11),
    ("ExtInst", 12), ("MemoryModel", 14), ("EntryPoint", 15), ("ExecutionMode", 16),
    ("Capability", 17), ("TypeVoid", 19), ("TypeBool", 20), ("TypeInt", 21), ("TypeFloat", 22),
    ("TypeVector", 23), ("TypeMatrix", 24), ("TypeImage", 25), ("TypeSampler", 26),
    ("TypeSampledImage", 27), ("TypeArray", 28), ("TypeRuntimeArray", 29), ("TypeStruct", 30),
    ("TypeOpaque", 31), ("TypePointer", 32), ("TypeFunction", 33), ("ConstantTrue", 41),
    ("ConstantFalse", 42), ("Constant", 43), ("ConstantComposite", 44), ("ConstantNull", 46),
    ("SpecConstantTrue", 48), ("SpecConstantFalse", 49), ("SpecConstant", 50),
    ("SpecConstantComposite", 51), ("SpecConstantOp", 52), ("Function", 54),
    ("FunctionParameter", 55), ("FunctionEnd", 56), ("FunctionCall", 57), ("Variable", 59),
    ("ImageTexelPointer", 60), ("Load", 61), ("Store", 62), ("CopyMemory", 63),
    ("AccessChain", 65), ("InBoundsAccessChain", 66), ("ArrayLength", 68), ("Decorate", 71),
    ("MemberDecorate", 72), ("DecorationGroup", 73), ("GroupDecorate", 74),
    ("VectorExtractDynamic", 77), ("VectorInsertDynamic", 78), ("VectorShuffle", 79),
    ("CompositeConstruct", 80), ("CompositeExtract", 81), ("CompositeInsert", 82),
    ("CopyObject", 83), ("Transpose", 84), ("SampledImage", 86), ("ImageSampleImplicitLod", 87),
    ("ImageSampleExplicitLod", 88), ("ImageSampleDrefImplicitLod", 89),
    ("ImageSampleDrefExplicitLod", 90), ("ImageSampleProjImplicitLod", 91),
    ("ImageSampleProjExplicitLod", 92), ("ImageSampleProjDrefImplicitLod", 93),
    ("ImageSampleProjDrefExplicitLod", 94), ("ImageFetch", 95), ("ImageGather", 96),
    ("ImageDrefGather", 97), ("ImageRead", 98), ("ImageWrite", 99), ("Image", 100),
    ("ImageQuerySizeLod", 103), ("ImageQuerySize", 104), ("ImageQueryLod", 105),
    ("ImageQueryLevels", 106), ("ImageQuerySamples", 107), ("ConvertFToU", 109),
    ("ConvertFToS", 110), ("ConvertSToF", 111), ("ConvertUToF", 112), ("UConvert", 113),
    ("SConvert", 114), ("FConvert", 115), ("QuantizeToF16", 116), ("Bitcast", 124),
    ("SNegate", 126), ("FNegate", 127), ("IAdd", 128), ("FAdd", 129), ("ISub", 130), ("FSub", 131),
    ("IMul", 132), ("FMul", 133), ("UDiv", 134), ("SDiv", 135), ("FDiv", 136), ("UMod", 137),
    ("SRem", 138), ("SMod", 139), ("FRem", 140), ("FMod", 141), ("VectorTimesScalar", 142),
    ("MatrixTimesScalar", 143), ("VectorTimesMatrix", 144), ("MatrixTimesVector", 145),
    ("MatrixTimesMatrix", 146), ("OuterProduct", 147), ("Dot", 148), ("IAddCarry", 149),
    ("ISubBorrow", 150), ("UMulExtended", 151), ("SMulExtended", 152), ("Any", 154), ("All", 155),
    ("IsNan", 156), ("IsInf", 157), ("LogicalEqual", 164), ("LogicalNotEqual", 165),
    ("LogicalOr", 166), ("LogicalAnd", 167), ("LogicalNot", 168), ("Select", 169), ("IEqual", 170),
    ("INotEqual", 171), ("UGreaterThan", 172), ("SGreaterThan", 173), ("UGreaterThanEqual", 174),
    ("SGreaterThanEqual", 175), ("ULessThan", 176), ("SLessThan", 177), ("ULessThanEqual", 178),
    ("SLessThanEqual", 179), ("FOrdEqual", 180), ("FUnordEqual", 181), ("FOrdNotEqual", 182),
    ("FUnordNotEqual", 183), ("FOrdLessThan", 184), ("FOrdGreaterThan", 186),
    ("FOrdLessThanEqual", 188), ("FOrdGreaterThanEqual", 190), ("ShiftRightLogical", 194),
    ("ShiftRightArithmetic", 195), ("ShiftLeftLogical", 196), ("BitwiseOr", 197),
    ("BitwiseXor", 198), ("BitwiseAnd", 199), ("Not", 200), ("BitFieldInsert", 201),
    ("BitFieldSExtract", 202), ("BitFieldUExtract", 203), ("BitReverse", 204), ("BitCount", 205),
    ("DPdx", 207), ("DPdy", 208), ("Fwidth", 209), ("DPdxFine", 210), ("DPdyFine", 211),
    ("FwidthFine", 212), ("DPdxCoarse", 213), ("DPdyCoarse", 214), ("FwidthCoarse", 215),
    ("EmitVertex", 218), ("EndPrimitive", 219), ("ControlBarrier", 224), ("MemoryBarrier", 225),
    ("AtomicLoad", 227), ("AtomicStore", 228), ("AtomicExchange", 229),
    ("AtomicCompareExchange", 230), ("AtomicIIncrement", 232), ("AtomicIDecrement", 233),
    ("AtomicIAdd", 234), ("AtomicISub", 235), ("AtomicSMin", 236), ("AtomicUMin", 237),
    ("AtomicSMax", 238), ("AtomicUMax", 239), ("AtomicAnd", 240), ("AtomicOr", 241),
    ("AtomicXor", 242), ("Phi", 245), ("LoopMerge", 246), ("SelectionMerge", 247), ("Label", 248),
    ("Branch", 249), ("BranchConditional", 250), ("Switch", 251), ("Kill", 252), ("Return", 253),
    ("ReturnValue", 254), ("Unreachable", 255), ("GroupAsyncCopy", 259), ("NoLine", 317),
    ("SizeOf", 321), ("ModuleProcessed", 330), ("ExecutionModeId", 331),
    ("TerminateInvocation", 4416)].getD a.ctorIdx ("", 0)

end Shader
