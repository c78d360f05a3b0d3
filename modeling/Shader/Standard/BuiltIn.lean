import Shader.Word

/-!
# Built-in variables

The variables that a shader has without declaring them, by their names in shaders, with the numbers
of the standard.
-/

namespace Shader

def builtinNumbers : List (String × Word) :=
  [("gl_Position", 0), ("gl_PointSize", 1), ("gl_ClipDistance", 3), ("gl_CullDistance", 4),
   ("gl_VertexID", 5), ("gl_InstanceID", 6), ("gl_PrimitiveID", 7), ("gl_InvocationID", 8),
   ("gl_Layer", 9), ("gl_ViewportIndex", 10), ("gl_TessLevelOuter", 11), ("gl_TessLevelInner", 12),
   ("gl_TessCoord", 13), ("gl_PatchVertices", 14), ("gl_FragCoord", 15), ("gl_PointCoord", 16),
   ("gl_FrontFacing", 17), ("gl_SampleID", 18), ("gl_SamplePosition", 19), ("gl_SampleMask", 20),
   ("gl_FragDepth", 22), ("gl_HelperInvocation", 23), ("gl_NumWorkgroups", 24),
   ("gl_WorkgroupSize", 25), ("gl_WorkgroupID", 26), ("gl_LocalInvocationID", 27),
   ("gl_GlobalInvocationID", 28), ("gl_LocalInvocationIndex", 29), ("gl_WorkDim", 30),
   ("gl_GlobalSize", 31), ("gl_EnqueuedWorkgroupSize", 32), ("gl_GlobalOffset", 33),
   ("gl_GlobalLinearID", 34), ("gl_SubgroupSize", 36), ("gl_SubgroupMaxSize", 37),
   ("gl_NumSubgroups", 38), ("gl_NumEnqueuedSubgroups", 39), ("gl_SubgroupID", 40),
   ("gl_SubgroupLocalInvocationID", 41), ("gl_VertexIndex", 42), ("gl_InstanceIndex", 43),
   ("gl_BaseVertex", 4424), ("gl_BaseInstance", 4425), ("gl_DrawIndex", 4426),
   ("gl_DeviceIndex", 4438), ("gl_ViewIndex", 4440), ("gl_FragStencilRefEXT", 5014)]

def builtinNumber? (name : String) : Option Word := (builtinNumbers.find? (·.1 == name)).map (·.2)

end Shader
