import Shader.Standard.Enumerated

/-!
# Storage classes

Where a variable lives.
-/

namespace Shader

inductive StorageClass where
  | UniformConstant | Input | Uniform | Output | Workgroup | CrossWorkgroup | Private | Function
  | Generic | PushConstant | AtomicCounter | Image | StorageBuffer | TileImageEXT | NodePayloadAMDX
  | NodeOutputPayloadAMDX | CallableDataNV | IncomingCallableDataNV | RayPayloadNV | HitAttributeNV
  | IncomingRayPayloadNV | ShaderRecordBufferNV | PhysicalStorageBuffer | HitObjectAttributeNV
  | TaskPayloadWorkgroupEXT | CodeSectionINTEL | DeviceOnlyINTEL | HostOnlyINTEL
deriving DecidableEq

instance : Enumerated StorageClass where
  all := (List.range 28).map StorageClass.ofNat
  entry a := [ ("UniformConstant", 0), ("Input", 1), ("Uniform", 2), ("Output", 3), ("Workgroup", 4),
    ("CrossWorkgroup", 5), ("Private", 6), ("Function", 7), ("Generic", 8), ("PushConstant", 9),
    ("AtomicCounter", 10), ("Image", 11), ("StorageBuffer", 12), ("TileImageEXT", 4172),
    ("NodePayloadAMDX", 5068), ("NodeOutputPayloadAMDX", 5076), ("CallableDataNV", 5328),
    ("IncomingCallableDataNV", 5329), ("RayPayloadNV", 5338), ("HitAttributeNV", 5339),
    ("IncomingRayPayloadNV", 5342), ("ShaderRecordBufferNV", 5343),
    ("PhysicalStorageBuffer", 5349), ("HitObjectAttributeNV", 5385),
    ("TaskPayloadWorkgroupEXT", 5402), ("CodeSectionINTEL", 5605), ("DeviceOnlyINTEL", 5936),
    ("HostOnlyINTEL", 5937)].getD a.ctorIdx ("", 0)

end Shader
