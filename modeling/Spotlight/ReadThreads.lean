import Spotlight.MountedImage

/-! Threads of FUSE that read at the same time (`op_read.c`, `disk.c`). They share the reader of the
read layer, which the first of them makes, under the lock of `__disk_read`. -/
namespace Spotlight.Ext4
open Programs Programs.Prog

end Spotlight.Ext4

namespace Spotlight.ReadLayer
open Ext4 Xz Outcome Programs

variable {env : Env} {impl : ReaderImpl} {file image : List UInt8}

end Spotlight.ReadLayer
