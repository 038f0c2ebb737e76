import Spotlight.FuseOps
import Spotlight.ReadLives

/-! The program from `start_fuse` on (`fuse_implementation.c` and `fuse-main.c`): a file that holds
an image is tested, opened again and mounted, and then the image answers the requests. -/
namespace Spotlight.ReadLayer
open Bytes Xz Ext4 Outcome Programs

variable {env : Env} {impl : ReaderImpl} {file image : List UInt8} {fuel : ℕ}

end Spotlight.ReadLayer
