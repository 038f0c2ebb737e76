import Spotlight.InodeMap

/-! The scan of a directory for a name (`inode_dentry_get` and the inner loop of
`inode_get_idx_by_path`). A directory entry is read in the block buffer that holds it. -/
namespace Spotlight.Ext4
open Bytes

/-- The logical block in the buffer of a directory context, and the buffer. -/
structure InodeDirCtx where
  lblock : ℕ
  buf : List UInt8

def dirCtxUpdate (fs : Mount) (fuel : ℕ) (inode : Ext4Inode) (lblock : ℕ) :
    Outcome InodeDirCtx := do
  let (dirPblock, _) ← inodeGetDataPblock fs fuel inode lblock
  let buf ← diskRead fs.disk (blocks2bytes fs.super dirPblock) (superBlockSize fs.super)
  return ⟨lblock, buf⟩

def inodeDirCtxReset (fs : Mount) (fuel : ℕ) (inode : Ext4Inode) : Outcome InodeDirCtx :=
  dirCtxUpdate fs fuel inode 0

/-- `inode_dentry_get`: the place of the entry in the buffer, or `NULL` at the end. After an
update the call of itself finds the right block in the buffer. -/
def inodeDentryGet (fs : Mount) (fuel : ℕ) (inode : Ext4Inode) (offset : ℕ)
    (ctx : InodeDirCtx) : Outcome (InodeDirCtx × Option ℕ) := do
  let lblock := offset / superBlockSize fs.super % 2 ^ 32
  let blkOffset := offset % superBlockSize fs.super
  assertThat (offset ≤ inodeGetSize inode)
  if inodeGetSize inode = offset then return (ctx, none)
  else if lblock = ctx.lblock then return (ctx, some blkOffset)
  else do
    let ctx ← dirCtxUpdate fs fuel inode lblock
    return (ctx, some blkOffset)

/-- `n` bytes of a buffer from `o` on, which must all be in it. -/
def bytesAt (buf : List UInt8) (o n : ℕ) : Outcome (List UInt8) :=
  if o + n ≤ buf.length then .ok (slice buf o n) else .error .bounds

/-- The scan from `offset` on, with at most `n` entries: the inode of the first live entry with
this name. `offset` is a 32-bit variable. -/
def dentryLoop (fs : Mount) (fuel : ℕ) (inode : Ext4Inode) (name : List UInt8) :
    ℕ → ℕ → InodeDirCtx → Outcome (Option ℕ)
  | 0, _, _ => .error .fuel
  | n + 1, offset, ctx => do
    match ← inodeDentryGet fs fuel inode offset ctx with
    | (_, none) => return none
    | (ctx, some dentry) => do
      let recLen := u16At (← bytesAt ctx.buf (dentry + 4) 2) 0
      let offset := (offset + recLen) % 2 ^ 32
      let dentryInode := u32At (← bytesAt ctx.buf dentry 4) 0
      if dentryInode = 0 then dentryLoop fs fuel inode name n offset ctx
      else do
        let nameLen := ((← bytesAt ctx.buf (dentry + 6) 1).getD 0 0).toNat
        if name.length ≠ nameLen then dentryLoop fs fuel inode name n offset ctx
        else do
          let dentryName ← bytesAt ctx.buf (dentry + 8) nameLen
          if name ≠ dentryName then dentryLoop fs fuel inode name n offset ctx
          else return some dentryInode

def sIsDir (mode : ℕ) : Prop := mode &&& 0xF000 = 0x4000

instance (mode : ℕ) : Decidable (sIsDir mode) := inferInstanceAs (Decidable (_ = _))

/-- What `inode_get_idx_by_path` does for one name: the inode with the number `inodeIdx`, and the
number of the entry with this name in it. -/
def lookupName (fs : Mount) (fuel inodeIdx : ℕ) (name : List UInt8) :
    Outcome (Ext4Inode × Option ℕ) := do
  let inode ← deref (← inodeGetByNumber fs inodeIdx)
  let dctx ← inodeDirCtxReset fs fuel inode
  let found ← dentryLoop fs fuel inode name fuel 0 dctx
  return (inode, found)

end Spotlight.Ext4
