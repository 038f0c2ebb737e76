import Spotlight.Programs
import Spotlight.Readlink

/-! The operations of the filesystem as programs that read the disk piece by piece, through
`__disk_read`. Over a disk that always answers they are the functions of the same names. -/
namespace Spotlight.Ext4
open Bytes Programs Programs.Prog

/-- A call of `read_wrapper`. -/
structure DiskCall where
  pos : ℕ
  size : ℕ
  deriving DecidableEq, Repr

/-- A program whose questions are calls of `read_wrapper`, each answered with the number returned
and the bytes stored. -/
abbrev DiskProg := Prog Fault DiskCall (ℤ × List UInt8)

/-- The static variables of `super.c` as `op_init` leaves them. -/
structure Volume where
  super : Ext4SuperBlock
  gdescTable : List Ext4GroupDesc

def Volume.mount (v : Volume) (disk : Disk) : Mount := ⟨disk, v.super, v.gdescTable⟩

namespace DiskProg

/-- `__disk_read`. The number comes back through the `int` of `pread_wrapper`, and is compared with
the size as a `size_t`. -/
def diskRead (pos size : ℕ) : DiskProg (List UInt8) := do
  let (ret, bytes) ← question ⟨pos, size⟩
  assertThat (Int.bmod ret (2 ^ 32) % 2 ^ 64 = size)
  return bytes

def superFill : DiskProg Ext4SuperBlock := do
  let buf ← diskRead bootSectorSize sizeofSuperBlock
  return {
    sInodesCount := u32At buf 0x00
    sBlocksCountLo := u32At buf 0x04
    sFirstDataBlock := u32At buf 0x14
    sLogBlockSize := u32At buf 0x18
    sBlocksPerGroup := u32At buf 0x20
    sInodesPerGroup := u32At buf 0x28
    sInodeSize := u16At buf 0x58
    sDescSize := u16At buf 0xFE }

def superGroupRead (super : Ext4SuperBlock) (i : ℕ) : DiskProg Ext4GroupDesc := do
  let bgOff := alignTo (bootSectorSize + sizeofSuperBlock) (superBlockSize super)
  let buf ← diskRead (bgOff + i * superGroupDescSize super % 2 ^ 32) (superGroupDescSize super)
  return { bgInodeTableLo := u32At buf 8 }

def superGroupFillLoop (super : Ext4SuperBlock) : ℕ → ℕ → DiskProg (List Ext4GroupDesc)
  | 0, _ => return []
  | n + 1, i => do
    let gdesc ← superGroupRead super i
    let rest ← superGroupFillLoop super n (i + 1)
    return gdesc :: rest

def superGroupFill (super : Ext4SuperBlock) : DiskProg (List Ext4GroupDesc) :=
  superGroupFillLoop super (superNBlockGroups super) 0

variable (v : Volume) (fuel : ℕ)

/-- The record of an inode as it is read from the disk; `none` is `-ENOENT`. -/
def inodeRecord (n : ℕ) : DiskProg (Option (List UInt8)) :=
  if n = 0 then return none
  else do
    let n := n - 1
    let off ← superGroupInodeTableOffset v.super v.gdescTable n
    let off := off + n % v.super.sInodesPerGroup * v.super.sInodeSize % 2 ^ 32
    let buf ← diskRead off (min v.super.sInodeSize sizeofInode)
    return some buf

def inodeGetByNumber (n : ℕ) : DiskProg (Option Ext4Inode) := do
  return (← inodeRecord v n).map parseInode

def extentGetExtentsInBlock (block : ℕ) : DiskProg (List UInt8) := do
  let eh ← diskRead (blocks2bytes v.super block) sizeofExtentHeader
  let extentsLen := u16At eh 2 * sizeofExtent + sizeofExtentHeader
  diskRead (blocks2bytes v.super block) extentsLen

def extentGetPblock : ℕ → List UInt8 → ℕ → DiskProg (ℕ × Option ℕ)
  | 0, _, _ => fail .fuel
  | fuel + 1, extents, lblock => do
    let eh ← headerAt extents
    assertThat (eh.ehMagic = ext4ExtMagic)
    if eh.ehDepth = 0 then
      extentGetBlockFromEes extents eh.ehEntries lblock
    else do
      match ← extentIndexLoop extents lblock eh.ehEntries 0 none with
      | none => fail .assertion
      | some recurseEi => do
        let leafExtents ← extentGetExtentsInBlock v recurseEi.eiLeafLo
        extentGetPblock fuel leafExtents lblock

def diskReadU32 (pos : ℕ) : DiskProg ℕ := do
  let buf ← diskRead pos 4
  return u32At buf 0

def inodeGetDataPblockInd (lblock indexBlock : ℕ) : DiskProg ℕ := do
  assertThat (lblock < addressesInIndBlock v.super)
  diskReadU32 (blocks2bytes v.super indexBlock + lblock * 4)

def inodeGetDataPblockDind (lblock dindexBlock : ℕ) : DiskProg ℕ := do
  assertThat (lblock < addressesInDindBlock v.super)
  let indexBlockOffsetInDindex := lblock / addressesInIndBlock v.super * 4
  let indexBlock ← diskReadU32 (blocks2bytes v.super dindexBlock + indexBlockOffsetInDindex)
  inodeGetDataPblockInd v (lblock % addressesInIndBlock v.super) indexBlock

def inodeGetDataPblockTind (lblock tindexBlock : ℕ) : DiskProg ℕ := do
  assertThat (lblock < addressesInTindBlock v.super)
  let dindexBlockOffsetInTindex := lblock / addressesInDindBlock v.super * 4
  let dindexBlock ← diskReadU32 (blocks2bytes v.super tindexBlock + dindexBlockOffsetInTindex)
  inodeGetDataPblockDind v (lblock % addressesInDindBlock v.super) dindexBlock

def inodeGetDataPblock (inode : Ext4Inode) (lblock : ℕ) : DiskProg (ℕ × ℕ) :=
  if inode.iFlags &&& ext4ExtentsFl ≠ 0 then do
    let (pblock, len) ← extentGetPblock v fuel inode.iBlock lblock
    return (pblock, len.getD 1)
  else do
    assertThat (lblock ≤ bytes2blocks v.super (inodeGetSize inode))
    if lblock < ext4NdirBlocks then
      return (inode.blockPointer lblock, 1)
    else if lblock < maxIndBlock v.super then do
      let indexBlock := inode.blockPointer ext4IndBlock
      return (← inodeGetDataPblockInd v (lblock - ext4NdirBlocks) indexBlock, 1)
    else if lblock < maxDindBlock v.super then do
      let dindexBlock := inode.blockPointer ext4DindBlock
      return (← inodeGetDataPblockDind v (lblock - maxIndBlock v.super) dindexBlock, 1)
    else if lblock < maxTindBlock v.super then do
      let tindexBlock := inode.blockPointer ext4TindBlock
      return (← inodeGetDataPblockTind v (lblock - maxDindBlock v.super) tindexBlock, 1)
    else fail .assertion

def diskCtxRead (ctx : DiskCtx) (size : ℕ) : DiskProg (List UInt8 × DiskCtx) := do
  assertThat (ctx.size ≠ 0)
  let size := if ctx.size < size then ctx.size else size
  let bytes ← diskRead ctx.cur size
  return (bytes, ⟨ctx.cur + bytes.length, ctx.size - bytes.length⟩)

def firstRead (inode : Ext4Inode) (size offset : ℕ) : DiskProg (List UInt8) :=
  let bs := superBlockSize v.super
  let endLblock := (offset + (size - 1)) / bs % 2 ^ 32
  let startLblock := offset / bs % 2 ^ 32
  let startBlockOff := offset % bs
  if size = 0 then return []
  else if startBlockOff = 0 then return []
  else do
    let (startPblock, _) ← inodeGetDataPblock v fuel inode startLblock
    if startLblock = endLblock then
      diskRead (blocks2bytes v.super startPblock + startBlockOff) size
    else do
      let sizeToBlockEnd := (alignTo offset bs + 2 ^ 64 - offset) % 2 ^ 64
      assertThat ((offset + sizeToBlockEnd) % 2 ^ 64 % bs = 0)
      diskRead (blocks2bytes v.super startPblock + startBlockOff) sizeToBlockEnd

def opReadLoop (inode : Ext4Inode) (size : ℕ) : ℕ → ℕ → List UInt8 → DiskProg (List UInt8)
  | n, lblock, buf =>
    if buf.length < size then
      match n with
      | 0 => fail .fuel
      | n + 1 => do
        let (pblock, extentLen) ← inodeGetDataPblock v fuel inode lblock
        if pblock ≠ 0 then do
          let readCtx ← diskCtxCreate (blocks2bytes v.super pblock)
            (superBlockSize v.super) extentLen
          let (bytes, _) ← diskCtxRead readCtx (size - buf.length)
          opReadLoop inode size n ((lblock + extentLen) % 2 ^ 32) (buf ++ bytes)
        else
          let bytes := min (size - buf.length) (superBlockSize v.super)
          opReadLoop inode size n ((lblock + extentLen) % 2 ^ 32)
            (buf ++ List.replicate bytes 0)
    else return buf

def opRead (fh size offset : ℕ) : DiskProg (ℤ × List UInt8) := do
  match ← inodeGetByNumber v fh with
  | none => return (-enoent, [])
  | some inode => do
    let size := truncateSize inode size offset
    let head ← firstRead v fuel inode size offset
    let lblock := (offset + head.length) / superBlockSize v.super % 2 ^ 32
    let buf ← opReadLoop v fuel inode size size lblock head
    assertThat (size = buf.length)
    return (toInt32 buf.length, buf)

def dirCtxUpdate (inode : Ext4Inode) (lblock : ℕ) : DiskProg InodeDirCtx := do
  let (dirPblock, _) ← inodeGetDataPblock v fuel inode lblock
  let buf ← diskRead (blocks2bytes v.super dirPblock) (superBlockSize v.super)
  return ⟨lblock, buf⟩

def inodeDirCtxReset (inode : Ext4Inode) : DiskProg InodeDirCtx := dirCtxUpdate v fuel inode 0

def inodeDentryGet (inode : Ext4Inode) (offset : ℕ) (ctx : InodeDirCtx) :
    DiskProg (InodeDirCtx × Option ℕ) := do
  let lblock := offset / superBlockSize v.super % 2 ^ 32
  let blkOffset := offset % superBlockSize v.super
  assertThat (offset ≤ inodeGetSize inode)
  if inodeGetSize inode = offset then return (ctx, none)
  else if lblock = ctx.lblock then return (ctx, some blkOffset)
  else do
    let ctx ← dirCtxUpdate v fuel inode lblock
    return (ctx, some blkOffset)

def dentryLoop (inode : Ext4Inode) (name : List UInt8) :
    ℕ → ℕ → InodeDirCtx → DiskProg (Option ℕ)
  | 0, _, _ => fail .fuel
  | n + 1, offset, ctx => do
    match ← inodeDentryGet v fuel inode offset ctx with
    | (_, none) => return none
    | (ctx, some dentry) => do
      let recLen := u16At (← bytesAt ctx.buf (dentry + 4) 2) 0
      let offset := (offset + recLen) % 2 ^ 32
      let dentryInode := u32At (← bytesAt ctx.buf dentry 4) 0
      if dentryInode = 0 then dentryLoop inode name n offset ctx
      else do
        let nameLen := ((← bytesAt ctx.buf (dentry + 6) 1).getD 0 0).toNat
        if name.length ≠ nameLen then dentryLoop inode name n offset ctx
        else do
          let dentryName ← bytesAt ctx.buf (dentry + 8) nameLen
          if name ≠ dentryName then dentryLoop inode name n offset ctx
          else return some dentryInode

def lookupName (inodeIdx : ℕ) (name : List UInt8) : DiskProg (Ext4Inode × Option ℕ) := do
  let inode ← deref (← inodeGetByNumber v inodeIdx)
  let dctx ← inodeDirCtxReset v fuel inode
  let found ← dentryLoop v fuel inode name fuel 0 dctx
  return (inode, found)

def inodeGetIdxByPathLoop :
    ℕ → Dcache → List UInt8 → Option ℕ → ℕ → DiskProg (Dcache × ℕ)
  | 0, _, _, _, _ => fail .fuel
  | n + 1, d, path, dcEntry, inodeIdx => do
    let path := path.dropWhile (· = slash)
    let pathLen ← getPathTokenLen path
    if pathLen = 0 then return (d, inodeIdx)
    else do
      let (inode, found) ← lookupName v fuel inodeIdx (path.take pathLen)
      match found with
      | none => return (d, 0)
      | some inodeIdx => do
        let (d, dcEntry) ←
          if sIsDir inode.iMode then liftM (dcacheInsert d dcEntry (path.take pathLen) inodeIdx)
          else pure (d, dcEntry)
        match path.dropWhile (· ≠ slash) with
        | [] => return (d, inodeIdx)
        | c :: path => inodeGetIdxByPathLoop n d (c :: path) dcEntry inodeIdx

def inodeGetIdxByPath (d : Dcache) (path : List UInt8) : DiskProg (Dcache × ℕ) := do
  assertThat (path.head? = some slash)
  let (d, path, dcEntry) ← getCachedInodeNum d path
  let inodeIdx ← dcacheGetInode d dcEntry
  inodeGetIdxByPathLoop v fuel (path.length + 1) d path dcEntry inodeIdx

def inodeGetByPath (d : Dcache) (path : List UInt8) : DiskProg (Dcache × Option Ext4Inode) := do
  let (d, n) ← inodeGetIdxByPath v fuel d path
  return (d, ← inodeGetByNumber v n)

variable {σ : Type}

def opReaddirLoop (inode : Ext4Inode) (filler : σ → List UInt8 → ℕ → σ × Bool) :
    ℕ → ℕ → InodeDirCtx → σ → DiskProg σ
  | 0, _, _, _ => fail .fuel
  | n + 1, offset, ctx, s => do
    match ← inodeDentryGet v fuel inode offset ctx with
    | (_, none) => return s
    | (ctx, some dentry) => do
      let recLen := u16At (← bytesAt ctx.buf (dentry + 4) 2) 0
      let offset := offset + recLen
      if 2 ^ 63 ≤ offset then fail .bounds
      else do
        let dentryInode := u32At (← bytesAt ctx.buf dentry 4) 0
        if dentryInode = 0 then opReaddirLoop inode filler n offset ctx s
        else do
          let name ← getPrintableName ctx.buf dentry
          if name = [] then opReaddirLoop inode filler n offset ctx s
          else do
            let (s, full) := filler s name offset
            if full then return s else opReaddirLoop inode filler n offset ctx s

def opReaddir (filler : σ → List UInt8 → ℕ → σ × Bool) (d : Dcache) (path : List UInt8) (s : σ)
    (offset : ℕ) : DiskProg (Dcache × ℤ × σ) := do
  match ← inodeGetByPath v fuel d path with
  | (d, none) => return (d, -enoent, s)
  | (d, some inode) => do
    let dctx ← inodeDirCtxReset v fuel inode
    let s ← opReaddirLoop v fuel inode filler fuel offset dctx s
    return (d, 0, s)

def getLinkDest (inode : Ext4Inode) (buf : List UInt8) (bufsize : ℕ) :
    DiskProg (ℤ × List UInt8) := do
  let inodeSize := inodeGetSize inode
  let buf ←
    if inodeSize ≤ 60 then liftM (storeAt buf 0 (slice inode.iBlock 0 inodeSize))
    else do
      let (pblock, _) ← inodeGetDataPblock v fuel inode 0
      let blockData ← diskRead (blocks2bytes v.super pblock) (superBlockSize v.super)
      storeAt buf 0 (← strncpy blockData ((bufsize + 2 ^ 64 - 1) % 2 ^ 64))
  let buf ← storeAt buf inodeSize [0]
  return (toInt32 (inodeSize + 1), buf)

def opReadlink (d : Dcache) (path buf : List UInt8) (bufsize : ℕ) :
    DiskProg (Dcache × ℤ × List UInt8) := do
  let (d, found) ← inodeGetByPath v fuel d path
  let inode ← deref found
  if ¬sIsLnk inode.iMode then return (d, -einval, buf)
  else do
    let (_, buf) ← getLinkDest v fuel inode buf bufsize
    return (d, 0, buf)

end DiskProg
end Spotlight.Ext4
