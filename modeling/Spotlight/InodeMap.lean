import Spotlight.ExtentLookup

/-! The block map of an inode (`inode_get_data_pblock`): extent trees, and the direct and
indirect pointers of ext2/3. -/
namespace Spotlight.Ext4
open Bytes ExtTree

def ext4NdirBlocks : ℕ := 12
def ext4IndBlock : ℕ := ext4NdirBlocks
def ext4DindBlock : ℕ := ext4IndBlock + 1
def ext4TindBlock : ℕ := ext4DindBlock + 1

def ext4ExtentsFl : ℕ := 0x00080000

variable (super : Ext4SuperBlock)

def bytes2blocks (bytes : ℕ) : ℕ :=
  bytes / superBlockSize super + if bytes % superBlockSize super ≠ 0 then 1 else 0

def addressesInIndBlock : ℕ := superBlockSize super / 4
def addressesInDindBlock : ℕ := addressesInIndBlock super * addressesInIndBlock super
def addressesInTindBlock : ℕ := addressesInDindBlock super * addressesInIndBlock super
def maxIndBlock : ℕ := ext4NdirBlocks + addressesInIndBlock super
def maxDindBlock : ℕ := maxIndBlock super + addressesInDindBlock super
def maxTindBlock : ℕ := maxDindBlock super + addressesInTindBlock super

def diskReadU32 (disk : Disk) (pos : ℕ) : Outcome ℕ := do
  let buf ← diskRead disk pos 4
  return u32At buf 0

def inodeGetDataPblockInd (fs : Mount) (lblock indexBlock : ℕ) : Outcome ℕ := do
  assertThat (lblock < addressesInIndBlock fs.super)
  diskReadU32 fs.disk (blocks2bytes fs.super indexBlock + lblock * 4)

def inodeGetDataPblockDind (fs : Mount) (lblock dindexBlock : ℕ) : Outcome ℕ := do
  assertThat (lblock < addressesInDindBlock fs.super)
  let indexBlockOffsetInDindex := lblock / addressesInIndBlock fs.super * 4
  let indexBlock ← diskReadU32 fs.disk
    (blocks2bytes fs.super dindexBlock + indexBlockOffsetInDindex)
  inodeGetDataPblockInd fs (lblock % addressesInIndBlock fs.super) indexBlock

def inodeGetDataPblockTind (fs : Mount) (lblock tindexBlock : ℕ) : Outcome ℕ := do
  assertThat (lblock < addressesInTindBlock fs.super)
  let dindexBlockOffsetInTindex := lblock / addressesInDindBlock fs.super * 4
  let dindexBlock ← diskReadU32 fs.disk
    (blocks2bytes fs.super tindexBlock + dindexBlockOffsetInTindex)
  inodeGetDataPblockDind fs (lblock % addressesInDindBlock fs.super) dindexBlock

def Ext4Inode.blockPointer (inode : Ext4Inode) (i : ℕ) : ℕ := u32At inode.iBlock (4 * i)

/-- The physical block and the length stored through `extent_len`; `fuel` bounds the depth
of an extent tree. -/
def inodeGetDataPblock (fs : Mount) (fuel : ℕ) (inode : Ext4Inode) (lblock : ℕ) :
    Outcome (ℕ × ℕ) :=
  if inode.iFlags &&& ext4ExtentsFl ≠ 0 then do
    let (pblock, len) ← extentGetPblock fs fuel inode.iBlock lblock
    return (pblock, len.getD 1)
  else do
    assertThat (lblock ≤ bytes2blocks fs.super (inodeGetSize inode))
    if lblock < ext4NdirBlocks then
      return (inode.blockPointer lblock, 1)
    else if lblock < maxIndBlock fs.super then do
      let indexBlock := inode.blockPointer ext4IndBlock
      return (← inodeGetDataPblockInd fs (lblock - ext4NdirBlocks) indexBlock, 1)
    else if lblock < maxDindBlock fs.super then do
      let dindexBlock := inode.blockPointer ext4DindBlock
      return (← inodeGetDataPblockDind fs (lblock - maxIndBlock fs.super) dindexBlock, 1)
    else if lblock < maxTindBlock fs.super then do
      let tindexBlock := inode.blockPointer ext4TindBlock
      return (← inodeGetDataPblockTind fs (lblock - maxDindBlock fs.super) tindexBlock, 1)
    else .error .assertion

/-- The physical block of a logical block, 0 for a hole. -/
def pblockOf (fs : Mount) (fuel : ℕ) (inode : Ext4Inode) (lblock : ℕ) : ℕ :=
  match inodeGetDataPblock fs fuel inode lblock with
  | .ok (pblock, _) => pblock
  | .error _ => 0

/-- Every block of the file is a hole of length one or starts a run of blocks that are
consecutive on the disk too. -/
def BlockMap (fs : Mount) (fuel : ℕ) (inode : Ext4Inode) : Prop :=
  ∀ l < bytes2blocks fs.super (inodeGetSize inode), ∃ p r,
    inodeGetDataPblock fs fuel inode l = .ok (p, r) ∧ 1 ≤ r ∧ (p = 0 → r = 1) ∧
    (p ≠ 0 → ∀ j < r, l + j < bytes2blocks fs.super (inodeGetSize inode) →
      ∃ r', inodeGetDataPblock fs fuel inode (l + j) = .ok (p + j, r'))

/-- The file's content, block by block, with zeros for a hole. -/
def fileByte (fs : Mount) (fuel : ℕ) (inode : Ext4Inode) (i : ℕ) : UInt8 :=
  let bs := superBlockSize fs.super
  let p := pblockOf fs fuel inode (i / bs)
  if p = 0 then 0 else fs.disk (p * bs + i % bs)

theorem pblockOf_eq {fs : Mount} {fuel : ℕ} {inode : Ext4Inode} {l p r : ℕ}
    (h : inodeGetDataPblock fs fuel inode l = .ok (p, r)) : pblockOf fs fuel inode l = p := by
  simp [pblockOf, h]

theorem superBlockSize_eq {super : Ext4SuperBlock} (h : super.sLogBlockSize ≤ 21) :
    superBlockSize super = 2 ^ (super.sLogBlockSize + 10) := by
  apply Nat.mod_eq_of_lt
  exact Nat.pow_lt_pow_right (by decide) (by omega)

theorem superBlockSize_pos {super : Ext4SuperBlock} (h : super.sLogBlockSize ≤ 21) :
    0 < superBlockSize super := by
  rw [superBlockSize_eq h]
  positivity

theorem bytes2blocks_eq {super : Ext4SuperBlock} (h : super.sLogBlockSize ≤ 21) (bytes : ℕ) :
    bytes2blocks super bytes = bytes ⌈/⌉ superBlockSize super := by
  rw [ceilDiv_eq_div_add _ (superBlockSize_pos h), bytes2blocks, ite_not]

theorem lt_bytes2blocks_iff {super : Ext4SuperBlock} (h : super.sLogBlockSize ≤ 21)
    {bytes l : ℕ} : l < bytes2blocks super bytes ↔ l * superBlockSize super < bytes := by
  rw [bytes2blocks_eq h, ← not_le, ceilDiv_le_iff_le_mul (superBlockSize_pos h), not_le,
    Nat.mul_comm]

theorem diskReadU32_ok (disk : Disk) (pos : ℕ) : ∃ p, diskReadU32 disk pos = .ok p := by
  simp [diskReadU32, diskRead_eq (show 4 < 2 ^ 31 by norm_num)]

theorem inodeGetDataPblockInd_ok {fs : Mount} {l : ℕ} (hl : l < addressesInIndBlock fs.super)
    (indexBlock : ℕ) : ∃ p, inodeGetDataPblockInd fs l indexBlock = .ok p := by
  rw [inodeGetDataPblockInd, Outcome.assertThat_true hl]
  exact diskReadU32_ok _ _

theorem inodeGetDataPblockDind_ok {fs : Mount} {l : ℕ} (hl : l < addressesInDindBlock fs.super)
    (dindexBlock : ℕ) : ∃ p, inodeGetDataPblockDind fs l dindexBlock = .ok p := by
  obtain ⟨indexBlock, hi⟩ := diskReadU32_ok fs.disk
    (blocks2bytes fs.super dindexBlock + l / addressesInIndBlock fs.super * 4)
  rw [inodeGetDataPblockDind, Outcome.assertThat_true hl]
  simp only [Outcome.ok_bind, hi]
  apply inodeGetDataPblockInd_ok
  exact Nat.mod_lt _ (Nat.pos_of_mul_pos_right (Nat.zero_lt_of_lt hl))

theorem inodeGetDataPblockTind_ok {fs : Mount} {l : ℕ} (hl : l < addressesInTindBlock fs.super)
    (tindexBlock : ℕ) : ∃ p, inodeGetDataPblockTind fs l tindexBlock = .ok p := by
  obtain ⟨dindexBlock, hd⟩ := diskReadU32_ok fs.disk
    (blocks2bytes fs.super tindexBlock + l / addressesInDindBlock fs.super * 4)
  rw [inodeGetDataPblockTind, Outcome.assertThat_true hl]
  simp only [Outcome.ok_bind, hd]
  apply inodeGetDataPblockDind_ok
  exact Nat.mod_lt _ (Nat.pos_of_mul_pos_right (Nat.zero_lt_of_lt hl))

/-- Direct and indirect pointers: every lookup returns one block, whatever the pointers hold. -/
theorem inodeGetDataPblock_indirect {fs : Mount} {fuel : ℕ} {inode : Ext4Inode} {l : ℕ}
    (hflag : inode.iFlags &&& ext4ExtentsFl = 0)
    (hsize : l ≤ bytes2blocks fs.super (inodeGetSize inode)) (hmax : l < maxTindBlock fs.super) :
    ∃ p, inodeGetDataPblock fs fuel inode l = .ok (p, 1) := by
  simp only [inodeGetDataPblock, hflag, ne_eq, not_true_eq_false, if_false,
    Outcome.assertThat_true hsize, Outcome.ok_bind]
  split_ifs with h₁ h₂ h₃
  · exact ⟨_, rfl⟩
  · have hl : l - ext4NdirBlocks < addressesInIndBlock fs.super := by
      unfold maxIndBlock at h₂
      omega
    obtain ⟨p, hp⟩ := inodeGetDataPblockInd_ok hl (inode.blockPointer ext4IndBlock)
    exact ⟨p, by simp [hp]⟩
  · have hl : l - maxIndBlock fs.super < addressesInDindBlock fs.super := by
      unfold maxDindBlock at h₃
      omega
    obtain ⟨p, hp⟩ := inodeGetDataPblockDind_ok hl (inode.blockPointer ext4DindBlock)
    exact ⟨p, by simp [hp]⟩
  · have hl : l - maxDindBlock fs.super < addressesInTindBlock fs.super := by
      unfold maxTindBlock at hmax
      omega
    obtain ⟨p, hp⟩ := inodeGetDataPblockTind_ok hl (inode.blockPointer ext4TindBlock)
    exact ⟨p, by simp [hp]⟩

theorem blockMap_of_indirect {fs : Mount} {fuel : ℕ} {inode : Ext4Inode}
    (hflag : inode.iFlags &&& ext4ExtentsFl = 0)
    (hmax : bytes2blocks fs.super (inodeGetSize inode) ≤ maxTindBlock fs.super) :
    BlockMap fs fuel inode := by
  intro l hl
  have hlookup : ∃ p, inodeGetDataPblock fs fuel inode l = .ok (p, 1) :=
    inodeGetDataPblock_indirect hflag hl.le (hl.trans_le hmax)
  obtain ⟨p, hp⟩ := hlookup
  refine ⟨p, 1, hp, le_rfl, fun _ => rfl, fun _ j hj _ => ⟨1, ?_⟩⟩
  obtain rfl : j = 0 := by omega
  exact hp

/-- An extent tree whose holes all lie behind the last extent of their leaf. -/
theorem blockMap_of_extents {fs : Mount} {inode : Ext4Inode}
    (hflag : inode.iFlags &&& ext4ExtentsFl ≠ 0) {d : ℕ} {t : ExtTree d}
    (h : Stored fs d t inode.iBlock) (hw : WellFormed d t)
    (hext : ∀ e ∈ extents d t,
      e.Initialised ∧ e.eeBlock + e.eeLen < 2 ^ 32 ∧ e.eeStartLo ≠ 0)
    (hholes : ∀ l < bytes2blocks fs.super (inodeGetSize inode),
      (∃ e ∈ extents d t, e.Covers l) ∨
        ∃ es, leafFor d t l = some es ∧ ∀ e ∈ es, e.end32 ≤ l)
    {fuel : ℕ} (hf : d < fuel) : BlockMap fs fuel inode := by
  have hinit : ∀ e ∈ extents d t, e.Initialised := fun e he => (hext e he).1
  intro l hl
  rcases hholes l hl with ⟨e, he, hc⟩ | ⟨es, hleaf, hbehind⟩
  · obtain ⟨-, hend, hstart⟩ := hext e he
    have hlen : e.length = e.eeLen := if_pos (hinit e he)
    obtain ⟨hlo, hhi⟩ := id hc
    have hrun : ∀ j < e.eeBlock + e.eeLen - l, inodeGetDataPblock fs fuel inode (l + j) =
        .ok (e.eeStartLo + (l - e.eeBlock) + j, e.eeBlock + e.eeLen - (l + j)) := by
      intro j hj
      have hcj : e.Covers (l + j) := ⟨by omega, by omega⟩
      rw [inodeGetDataPblock, if_pos hflag, extentGetPblock_of_covers h hw hinit he hend hcj hf,
        Nat.sub_add_comm hlo, ← Nat.add_assoc]
      rfl
    exact ⟨_, _, hrun 0 (by omega), by omega, by omega, fun _ j hj _ => ⟨_, hrun j hj⟩⟩
  · refine ⟨0, 1, ?_, le_rfl, fun _ => rfl, fun hp => absurd rfl hp⟩
    rw [inodeGetDataPblock, if_pos hflag, extentGetPblock_behind h hleaf hbehind hf]
    rfl

end Spotlight.Ext4
