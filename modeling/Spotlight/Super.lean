import Spotlight.Outcome
import Spotlight.Bytes

/-! The ext4 superblock, the block group descriptors and the inode table
(`super.c`, `disk.c`, and `inode_get_by_number` of `inode.c`). Unsigned C integers are
natural numbers; the operations that can wrap say so. -/
namespace Spotlight.Ext4
open Bytes

/-- The decompressed image: the byte that a read delivers at each address. -/
abbrev Disk := ℕ → UInt8

/-- `__disk_read`. The byte count comes back through the `int` of `pread_wrapper`, so the
comparison with the requested size fails from 2^31 bytes on. -/
def diskRead (disk : Disk) (pos size : ℕ) : Outcome (List UInt8) := do
  assertThat (size < 2 ^ 31)
  return readAt disk pos size

theorem diskRead_eq {disk : Disk} {pos size : ℕ} (h : size < 2 ^ 31) :
    diskRead disk pos size = .ok (readAt disk pos size) := by
  rw [diskRead, Outcome.assertThat_true h]
  rfl

/-- `ALIGN_TO`: the mask is complemented in the 32 bits of the alignment and then widened. -/
def alignTo (n align : ℕ) : ℕ :=
  if n % align ≠ 0 then (n &&& (2 ^ 32 - align)) + align else n

structure Ext4SuperBlock where
  sInodesCount : ℕ
  sBlocksCountLo : ℕ
  sFirstDataBlock : ℕ
  sLogBlockSize : ℕ
  sBlocksPerGroup : ℕ
  sInodesPerGroup : ℕ
  sInodeSize : ℕ
  sDescSize : ℕ
  deriving DecidableEq, Repr

structure Ext4GroupDesc where
  bgInodeTableLo : ℕ
  deriving DecidableEq, Repr

structure Ext4Inode where
  iMode : ℕ
  iSizeLo : ℕ
  iFlags : ℕ
  iBlock : List UInt8
  iSizeHigh : ℕ
  deriving DecidableEq, Repr

/-- What `op_init` leaves in the static variables of `super.c` over an open disk. -/
structure Mount where
  disk : Disk
  super : Ext4SuperBlock
  gdescTable : List Ext4GroupDesc

def bootSectorSize : ℕ := 0x400
def sizeofSuperBlock : ℕ := 1024
def groupDescMinSize : ℕ := 0x20
def sizeofGroupDesc : ℕ := 64
def sizeofInode : ℕ := 156

def superFill (disk : Disk) : Outcome Ext4SuperBlock := do
  let buf ← diskRead disk bootSectorSize sizeofSuperBlock
  return {
    sInodesCount := u32At buf 0x00
    sBlocksCountLo := u32At buf 0x04
    sFirstDataBlock := u32At buf 0x14
    sLogBlockSize := u32At buf 0x18
    sBlocksPerGroup := u32At buf 0x20
    sInodesPerGroup := u32At buf 0x28
    sInodeSize := u16At buf 0x58
    sDescSize := u16At buf 0xFE }

def superBlockSize (super : Ext4SuperBlock) : ℕ := 2 ^ (super.sLogBlockSize + 10) % 2 ^ 32

def blocks2bytes (super : Ext4SuperBlock) (blks : ℕ) : ℕ := blks * superBlockSize super

def superNBlockGroups (super : Ext4SuperBlock) : ℕ :=
  let n := super.sBlocksCountLo / super.sBlocksPerGroup
  if n ≠ 0 then n else 1

def superGroupDescSize (super : Ext4SuperBlock) : ℕ :=
  if super.sDescSize = 0 then groupDescMinSize else sizeofGroupDesc

def superGroupInodeTableOffset (super : Ext4SuperBlock) (gdescTable : List Ext4GroupDesc)
    (inodeNum : ℕ) : Outcome ℕ := do
  let nGroup := inodeNum / super.sInodesPerGroup
  assertThat (nGroup < superNBlockGroups super)
  match gdescTable[nGroup]? with
  | none => .error .bounds
  | some gdesc => return blocks2bytes super gdesc.bgInodeTableLo

/-- One iteration of the loop of `super_group_fill`. -/
def superGroupRead (disk : Disk) (super : Ext4SuperBlock) (i : ℕ) : Outcome Ext4GroupDesc := do
  let bgOff := alignTo (bootSectorSize + sizeofSuperBlock) (superBlockSize super)
  let buf ← diskRead disk (bgOff + i * superGroupDescSize super % 2 ^ 32)
    (superGroupDescSize super)
  return { bgInodeTableLo := u32At buf 8 }

def superGroupFillLoop (disk : Disk) (super : Ext4SuperBlock) :
    ℕ → ℕ → Outcome (List Ext4GroupDesc)
  | 0, _ => .ok []
  | n + 1, i => do
    let gdesc ← superGroupRead disk super i
    let rest ← superGroupFillLoop disk super n (i + 1)
    return gdesc :: rest

def superGroupFill (disk : Disk) (super : Ext4SuperBlock) : Outcome (List Ext4GroupDesc) :=
  superGroupFillLoop disk super (superNBlockGroups super) 0

/-- Bytes past a short on-disk record count as zero. -/
def parseInode (buf : List UInt8) : Ext4Inode where
  iMode := u16At buf 0x00
  iSizeLo := u32At buf 0x04
  iFlags := u32At buf 0x20
  iBlock := (List.range 60).map fun i => buf.getD (0x28 + i) 0
  iSizeHigh := u32At buf 0x6C

/-- `inode_get_by_number`; `none` is `-ENOENT`. -/
def inodeGetByNumber (fs : Mount) (n : ℕ) : Outcome (Option Ext4Inode) :=
  if n = 0 then .ok none
  else do
    let n := n - 1
    let off ← superGroupInodeTableOffset fs.super fs.gdescTable n
    let off := off + n % fs.super.sInodesPerGroup * fs.super.sInodeSize % 2 ^ 32
    let buf ← diskRead fs.disk off (min fs.super.sInodeSize sizeofInode)
    return some (parseInode buf)

def inodeGetSize (inode : Ext4Inode) : ℕ := inode.iSizeHigh * 2 ^ 32 + inode.iSizeLo

theorem superGroupDescSize_lt (super : Ext4SuperBlock) :
    superGroupDescSize super < 2 ^ 31 := by
  unfold superGroupDescSize groupDescMinSize sizeofGroupDesc
  split_ifs <;> decide

theorem superGroupFillLoop_ok (disk : Disk) (super : Ext4SuperBlock) (n i : ℕ) :
    ∃ table, superGroupFillLoop disk super n i = .ok table ∧ table.length = n := by
  induction n generalizing i with
  | zero => exact ⟨[], rfl, rfl⟩
  | succ n ih =>
    obtain ⟨rest, hr, hl⟩ := ih (i + 1)
    simp [superGroupFillLoop, superGroupRead, diskRead_eq (superGroupDescSize_lt super), hr, hl]

theorem superGroupFill_length {disk : Disk} {super : Ext4SuperBlock}
    {table : List Ext4GroupDesc} (h : superGroupFill disk super = .ok table) :
    table.length = superNBlockGroups super := by
  obtain ⟨t, ht, hl⟩ := superGroupFillLoop_ok disk super (superNBlockGroups super) 0
  rw [superGroupFill, ht] at h
  cases h
  exact hl

theorem inodeGetByNumber_ok_iff {disk : Disk} {super : Ext4SuperBlock}
    {table : List Ext4GroupDesc} (ht : superGroupFill disk super = .ok table) {n : ℕ}
    (hn : n ≠ 0) :
    (∃ inode, inodeGetByNumber ⟨disk, super, table⟩ n = .ok (some inode)) ↔
      (n - 1) / super.sInodesPerGroup < table.length := by
  have hl := superGroupFill_length ht
  have hs : min super.sInodeSize sizeofInode < 2 ^ 31 :=
    (Nat.min_le_right _ _).trans_lt (by decide)
  constructor
  · rintro ⟨inode, h⟩
    simp only [inodeGetByNumber, hn, if_false, superGroupInodeTableOffset,
      Outcome.bind_eq_ok, Outcome.assertThat_eq_ok] at h
    obtain ⟨_, ⟨_, hg, _⟩, _⟩ := h
    rwa [hl]
  · intro h
    simp [inodeGetByNumber, hn, superGroupInodeTableOffset, hl ▸ h,
      List.getElem?_eq_getElem h, diskRead_eq hs]

/-- The geometry the ext4 format gives a filesystem of fewer than 2^32 blocks. -/
structure StandardGeometry (super : Ext4SuperBlock) : Prop where
  blocksPerGroup_pos : 0 < super.sBlocksPerGroup
  inodesPerGroup_pos : 0 < super.sInodesPerGroup
  firstDataBlock_lt : super.sFirstDataBlock < super.sBlocksCountLo
  blocksCount_lt : super.sBlocksCountLo < 2 ^ 32
  inodesCount_eq : super.sInodesCount =
    (super.sBlocksCountLo - super.sFirstDataBlock) ⌈/⌉ super.sBlocksPerGroup *
      super.sInodesPerGroup

/-- There is one group, or the last group is full, or it is short by no more blocks than
lie before the first data block. -/
def LastGroupCounted (super : Ext4SuperBlock) : Prop :=
  let data := super.sBlocksCountLo - super.sFirstDataBlock
  data < super.sBlocksPerGroup ∨ data % super.sBlocksPerGroup = 0 ∨
    super.sBlocksPerGroup ≤ data % super.sBlocksPerGroup + super.sFirstDataBlock

instance (super : Ext4SuperBlock) : Decidable (LastGroupCounted super) := by
  unfold LastGroupCounted
  infer_instance

/-- Every one of `groups * per` numbers has its group below `loaded` exactly when no
group is missing. -/
theorem forall_group_lt_iff {groups per loaded : ℕ} (hg : 0 < groups) (hp : 0 < per) :
    (∀ n, 1 ≤ n → n ≤ groups * per → (n - 1) / per < loaded) ↔ groups ≤ loaded := by
  constructor
  · intro h
    have hpos : 0 < groups * per := Nat.mul_pos hg hp
    have hlast := h (groups * per) hpos le_rfl
    rw [Nat.div_lt_iff_lt_mul hp] at hlast
    have : groups * per ≤ loaded * per := by omega
    exact Nat.le_of_mul_le_mul_right this hp
  · intro h n h1 hn
    refine lt_of_lt_of_le ?_ h
    rw [Nat.div_lt_iff_lt_mul hp]
    omega

theorem ceilDiv_eq_div_add (d : ℕ) {g : ℕ} (hg : 0 < g) :
    d ⌈/⌉ g = d / g + if d % g = 0 then 0 else 1 := by
  have hr := Nat.mod_lt d hg
  have hd : d + g - 1 = g * (d / g) + (d % g + g - 1) := by
    have := Nat.div_add_mod d g
    omega
  rw [Nat.ceilDiv_eq_add_pred_div, hd, Nat.mul_add_div hg]
  congr 1
  split_ifs with h
  · rw [h]
    exact Nat.div_eq_of_lt (by omega)
  · rw [show d % g + g - 1 = d % g - 1 + g by omega, Nat.add_div_right _ hg,
      Nat.div_eq_of_lt (by omega)]

/-- The code's rounded-down quotient of all blocks reaches the rounded-up quotient of the
data blocks exactly when the last group is counted. -/
theorem ceilDiv_le_groups_iff {super : Ext4SuperBlock} (h : StandardGeometry super) :
    (super.sBlocksCountLo - super.sFirstDataBlock) ⌈/⌉ super.sBlocksPerGroup ≤
      superNBlockGroups super ↔ LastGroupCounted super := by
  obtain ⟨hg, -, hlt, -, -⟩ := h
  rw [ceilDiv_eq_div_add _ hg]
  simp only [superNBlockGroups, LastGroupCounted]
  set d := super.sBlocksCountLo - super.sFirstDataBlock with hd
  set g := super.sBlocksPerGroup
  have hblocks : super.sBlocksCountLo = g * (d / g) + (d % g + super.sFirstDataBlock) := by
    have := Nat.div_add_mod d g
    omega
  have hq : super.sBlocksCountLo / g = d / g + (d % g + super.sFirstDataBlock) / g := by
    conv_lhs => rw [hblocks]
    exact Nat.mul_add_div hg _ _
  have hzero : d < g ↔ d / g = 0 := (Nat.div_eq_zero_iff_lt hg).symm
  have hone : g ≤ d % g + super.sFirstDataBlock ↔
      1 ≤ (d % g + super.sFirstDataBlock) / g := (Nat.one_le_div_iff hg).symm
  rw [hq, hzero, hone]
  clear_value d g
  clear hq hzero hone hblocks hd hlt
  generalize (d % g + super.sFirstDataBlock) / g = s
  generalize d / g = q, d % g = r
  split_ifs <;> omega

/-- Every inode of the filesystem has its group among the loaded descriptors, and its
lookup passes the assertion, exactly when the descriptor loop counts the last group. -/
theorem inodes_in_loaded_groups_iff {super : Ext4SuperBlock} (hs : StandardGeometry super)
    {disk : Disk} {table : List Ext4GroupDesc} (ht : superGroupFill disk super = .ok table) :
    (∀ n, 1 ≤ n → n ≤ super.sInodesCount →
      (n - 1) / super.sInodesPerGroup < table.length ∧
      ∃ inode, inodeGetByNumber ⟨disk, super, table⟩ n = .ok (some inode)) ↔
      LastGroupCounted super := by
  have hgroups : 0 < (super.sBlocksCountLo - super.sFirstDataBlock) ⌈/⌉
      super.sBlocksPerGroup := by
    have hlt := hs.firstDataBlock_lt
    rw [Nat.ceilDiv_eq_add_pred_div]
    exact Nat.div_pos (by omega) hs.blocksPerGroup_pos
  rw [← ceilDiv_le_groups_iff hs, ← superGroupFill_length ht,
    ← forall_group_lt_iff hgroups hs.inodesPerGroup_pos, ← hs.inodesCount_eq]
  refine forall_congr' fun n => imp_congr_right fun h1 => imp_congr_right fun _ => ?_
  rw [inodeGetByNumber_ok_iff ht (by omega), and_self]

/-- A 1 KiB-block filesystem of 10 MiB: its second group holds 2047 of 8192 blocks. -/
def partialLastGroup : Ext4SuperBlock where
  sInodesCount := 2560
  sBlocksCountLo := 10240
  sFirstDataBlock := 1
  sLogBlockSize := 0
  sBlocksPerGroup := 8192
  sInodesPerGroup := 1280
  sInodeSize := 256
  sDescSize := 0

theorem partialLastGroup_geometry : StandardGeometry partialLastGroup := by
  constructor <;> decide

/-- Inode 1281 is the first of the second group, whose descriptor is never loaded. -/
theorem inodes_in_loaded_groups_counterexample :
    StandardGeometry partialLastGroup ∧ ∃ table,
      superGroupFill (fun _ => 0) partialLastGroup = .ok table ∧ table.length = 1 ∧
      1281 ≤ partialLastGroup.sInodesCount ∧
      ¬(1281 - 1) / partialLastGroup.sInodesPerGroup < table.length ∧
      inodeGetByNumber ⟨fun _ => 0, partialLastGroup, table⟩ 1281 = .error .assertion := by
  obtain ⟨table, ht, hl⟩ :=
    superGroupFillLoop_ok (fun _ => 0) partialLastGroup (superNBlockGroups partialLastGroup) 0
  have hone : table.length = 1 := hl
  refine ⟨partialLastGroup_geometry, table, ht, hone, by decide, ?_, ?_⟩
  · rw [hone]
    decide
  · have hg : ¬(1281 - 1) / partialLastGroup.sInodesPerGroup <
        superNBlockGroups partialLastGroup := by decide
    simp only [inodeGetByNumber, superGroupInodeTableOffset, Outcome.assertThat_false hg]
    rfl

def fullLastGroup : Ext4SuperBlock := { partialLastGroup with sBlocksCountLo := 16385 }

theorem inodes_in_loaded_groups_iff_full : ∃ table,
    superGroupFill (fun _ => 0) fullLastGroup = .ok table ∧
    ∀ n, 1 ≤ n → n ≤ 2560 → (n - 1) / 1280 < table.length ∧
      ∃ inode, inodeGetByNumber ⟨fun _ => 0, fullLastGroup, table⟩ n = .ok (some inode) := by
  obtain ⟨table, ht, _⟩ :=
    superGroupFillLoop_ok (fun _ => 0) fullLastGroup (superNBlockGroups fullLastGroup) 0
  have hs : StandardGeometry fullLastGroup := by constructor <;> decide
  exact ⟨table, ht, (inodes_in_loaded_groups_iff hs ht).mpr (by decide)⟩

end Spotlight.Ext4
