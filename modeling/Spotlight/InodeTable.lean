import Spotlight.InodeMap

/-! Where the inode of a number lies: the table of group descriptors is read with one distance
between its records and lies on the disk with the one that the superblock records. -/
namespace Spotlight.Ext4
open Bytes

def inodeOffset (fs : Mount) (n : ℕ) : Outcome ℕ := do
  let off ← superGroupInodeTableOffset fs.super fs.gdescTable (n - 1)
  return off + (n - 1) % fs.super.sInodesPerGroup * fs.super.sInodeSize % 2 ^ 32

def recordedDescSize (super : Ext4SuperBlock) : ℕ :=
  if super.sDescSize = 0 then groupDescMinSize else super.sDescSize

/-- The block behind the one that the superblock begins in. -/
def descriptorsStart (super : Ext4SuperBlock) : ℕ :=
  blocks2bytes super (bootSectorSize / superBlockSize super + 1)

def inodeTableLo (disk : Disk) (pos : ℕ) : ℕ := u32At (readAt disk (pos + 8) 4) 0

def ReadsFrom (fs : Mount) (n p : ℕ) : Prop :=
  inodeOffset fs n = .ok p ∧ inodeGetByNumber fs n = do
    let buf ← diskRead fs.disk p (min fs.super.sInodeSize sizeofInode)
    return some (parseInode buf)

variable {disk : Disk} {super : Ext4SuperBlock} {table : List Ext4GroupDesc} {fs : Mount} {n p g : ℕ}

lemma readsFrom_iff (hn : n ≠ 0) : ReadsFrom fs n p ↔ inodeOffset fs n = .ok p := by
  refine ⟨And.left, fun h => ⟨h, ?_⟩⟩
  obtain ⟨off, hoff, hp⟩ := Outcome.bind_eq_ok.mp h
  simp only [Outcome.pure_eq, Except.ok.injEq] at hp
  rw [inodeGetByNumber, if_neg hn]
  simp only [hoff, Outcome.ok_bind, hp]

lemma alignTo_super (hlog : super.sLogBlockSize ≤ 6) :
    alignTo (bootSectorSize + sizeofSuperBlock) (superBlockSize super) =
      descriptorsStart super := by
  unfold descriptorsStart blocks2bytes superBlockSize
  generalize super.sLogBlockSize = k at hlog ⊢
  interval_cases k <;> decide

lemma le_descriptorsStart (hlog : super.sLogBlockSize ≤ 6) : 2048 ≤ descriptorsStart super := by
  unfold descriptorsStart blocks2bytes superBlockSize
  generalize super.sLogBlockSize = k at hlog ⊢
  interval_cases k <;> decide

lemma u32At_desc {pos size : ℕ} (h : 12 ≤ size) :
    u32At (readAt disk pos size) 8 = inodeTableLo disk pos := by
  rw [inodeTableLo, ← slice_readAt disk pos (by omega : 8 + 4 ≤ size), u32At_slice _ le_rfl]

def descriptorRead (super : Ext4SuperBlock) (g : ℕ) : ℕ :=
  descriptorsStart super + g * superGroupDescSize super % 2 ^ 32

def descriptorStored (super : Ext4SuperBlock) (g : ℕ) : ℕ :=
  descriptorsStart super + g * recordedDescSize super

lemma superGroupRead_eq (hlog : super.sLogBlockSize ≤ 6) :
    superGroupRead disk super g = .ok ⟨inodeTableLo disk (descriptorRead super g)⟩ := by
  have hsize : 12 ≤ superGroupDescSize super := by
    unfold superGroupDescSize groupDescMinSize sizeofGroupDesc
    split_ifs <;> decide
  simp only [superGroupRead, alignTo_super hlog, diskRead_eq (superGroupDescSize_lt super),
    Outcome.ok_bind, Outcome.pure_eq, u32At_desc hsize, descriptorRead]

lemma superGroupFillLoop_get {i k : ℕ} (hlog : super.sLogBlockSize ≤ 6)
    (h : superGroupFillLoop disk super n i = .ok table) (hk : k < n) :
    table[k]? = some ⟨inodeTableLo disk (descriptorRead super (i + k))⟩ := by
  induction n generalizing i k table with
  | zero => omega
  | succ n ih =>
    simp only [superGroupFillLoop, superGroupRead_eq hlog, Outcome.ok_bind] at h
    obtain ⟨rest, hrest, htable⟩ := Outcome.bind_eq_ok.mp h
    cases htable
    cases k with
    | zero => rfl
    | succ k =>
      rw [List.getElem?_cons_succ, ih hrest (by omega), Nat.add_right_comm, Nat.add_assoc]

lemma inodeOffset_eq (hlog : super.sLogBlockSize ≤ 6) (h : superGroupFill disk super = .ok table)
    (hipg : 0 < super.sInodesPerGroup)
    (hprod : super.sInodesPerGroup * super.sInodeSize < 2 ^ 32)
    (hg : (n - 1) / super.sInodesPerGroup < superNBlockGroups super) :
    inodeOffset ⟨disk, super, table⟩ n = .ok
      (inodeTableLo disk (descriptorRead super ((n - 1) / super.sInodesPerGroup)) *
        superBlockSize super + (n - 1) % super.sInodesPerGroup * super.sInodeSize) := by
  have hentry := superGroupFillLoop_get hlog h hg
  rw [Nat.zero_add] at hentry
  have hmod := Nat.mod_lt (n - 1) hipg
  have hsmall : (n - 1) % super.sInodesPerGroup * super.sInodeSize < 2 ^ 32 :=
    (Nat.mul_le_mul_right _ hmod.le).trans_lt hprod
  simp only [inodeOffset, superGroupInodeTableOffset, hg, hentry, Outcome.assertThat_true,
    Outcome.ok_bind, Outcome.pure_eq, blocks2bytes, Nat.mod_eq_of_lt hsmall]

lemma descriptorRead_eq_iff (hdesc : super.sDescSize = 0 ∨ 32 ≤ super.sDescSize) :
    descriptorRead super g = descriptorStored super g ↔
      g = 0 ∨ (super.sDescSize = 0 ∨ super.sDescSize = 64) ∧
        g * recordedDescSize super < 2 ^ 32 := by
  unfold descriptorRead descriptorStored superGroupDescSize recordedDescSize groupDescMinSize
    sizeofGroupDesc
  by_cases hzero : super.sDescSize = 0
  · simp only [hzero, if_true, true_or, true_and]
    omega
  have hge := hdesc.resolve_left hzero
  simp only [hzero, if_false, false_or]
  by_cases hsame : super.sDescSize = 64
  · simp only [hsame, true_and]
    omega
  have hlow : g * 32 ≤ g * super.sDescSize := Nat.mul_le_mul_left g hge
  constructor
  · -- a wrapped product is smaller than that of the least size
    intro h
    rcases Nat.lt_or_gt_of_ne hsame with hlt | hgt
    · have hhigh : g * super.sDescSize ≤ g * 63 := Nat.mul_le_mul_left g (by omega)
      omega
    · have hhigh : g * 65 ≤ g * super.sDescSize := Nat.mul_le_mul_left g (by omega)
      omega
  · rintro (rfl | ⟨h, -⟩)
    · simp
    · exact absurd h hsame

lemma superFill_congr {disk' : Disk} (h : ∀ a < 2048, disk' a = disk a) :
    superFill disk' = superFill disk := by
  have hbytes : readAt disk' bootSectorSize sizeofSuperBlock =
      readAt disk bootSectorSize sizeofSuperBlock := by
    apply readAt_congr
    intro i hi
    apply h
    unfold bootSectorSize sizeofSuperBlock at *
    omega
  unfold superFill diskRead
  rw [hbytes]

lemma inodeTableLo_eq (disk : Disk) (pos : ℕ) : inodeTableLo disk pos =
    (disk (pos + 8)).toNat + 256 * (disk (pos + 9)).toNat +
      65536 * ((disk (pos + 10)).toNat + 256 * (disk (pos + 11)).toNat) := by
  simp only [inodeTableLo, u32At, u16At, Nat.zero_add, Nat.reduceAdd]
  rw [getD_readAt _ _ (by decide), getD_readAt _ _ (by decide), getD_readAt _ _ (by decide),
    getD_readAt _ _ (by decide)]

lemma exists_disk {p q : ℕ} (hp : 2048 ≤ p) (hq : 2048 ≤ q) (hpq : q ≠ p) (disk : Disk) : ∃ disk',
    superFill disk' = superFill disk ∧ inodeTableLo disk' p = 1 ∧ inodeTableLo disk' q ≠ 1 := by
  obtain ⟨disk', hdisk'⟩ : ∃ disk' : Disk, ∀ a, disk' a =
      if a = p + 8 then 1 else if a < 2048 then disk a else 0 := ⟨_, fun _ => rfl⟩
  have hzero : ∀ a, 2048 ≤ a → a ≠ p + 8 → disk' a = 0 := by
    intro a ha hne
    rw [hdisk', if_neg hne, if_neg (by omega)]
  have hone : disk' (p + 8) = 1 := by rw [hdisk', if_pos rfl]
  refine ⟨disk', ?_, ?_, ?_⟩
  · apply superFill_congr
    intro a ha
    rw [hdisk', if_neg (by omega), if_pos ha]
  · rw [inodeTableLo_eq, hone, hzero (p + 9) (by omega) (by omega),
      hzero (p + 10) (by omega) (by omega), hzero (p + 11) (by omega) (by omega)]
    rfl
  · rw [inodeTableLo_eq, hzero (q + 8) (by omega) (by omega)]
    have hbyte : (0 : UInt8).toNat = 0 := rfl
    omega

/-- On every disk with a superblock, the inode is read from the table that its group's descriptor
names, exactly when it is in the first group, or the superblock records no descriptor size or 64
bytes and the product of the loop fits 32 bits. -/
theorem inodeGetByNumber_readsFrom_iff {disk₀ : Disk} (hsuper : superFill disk₀ = .ok super)
    (hlog : super.sLogBlockSize ≤ 6) (hdesc : super.sDescSize = 0 ∨ 32 ≤ super.sDescSize)
    (hipg : 0 < super.sInodesPerGroup)
    (hprod : super.sInodesPerGroup * super.sInodeSize < 2 ^ 32) (hn : 1 ≤ n)
    (hg : (n - 1) / super.sInodesPerGroup < superNBlockGroups super) :
    (∀ disk table, superFill disk = .ok super → superGroupFill disk super = .ok table →
      ReadsFrom ⟨disk, super, table⟩ n
        (inodeTableLo disk (descriptorStored super ((n - 1) / super.sInodesPerGroup)) *
          superBlockSize super + (n - 1) % super.sInodesPerGroup * super.sInodeSize)) ↔
      (n - 1) / super.sInodesPerGroup = 0 ∨ (super.sDescSize = 0 ∨ super.sDescSize = 64) ∧
        (n - 1) / super.sInodesPerGroup * recordedDescSize super < 2 ^ 32 := by
  rw [← descriptorRead_eq_iff hdesc]
  constructor
  · intro h
    by_contra hne
    have hstart := le_descriptorsStart hlog
    obtain ⟨disk, hfill, hp, hq⟩ := exists_disk (hstart.trans (Nat.le_add_right _ _))
      (hstart.trans (Nat.le_add_right _ _)) hne disk₀
    obtain ⟨table, htable, -⟩ := superGroupFillLoop_ok disk super (superNBlockGroups super) 0
    have hoff := ((readsFrom_iff (by omega)).mp (h disk table (hfill.trans hsuper) htable))
    rw [inodeOffset_eq hlog htable hipg hprod hg] at hoff
    have hbs := superBlockSize_pos (hlog.trans (by decide) : super.sLogBlockSize ≤ 21)
    have hmul := Nat.add_right_cancel (Except.ok.inj hoff)
    exact hq ((Nat.eq_of_mul_eq_mul_right hbs hmul).trans hp)
  · intro h disk table _ htable
    rw [readsFrom_iff (by omega), inodeOffset_eq hlog htable hipg hprod hg, h]

/-- A disk of two groups with 1 KiB blocks, whose inode tables begin at blocks 10 and 200. -/
def twoGroupDisk (descSize : UInt8) (a : ℕ) : UInt8 :=
  (([(1025, 0x0a), (1028, 0x01), (1029, 0x40), (1044, 1), (1057, 0x20), (1065, 5), (1113, 1),
    (1278, descSize), (2056, 10), (2056 + descSize.toNat, 200)] : List (ℕ × UInt8)).lookup a).getD 0

def twoGroups (descSize : ℕ) : Ext4SuperBlock := { fullLastGroup with sDescSize := descSize }

set_option maxRecDepth 100000 in
lemma twoGroupDisk_super : superFill (twoGroupDisk 32) = .ok (twoGroups 32) ∧
    superFill (twoGroupDisk 64) = .ok (twoGroups 64) := by
  constructor <;> rfl

/-- With descriptors of 32 bytes the first inode of the second group is read from byte 0. -/
theorem inodeGetByNumber_readsFrom_counterexample :
    superFill (twoGroupDisk 32) = .ok (twoGroups 32) ∧ ∃ table,
      superGroupFill (twoGroupDisk 32) (twoGroups 32) = .ok table ∧ 1 < table.length ∧
      inodeTableLo (twoGroupDisk 32) (descriptorStored (twoGroups 32) 1) = 200 ∧
      ReadsFrom ⟨twoGroupDisk 32, twoGroups 32, table⟩ 1281 0 ∧
      ¬ReadsFrom ⟨twoGroupDisk 32, twoGroups 32, table⟩ 1281 (200 * 1024) := by
  obtain ⟨table, htable, hlen⟩ := superGroupFillLoop_ok (twoGroupDisk 32) (twoGroups 32) 2 0
  have hoff : inodeOffset ⟨twoGroupDisk 32, twoGroups 32, table⟩ 1281 = .ok 0 :=
    inodeOffset_eq (by decide) htable (by decide) (by decide) (by decide)
  refine ⟨twoGroupDisk_super.1, table, htable, by omega, rfl, ?_, ?_⟩
  · exact (readsFrom_iff (by decide)).mpr hoff
  · rw [readsFrom_iff (by decide), hoff]
    simp

/-- With 64 bytes it is read from block 200. -/
theorem inodeGetByNumber_readsFrom_iff_wide : ∃ table,
    superGroupFill (twoGroupDisk 64) (twoGroups 64) = .ok table ∧
      ReadsFrom ⟨twoGroupDisk 64, twoGroups 64, table⟩ 1281 (200 * 1024) := by
  obtain ⟨table, htable, -⟩ := superGroupFillLoop_ok (twoGroupDisk 64) (twoGroups 64) 2 0
  refine ⟨table, htable, ?_⟩
  exact (inodeGetByNumber_readsFrom_iff twoGroupDisk_super.2 (by decide) (by decide) (by decide)
    (by decide) (by decide) (by decide)).mpr (by decide) _ table twoGroupDisk_super.2 htable

end Spotlight.Ext4
