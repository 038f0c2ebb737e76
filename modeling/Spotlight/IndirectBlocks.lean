import Spotlight.InodeMap
import Spotlight.PointerTree

/-! The block layout of ext2/3: direct pointers and the trees of single, double and triple
indirect blocks, and what `inode_get_data_pblock` makes of it. -/
namespace Spotlight.Ext4
open Bytes PointerTree

/-- Entry `i` of the table of pointers in block `b`. -/
def tableEntry (fs : Mount) (b i : ℕ) : ℕ :=
  u32At (readAt fs.disk (blocks2bytes fs.super b + i * 4) 4) 0

/-- The data pointers of a file in the order of its blocks. -/
def dataPointers (fs : Mount) (inode : Ext4Inode) : List ℕ :=
  (List.range ext4NdirBlocks).map inode.blockPointer ++
    leaves (addressesInIndBlock fs.super) (tableEntry fs) 1 (inode.blockPointer ext4IndBlock) ++
    leaves (addressesInIndBlock fs.super) (tableEntry fs) 2 (inode.blockPointer ext4DindBlock) ++
    leaves (addressesInIndBlock fs.super) (tableEntry fs) 3 (inode.blockPointer ext4TindBlock)

/-- Where a logical block lies: the depth of its tree, the root and the number of the leaf. -/
structure Place where
  depth : ℕ
  root : ℕ
  leaf : ℕ

def placeOf (super : Ext4SuperBlock) (inode : Ext4Inode) (lblock : ℕ) : Place :=
  if lblock < ext4NdirBlocks then ⟨0, inode.blockPointer lblock, 0⟩
  else if lblock < maxIndBlock super then
    ⟨1, inode.blockPointer ext4IndBlock, lblock - ext4NdirBlocks⟩
  else if lblock < maxDindBlock super then
    ⟨2, inode.blockPointer ext4DindBlock, lblock - maxIndBlock super⟩
  else ⟨3, inode.blockPointer ext4TindBlock, lblock - maxDindBlock super⟩

/-- The pointers that lead to the data of a logical block, up to the first null pointer. -/
def pointerPath (fs : Mount) (inode : Ext4Inode) (lblock : ℕ) : List ℕ :=
  let p := placeOf fs.super inode lblock
  path (addressesInIndBlock fs.super) (tableEntry fs) p.depth p.root p.leaf

def tablePath (fs : Mount) (inode : Ext4Inode) (lblock : ℕ) : List ℕ :=
  (pointerPath fs inode lblock).take (placeOf fs.super inode lblock).depth

variable {fs : Mount} {fuel : ℕ} {inode : Ext4Inode} {l : ℕ}

lemma diskReadU32_table (fs : Mount) (b i : ℕ) :
    diskReadU32 fs.disk (blocks2bytes fs.super b + i * 4) = .ok (tableEntry fs b i) := by
  rw [diskReadU32, diskRead_eq (by norm_num)]
  rfl

lemma inodeGetDataPblockInd_eq (hl : l < addressesInIndBlock fs.super) (b : ℕ) :
    inodeGetDataPblockInd fs l b =
      .ok (follow (addressesInIndBlock fs.super) (tableEntry fs) 1 b l) := by
  rw [inodeGetDataPblockInd, Outcome.assertThat_true hl, Outcome.ok_bind, diskReadU32_table]
  simp [follow]

lemma inodeGetDataPblockDind_eq (hl : l < addressesInDindBlock fs.super) (b : ℕ) :
    inodeGetDataPblockDind fs l b =
      .ok (follow (addressesInIndBlock fs.super) (tableEntry fs) 2 b l) := by
  have hpos : 0 < addressesInIndBlock fs.super :=
    Nat.pos_of_mul_pos_right (Nat.zero_lt_of_lt hl)
  rw [inodeGetDataPblockDind, Outcome.assertThat_true hl]
  simp only [Outcome.ok_bind, diskReadU32_table]
  rw [inodeGetDataPblockInd_eq (Nat.mod_lt l hpos)]
  simp [follow]

lemma inodeGetDataPblockTind_eq (hl : l < addressesInTindBlock fs.super) (b : ℕ) :
    inodeGetDataPblockTind fs l b =
      .ok (follow (addressesInIndBlock fs.super) (tableEntry fs) 3 b l) := by
  have hpos : 0 < addressesInDindBlock fs.super :=
    Nat.pos_of_mul_pos_right (Nat.zero_lt_of_lt hl)
  rw [inodeGetDataPblockTind, Outcome.assertThat_true hl]
  simp only [Outcome.ok_bind, diskReadU32_table]
  rw [inodeGetDataPblockDind_eq (Nat.mod_lt l hpos)]
  simp [follow, addressesInDindBlock, pow_two]

lemma addressesInDindBlock_eq (super : Ext4SuperBlock) :
    addressesInDindBlock super = addressesInIndBlock super ^ 2 := (pow_two _).symm

lemma addressesInTindBlock_eq (super : Ext4SuperBlock) :
    addressesInTindBlock super = addressesInIndBlock super ^ 3 := by
  rw [addressesInTindBlock, addressesInDindBlock_eq, ← pow_succ]

lemma placeOf_leaf_lt (inode : Ext4Inode) (hl : l < maxTindBlock fs.super) :
    (placeOf fs.super inode l).leaf <
      addressesInIndBlock fs.super ^ (placeOf fs.super inode l).depth := by
  unfold placeOf
  split_ifs with h₁ h₂ h₃
  · simp
  · rw [maxIndBlock] at h₂
    simp only [pow_one]
    omega
  · rw [maxDindBlock, addressesInDindBlock_eq] at h₃
    simp only
    omega
  · rw [maxTindBlock, addressesInTindBlock_eq] at hl
    simp only
    omega

lemma inodeGetDataPblock_follow (fs : Mount) (fuel : ℕ) (hflag : inode.iFlags &&& ext4ExtentsFl = 0)
    (hsize : l ≤ bytes2blocks fs.super (inodeGetSize inode)) (hl : l < maxTindBlock fs.super) :
    inodeGetDataPblock fs fuel inode l = .ok (follow (addressesInIndBlock fs.super)
      (tableEntry fs) (placeOf fs.super inode l).depth (placeOf fs.super inode l).root
      (placeOf fs.super inode l).leaf, 1) := by
  simp only [inodeGetDataPblock, hflag, ne_eq, not_true_eq_false, if_false,
    Outcome.assertThat_true hsize, Outcome.ok_bind, placeOf]
  split_ifs with h₁ h₂ h₃
  · rfl
  · have hind : l - ext4NdirBlocks < addressesInIndBlock fs.super := by
      rw [maxIndBlock] at h₂
      omega
    simp [inodeGetDataPblockInd_eq hind]
  · have hdind : l - maxIndBlock fs.super < addressesInDindBlock fs.super := by
      rw [maxDindBlock] at h₃
      omega
    simp [inodeGetDataPblockDind_eq hdind]
  · have htind : l - maxDindBlock fs.super < addressesInTindBlock fs.super := by
      rw [maxTindBlock] at hl
      omega
    simp [inodeGetDataPblockTind_eq htind]

lemma getElem?_dataPointers (hl : l < maxTindBlock fs.super) :
    (dataPointers fs inode)[l]? = (pointerPath fs inode l).getLast? := by
  have hleaf := placeOf_leaf_lt inode hl
  have hdind := addressesInDindBlock_eq fs.super
  unfold placeOf at hleaf
  unfold dataPointers pointerPath placeOf
  by_cases h₁ : l < ext4NdirBlocks
  · simp only [if_pos h₁]
    rw [List.append_assoc, List.append_assoc, List.getElem?_append_left (by simpa using h₁)]
    simp [path, h₁]
  simp only [if_neg h₁] at hleaf ⊢
  by_cases h₂ : l < maxIndBlock fs.super
  · simp only [if_pos h₂] at hleaf ⊢
    rw [← getElem?_leaves hleaf, List.append_assoc, List.append_assoc,
      List.getElem?_append_right (by simpa using h₁), List.length_map, List.length_range,
      List.getElem?_append_left (by simpa using hleaf)]
  simp only [if_neg h₂] at hleaf ⊢
  have hind : (List.map inode.blockPointer (List.range ext4NdirBlocks) ++
      leaves (addressesInIndBlock fs.super) (tableEntry fs) 1
        (inode.blockPointer ext4IndBlock)).length = maxIndBlock fs.super := by
    simp [maxIndBlock]
  by_cases h₃ : l < maxDindBlock fs.super
  · simp only [if_pos h₃] at hleaf ⊢
    rw [← getElem?_leaves hleaf, List.append_assoc,
      List.getElem?_append_right (by rw [hind]; omega), hind,
      List.getElem?_append_left (by simpa using hleaf)]
  · simp only [if_neg h₃] at hleaf ⊢
    have hdindLength : (List.map inode.blockPointer (List.range ext4NdirBlocks) ++
        leaves (addressesInIndBlock fs.super) (tableEntry fs) 1
          (inode.blockPointer ext4IndBlock) ++
        leaves (addressesInIndBlock fs.super) (tableEntry fs) 2
          (inode.blockPointer ext4DindBlock)).length = maxDindBlock fs.super := by
      rw [List.length_append, hind, length_leaves, maxDindBlock, hdind]
    rw [← getElem?_leaves hleaf, List.getElem?_append_right (by rw [hdindLength]; omega),
      hdindLength]

def SameTables (fs : Mount) (tables : List ℕ) (disk : Disk) : Prop :=
  ∀ b ∈ tables, b ≠ 0 → ∀ j < superBlockSize fs.super,
    disk (blocks2bytes fs.super b + j) = fs.disk (blocks2bytes fs.super b + j)

lemma entry_inside (super : Ext4SuperBlock) {i k : ℕ} (hi : i < addressesInIndBlock super)
    (hk : k < 4) : i * 4 + k < superBlockSize super := by
  unfold addressesInIndBlock at hi
  omega

lemma tableEntry_congr {disk : Disk} {b i : ℕ} (hi : i < addressesInIndBlock fs.super)
    (h : ∀ j < superBlockSize fs.super,
      disk (blocks2bytes fs.super b + j) = fs.disk (blocks2bytes fs.super b + j)) :
    tableEntry { fs with disk } b i = tableEntry fs b i := by
  unfold tableEntry
  congr 1
  apply readAt_congr
  intro k hk
  rw [Nat.add_assoc]
  exact h _ (entry_inside fs.super hi hk)

/-- A logical block with no null pointer on its path gets the pointer that the layout assigns to
it. The call looks at the tables on the path and at nothing else on the disk. -/
theorem inodeGetDataPblock_layout (hflag : inode.iFlags &&& ext4ExtentsFl = 0)
    (hmax : l < maxTindBlock fs.super)
    (hsize : l < bytes2blocks fs.super (inodeGetSize inode))
    (hpath : ∀ p ∈ pointerPath fs inode l, p ≠ 0) : ∃ p,
    (dataPointers fs inode)[l]? = some p ∧ inodeGetDataPblock fs fuel inode l = .ok (p, 1) ∧
      ∀ disk, SameTables fs (tablePath fs inode l) disk →
        inodeGetDataPblock { fs with disk } fuel inode l = .ok (p, 1) := by
  have hnull : 0 ∉ tablePath fs inode l := fun h => hpath 0 (List.mem_of_mem_take h) rfl
  have hleaf := placeOf_leaf_lt inode hmax
  refine ⟨_, ?_, inodeGetDataPblock_follow fs fuel hflag hsize.le hmax,
    fun disk hdisk => ?_⟩
  · rw [getElem?_dataPointers hmax, pointerPath, getLast?_path hnull]
  · have hsame := inodeGetDataPblock_follow { fs with disk } fuel hflag hsize.le hmax
    rw [hsame, follow_congr hleaf hnull fun t ht i hi =>
      tableEntry_congr hi (hdisk t ht (ne_of_mem_of_not_mem ht hnull))]

/-- A file with blocks of 1 KiB and the given indirect pointers on a disk full of one byte. -/
def filledMount (v : UInt8) : Mount := ⟨fun _ => v, ⟨16, 64, 1, 0, 8192, 16, 128, 0⟩, []⟩

def fileWith (ind tind : UInt8) : Ext4Inode :=
  ⟨0x81a4, 65805 * 1024, 0, List.replicate 48 0 ++ [ind, 0, 0, 0] ++ [0, 0, 0, 0] ++
    [tind, 0, 0, 0], 0⟩

theorem inodeGetDataPblock_layout_triple : ∃ p,
    (dataPointers (filledMount 7) (fileWith 0 5))[65804]? = some p ∧
      inodeGetDataPblock (filledMount 7) 0 (fileWith 0 5) 65804 = .ok (p, 1) ∧
      ∀ disk, SameTables (filledMount 7) (tablePath (filledMount 7) (fileWith 0 5) 65804) disk →
        inodeGetDataPblock { filledMount 7 with disk } 0 (fileWith 0 5) 65804 = .ok (p, 1) :=
  inodeGetDataPblock_layout (by decide) (by decide) (by decide) (by decide)

/-- The answer is a hole, whatever the rest of the disk holds. -/
def ReturnsHole (fs : Mount) (fuel : ℕ) (inode : Ext4Inode) (l : ℕ) : Prop :=
  ∀ disk, SameTables fs (tablePath fs inode l) disk →
    inodeGetDataPblock { fs with disk } fuel inode l = .ok (0, 1)

/-- A disk with the same tables and the byte `v` everywhere else, in block 0 too. -/
def fillDisk (fs : Mount) (tables : List ℕ) (v : UInt8) : Disk := fun a =>
  if a / superBlockSize fs.super ∈ tables ∧ a / superBlockSize fs.super ≠ 0 then fs.disk a else v

lemma blocks2bytes_div (super : Ext4SuperBlock) {b j : ℕ} (hj : j < superBlockSize super) :
    (blocks2bytes super b + j) / superBlockSize super = b := by
  rw [blocks2bytes, Nat.mul_comm, Nat.mul_add_div (Nat.zero_lt_of_lt hj), Nat.div_eq_of_lt hj,
    Nat.add_zero]

lemma fillDisk_sameTables (fs : Mount) (tables : List ℕ) (v : UInt8) :
    SameTables fs tables (fillDisk fs tables v) := by
  intro b hb h₀ j hj
  rw [fillDisk, blocks2bytes_div fs.super hj, if_pos ⟨hb, h₀⟩]

lemma tableEntry_fillDisk {tables : List ℕ} {b i : ℕ} (v : UInt8)
    (hi : i < addressesInIndBlock fs.super) (hb : b ∈ tables → b = 0) :
    tableEntry { fs with disk := fillDisk fs tables v } b i = v.toNat * 0x01010101 := by
  have hbytes : readAt (fillDisk fs tables v) (blocks2bytes fs.super b + i * 4) 4 =
      [v, v, v, v] := by
    have hcell : ∀ k < 4, fillDisk fs tables v (blocks2bytes fs.super b + i * 4 + k) = v := by
      intro k hk
      rw [fillDisk, Nat.add_assoc, blocks2bytes_div fs.super (entry_inside fs.super hi hk)]
      exact if_neg fun h => h.2 (hb h.1)
    apply List.map_congr_left (g := fun _ => v)
    intro k hk
    exact hcell k (List.mem_range.mp hk)
  rw [tableEntry, hbytes]
  simp only [u32At, u16At, List.getD_cons_zero, List.getD_cons_succ]
  omega

lemma exists_fill {tables : List ℕ} (h : tables.length ≤ 3) :
    ∃ v : UInt8, v ≠ 0 ∧ v.toNat * 0x01010101 ∉ tables := by
  by_contra hall
  push Not at hall
  have hsub : ([1, 2, 3, 4] : List UInt8).map (fun v => v.toNat * 0x01010101) ⊆ tables := by
    intro x hx
    obtain ⟨v, hv, rfl⟩ := List.mem_map.mp hx
    exact hall v (by rintro rfl; simp at hv)
  have hfour : 4 ≤ tables.length := (List.subperm_of_subset (by decide) hsub).length_le
  omega

lemma placeOf_depth_le (super : Ext4SuperBlock) (inode : Ext4Inode) (l : ℕ) :
    (placeOf super inode l).depth ≤ 3 := by
  unfold placeOf
  split_ifs <;> simp

/-- A logical block with a null pointer on its path is a hole for every disk with these tables
exactly when the null pointer is the one to the data. A null pointer to a table is followed
into block 0. -/
theorem inodeGetDataPblock_hole (hflag : inode.iFlags &&& ext4ExtentsFl = 0)
    (hmax : l < maxTindBlock fs.super)
    (hsize : l < bytes2blocks fs.super (inodeGetSize inode))
    (hhole : 0 ∈ pointerPath fs inode l) :
    ReturnsHole fs fuel inode l ↔ 0 ∉ tablePath fs inode l := by
  have hleaf := placeOf_leaf_lt inode hmax
  have hresult : ∀ disk, inodeGetDataPblock { fs with disk } fuel inode l =
      .ok (follow (addressesInIndBlock fs.super) (tableEntry { fs with disk })
        (placeOf fs.super inode l).depth (placeOf fs.super inode l).root
        (placeOf fs.super inode l).leaf, 1) := fun disk =>
    inodeGetDataPblock_follow { fs with disk } fuel hflag hsize.le hmax
  constructor
  · intro hret hnull
    have hlength : (tablePath fs inode l).length ≤ 3 :=
      (length_path_le _ _ _).trans (placeOf_depth_le _ _ _)
    obtain ⟨v, hv, hfree⟩ := exists_fill hlength
    have hdisk := hret _ (fillDisk_sameTables fs _ v)
    have hfollow : follow (addressesInIndBlock fs.super)
        (tableEntry { fs with disk := fillDisk fs (tablePath fs inode l) v })
        (placeOf fs.super inode l).depth (placeOf fs.super inode l).root
        (placeOf fs.super inode l).leaf = v.toNat * 0x01010101 := by
      apply follow_null hleaf hnull
      · intro t ht h₀ i hi
        exact tableEntry_congr hi (fillDisk_sameTables fs _ v t ht h₀)
      · intro i hi
        exact tableEntry_fillDisk v hi fun _ => rfl
      · intro i hi
        exact tableEntry_fillDisk v hi fun hm => absurd hm hfree
    rw [hresult, hfollow] at hdisk
    simp only [Except.ok.injEq, Prod.mk.injEq, and_true] at hdisk
    have hpos : v.toNat ≠ 0 := fun h => hv (UInt8.toNat_inj.mp h)
    omega
  · intro hnull disk hdisk
    have hlast := getLast?_path hnull
    rw [getLast?_of_null hhole, Option.some.injEq] at hlast
    rw [hresult, follow_congr hleaf hnull fun t ht i hi =>
      tableEntry_congr hi (hdisk t ht (ne_of_mem_of_not_mem ht hnull)), ← hlast]

theorem inodeGetDataPblock_hole_indirect :
    ReturnsHole (filledMount 0) 0 (fileWith 5 0) 12 ↔
      0 ∉ tablePath (filledMount 0) (fileWith 5 0) 12 :=
  inodeGetDataPblock_hole (by decide) (by decide) (by decide) (by decide)

/-- The single indirect pointer is null, and the pointer is taken from block 0. -/
theorem inodeGetDataPblock_hole_counterexample :
    0 ∈ pointerPath (filledMount 7) (fileWith 0 5) 12 ∧
      inodeGetDataPblock (filledMount 7) 0 (fileWith 0 5) 12 = .ok (0x07070707, 1) ∧
      ¬ReturnsHole (filledMount 7) 0 (fileWith 0 5) 12 := by
  refine ⟨by decide, by decide, fun h => ?_⟩
  have hself := h (filledMount 7).disk fun b hb h₀ j hj => rfl
  exact absurd hself (by decide)

end Spotlight.Ext4
