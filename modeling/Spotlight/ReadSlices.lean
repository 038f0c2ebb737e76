import Spotlight.OpRead

/-! What `op_read` delivers for a whole request, and when two adjacent requests deliver
the same bytes as one. -/
namespace Spotlight.Ext4
open Bytes

theorem truncateSize_eq {inode : Ext4Inode} {size o : ℕ} (hS : inodeGetSize inode < 2 ^ 32)
    (hsize : size < 2 ^ 32) : truncateSize inode size o = min size (inodeGetSize inode - o) := by
  simp only [truncateSize]
  split_ifs <;> omega

theorem toInt32_eq {n : ℕ} (h : n < 2 ^ 31) : toInt32 n = n := by
  have hmod : n % 2 ^ 32 = n := Nat.mod_eq_of_lt (by omega)
  rw [toInt32, hmod, if_pos h]

theorem headLength_le (bs size o : ℕ) : headLength bs size o ≤ size := by
  unfold headLength
  split_ifs <;> omega

theorem headLength_aligned {bs : ℕ} (hpos : 0 < bs) (size o : ℕ) :
    headLength bs size o = size ∨ (o + headLength bs size o) % bs = 0 := by
  have hdiv := Nat.div_add_mod o bs
  have hmod := Nat.mod_lt o hpos
  unfold headLength
  split_ifs with ho
  · exact Or.inr ho
  · rcases Nat.le_total size (bs - o % bs) with hle | hle
    · exact Or.inl (Nat.min_eq_left hle)
    · right
      have hnext : o + (bs - o % bs) = bs * (o / bs + 1) := by
        rw [Nat.mul_add]
        omega
      rw [Nat.min_eq_right hle, hnext, Nat.mul_mod_right]

theorem hole_start_iff {bs q b : ℕ} (hpos : 0 < bs) {hole : Prop} {P : ℕ → Prop} :
    (∀ i < b, q % bs ≠ 0 → (q + i) / bs = q / bs → hole → P ((q + i) % bs)) ↔
      (q % bs = 0 ∨ ¬hole ∨ ∀ i < b, q % bs + i < bs → P (q % bs + i)) := by
  have hblock : ∀ i, (q + i) / bs = q / bs ↔ q % bs + i < bs := by
    intro i
    refine ⟨fun h => ?_, fun h => (block_of_add h).1⟩
    have hdiv := Nat.div_add_mod q bs
    have hdiv' := Nat.div_add_mod (q + i) bs
    have hmod' := Nat.mod_lt (q + i) hpos
    rw [h] at hdiv'
    omega
  constructor
  · intro h
    by_cases hq : q % bs = 0
    · exact Or.inl hq
    by_cases hh : hole
    · refine Or.inr (Or.inr fun i hi hlt => ?_)
      have := h i hi hq ((hblock i).mpr hlt) hh
      rwa [(block_of_add hlt).2] at this
    · exact Or.inr (Or.inl hh)
  · intro h i hi hq hsame hh
    have hlt := (hblock i).mp hsame
    rw [(block_of_add hlt).2]
    exact (h.resolve_left hq).resolve_left (not_not_intro hh) i hi hlt

section
variable {fs : Mount} {fuel : ℕ} {inode : Ext4Inode}

theorem opReadLoop_head (hlog : fs.super.sLogBlockSize ≤ 21) (hmap : BlockMap fs fuel inode)
    (hS : inodeGetSize inode < 2 ^ 32) {n o : ℕ} (hn : n < 2 ^ 31)
    (hend : n = 0 ∨ o + n ≤ inodeGetSize inode) {h : ℕ}
    (hh : h = headLength (superBlockSize fs.super) n o) :
    opReadLoop fs fuel inode n n ((o + h) / superBlockSize fs.super % 2 ^ 32)
        (readAt (deliveredByte fs fuel inode o) o h) =
      .ok (readAt (deliveredByte fs fuel inode o) o n) := by
  have hlen : h ≤ n := hh ▸ headLength_le _ _ _
  by_cases hdone : h = n
  · subst hdone
    exact opReadLoop_done (by rw [length_readAt])
  have hlt : h < n := lt_of_le_of_ne hlen hdone
  have hend := hend.resolve_left (by omega)
  have hal : (o + h) % superBlockSize fs.super = 0 := by
    subst hh
    exact (headLength_aligned (superBlockSize_pos hlog) n o).resolve_left hdone
  have hblock := Nat.div_add_mod (o + h) (superBlockSize fs.super)
  have hle := Nat.div_le_self (o + h) (superBlockSize fs.super)
  have hfit : (o + h) / superBlockSize fs.super < 2 ^ 32 := by omega
  have hat : (o + h) / superBlockSize fs.super * superBlockSize fs.super = o + h := by
    rw [Nat.mul_comm]
    omega
  have htail : readAt (fileByte fs fuel inode) (o + h) (n - h) =
      readAt (deliveredByte fs fuel inode o) (o + h) (n - h) := by
    apply readAt_congr
    intro i _
    rw [Nat.add_assoc]
    refine (deliveredByte_tail hlog ?_).symm
    by_cases ho : o % superBlockSize fs.super = 0
    · exact Or.inl ho
    · rw [headLength, if_neg ho] at hh
      exact Or.inr (by omega)
  rw [Nat.mod_eq_of_lt hfit, opReadLoop_eq hlog hmap hS n]
  · rw [hat, length_readAt, htail, ← readAt_add, Nat.add_sub_cancel' hlen]
  · exact Nat.sub_le _ _
  · exact (Nat.sub_le _ _).trans_lt hn
  · right
    rw [hat, length_readAt]
    omega

/-- An unaligned start in a hole is the one case in which `op_read` delivers other bytes
than the file's. -/
theorem deliveredByte_eq_fileByte_iff {o i : ℕ} :
    deliveredByte fs fuel inode o i = fileByte fs fuel inode i ↔
      (o % superBlockSize fs.super ≠ 0 → i / superBlockSize fs.super = o / superBlockSize fs.super →
        pblockOf fs fuel inode (o / superBlockSize fs.super) = 0 →
        fs.disk (i % superBlockSize fs.super) = 0) := by
  simp only [deliveredByte]
  split_ifs with h
  · obtain ⟨ho, hi⟩ := h
    simp only [fileByte, hi]
    split_ifs with hp <;> simp [ho, hp]
  · simp only [true_iff]
    intro ho hi
    exact absurd ⟨ho, hi⟩ h

/-- What `op_read` delivers, for every offset and every request below 2^31 bytes. -/
theorem opRead_eq (hlog : fs.super.sLogBlockSize ≤ 21) (hmap : BlockMap fs fuel inode)
    (hS : inodeGetSize inode < 2 ^ 32) {fh : ℕ}
    (hinode : inodeGetByNumber fs fh = .ok (some inode)) {size : ℕ} (hsize : size < 2 ^ 31)
    (o : ℕ) : opRead fs fuel fh size o =
      .ok ((min size (inodeGetSize inode - o) : ℕ), readAt (deliveredByte fs fuel inode o) o
        (min size (inodeGetSize inode - o))) := by
  have htr := truncateSize_eq (o := o) hS (hsize.trans (by norm_num))
  obtain ⟨n, hn⟩ : ∃ n, n = min size (inodeGetSize inode - o) := ⟨_, rfl⟩
  have hn31 : n < 2 ^ 31 := by omega
  have hend : n = 0 ∨ o + n ≤ inodeGetSize inode := by omega
  have hhead := firstRead_eq hlog hmap hS hn31 hend
  have hloop := opReadLoop_head hlog hmap hS hn31 hend rfl
  rw [opRead, hinode, Outcome.ok_bind]
  simp only [htr, ← hn, hhead, Outcome.ok_bind, length_readAt, hloop,
    Outcome.assertThat_true, Outcome.pure_eq, toInt32_eq hn31]

/-- From a block boundary, or from inside a mapped block, `op_read` delivers the file's own
bytes up to the end of the request or of the file. -/
theorem opRead_slice (hlog : fs.super.sLogBlockSize ≤ 21) (hmap : BlockMap fs fuel inode)
    (hS : inodeGetSize inode < 2 ^ 32) {fh : ℕ}
    (hinode : inodeGetByNumber fs fh = .ok (some inode)) {size : ℕ} (hsize : size < 2 ^ 31)
    {o : ℕ} (hstart : pblockOf fs fuel inode (o / superBlockSize fs.super) ≠ 0 ∨
      o % superBlockSize fs.super = 0) :
    opRead fs fuel fh size o = .ok ((min size (inodeGetSize inode - o) : ℕ),
      readAt (fileByte fs fuel inode) o (min size (inodeGetSize inode - o))) := by
  have hbyte : deliveredByte fs fuel inode o = fileByte fs fuel inode := by
    funext i
    rw [deliveredByte_eq_fileByte_iff]
    tauto
  rw [opRead_eq hlog hmap hS hinode hsize, hbyte]

end

/-- A 64 KiB image of 1 KiB blocks whose inode 1 has two blocks: a hole and block 9. The boot
sector is not empty. -/
def sparseDisk : Disk := fun i =>
  match i with
  | 0 => 0xEB
  | 1 => 0x3C
  | 1024 => 16
  | 1028 => 64
  | 1044 => 1
  | 1057 => 32
  | 1064 => 16
  | 1112 => 128
  | 2056 => 4
  | 4101 => 8
  | 4140 => 9
  | 9221 => 7
  | _ => 0

def sparseMount : Mount where
  disk := sparseDisk
  super := ⟨16, 64, 1, 0, 8192, 16, 128, 0⟩
  gdescTable := [⟨4⟩]

def sparseInode : Ext4Inode where
  iMode := 0
  iSizeLo := 2048
  iFlags := 0
  iBlock := List.replicate 4 0 ++ [9] ++ List.replicate 55 0
  iSizeHigh := 0

set_option maxRecDepth 100000 in
theorem inodeGetByNumber_sparse : inodeGetByNumber sparseMount 1 = .ok (some sparseInode) := by
  decide

theorem blockMap_sparse : BlockMap sparseMount 0 sparseInode :=
  blockMap_of_indirect (by decide) (by decide)

set_option maxRecDepth 100000 in
theorem opRead_slice_mapped : opRead sparseMount 0 1 3 1029 = .ok (3, [7, 0, 0]) := by
  have hslice := opRead_slice (show sparseMount.super.sLogBlockSize ≤ 21 by decide)
    blockMap_sparse (by decide) inodeGetByNumber_sparse (show 3 < 2 ^ 31 by decide) (o := 1029)
    (Or.inl (by decide))
  rw [hslice]
  decide +kernel

end Spotlight.Ext4
