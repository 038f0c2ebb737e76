import Spotlight.OpRead
import Spotlight.PathCache

/-! The read in front of the first block boundary (`first_read`), for offsets of any size. -/
namespace Spotlight.Ext4
open Bytes ExtTree

/-- The read ends at the next block boundary, or before: nothing at a boundary, and else the bytes
of one physical block. -/
def ReadsToBoundary (fs : Mount) (fuel : ℕ) (inode : Ext4Inode) (size offset : ℕ) : Prop :=
  let bs := superBlockSize fs.super
  if offset % bs = 0 then firstRead fs fuel inode size offset = .ok []
  else ∃ p r, inodeGetDataPblock fs fuel inode (offset / bs % 2 ^ 32) = .ok (p, r) ∧
    firstRead fs fuel inode size offset =
      .ok (readAt fs.disk (blocks2bytes fs.super p + offset % bs) (min size (bs - offset % bs))) ∧
    offset % bs + min size (bs - offset % bs) ≤ bs

variable {fs : Mount} {fuel : ℕ} {inode : Ext4Inode} {size offset p r : ℕ}

/-- The boundary is found exactly when it is not needed or lies in the first 4 GiB: the mask of
`ALIGN_TO` has 32 bits. -/
theorem firstRead_boundary (hlog : fs.super.sLogBlockSize ≤ 6)
    (hoffset : offset ≤ 2 ^ 63 - 1 - 2 ^ 31) (hpos : 1 ≤ size) (hsize : size ≤ 2 ^ 31 - 1)
    (hp : offset % superBlockSize fs.super ≠ 0 →
      inodeGetDataPblock fs fuel inode (offset / superBlockSize fs.super % 2 ^ 32) = .ok (p, r)) :
    ReadsToBoundary fs fuel inode size offset ↔
      offset % superBlockSize fs.super = 0 ∨
        offset % superBlockSize fs.super + size ≤ superBlockSize fs.super ∨ offset < 2 ^ 32 := by
  rw [ReadsToBoundary]
  by_cases ho : offset % superBlockSize fs.super = 0
  · rw [if_pos ho, firstRead]
    dsimp only
    rw [if_neg (by omega), if_pos ho]
    exact ⟨fun _ => .inl ho, fun _ => rfl⟩
  have hlog : fs.super.sLogBlockSize ≤ 21 := by omega
  have hrun := firstRead_of_lookup hlog (show size < 2 ^ 31 by omega) (by omega) ho (by omega) (hp ho)
  have hmod := Nat.mod_lt offset (superBlockSize_pos hlog)
  rw [if_neg ho, or_iff_right ho, hrun, headLength, if_neg ho]
  constructor
  · rintro ⟨p', r', -, hok, -⟩
    by_contra hnot
    rw [if_neg hnot] at hok
    cases hok
  · intro hcond
    rw [if_pos hcond]
    exact ⟨p, r, hp ho, rfl, by omega⟩

/-- A read of 2000 bytes from offset 1 on. -/
theorem firstRead_boundary_small : ReadsToBoundary longNameMount 0 (longNameDir 9) 2000 1 := by
  obtain ⟨p, hp⟩ : ∃ p, inodeGetDataPblock longNameMount 0 (longNameDir 9) 0 = .ok (p, 1) :=
    inodeGetDataPblock_indirect (by simp [longNameDir]) (Nat.zero_le _) (by decide)
  have hblock : 1 / superBlockSize longNameMount.super % 2 ^ 32 = 0 := by decide
  exact (firstRead_boundary (by decide) (by decide) (by decide) (by decide)
    fun _ => hblock ▸ hp).mpr (by decide)

/-- A file of 4 GiB and 2 KiB in the image with the long name: inode 12, with one extent of two
blocks at its end. -/
def bigFilePieces : List (ℕ × List UInt8) := [
  (5504, [0xA4, 0x81, 0, 0, 0, 8]), (5538, [8]),
  (5544, [0x0A, 0xF3, 1, 0, 4, 0, 0, 0, 0, 0, 0, 0, 0, 0, 0x40, 0, 2, 0, 0, 0, 20]),
  (5612, [1])]

def bigFileDisk : Disk := fun i =>
  match bigFilePieces.find? fun piece => piece.1 ≤ i ∧ i < piece.1 + piece.2.length with
  | some piece => piece.2.getD (i - piece.1) 0
  | none => longNameDisk i

def bigFileMount : Mount where
  disk := bigFileDisk
  super := longNameMount.super
  gdescTable := longNameMount.gdescTable

def bigFile : Ext4Inode where
  iMode := 0x81A4
  iSizeLo := 2048
  iFlags := 0x80000
  iBlock := [0x0A, 0xF3, 1, 0, 4, 0, 0, 0, 0, 0, 0, 0, 0, 0, 0x40, 0, 2, 0, 0, 0, 20] ++
    List.replicate 39 0
  iSizeHigh := 1

set_option maxRecDepth 100000 in
/-- Two bytes that lie in both blocks are asked for, from offset `2 ^ 32 + 1023`. -/
theorem firstRead_boundary_counterexample :
    superFill bigFileDisk = .ok bigFileMount.super ∧
    superGroupFill bigFileDisk bigFileMount.super = .ok bigFileMount.gdescTable ∧
    inodeGetByNumber bigFileMount 12 = .ok (some bigFile) ∧
    inodeGetDataPblock bigFileMount 1 bigFile (2 ^ 22) = .ok (20, 2) ∧
    firstRead bigFileMount 1 bigFile 2 (2 ^ 32 + 1023) = .error .assertion ∧
    opRead bigFileMount 1 12 2 (2 ^ 32 + 1023) = .error .assertion ∧
    ¬ReadsToBoundary bigFileMount 1 bigFile 2 (2 ^ 32 + 1023) := by
  have hread : inodeGetByNumber bigFileMount 12 =
    .ok (some (parseInode (readAt bigFileDisk 5504 128))) := rfl
  have hinode : inodeGetByNumber bigFileMount 12 = .ok (some bigFile) := by
    rw [hread, show parseInode (readAt bigFileDisk 5504 128) = bigFile by decide]
  have hp : inodeGetDataPblock bigFileMount 1 bigFile (2 ^ 22) = .ok (20, 2) := by decide
  have hrun : firstRead bigFileMount 1 bigFile 2 (2 ^ 32 + 1023) = .error .assertion := by
    rw [firstRead_of_lookup (by decide) (by decide) (by decide) (by decide) (by decide) hp,
      if_neg (by decide)]
  refine ⟨by decide, by decide, hinode, hp, hrun, ?_, ?_⟩
  · rw [opRead, hinode, Outcome.ok_bind]
    dsimp only
    rw [show truncateSize bigFile 2 (2 ^ 32 + 1023) = 2 by decide, hrun]
    rfl
  · rw [ReadsToBoundary, if_neg (by decide), hrun]
    rintro ⟨p, r, -, hok, -⟩
    cases hok

end Spotlight.Ext4
