import Spotlight.IndirectBlocks
import Spotlight.ReadSlices

/-! Reads of a file one behind the other (`op_read.c`), as a program makes them that copies it. -/
namespace Spotlight.Ext4
open Bytes

/-- Reads of some sizes, each from where the one before it ended. -/
def readThrough (fs : Mount) (fuel fh : ℕ) : ℕ → List ℕ → Outcome (List UInt8)
  | _, [] => return []
  | o, size :: sizes => do
    let (ret, buf) ← opRead fs fuel fh size o
    let rest ← readThrough fs fuel fh (o + ret.toNat) sizes
    return buf ++ rest

/-- The offsets and lengths of these reads in a file of some size. -/
def pieces (fileSize : ℕ) : ℕ → List ℕ → List (ℕ × ℕ)
  | _, [] => []
  | o, size :: sizes =>
    let n := min size (fileSize - o)
    (o, n) :: pieces fileSize (o + n) sizes

/-- A piece begins at a block boundary or in a mapped block, or the disk's block 0 is zero where
it reads. -/
def SafePiece (fs : Mount) (fuel : ℕ) (inode : Ext4Inode) (piece : ℕ × ℕ) : Prop :=
  let bs := superBlockSize fs.super
  piece.1 % bs = 0 ∨ pblockOf fs fuel inode (piece.1 / bs) ≠ 0 ∨
    ∀ i < piece.2, piece.1 % bs + i < bs → fs.disk (piece.1 % bs + i) = 0

variable {fs : Mount} {fuel : ℕ} {inode : Ext4Inode} {fileSize : ℕ}

lemma pieces_sum (o : ℕ) (sizes : List ℕ) :
    ((pieces fileSize o sizes).map Prod.snd).sum = min sizes.sum (fileSize - o) := by
  induction sizes generalizing o with
  | nil => simp [pieces]
  | cons size sizes ih =>
    simp only [pieces, List.map_cons, List.sum_cons, ih]
    omega

lemma pieces_readAt (f : ℕ → UInt8) (o : ℕ) (sizes : List ℕ) :
    ((pieces fileSize o sizes).flatMap fun p => readAt f p.1 p.2) =
      readAt f o (min sizes.sum (fileSize - o)) := by
  induction sizes generalizing o with
  | nil => simp [pieces]
  | cons size sizes ih =>
    have hlen : min (size + sizes.sum) (fileSize - o) = min size (fileSize - o) +
        min sizes.sum (fileSize - (o + min size (fileSize - o))) := by omega
    simp only [pieces, List.flatMap_cons, ih, List.sum_cons, hlen, readAt_add]

lemma flatMap_readAt_inj {f : ℕ × ℕ → ℕ → UInt8} {g : ℕ → UInt8} {ps : List (ℕ × ℕ)} :
    (ps.flatMap fun p => readAt (f p) p.1 p.2) = (ps.flatMap fun p => readAt g p.1 p.2) ↔
      ∀ p ∈ ps, ∀ i < p.2, f p (p.1 + i) = g (p.1 + i) := by
  induction ps with
  | nil => simp
  | cons p ps ih =>
    rw [List.flatMap_cons, List.flatMap_cons, List.forall_mem_cons, ← ih, ← readAt_eq_iff]
    exact ⟨fun h => List.append_inj h (by simp), fun h => by rw [h.1, h.2]⟩

lemma safePiece_iff (hlog : fs.super.sLogBlockSize ≤ 21) (p : ℕ × ℕ) :
    SafePiece fs fuel inode p ↔ ∀ i < p.2, deliveredByte fs fuel inode p.1 (p.1 + i) =
      fileByte fs fuel inode (p.1 + i) := by
  simp only [deliveredByte_eq_fileByte_iff]
  exact (hole_start_iff (P := fun j => fs.disk j = 0) (superBlockSize_pos hlog)).symm

lemma readThrough_eq (hlog : fs.super.sLogBlockSize ≤ 21) (hmap : BlockMap fs fuel inode)
    (hS : inodeGetSize inode < 2 ^ 32) {fh : ℕ}
    (hinode : inodeGetByNumber fs fh = .ok (some inode)) {sizes : List ℕ}
    (hsizes : ∀ size ∈ sizes, size < 2 ^ 31) (o : ℕ) :
    readThrough fs fuel fh o sizes = .ok ((pieces (inodeGetSize inode) o sizes).flatMap fun p =>
      readAt (deliveredByte fs fuel inode p.1) p.1 p.2) := by
  induction sizes generalizing o with
  | nil => rfl
  | cons size sizes ih =>
    obtain ⟨hsize, hrest⟩ := List.forall_mem_cons.mp hsizes
    rw [readThrough, opRead_eq hlog hmap hS hinode hsize, Outcome.ok_bind]
    simp only [Int.toNat_natCast, ih hrest, Outcome.ok_bind, pieces, List.flatMap_cons]
    rfl

/-- Reads one behind the other, of any sizes, deliver as many bytes as the file has there, and
these are the file's own exactly when every piece is safe. -/
theorem readThrough_exact_iff (hlog : fs.super.sLogBlockSize ≤ 21) (hmap : BlockMap fs fuel inode)
    (hS : inodeGetSize inode < 2 ^ 32) {fh : ℕ}
    (hinode : inodeGetByNumber fs fh = .ok (some inode)) {sizes : List ℕ}
    (hsizes : ∀ size ∈ sizes, size < 2 ^ 31) (o : ℕ) :
    ∃ bytes, readThrough fs fuel fh o sizes = .ok bytes ∧
      bytes.length = min sizes.sum (inodeGetSize inode - o) ∧
      (bytes = readAt (fileByte fs fuel inode) o (min sizes.sum (inodeGetSize inode - o)) ↔
        ∀ p ∈ pieces (inodeGetSize inode) o sizes, SafePiece fs fuel inode p) := by
  refine ⟨_, readThrough_eq hlog hmap hS hinode hsizes o, ?_, ?_⟩
  · simp [List.length_flatMap, length_readAt, ← pieces_sum]
  · rw [← pieces_readAt, flatMap_readAt_inj]
    simp only [safePiece_iff hlog]

/-- The file of two blocks whose first one is a hole, in three reads from its front. The second
read begins in the hole, and the boot sector is not zero there. -/
theorem readThrough_exact_iff_sparse : ∃ bytes,
    readThrough sparseMount 0 1 0 [1, 2000, 100] = .ok bytes ∧ bytes.length = 2048 ∧
      bytes ≠ readAt (fileByte sparseMount 0 sparseInode) 0 2048 := by
  obtain ⟨bytes, hrun, hlength, hexact⟩ :=
    readThrough_exact_iff (show sparseMount.super.sLogBlockSize ≤ 21 by decide) blockMap_sparse
      (by decide) inodeGetByNumber_sparse (show ∀ size ∈ [1, 2000, 100], size < 2 ^ 31 by decide) 0
  have htotal : min [1, 2000, 100].sum (inodeGetSize sparseInode - 0) = 2048 := by
    simp [show inodeGetSize sparseInode = 2048 from rfl]
  rw [htotal] at hlength hexact
  refine ⟨bytes, hrun, hlength, fun heq => ?_⟩
  have hpiece : (1, 2000) ∈ pieces (inodeGetSize sparseInode) 0 [1, 2000, 100] := by
    simp [pieces, show inodeGetSize sparseInode = 2048 from rfl]
  rcases hexact.mp heq (1, 2000) hpiece with hstart | hmapped | hzero
  · exact absurd hstart (by decide)
  · exact hmapped (by decide)
  · exact absurd (hzero 0 (by decide) (by decide)) (by decide)

lemma pieces_aligned {bs : ℕ} {sizes : List ℕ} (hsizes : ∀ size ∈ sizes, bs ∣ size) {o : ℕ}
    (ho : bs ∣ o ∨ fileSize ≤ o) {p : ℕ × ℕ} (hp : p ∈ pieces fileSize o sizes) :
    bs ∣ p.1 ∨ p.2 = 0 := by
  induction sizes generalizing o with
  | nil => simp [pieces] at hp
  | cons size sizes ih =>
    obtain ⟨hsize, hrest⟩ := List.forall_mem_cons.mp hsizes
    rcases List.mem_cons.mp hp with rfl | hp
    · rcases ho with ho | ho
      · exact .inl ho
      · exact .inr (by simp [Nat.sub_eq_zero_of_le ho])
    · refine ih hrest ?_ hp
      rcases Nat.le_total (fileSize - o) size with hle | hle
      · exact .inr (by omega)
      · rw [Nat.min_eq_left hle]
        rcases ho with ho | ho
        · exact .inl (Nat.dvd_add ho hsize)
        · exact .inr (by omega)

lemma readThrough_content (hlog : fs.super.sLogBlockSize ≤ 21) (hmap : BlockMap fs fuel inode)
    (hS : inodeGetSize inode < 2 ^ 32) {fh : ℕ}
    (hinode : inodeGetByNumber fs fh = .ok (some inode)) {content : ℕ → UInt8}
    (hcontent : ∀ i < inodeGetSize inode, fileByte fs fuel inode i = content i) {o : ℕ}
    {sizes : List ℕ} (ho : superBlockSize fs.super ∣ o)
    (hsizes : ∀ size ∈ sizes, size < 2 ^ 31 ∧ superBlockSize fs.super ∣ size) :
    readThrough fs fuel fh o sizes =
      .ok (readAt content o (min sizes.sum (inodeGetSize inode - o))) := by
  rw [readThrough_eq hlog hmap hS hinode fun size hs => (hsizes size hs).1]
  congr 1
  have hfile : readAt content o (min sizes.sum (inodeGetSize inode - o)) =
      readAt (fileByte fs fuel inode) o (min sizes.sum (inodeGetSize inode - o)) :=
    readAt_eq_iff.mpr fun i hi => (hcontent _ (by omega)).symm
  rw [hfile, ← pieces_readAt, flatMap_readAt_inj]
  intro p hp
  rw [← safePiece_iff hlog]
  rcases pieces_aligned (fun size hs => (hsizes size hs).2) (.inl ho) hp with hp | hp
  · exact .inl (Nat.mod_eq_zero_of_dvd hp)
  · exact .inr (.inr fun i hi => by omega)

section Extents
open ExtTree
variable {d : ℕ} {t : ExtTree d}

instance (e : Ext4Extent) (lblock : ℕ) : Decidable (e.Covers lblock) :=
  inferInstanceAs (Decidable (_ ∧ _))

def treeByte (fs : Mount) (d : ℕ) (t : ExtTree d) (i : ℕ) : UInt8 :=
  let bs := superBlockSize fs.super
  match (extents d t).find? fun e => e.Covers (i / bs) with
  | some e => fs.disk ((e.eeStartLo + (i / bs - e.eeBlock)) * bs + i % bs)
  | none => 0

/-- The extents are initialised, end below block 2^32 and begin behind block 0, and a block of the
file that none of them covers lies behind the last one of its leaf. -/
structure Filled (fs : Mount) (d : ℕ) (t : ExtTree d) (inode : Ext4Inode) : Prop where
  flag : inode.iFlags &&& ext4ExtentsFl ≠ 0
  stored : Stored fs d t inode.iBlock
  wellFormed : WellFormed d t
  initialised : ∀ e ∈ extents d t, e.Initialised ∧ e.eeBlock + e.eeLen < 2 ^ 32 ∧ e.eeStartLo ≠ 0
  holes : ∀ l < bytes2blocks fs.super (inodeGetSize inode),
    (∃ e ∈ extents d t, e.Covers l) ∨
      ∃ es, leafFor d t l = some es ∧ ∀ e ∈ es, e.end32 ≤ l

lemma Filled.blockMap (h : Filled fs d t inode) (hf : d < fuel) : BlockMap fs fuel inode :=
  blockMap_of_extents h.flag h.stored h.wellFormed h.initialised h.holes hf

lemma Filled.pblockOf_covers (h : Filled fs d t inode) (hf : d < fuel) {e : Ext4Extent} {l : ℕ}
    (he : e ∈ extents d t) (hc : e.Covers l) :
    pblockOf fs fuel inode l = e.eeStartLo + (l - e.eeBlock) := by
  refine pblockOf_eq (r := e.eeBlock + e.eeLen - l) ?_
  rw [inodeGetDataPblock, if_pos h.flag, extentGetPblock_of_covers h.stored h.wellFormed
    (fun a ha => (h.initialised a ha).1) he (h.initialised e he).2.1 hc hf]
  rfl

lemma Filled.fileByte (h : Filled fs d t inode) (hf : d < fuel)
    (hlog : fs.super.sLogBlockSize ≤ 21) {i : ℕ} (hi : i < inodeGetSize inode) :
    fileByte fs fuel inode i = treeByte fs d t i := by
  have hl : i / superBlockSize fs.super < bytes2blocks fs.super (inodeGetSize inode) :=
    (lt_bytes2blocks_iff hlog).mpr ((Nat.div_mul_le_self _ _).trans_lt hi)
  rw [Ext4.fileByte, treeByte]
  cases hfind : (extents d t).find? fun e => e.Covers (i / superBlockSize fs.super) with
  | some e =>
    have he := List.mem_of_find?_eq_some hfind
    have hc : e.Covers (i / superBlockSize fs.super) := by simpa using List.find?_some hfind
    have hstart := (h.initialised e he).2.2
    rw [h.pblockOf_covers hf he hc]
    simp only [if_neg (show ¬e.eeStartLo + (i / superBlockSize fs.super - e.eeBlock) = 0 by omega)]
  | none =>
    have hnone : ∀ e ∈ extents d t, ¬e.Covers (i / superBlockSize fs.super) := by
      simpa using hfind
    obtain ⟨e, he, hc⟩ | ⟨es, hleaf, hbehind⟩ := h.holes _ hl
    · exact absurd hc (hnone e he)
    · have hhole : pblockOf fs fuel inode (i / superBlockSize fs.super) = 0 := by
        refine pblockOf_eq (r := 1) ?_
        rw [inodeGetDataPblock, if_pos h.flag,
          extentGetPblock_behind h.stored hleaf hbehind hf]
        rfl
      simp only [hhole, if_true]

/-- A file with an extent tree that fills it, read from a block boundary in pieces of whole blocks,
gives the bytes that the tree has there. -/
theorem readThrough_extents (h : Filled fs d t inode) (hf : d < fuel)
    (hlog : fs.super.sLogBlockSize ≤ 21) (hS : inodeGetSize inode < 2 ^ 32) {fh : ℕ}
    (hinode : inodeGetByNumber fs fh = .ok (some inode)) {o : ℕ} {sizes : List ℕ}
    (ho : superBlockSize fs.super ∣ o)
    (hsizes : ∀ size ∈ sizes, size < 2 ^ 31 ∧ superBlockSize fs.super ∣ size) :
    readThrough fs fuel fh o sizes =
      .ok (readAt (treeByte fs d t) o (min sizes.sum (inodeGetSize inode - o))) :=
  readThrough_content hlog (h.blockMap hf) hS hinode (fun _ hi => h.fileByte hf hlog hi) ho hsizes

/-- A file of 3000 bytes with an extent for its first two blocks. -/
def extentFileMount : Mount where
  disk := fun i =>
    match i with
    | 4100 => 0xB8
    | 4101 => 0x0B
    | 4130 => 8
    | 4136 => 0x0A
    | 4137 => 0xF3
    | 4138 => 1
    | 4140 => 4
    | 4152 => 2
    | 4156 => 9
    | 9221 => 7
    | _ => 0
  super := sparseMount.super
  gdescTable := sparseMount.gdescTable

def extentFileInode : Ext4Inode where
  iMode := 0
  iSizeLo := 3000
  iFlags := 0x80000
  iBlock := [0x0A, 0xF3, 1, 0, 4] ++ List.replicate 11 0 ++ [2, 0, 0, 0, 9] ++ List.replicate 39 0
  iSizeHigh := 0

lemma filled_extentFile : Filled extentFileMount 0 [⟨0, 2, 0, 9⟩] extentFileInode where
  flag := by decide
  stored := ⟨rfl, entries_cons.mpr ⟨rfl, fun j x hx => by simp at hx⟩, by decide⟩
  wellFormed := ⟨by simp, by decide⟩
  initialised := by
    unfold Ext4Extent.Initialised
    decide
  holes := by
    intro l hl
    have hblocks : bytes2blocks extentFileMount.super (inodeGetSize extentFileInode) = 3 := by
      decide
    rw [hblocks] at hl
    interval_cases l
    · exact .inl ⟨_, List.mem_singleton_self _, by decide⟩
    · exact .inl ⟨_, List.mem_singleton_self _, by decide⟩
    · exact .inr ⟨_, rfl, by decide⟩

set_option maxRecDepth 100000 in
/-- This file in pieces of one and two blocks. -/
theorem readThrough_extents_file : readThrough extentFileMount 1 1 0 [1024, 2048, 1024] =
    .ok (readAt (treeByte extentFileMount 0 [⟨0, 2, 0, 9⟩]) 0
      (min [1024, 2048, 1024].sum (inodeGetSize extentFileInode - 0))) := by
  have hinode : inodeGetByNumber extentFileMount 1 = .ok (some extentFileInode) := by decide
  exact readThrough_extents filled_extentFile (by decide) (by decide) (by decide) hinode
    (by decide) (by decide)

end Extents

/-! The same for a file with block pointers. -/

def pointerByte (fs : Mount) (inode : Ext4Inode) (i : ℕ) : UInt8 :=
  let bs := superBlockSize fs.super
  match (dataPointers fs inode)[i / bs]? with
  | some (p + 1) => fs.disk ((p + 1) * bs + i % bs)
  | _ => 0

lemma bytes2blocks_le_maxTindBlock (hlog : fs.super.sLogBlockSize ≤ 21)
    (hS : inodeGetSize inode < 2 ^ 32) :
    bytes2blocks fs.super (inodeGetSize inode) ≤ maxTindBlock fs.super := by
  by_contra hlt
  have hend := (lt_bytes2blocks_iff hlog).mp (not_le.mp hlt)
  have hsize : 1024 ≤ superBlockSize fs.super := by
    rw [superBlockSize_eq hlog, pow_add]
    exact Nat.le_mul_of_pos_left _ (by positivity)
  have hentries : 256 ≤ addressesInIndBlock fs.super := by
    rw [addressesInIndBlock]
    omega
  have hblocks : 256 ^ 3 ≤ maxTindBlock fs.super := by
    have hpow := Nat.pow_le_pow_left hentries 3
    rw [← addressesInTindBlock_eq] at hpow
    exact hpow.trans (Nat.le_add_left _ _)
  have hbytes := Nat.mul_le_mul hblocks hsize
  omega

lemma pblockOf_pointer (fuel : ℕ) (hflag : inode.iFlags &&& ext4ExtentsFl = 0) {l : ℕ}
    (hmax : l < maxTindBlock fs.super) (hsize : l ≤ bytes2blocks fs.super (inodeGetSize inode))
    (htables : 0 ∉ tablePath fs inode l) :
    (dataPointers fs inode)[l]? = some (pblockOf fs fuel inode l) := by
  rw [getElem?_dataPointers hmax, pointerPath, PointerTree.getLast?_path htables,
    pblockOf_eq (inodeGetDataPblock_follow fs fuel hflag hsize hmax)]

/-- A file with block pointers, none of whose indirect blocks is missing, read from a block
boundary in pieces of whole blocks, gives the bytes that the pointers lead to, in their order. -/
theorem readThrough_pointers (hflag : inode.iFlags &&& ext4ExtentsFl = 0)
    (htables : ∀ l < bytes2blocks fs.super (inodeGetSize inode), 0 ∉ tablePath fs inode l)
    (hlog : fs.super.sLogBlockSize ≤ 21) (hS : inodeGetSize inode < 2 ^ 32) {fh : ℕ}
    (hinode : inodeGetByNumber fs fh = .ok (some inode)) {o : ℕ} {sizes : List ℕ}
    (ho : superBlockSize fs.super ∣ o)
    (hsizes : ∀ size ∈ sizes, size < 2 ^ 31 ∧ superBlockSize fs.super ∣ size) :
    readThrough fs fuel fh o sizes =
      .ok (readAt (pointerByte fs inode) o (min sizes.sum (inodeGetSize inode - o))) := by
  have hmax := bytes2blocks_le_maxTindBlock hlog hS
  refine readThrough_content hlog (blockMap_of_indirect hflag hmax) hS hinode (fun i hi => ?_)
    ho hsizes
  have hl : i / superBlockSize fs.super < bytes2blocks fs.super (inodeGetSize inode) :=
    (lt_bytes2blocks_iff hlog).mpr ((Nat.div_mul_le_self _ _).trans_lt hi)
  have hpointer := pblockOf_pointer fuel hflag (hl.trans_le hmax) hl.le (htables _ hl)
  rw [fileByte, pointerByte, hpointer]
  cases pblockOf fs fuel inode (i / superBlockSize fs.super) with
  | zero => rfl
  | succ p => rfl

/-- A file of 14 blocks and a byte: block 20, then a table of pointers in block 21 whose second
one leads to block 22. -/
def pointerFileMount : Mount where
  disk := fun i =>
    match i with
    | 4100 => 1
    | 4101 => 0x38
    | 4136 => 20
    | 4184 => 21
    | 20480 => 5
    | 21508 => 22
    | 22528 => 7
    | _ => 0
  super := sparseMount.super
  gdescTable := sparseMount.gdescTable

def pointerFileInode : Ext4Inode where
  iMode := 0
  iSizeLo := 14337
  iFlags := 0
  iBlock := 20 :: List.replicate 47 0 ++ 21 :: List.replicate 11 0
  iSizeHigh := 0

set_option maxRecDepth 100000 in
/-- This file in pieces of eight blocks. -/
theorem readThrough_pointers_file : readThrough pointerFileMount 0 1 0 [8192, 8192] =
    .ok (readAt (pointerByte pointerFileMount pointerFileInode) 0
      (min [8192, 8192].sum (inodeGetSize pointerFileInode - 0))) := by
  have hinode : inodeGetByNumber pointerFileMount 1 = .ok (some pointerFileInode) := by decide
  have hblocks : bytes2blocks pointerFileMount.super (inodeGetSize pointerFileInode) = 15 := by
    decide
  have htables : ∀ l < 15, 0 ∉ tablePath pointerFileMount pointerFileInode l := by decide
  exact readThrough_pointers (by decide) (hblocks ▸ htables) (by decide) (by decide) hinode
    (by decide) (by decide)

end Spotlight.Ext4
