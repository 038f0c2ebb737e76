import Spotlight.Readdir

/-! Reading a symbolic link (`op_readlink.c`) into the caller's buffer. -/
namespace Spotlight.Ext4
open Bytes

/-- Bytes stored in a buffer from index `o` on, which must all lie in it. -/
def storeAt (buf : List UInt8) (o : ℕ) (bytes : List UInt8) : Outcome (List UInt8) :=
  if o + bytes.length ≤ buf.length then
    .ok (buf.take o ++ bytes ++ buf.drop (o + bytes.length))
  else .error .bounds

/-- What `strncpy` stores: `n` bytes, padded with NULs. Without a NUL in `src` all of them are read
from it. -/
def strncpy (src : List UInt8) (n : ℕ) : Outcome (List UInt8) :=
  if 0 ∈ src ∨ n ≤ src.length then
    .ok (cString (src.take n) ++ List.replicate (n - (cString (src.take n)).length) 0)
  else .error .bounds

/-- What `strncpy` stores when `memory` stands behind `src`: without a NUL in `src` it goes on
there. -/
def strncpyOver (memory : ℕ → UInt8) (src : List UInt8) (n : ℕ) : Outcome (List UInt8) :=
  strncpy (src ++ (List.range (n - src.length)).map memory) n

def sIsLnk (mode : ℕ) : Prop := mode &&& 0xF000 = 0xA000

instance (mode : ℕ) : Decidable (sIsLnk mode) := inferInstanceAs (Decidable (_ = _))

def einval : ℤ := 22

/-- `get_link_dest` on a buffer of `bufsize` bytes, where `copy` is the `strncpy`. -/
def getLinkDest (copy : List UInt8 → ℕ → Outcome (List UInt8)) (fs : Mount) (fuel : ℕ)
    (inode : Ext4Inode) (buf : List UInt8) (bufsize : ℕ) : Outcome (ℤ × List UInt8) := do
  let inodeSize := inodeGetSize inode
  let buf ←
    if inodeSize ≤ 60 then storeAt buf 0 (slice inode.iBlock 0 inodeSize)
    else do
      let (pblock, _) ← inodeGetDataPblock fs fuel inode 0
      let blockData ← diskRead fs.disk (blocks2bytes fs.super pblock) (superBlockSize fs.super)
      storeAt buf 0 (← copy blockData ((bufsize + 2 ^ 64 - 1) % 2 ^ 64))
  let buf ← storeAt buf inodeSize [0]
  return (toInt32 (inodeSize + 1), buf)

/-- The value returned, and the buffer, which has `bufsize` bytes. The value that
`inode_get_by_path` returns is not looked at: without an inode the structure holds nothing. -/
def opReadlinkBy (copy : List UInt8 → ℕ → Outcome (List UInt8)) (fs : Mount) (fuel : ℕ)
    (d : Dcache) (path buf : List UInt8) (bufsize : ℕ) : Outcome (Dcache × ℤ × List UInt8) := do
  let (d, found) ← inodeGetByPath fs fuel d path
  let inode ← deref found
  if ¬sIsLnk inode.iMode then return (d, -einval, buf)
  else do
    let (_, buf) ← getLinkDest copy fs fuel inode buf bufsize
    return (d, 0, buf)

/-- `op_readlink`, which stops where `strncpy` reads behind the block. -/
def opReadlink (fs : Mount) (fuel : ℕ) (d : Dcache) (path buf : List UInt8) (bufsize : ℕ) :
    Outcome (Dcache × ℤ × List UInt8) := opReadlinkBy strncpy fs fuel d path buf bufsize

def linkBlock (fs : Mount) (fuel : ℕ) (inode : Ext4Inode) : List UInt8 :=
  dataBlock fs fuel inode 0

/-- The target is stored in the inode when it has less than 60 bytes, and else in the first data
block, whose place is known. -/
structure StoredLink (fs : Mount) (fuel : ℕ) (inode : Ext4Inode) (target : List UInt8) : Prop where
  size : inodeGetSize inode = target.length
  inline : target.length < 60 → slice inode.iBlock 0 target.length = target
  mapped : 60 ≤ target.length → ∃ p r, inodeGetDataPblock fs fuel inode 0 = .ok (p, r)
  block : 60 ≤ target.length → (linkBlock fs fuel inode).take target.length = target

/-- The buffer begins with the target and a NUL, and nothing else has happened. -/
def LeavesTarget (fs : Mount) (fuel : ℕ) (d d' : Dcache) (path buf target : List UInt8) : Prop :=
  ∃ buf', opReadlink fs fuel d path buf buf.length = .ok (d', 0, buf') ∧
    buf'.take (target.length + 1) = target ++ [0]

variable {fs : Mount} {fuel n o p r : ℕ} {inode : Ext4Inode} {d d' : Dcache}
  {buf bytes src path target : List UInt8} {copy : List UInt8 → ℕ → Outcome (List UInt8)}

lemma storeAt_ok (h : o + bytes.length ≤ buf.length) :
    storeAt buf o bytes = .ok (buf.take o ++ bytes ++ buf.drop (o + bytes.length)) := if_pos h

lemma storeAt_bounds (h : ¬o + bytes.length ≤ buf.length) : storeAt buf o bytes = .error .bounds :=
  if_neg h

lemma length_strncpy (h : strncpy src n = .ok bytes) : bytes.length = n := by
  rw [strncpy] at h
  split_ifs at h
  have hle : (cString (src.take n)).length ≤ n :=
    ((List.takeWhile_prefix _).length_le.trans (List.length_take_le n src))
  rw [← Except.ok.inj h, List.length_append, List.length_replicate]
  omega

lemma cString_take_append (hcond : 0 ∈ src ∨ n ≤ src.length) (rest : List UInt8) :
    cString ((src ++ rest).take n) = cString (src.take n) := by
  by_cases hle : n ≤ src.length
  · rw [List.take_append_of_le_length hle]
  · have hnul := hcond.resolve_right hle
    have hshort : (src.takeWhile (· ≠ 0)).length ≠ src.length := by
      intro hall
      have heq := (List.takeWhile_prefix _).eq_of_length hall
      have hmem := hnul
      rw [← heq] at hmem
      simpa using List.mem_takeWhile_imp hmem
    rw [List.take_append, List.take_of_length_le (by omega), cString, cString,
      List.takeWhile_append, if_neg hshort]

/-- A copy that stays in `src` does not depend on what stands behind it. -/
lemma strncpyOver_eq (h : strncpy src n = .ok bytes) (memory : ℕ → UInt8) :
    strncpyOver memory src n = .ok bytes := by
  have hcond : 0 ∈ src ∨ n ≤ src.length := by
    by_contra hnot
    rw [strncpy, if_neg hnot] at h
    cases h
  rw [strncpyOver, strncpy, if_pos (Or.inr (by simp; omega)), cString_take_append hcond, ← h,
    strncpy, if_pos hcond]

lemma take_strncpy (h : strncpy src n = .ok bytes) (htake : src.take target.length = target)
    (hnul : 0 ∉ target) (hlen : target.length ≤ n) : bytes.take target.length = target := by
  rw [strncpy] at h
  split_ifs at h
  have hbegins : target <+: cString (src.take n) := by
    have hsrc : target <+: src.take n := by
      rw [← htake]
      exact List.take_prefix_take_left hlen
    obtain ⟨rest, hrest⟩ := hsrc
    rw [← hrest, cString, List.takeWhile_append_of_pos]
    · exact List.prefix_append _ _
    · intro c hc
      rw [decide_eq_true_eq]
      rintro rfl
      exact hnul hc
  rw [← Except.ok.inj h]
  exact (List.prefix_iff_eq_take.mp (hbegins.trans (List.prefix_append _ _))).symm

lemma length_iBlock (h : inodeGetByNumber fs n = .ok (some inode)) : inode.iBlock.length = 60 := by
  rw [inodeGetByNumber] at h
  split_ifs at h with hzero
  · cases h
  · obtain ⟨off, -, h⟩ := Outcome.bind_eq_ok.mp h
    obtain ⟨bytes, -, h⟩ := Outcome.bind_eq_ok.mp h
    rw [← Option.some.inj (Except.ok.inj h), parseInode, List.length_map, List.length_range]

lemma length_iBlock_of_path (h : inodeGetByPath fs fuel d path = .ok (d', some inode)) :
    inode.iBlock.length = 60 := by
  obtain ⟨⟨d₁, number⟩, -, h⟩ := Outcome.bind_eq_ok.mp h
  obtain ⟨found, hnumber, h⟩ := Outcome.bind_eq_ok.mp h
  obtain ⟨-, rfl⟩ := Prod.mk.inj (Except.ok.inj h)
  exact length_iBlock hnumber

/-- Text at the beginning of a buffer, cut off by a NUL at index `n`. -/
def storeText (buf bytes : List UInt8) (n : ℕ) : Outcome (List UInt8) := do
  let buf ← storeAt buf 0 bytes
  storeAt buf n [0]

lemma length_storeAt {buf' : List UInt8} (h : storeAt buf o bytes = .ok buf') :
    buf'.length = buf.length := by
  by_cases hfit : o + bytes.length ≤ buf.length
  · rw [storeAt_ok hfit] at h
    rw [← Except.ok.inj h]
    simp
    omega
  · rw [storeAt_bounds hfit] at h
    cases h

lemma storeText_ok (hn : n ≤ bytes.length) (hle : bytes.length ≤ buf.length)
    (h : n < buf.length) : ∃ buf', storeText buf bytes n = .ok buf' ∧
      buf'.take (n + 1) = bytes.take n ++ [0] := by
  have hcopy := storeAt_ok (show 0 + bytes.length ≤ buf.length by omega)
  rw [List.take_zero, List.nil_append, Nat.zero_add] at hcopy
  have hlen := length_storeAt hcopy
  have hnul : n + [(0 : UInt8)].length ≤ (bytes ++ buf.drop bytes.length).length := by
    rw [hlen]
    exact h
  refine ⟨_, by rw [storeText, hcopy]; exact storeAt_ok hnul, ?_⟩
  rw [List.take_append_of_le_length (by simp; omega), List.take_of_length_le (by simp),
    List.take_append_of_le_length hn]

lemma map_storeText (ret : ℤ) (buf bytes : List UInt8) (n : ℕ) :
    (ret, ·) <$> storeText buf bytes n = do
      let buf ← storeAt buf 0 bytes
      let buf ← storeAt buf n [0]
      return (ret, buf) := by
  rw [storeText]
  cases storeAt buf 0 bytes with
  | error e => rfl
  | ok buf₁ =>
    rw [Outcome.ok_bind, Outcome.ok_bind]
    cases storeAt buf₁ n [0] <;> rfl

lemma getLinkDest_inline (hsize : inodeGetSize inode ≤ 60) (bufsize : ℕ) :
    getLinkDest copy fs fuel inode buf bufsize = (toInt32 (inodeGetSize inode + 1), ·) <$>
      storeText buf (slice inode.iBlock 0 (inodeGetSize inode)) (inodeGetSize inode) := by
  rw [getLinkDest, map_storeText]
  dsimp only
  rw [if_pos hsize]

lemma getLinkDest_block (hlog : fs.super.sLogBlockSize ≤ 20) (hsize : 60 < inodeGetSize inode)
    (hp : inodeGetDataPblock fs fuel inode 0 = .ok (p, r)) (hpos : 1 ≤ buf.length)
    (hbuf : buf.length < 2 ^ 64) : getLinkDest copy fs fuel inode buf buf.length =
      (copy (linkBlock fs fuel inode) (buf.length - 1) >>= fun bytes =>
        (toInt32 (inodeGetSize inode + 1), ·) <$> storeText buf bytes (inodeGetSize inode)) := by
  have hbs := superBlockSize_le hlog
  have hmod : (buf.length + 2 ^ 64 - 1) % 2 ^ 64 = buf.length - 1 := by omega
  rw [getLinkDest]
  dsimp only
  rw [if_neg (by omega), hp, Outcome.ok_bind]
  dsimp only
  rw [diskRead_eq (by omega), Outcome.ok_bind, hmod, linkBlock, dataBlock, pblockOf_eq hp]
  simp only [map_storeText]

lemma length_linkBlock (fs : Mount) (fuel : ℕ) (inode : Ext4Inode) :
    (linkBlock fs fuel inode).length = superBlockSize fs.super := length_dataBlock _ _ _ _

lemma strncpy_linkBlock (fs : Mount) (fuel : ℕ) (inode : Ext4Inode) (hpos : 1 ≤ n) :
    (0 ∈ linkBlock fs fuel inode ∨ n ≤ superBlockSize fs.super + 1 →
      ∃ bytes, strncpy (linkBlock fs fuel inode) (n - 1) = .ok bytes) ∧
    (¬(0 ∈ linkBlock fs fuel inode ∨ n ≤ superBlockSize fs.super + 1) →
      strncpy (linkBlock fs fuel inode) (n - 1) = .error .bounds) := by
  have hcond : (0 ∈ linkBlock fs fuel inode ∨ n - 1 ≤ (linkBlock fs fuel inode).length) ↔
      0 ∈ linkBlock fs fuel inode ∨ n ≤ superBlockSize fs.super + 1 := by
    rw [length_linkBlock]
    exact or_congr_right (by omega)
  rw [← hcond]
  exact ⟨fun h => ⟨_, if_pos h⟩, fun h => if_neg h⟩

lemma opReadlink_link (hopen : inodeGetByPath fs fuel d path = .ok (d', some inode))
    (hlink : sIsLnk inode.iMode) (buf : List UInt8) (n : ℕ) :
    opReadlinkBy copy fs fuel d path buf n =
      (fun r => (d', 0, r.2)) <$> getLinkDest copy fs fuel inode buf n := by
  rw [opReadlinkBy, hopen, Outcome.ok_bind]
  dsimp only
  rw [Outcome.deref_some, Outcome.ok_bind, if_neg (not_not.mpr hlink)]
  cases getLinkDest copy fs fuel inode buf n <;> rfl

lemma leavesTarget_inline (hopen : inodeGetByPath fs fuel d path = .ok (d', some inode))
    (hlink : sIsLnk inode.iMode) (hsize : inodeGetSize inode = target.length)
    (hsmall : inodeGetSize inode ≤ 60) (hfit : inodeGetSize inode < buf.length) :
    LeavesTarget fs fuel d d' path buf target ↔
      slice inode.iBlock 0 (inodeGetSize inode) = target := by
  have hiblock := length_iBlock_of_path hopen
  have hlen : (slice inode.iBlock 0 (inodeGetSize inode)).length = inodeGetSize inode :=
    length_slice_of_le (by omega)
  obtain ⟨buf', hrun, htake⟩ := storeText_ok hlen.ge (by omega) hfit
  rw [List.take_of_length_le hlen.le] at htake
  rw [LeavesTarget, opReadlink, opReadlink_link hopen hlink, getLinkDest_inline hsmall, hrun,
    Outcome.map_ok, Outcome.map_ok, ← hsize]
  constructor
  · rintro ⟨b, hb, htarget⟩
    obtain rfl : buf' = b := (Prod.mk.inj (Prod.mk.inj (Except.ok.inj hb)).2).2
    exact List.append_cancel_right (htake.symm.trans htarget)
  · intro htarget
    exact ⟨buf', rfl, by rw [htake, htarget]⟩

/-- A call leaves the target in the buffer, unless the target has 60 bytes, which are taken from
the inode, or the block is read behind its end. -/
theorem opReadlink_target (hlog : fs.super.sLogBlockSize ≤ 20)
    (hopen : inodeGetByPath fs fuel d path = .ok (d', some inode)) (hlink : sIsLnk inode.iMode)
    (hstored : StoredLink fs fuel inode target) (hnul : 0 ∉ target)
    (hbuf : buf.length < 2 ^ 64) (hfit : target.length < buf.length) :
    LeavesTarget fs fuel d d' path buf target ↔
      (target.length = 60 → inode.iBlock = target) ∧
      (60 < target.length →
        0 ∈ linkBlock fs fuel inode ∨ buf.length ≤ superBlockSize fs.super + 1) := by
  have hsize := hstored.size
  rw [← hsize] at hfit ⊢
  by_cases hsmall : inodeGetSize inode ≤ 60
  · have htext : slice inode.iBlock 0 (inodeGetSize inode) = target ↔
        (inodeGetSize inode = 60 → inode.iBlock = target) := by
      rcases hsmall.lt_or_eq with hlt | heq
      · have hinline := hstored.inline (by omega)
        rw [← hsize] at hinline
        exact iff_of_true hinline fun heq => absurd heq hlt.ne
      · have hall : slice inode.iBlock 0 (inodeGetSize inode) = inode.iBlock := by
          rw [heq, ← length_iBlock_of_path hopen, slice_self]
        rw [hall]
        exact ⟨fun h _ => h, fun h => h heq⟩
    rw [leavesTarget_inline hopen hlink hsize hsmall hfit, htext]
    exact ⟨fun h => ⟨h, fun hlong => by omega⟩, And.left⟩
  · obtain ⟨p, r, hp⟩ := hstored.mapped (by omega)
    obtain ⟨hcopy, hover⟩ := strncpy_linkBlock fs fuel inode (show 1 ≤ buf.length by omega)
    rw [LeavesTarget, opReadlink, opReadlink_link hopen hlink, ← hsize,
      getLinkDest_block hlog (not_le.mp hsmall) hp (by omega) hbuf]
    constructor
    · rintro ⟨b, hb, -⟩
      refine ⟨fun heq => by omega, fun _ => ?_⟩
      by_contra hnot
      rw [hover hnot] at hb
      cases hb
    · rintro ⟨-, hterminated⟩
      obtain ⟨bytes, hbytes⟩ := hcopy (hterminated (by omega))
      have hlen := length_strncpy hbytes
      obtain ⟨buf', hrun, htake⟩ := storeText_ok (show inodeGetSize inode ≤ bytes.length by omega)
        (show bytes.length ≤ buf.length by omega) hfit
      refine ⟨buf', by rw [hbytes, Outcome.ok_bind, hrun]; rfl, ?_⟩
      rw [htake, hsize, take_strncpy hbytes (hstored.block (by omega)) hnul (by omega)]

/-- The image with the long name, where the two files are links: the one in the root has a target of
60 bytes, in block 12, and the other one a target of three bytes. -/
def linkPieces : List (ℕ × List UInt8) := [
  (5504, [0xFF, 0xA1, 0, 0, 60]), (5544, [12]),
  (5632, [0xFF, 0xA1, 0, 0, 3]), (5672, [97, 98, 99]), (12288, List.replicate 60 116)]

/-- The same image, where the file in the root is a link with a target of 100 bytes, and there is no
NUL in its block. -/
def longLinkPieces : List (ℕ × List UInt8) := [
  (5504, [0xFF, 0xA1, 0, 0, 100]), (5544, [12]), (12288, List.replicate 1024 116)]

def linkDisk (pieces : List (ℕ × List UInt8)) : Disk := fun i =>
  match pieces.find? fun piece => piece.1 ≤ i ∧ i < piece.1 + piece.2.length with
  | some piece => piece.2.getD (i - piece.1) 0
  | none => longNameDisk i

def linkMount (pieces : List (ℕ × List UInt8)) : Mount where
  disk := linkDisk pieces
  super := longNameMount.super
  gdescTable := longNameMount.gdescTable

def link (size : ℕ) (start : List UInt8) : Ext4Inode where
  iMode := 0xA1FF
  iSizeLo := size
  iFlags := 0
  iBlock := start ++ List.replicate (60 - start.length) 0
  iSizeHigh := 0

set_option maxRecDepth 100000 in
lemma opens_links : Opens (linkMount linkPieces) 8 freshDcache longFilePath (link 3 [97, 98, 99]) ∧
    Opens (linkMount linkPieces) 8 freshDcache rootFilePath (link 60 [12]) := by
  have hshort : Prod.snd <$> inodeGetIdxByPath (linkMount linkPieces) 8 freshDcache longFilePath =
      .ok 13 := by decide
  have hlong : Prod.snd <$> inodeGetIdxByPath (linkMount linkPieces) 8 freshDcache rootFilePath =
      .ok 12 := by decide
  exact ⟨inodeGetByPath_of_number hshort (by decide),
    inodeGetByPath_of_number hlong (by decide)⟩

set_option maxRecDepth 100000 in
lemma opens_longLink :
    Opens (linkMount longLinkPieces) 8 freshDcache rootFilePath (link 100 [12]) := by
  have hnumber : Prod.snd <$> inodeGetIdxByPath (linkMount longLinkPieces) 8 freshDcache
      rootFilePath = .ok 12 := by decide
  exact inodeGetByPath_of_number hnumber (by decide)

set_option maxRecDepth 100000 in
/-- A target of three bytes in the inode, and one of 100 bytes in a block, into a buffer that is one
byte longer than the block. -/
theorem opReadlink_target_links :
    (∃ d', LeavesTarget (linkMount linkPieces) 8 freshDcache d' longFilePath
      (List.replicate 16 0) [97, 98, 99]) ∧
    ∃ d', LeavesTarget (linkMount longLinkPieces) 8 freshDcache d' rootFilePath
      (List.replicate 1025 0) (List.replicate 100 116) := by
  obtain ⟨d', hopen⟩ := opens_links.1
  have hstored : StoredLink (linkMount linkPieces) 8 (link 3 [97, 98, 99]) [97, 98, 99] :=
    ⟨by decide, fun _ => by decide, fun hlong => by simp at hlong, fun hlong => by simp at hlong⟩
  obtain ⟨d'', hopen'⟩ := opens_longLink
  have hp : inodeGetDataPblock (linkMount longLinkPieces) 8 (link 100 [12]) 0 = .ok (12, 1) := by
    decide
  have hblock : (linkBlock (linkMount longLinkPieces) 8 (link 100 [12])).take 100 =
      List.replicate 100 116 := by
    rw [linkBlock, dataBlock, pblockOf_eq hp]
    decide
  have hstored' : StoredLink (linkMount longLinkPieces) 8 (link 100 [12])
      (List.replicate 100 116) :=
    ⟨by decide, fun hshort => by simp at hshort, fun _ => ⟨_, _, hp⟩, fun _ => hblock⟩
  exact ⟨⟨d', (opReadlink_target (by decide) hopen (by decide) hstored (by decide) (by decide)
      (by decide)).mpr ⟨by decide, by decide⟩⟩,
    d'', (opReadlink_target (by decide) hopen' (by decide) hstored' (by decide) (by
      rw [List.length_replicate]
      decide) (by decide)).mpr ⟨by decide, fun _ => Or.inr (by
        rw [List.length_replicate]
        decide)⟩⟩

set_option maxRecDepth 100000 in
/-- A target of 60 bytes stands in the first block, but the number of that block is returned. -/
theorem opReadlink_target_counterexample :
    superFill (linkDisk linkPieces) = .ok (linkMount linkPieces).super ∧
    superGroupFill (linkDisk linkPieces) (linkMount linkPieces).super =
      .ok (linkMount linkPieces).gdescTable ∧
    StoredLink (linkMount linkPieces) 8 (link 60 [12]) (List.replicate 60 116) ∧
    ∃ d', inodeGetByPath (linkMount linkPieces) 8 freshDcache rootFilePath =
        .ok (d', some (link 60 [12])) ∧
      ¬LeavesTarget (linkMount linkPieces) 8 freshDcache d' rootFilePath (List.replicate 4097 0)
        (List.replicate 60 116) := by
  obtain ⟨d', hopen⟩ := opens_links.2
  have hp : inodeGetDataPblock (linkMount linkPieces) 8 (link 60 [12]) 0 = .ok (12, 1) := by decide
  refine ⟨by decide, by decide, ⟨by decide, fun hshort => by simp at hshort, fun _ => ⟨_, _, hp⟩,
    fun _ => ?_⟩, d', hopen, ?_⟩
  · rw [linkBlock, dataBlock, pblockOf_eq hp]
    decide
  · rw [leavesTarget_inline hopen (by decide) (by decide) (by decide) (by
      rw [List.length_replicate]
      decide)]
    decide

lemma getLinkDest_of_strncpy {result : ℤ × List UInt8} {bufsize : ℕ}
    (h : getLinkDest strncpy fs fuel inode buf bufsize = .ok result) (memory : ℕ → UInt8) :
    getLinkDest (strncpyOver memory) fs fuel inode buf bufsize = .ok result := by
  rw [getLinkDest] at h ⊢
  dsimp only at h ⊢
  split_ifs at h ⊢
  · exact h
  · obtain ⟨⟨p, r⟩, hp, h⟩ := Outcome.bind_eq_ok.mp h
    obtain ⟨block, hblock, h⟩ := Outcome.bind_eq_ok.mp h
    obtain ⟨bytes, hbytes, h⟩ := Outcome.bind_eq_ok.mp h
    rw [hp, Outcome.ok_bind, hblock, Outcome.ok_bind, strncpyOver_eq hbytes, Outcome.ok_bind]
    exact h

theorem opReadlink_over {ret : ℤ} {buf' : List UInt8} {bufsize : ℕ}
    (h : opReadlink fs fuel d path buf bufsize = .ok (d', ret, buf')) (memory : ℕ → UInt8) :
    opReadlinkBy (strncpyOver memory) fs fuel d path buf bufsize = .ok (d', ret, buf') := by
  rw [opReadlink, opReadlinkBy] at h
  obtain ⟨⟨d₁, found⟩, hlookup, h⟩ := Outcome.bind_eq_ok.mp h
  obtain ⟨inode, hfound, h⟩ := Outcome.bind_eq_ok.mp h
  rw [opReadlinkBy, hlookup, Outcome.ok_bind]
  dsimp only at hfound h ⊢
  rw [hfound, Outcome.ok_bind]
  split_ifs at h ⊢
  · obtain ⟨⟨len, buf₁⟩, hdest, h⟩ := Outcome.bind_eq_ok.mp h
    rw [getLinkDest_of_strncpy hdest, Outcome.ok_bind]
    exact h
  · exact h

end Spotlight.Ext4
