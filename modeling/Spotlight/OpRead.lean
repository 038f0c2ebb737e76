import Spotlight.InodeMap

/-! Reading a file (`op_read.c` and the disk contexts of `disk.c`). -/
namespace Spotlight.Ext4
open Bytes

structure DiskCtx where
  cur : ℕ
  size : ℕ

def diskCtxCreate (pos size len : ℕ) : Outcome DiskCtx := do
  assertThat (size ≠ 0)
  return ⟨pos, size * len⟩

def diskCtxRead (disk : Disk) (ctx : DiskCtx) (size : ℕ) : Outcome (List UInt8 × DiskCtx) := do
  assertThat (ctx.size ≠ 0)
  let size := if ctx.size < size then ctx.size else size
  let bytes ← diskRead disk ctx.cur size
  return (bytes, ⟨ctx.cur + bytes.length, ctx.size - bytes.length⟩)

/-- Conversion of a `size_t` to the `int` that `op_read` returns. -/
def toInt32 (n : ℕ) : ℤ :=
  if n % 2 ^ 32 < 2 ^ 31 then (n % 2 ^ 32 : ℕ) else (n % 2 ^ 32 : ℕ) - 2 ^ 32

def enoent : ℤ := 2

def truncateSize (inode : Ext4Inode) (size offset : ℕ) : ℕ :=
  let inodeSize := inodeGetSize inode
  if inodeSize ≤ offset then 0
  else if inodeSize ≤ (offset + size) % 2 ^ 64 then inodeSize - offset
  else size

/-- The bytes that `first_read` stores in front of the first aligned block. -/
def firstRead (fs : Mount) (fuel : ℕ) (inode : Ext4Inode) (size offset : ℕ) :
    Outcome (List UInt8) :=
  let bs := superBlockSize fs.super
  let endLblock := (offset + (size - 1)) / bs % 2 ^ 32
  let startLblock := offset / bs % 2 ^ 32
  let startBlockOff := offset % bs
  if size = 0 then .ok []
  else if startBlockOff = 0 then .ok []
  else do
    let (startPblock, _) ← inodeGetDataPblock fs fuel inode startLblock
    if startLblock = endLblock then
      diskRead fs.disk (blocks2bytes fs.super startPblock + startBlockOff) size
    else do
      let sizeToBlockEnd := (alignTo offset bs + 2 ^ 64 - offset) % 2 ^ 64
      assertThat ((offset + sizeToBlockEnd) % 2 ^ 64 % bs = 0)
      diskRead fs.disk (blocks2bytes fs.super startPblock + startBlockOff) sizeToBlockEnd

/-- The loop of `op_read`; `buf` holds the `ret` bytes stored so far. Every iteration stores
at least one byte or stops at an assertion, so `size` iterations are enough. -/
def opReadLoop (fs : Mount) (fuel : ℕ) (inode : Ext4Inode) (size : ℕ) :
    ℕ → ℕ → List UInt8 → Outcome (List UInt8)
  | n, lblock, buf =>
    if buf.length < size then
      match n with
      | 0 => .error .fuel
      | n + 1 => do
        let (pblock, extentLen) ← inodeGetDataPblock fs fuel inode lblock
        if pblock ≠ 0 then do
          let readCtx ← diskCtxCreate (blocks2bytes fs.super pblock)
            (superBlockSize fs.super) extentLen
          let (bytes, _) ← diskCtxRead fs.disk readCtx (size - buf.length)
          opReadLoop fs fuel inode size n ((lblock + extentLen) % 2 ^ 32) (buf ++ bytes)
        else
          let bytes := min (size - buf.length) (superBlockSize fs.super)
          opReadLoop fs fuel inode size n ((lblock + extentLen) % 2 ^ 32)
            (buf ++ List.replicate bytes 0)
    else .ok buf

/-- `op_read` on the inode number kept in `fi->fh`: the returned `int` and the bytes stored
in the caller's buffer. -/
def opRead (fs : Mount) (fuel fh size offset : ℕ) : Outcome (ℤ × List UInt8) := do
  match ← inodeGetByNumber fs fh with
  | none => return (-enoent, [])
  | some inode => do
    let size := truncateSize inode size offset
    let head ← firstRead fs fuel inode size offset
    let lblock := (offset + head.length) / superBlockSize fs.super % 2 ^ 32
    let buf ← opReadLoop fs fuel inode size size lblock head
    assertThat (size = buf.length)
    return (toInt32 buf.length, buf)

theorem and_mask_eq {n k : ℕ} (hn : n < 2 ^ 32) (hk : k ≤ 32) :
    n &&& (2 ^ 32 - 2 ^ k) = n - n % 2 ^ k := by
  have hmask : 2 ^ 32 - 2 ^ k = 2 ^ k * (2 ^ (32 - k) - 1) := by
    rw [Nat.mul_sub, ← Nat.pow_add, Nat.add_sub_cancel' hk, Nat.mul_one]
  have hclear : n - n % 2 ^ k = 2 ^ k * (n / 2 ^ k) := by
    have := Nat.div_add_mod n (2 ^ k)
    omega
  rw [hmask, hclear]
  apply Nat.eq_of_testBit_eq
  intro i
  rw [Nat.testBit_and, Nat.testBit_two_pow_mul, Nat.testBit_two_pow_mul,
    Nat.testBit_two_pow_sub_one, Nat.testBit_div_two_pow]
  by_cases hi : k ≤ i
  · by_cases h32 : i < 32
    · simp [hi, show i - k < 32 - k by omega]
    · have hzero : n.testBit i = false :=
        Nat.testBit_lt_two_pow (hn.trans_le (Nat.pow_le_pow_right (by decide) (by omega)))
      simp [hi, hzero]
  · simp [hi]

theorem alignTo_eq {n k : ℕ} (hn : n < 2 ^ 32) (hk : k ≤ 32) (hr : n % 2 ^ k ≠ 0) :
    alignTo n (2 ^ k) = n - n % 2 ^ k + 2 ^ k := by
  rw [alignTo, if_pos hr, and_mask_eq hn hk]

section
variable {fs : Mount} {fuel : ℕ} {inode : Ext4Inode}

theorem fileByte_run (hlog : fs.super.sLogBlockSize ≤ 21) (hmap : BlockMap fs fuel inode)
    {l p r i : ℕ} (hl : inodeGetDataPblock fs fuel inode l = .ok (p, r)) (hp : p ≠ 0)
    (hi : i < superBlockSize fs.super * r)
    (hsize : l * superBlockSize fs.super + i < inodeGetSize inode) :
    fileByte fs fuel inode (l * superBlockSize fs.super + i) =
      fs.disk (p * superBlockSize fs.super + i) := by
  have hpos := superBlockSize_pos hlog
  have hdiv : (l * superBlockSize fs.super + i) / superBlockSize fs.super =
      l + i / superBlockSize fs.super := by
    rw [Nat.mul_comm, Nat.mul_add_div hpos]
  have hmod : (l * superBlockSize fs.super + i) % superBlockSize fs.super =
      i % superBlockSize fs.super := by rw [Nat.mul_comm, Nat.mul_add_mod]
  have hi' := Nat.div_add_mod i (superBlockSize fs.super)
  have hl' : l < bytes2blocks fs.super (inodeGetSize inode) :=
    (lt_bytes2blocks_iff hlog).mpr (by omega)
  have hj : l + i / superBlockSize fs.super < bytes2blocks fs.super (inodeGetSize inode) := by
    refine (lt_bytes2blocks_iff hlog).mpr ?_
    rw [Nat.add_mul, Nat.mul_comm (i / superBlockSize fs.super)]
    omega
  obtain ⟨p', r', hl'', -, -, hrun⟩ := hmap l hl'
  rw [hl] at hl''
  cases hl''
  obtain ⟨r'', hrun⟩ := hrun hp _ (Nat.div_lt_of_lt_mul hi) hj
  have hne : p + i / superBlockSize fs.super ≠ 0 :=
    (Nat.add_pos_left (Nat.pos_of_ne_zero hp) _).ne'
  simp only [fileByte, hdiv, hmod, pblockOf_eq hrun, if_neg hne]
  rw [Nat.add_mul, Nat.mul_comm (i / superBlockSize fs.super), Nat.add_assoc, hi']

theorem fileByte_hole (hlog : fs.super.sLogBlockSize ≤ 21) {l r i : ℕ}
    (hl : inodeGetDataPblock fs fuel inode l = .ok (0, r)) (hi : i < superBlockSize fs.super) :
    fileByte fs fuel inode (l * superBlockSize fs.super + i) = 0 := by
  have hdiv : (l * superBlockSize fs.super + i) / superBlockSize fs.super = l := by
    rw [Nat.mul_comm, Nat.mul_add_div (superBlockSize_pos hlog), Nat.div_eq_of_lt hi,
      Nat.add_zero]
  simp [fileByte, hdiv, pblockOf_eq hl]

theorem opReadLoop_done {size n lblock : ℕ} {buf : List UInt8} (h : size ≤ buf.length) :
    opReadLoop fs fuel inode size n lblock buf = .ok buf := by
  cases n <;> simp [opReadLoop, Nat.not_lt.mpr h]

theorem opReadLoop_step (hlog : fs.super.sLogBlockSize ≤ 21) (hmap : BlockMap fs fuel inode)
    {size n lblock : ℕ} {buf : List UInt8} (hbuf : buf.length < size)
    (hint : size - buf.length < 2 ^ 31)
    (hend : lblock * superBlockSize fs.super + (size - buf.length) ≤ inodeGetSize inode) :
    ∃ r, 1 ≤ r ∧ opReadLoop fs fuel inode size (n + 1) lblock buf =
      opReadLoop fs fuel inode size n ((lblock + r) % 2 ^ 32)
        (buf ++ readAt (fileByte fs fuel inode) (lblock * superBlockSize fs.super)
          (min (size - buf.length) (superBlockSize fs.super * r))) := by
  have hpos := superBlockSize_pos hlog
  have hl : lblock < bytes2blocks fs.super (inodeGetSize inode) :=
    (lt_bytes2blocks_iff hlog).mpr (by omega)
  obtain ⟨p, r, hp, hr, hhole, -⟩ := hmap lblock hl
  refine ⟨r, hr, ?_⟩
  conv_lhs => rw [opReadLoop, if_pos hbuf]
  simp only [hp, Outcome.ok_bind]
  by_cases hp0 : p = 0
  · subst hp0
    rw [if_neg (by simp), hhole rfl, Nat.mul_one]
    congr 2
    have hzero : ∀ i < min (size - buf.length) (superBlockSize fs.super),
        fileByte fs fuel inode (lblock * superBlockSize fs.super + i) = 0 :=
      fun i hi => fileByte_hole hlog hp (by omega)
    apply List.ext_getElem?
    intro i
    rw [getElem?_readAt, List.getElem?_replicate]
    split_ifs with hi
    · rw [hzero i hi]
    · rfl
  · have hctx : superBlockSize fs.super * r ≠ 0 := by positivity
    have hmin : (if superBlockSize fs.super * r < size - buf.length then
        superBlockSize fs.super * r else size - buf.length) =
        min (size - buf.length) (superBlockSize fs.super * r) := by
      split_ifs <;> omega
    have hread : diskRead fs.disk (blocks2bytes fs.super p)
        (min (size - buf.length) (superBlockSize fs.super * r)) = .ok _ :=
      diskRead_eq ((Nat.min_le_left _ _).trans_lt hint)
    simp only [ne_eq, hp0, not_false_eq_true, if_true, diskCtxCreate, diskCtxRead, hpos.ne',
      hctx, Outcome.assertThat_true, Outcome.ok_bind, Outcome.pure_eq, hmin, hread]
    congr 2
    apply readAt_congr
    intro i hi
    exact (fileByte_run hlog hmap hp hp0 (by omega) (by omega)).symm

theorem opReadLoop_eq (hlog : fs.super.sLogBlockSize ≤ 21) (hmap : BlockMap fs fuel inode)
    (hS : inodeGetSize inode < 2 ^ 32) {size : ℕ} (n : ℕ) {lblock : ℕ} {buf : List UInt8}
    (hn : size - buf.length ≤ n) (hint : size - buf.length < 2 ^ 31)
    (hend : size ≤ buf.length ∨
      lblock * superBlockSize fs.super + (size - buf.length) ≤ inodeGetSize inode) :
    opReadLoop fs fuel inode size n lblock buf =
      .ok (buf ++ readAt (fileByte fs fuel inode) (lblock * superBlockSize fs.super)
        (size - buf.length)) := by
  induction n generalizing lblock buf with
  | zero =>
    have hdone : size ≤ buf.length := by omega
    rw [opReadLoop_done hdone, Nat.sub_eq_zero_of_le hdone]
    simp
  | succ n ih =>
    by_cases hdone : size ≤ buf.length
    · rw [opReadLoop_done hdone, Nat.sub_eq_zero_of_le hdone]
      simp
    have hend := hend.resolve_left hdone
    obtain ⟨r, hr, hstep⟩ := opReadLoop_step (n := n) hlog hmap (by omega) hint hend
    have hpos := superBlockSize_pos hlog
    set bs := superBlockSize fs.super with hbs
    have hbr : 1 ≤ bs * r := Nat.mul_pos hpos hr
    rw [hstep, ih]
    · rw [List.append_assoc]
      congr 2
      by_cases hlast : size - buf.length ≤ bs * r
      · have hzero : size - (buf.length + (size - buf.length)) = 0 := by omega
        simp [Nat.min_eq_left hlast, hzero]
      · -- the next run starts below the end of the file, so its number fits 32 bits
        have hnext : (lblock + r) * bs = lblock * bs + bs * r := by ring
        have hfit : lblock + r < 2 ^ 32 := by
          have : lblock + r ≤ (lblock + r) * bs := Nat.le_mul_of_pos_right _ hpos
          omega
        rw [Nat.min_eq_right (by omega), Nat.mod_eq_of_lt hfit, hnext, List.length_append,
          length_readAt, ← readAt_add]
        congr 1
        omega
    · simp only [List.length_append, length_readAt]
      omega
    · simp only [List.length_append, length_readAt]
      omega
    · simp only [List.length_append, length_readAt]
      by_cases hlast : size - buf.length ≤ bs * r
      · exact Or.inl (by omega)
      · have hnext : (lblock + r) * bs = lblock * bs + bs * r := by ring
        have hfit : lblock + r < 2 ^ 32 := by
          have : lblock + r ≤ (lblock + r) * bs := Nat.le_mul_of_pos_right _ hpos
          omega
        rw [Nat.mod_eq_of_lt hfit, hnext]
        exact Or.inr (by omega)

theorem block_of_add {o i bs : ℕ} (h : o % bs + i < bs) :
    (o + i) / bs = o / bs ∧ (o + i) % bs = o % bs + i := by
  have hpos : 0 < bs := by omega
  have ho := Nat.div_add_mod o bs
  have hsum : o + i = bs * (o / bs) + (o % bs + i) := by omega
  rw [hsum]
  constructor
  · rw [Nat.mul_add_div hpos, Nat.div_eq_of_lt h, Nat.add_zero]
  · rw [Nat.mul_add_mod, Nat.mod_eq_of_lt h]

/-- The byte at offset `i` that a read from offset `o` delivers: in an unaligned first
block it comes from the disk even when the block is a hole. -/
def deliveredByte (fs : Mount) (fuel : ℕ) (inode : Ext4Inode) (o i : ℕ) : UInt8 :=
  let bs := superBlockSize fs.super
  if o % bs ≠ 0 ∧ i / bs = o / bs then
    fs.disk (pblockOf fs fuel inode (o / bs) * bs + i % bs)
  else fileByte fs fuel inode i

/-- Bytes up to the next block boundary, none at a boundary. -/
def headLength (bs size o : ℕ) : ℕ := if o % bs = 0 then 0 else min size (bs - o % bs)

theorem deliveredByte_head {o i : ℕ} (ho : o % superBlockSize fs.super ≠ 0)
    (hi : o % superBlockSize fs.super + i < superBlockSize fs.super) :
    deliveredByte fs fuel inode o (o + i) =
      fs.disk (blocks2bytes fs.super (pblockOf fs fuel inode (o / superBlockSize fs.super)) +
        o % superBlockSize fs.super + i) := by
  obtain ⟨hd, hm⟩ := block_of_add hi
  simp [deliveredByte, ho, hd, hm, blocks2bytes, Nat.add_assoc]

theorem deliveredByte_tail {o i : ℕ} (hlog : fs.super.sLogBlockSize ≤ 21)
    (hi : o % superBlockSize fs.super = 0 ∨
      superBlockSize fs.super ≤ o % superBlockSize fs.super + i) :
    deliveredByte fs fuel inode o (o + i) = fileByte fs fuel inode (o + i) := by
  apply if_neg
  rintro ⟨ho, hd⟩
  have hle := hi.resolve_left ho
  have hpos := superBlockSize_pos hlog
  have hmod := Nat.div_add_mod o (superBlockSize fs.super)
  have hlt : (o + i) / superBlockSize fs.super < o / superBlockSize fs.super + 1 := by omega
  rw [Nat.div_lt_iff_lt_mul hpos, Nat.add_mul, Nat.mul_comm] at hlt
  omega

theorem sameBlock_iff {bs size o : ℕ} (hpos : 0 < bs) (hsize : size < 2 ^ 31) (hz : size ≠ 0) :
    o / bs % 2 ^ 32 = (o + (size - 1)) / bs % 2 ^ 32 ↔ o % bs + size ≤ bs := by
  have hdiv := Nat.div_add_mod o bs
  have hmod := Nat.mod_lt o hpos
  have hlast : (o + (size - 1)) / bs = o / bs + (o % bs + (size - 1)) / bs := by
    rw [show o + (size - 1) = bs * (o / bs) + (o % bs + (size - 1)) by omega,
      Nat.mul_add_div hpos]
  have hfew : (o % bs + (size - 1)) / bs < size := by
    rw [Nat.div_lt_iff_lt_mul hpos]
    have hle := Nat.le_mul_of_pos_right (size - 1) hpos
    have hmul : (size - 1 + 1) * bs = (size - 1) * bs + bs := Nat.succ_mul _ _
    rw [Nat.sub_add_cancel (by omega)] at hmul
    omega
  have hzero : (o % bs + (size - 1)) / bs = 0 ↔ o % bs + size ≤ bs := by
    rw [Nat.div_eq_zero_iff_lt hpos]
    omega
  rw [← hzero, hlast]
  generalize (o % bs + (size - 1)) / bs = k at hfew
  generalize o / bs = q
  omega

/-- A read that does not begin at a block boundary ends at the next one. Beyond 4 GiB that boundary
is not found. -/
theorem firstRead_of_lookup (hlog : fs.super.sLogBlockSize ≤ 21) {size o p r : ℕ}
    (hsize : size < 2 ^ 31) (hz : size ≠ 0) (ho : o % superBlockSize fs.super ≠ 0)
    (hfits : o + size < 2 ^ 63)
    (hp : inodeGetDataPblock fs fuel inode (o / superBlockSize fs.super % 2 ^ 32) = .ok (p, r)) :
    firstRead fs fuel inode size o =
      if o % superBlockSize fs.super + size ≤ superBlockSize fs.super ∨ o < 2 ^ 32 then
        .ok (readAt fs.disk (blocks2bytes fs.super p + o % superBlockSize fs.super)
          (headLength (superBlockSize fs.super) size o))
      else .error .assertion := by
  have hpos := superBlockSize_pos hlog
  have hbs := superBlockSize_eq hlog
  have hsmall : superBlockSize fs.super ≤ 2 ^ 31 := by
    rw [hbs]
    exact Nat.pow_le_pow_right (by decide) (by omega)
  have hmod := Nat.mod_lt o hpos
  have hle := Nat.mod_le o (superBlockSize fs.super)
  have hrun : firstRead fs fuel inode size o =
      if o % superBlockSize fs.super + size ≤ superBlockSize fs.super then
        diskRead fs.disk (blocks2bytes fs.super p + o % superBlockSize fs.super) size
      else (do
        let sizeToBlockEnd := (alignTo o (superBlockSize fs.super) + 2 ^ 64 - o) % 2 ^ 64
        assertThat ((o + sizeToBlockEnd) % 2 ^ 64 % superBlockSize fs.super = 0)
        diskRead fs.disk (blocks2bytes fs.super p + o % superBlockSize fs.super)
          sizeToBlockEnd) := by
    simp only [firstRead, if_neg hz, if_neg ho, hp, Outcome.ok_bind,
      sameBlock_iff hpos hsize hz]
  rw [hrun, headLength, if_neg ho]
  by_cases hone : o % superBlockSize fs.super + size ≤ superBlockSize fs.super
  · rw [if_pos hone, if_pos (.inl hone), diskRead_eq hsize, Nat.min_eq_left (by omega)]
  rw [if_neg hone, Nat.min_eq_right (by omega)]
  dsimp only
  by_cases hlow : o < 2 ^ 32
  · have halign : alignTo o (superBlockSize fs.super) =
        o - o % superBlockSize fs.super + superBlockSize fs.super := by
      rw [hbs] at ho ⊢
      exact alignTo_eq hlow (by omega) ho
    have hto : (alignTo o (superBlockSize fs.super) + 2 ^ 64 - o) % 2 ^ 64 =
        superBlockSize fs.super - o % superBlockSize fs.super := by
      rw [halign]
      omega
    have hboundary : (o + (superBlockSize fs.super - o % superBlockSize fs.super)) % 2 ^ 64 %
        superBlockSize fs.super = 0 := by
      have hdiv := Nat.div_add_mod o (superBlockSize fs.super)
      have hfit : o + (superBlockSize fs.super - o % superBlockSize fs.super) < 2 ^ 64 := by
        omega
      have hnext : o + (superBlockSize fs.super - o % superBlockSize fs.super) =
          superBlockSize fs.super * (o / superBlockSize fs.super + 1) := by
        rw [Nat.mul_add]
        omega
      rw [Nat.mod_eq_of_lt hfit, hnext, Nat.mul_mod_right]
    rw [if_pos (.inr hlow), hto, Outcome.assertThat_true hboundary, Outcome.ok_bind,
      diskRead_eq (by omega)]
  · -- the mask has cleared the upper half of the offset
    have halign : alignTo o (superBlockSize fs.super) ≤ 2 ^ 32 := by
      have hmask := @Nat.and_le_right o (2 ^ 32 - superBlockSize fs.super)
      rw [alignTo, if_pos ho]
      omega
    have hedge : o ≠ 2 ^ 32 := by
      rintro rfl
      rw [hbs] at ho
      exact ho (Nat.mod_eq_zero_of_dvd (pow_dvd_pow 2 (by omega)))
    have hlong : ¬(alignTo o (superBlockSize fs.super) + 2 ^ 64 - o) % 2 ^ 64 < 2 ^ 31 := by
      omega
    rw [if_neg (not_or.mpr ⟨hone, hlow⟩), diskRead, Outcome.assertThat_false hlong, assertThat]
    split_ifs <;> rfl

theorem firstRead_eq (hlog : fs.super.sLogBlockSize ≤ 21) (hmap : BlockMap fs fuel inode)
    (hS : inodeGetSize inode < 2 ^ 32) {size o : ℕ} (hsize : size < 2 ^ 31)
    (hend : size = 0 ∨ o + size ≤ inodeGetSize inode) :
    firstRead fs fuel inode size o = .ok (readAt (deliveredByte fs fuel inode o) o
      (headLength (superBlockSize fs.super) size o)) := by
  have hpos := superBlockSize_pos hlog
  by_cases hnone : size = 0 ∨ o % superBlockSize fs.super = 0
  · have hzero : headLength (superBlockSize fs.super) size o = 0 := by
      rw [headLength]
      split_ifs <;> omega
    rw [hzero, readAt_zero, firstRead]
    rcases hnone with hz | ho
    · exact if_pos hz
    · dsimp only
      rw [if_pos ho, ite_self]
  obtain ⟨hz, ho⟩ := not_or.mp hnone
  have hend := hend.resolve_left hz
  have hl : o / superBlockSize fs.super < bytes2blocks fs.super (inodeGetSize inode) := by
    refine (lt_bytes2blocks_iff hlog).mpr ?_
    have := Nat.div_mul_le_self o (superBlockSize fs.super)
    omega
  obtain ⟨p, r, hp, -⟩ := hmap _ hl
  have hq : o / superBlockSize fs.super % 2 ^ 32 = o / superBlockSize fs.super :=
    Nat.mod_eq_of_lt ((Nat.div_le_self _ _).trans_lt (by omega))
  rw [firstRead_of_lookup hlog hsize hz ho (by omega) (by rw [hq]; exact hp),
    if_pos (.inr (by omega)), headLength, if_neg ho]
  congr 1
  apply readAt_congr
  intro i hi
  have hmod := Nat.mod_lt o hpos
  rw [deliveredByte_head ho (by omega), pblockOf_eq hp]

end
end Spotlight.Ext4
