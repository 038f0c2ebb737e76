import Spotlight.Super

/-! `pread_wrapper` (`disk.c`) of the build that reads only whole blocks of the disk, against
the one that reads just what is asked for. -/
namespace Spotlight.Ext4
open Bytes

def preadBlockSize : ℕ := 1024

/-- `_pread`, which reads less than it is asked for only at the end of the disk. -/
def pread (disk : List UInt8) (size pos : ℕ) : ℤ × List UInt8 :=
  (Int.bmod (slice disk pos size).length (2 ^ 32), slice disk pos size)

def preadWrapperPlain (disk : List UInt8) (size pos : ℕ) : ℤ × List UInt8 := pread disk size pos

/-- An underlying read. -/
structure PreadCall where
  size : ℕ
  pos : ℕ

/-- The variables of `pread_wrapper`, what has been stored from the pointer it was given on, and
the underlying reads. -/
structure PreadState where
  block : List UInt8
  stored : List UInt8
  size : ℕ
  pos : ℕ
  ret : ℤ
  calls : List PreadCall

/-- The reads into `block`, which keeps its old bytes behind those that are read. -/
def PreadState.fetchBlock (s : PreadState) (disk : List UInt8) (pos : ℕ) : ℤ × PreadState :=
  let (ret, bytes) := pread disk preadBlockSize pos
  (ret, { s with
    block := bytes ++ s.block.drop bytes.length
    calls := s.calls ++ [⟨preadBlockSize, pos⟩] })

def PreadState.advance (s : PreadState) (bytes : List UInt8) (n : ℕ) : PreadState :=
  { s with
    stored := s.stored ++ bytes
    size := s.size - n
    pos := s.pos + n
    ret := Int.bmod (s.ret + n) (2 ^ 32) }

/-- The read of the block that the range begins inside of. -/
def preadFirst (disk : List UInt8) (s : PreadState) : Outcome PreadState := do
  let firstOffset := s.pos % preadBlockSize
  let (preadRet, s) := s.fetchBlock disk (s.pos - firstOffset)
  assertThat (preadRet = preadBlockSize)
  let firstSize := min s.size (preadBlockSize - firstOffset)
  return s.advance (slice s.block firstOffset firstSize) firstSize

def preadMid (disk : List UInt8) (s : PreadState) (midReadSize : ℕ) : Outcome PreadState := do
  let (preadRetMid, bytes) := pread disk midReadSize s.pos
  let call : PreadCall := ⟨midReadSize, s.pos⟩
  let s := { s with calls := s.calls ++ [call] }
  assertThat (preadRetMid % 2 ^ 64 = midReadSize)
  return s.advance bytes midReadSize

/-- The read of the block that the range ends inside of. -/
def preadLast (disk : List UInt8) (s : PreadState) : Outcome PreadState := do
  assertThat (s.size < preadBlockSize)
  let (preadRetLast, s) := s.fetchBlock disk s.pos
  assertThat (preadRetLast = preadBlockSize)
  return s.advance (slice s.block 0 s.size) s.size

def preadAligned (disk : List UInt8) (s : PreadState) : Outcome PreadState := do
  assertThat (s.pos % preadBlockSize = 0)
  let midReadSize := s.size / preadBlockSize * preadBlockSize
  if midReadSize ≠ 0 then do
    let s ← preadMid disk s midReadSize
    if s.size = 0 then return s else preadLast disk s
  else preadLast disk s

/-- `pread_wrapper` of the FreeBSD build; `block` is what the thread's last call left there. -/
def preadWrapper (disk block : List UInt8) (size pos : ℕ) : Outcome PreadState := do
  let s : PreadState := ⟨block, [], size, pos, 0, []⟩
  if pos % preadBlockSize ≠ 0 then do
    let s ← preadFirst disk s
    if s.size = 0 then return s else preadAligned disk s
  else preadAligned disk s

variable {disk block : List UInt8} {s : PreadState} {size pos n : ℕ}

/-- Whole blocks of the disk, at least one of them. -/
structure PreadCall.WholeBlocks (disk : List UInt8) (c : PreadCall) : Prop where
  aligned : c.pos % preadBlockSize = 0
  pos : 0 < c.size
  whole : c.size % preadBlockSize = 0
  inside : c.pos + c.size ≤ disk.length

/-- On the way through a range of the disk: what is before `pos` has been stored, and `size` bytes
are left of `total`. -/
structure Delivers (disk : List UInt8) (start total : ℕ) (s : PreadState) : Prop where
  stored : s.stored = slice disk start s.stored.length
  pos : s.pos = start + s.stored.length
  size : s.stored.length + s.size = total
  ret : s.ret = s.stored.length
  calls : ∀ c ∈ s.calls, c.WholeBlocks disk

lemma preadBlockSize_pos : 0 < preadBlockSize := by norm_num [preadBlockSize]

lemma preadBlockSize_lt : preadBlockSize < 2 ^ 31 := by
  rw [preadBlockSize]
  norm_num

lemma pread_inside (h : pos + size ≤ disk.length) (hsize : size < 2 ^ 31) :
    pread disk size pos = ((size : ℤ), slice disk pos size) := by
  have hint : Int.bmod (size : ℤ) (2 ^ 32) = size := Int.bmod_eq_of_le_mul_two (by omega) (by omega)
  have hlen := length_slice_of_le h
  unfold pread
  rw [hlen, hint]

lemma fetchBlock_inside (h : pos + preadBlockSize ≤ disk.length) : s.fetchBlock disk pos =
    ((preadBlockSize : ℤ), { s with
      block := slice disk pos preadBlockSize ++ s.block.drop preadBlockSize
      calls := s.calls ++ [⟨preadBlockSize, pos⟩] }) := by
  rw [PreadState.fetchBlock, pread_inside h preadBlockSize_lt]
  simp only [length_slice_of_le h]

lemma wholeBlocks_block (hpos : pos % preadBlockSize = 0)
    (h : pos + preadBlockSize ≤ disk.length) : PreadCall.WholeBlocks disk ⟨preadBlockSize, pos⟩ :=
  ⟨hpos, preadBlockSize_pos, Nat.mod_self _, h⟩

lemma block_inside (hdisk : disk.length % preadBlockSize = 0) (h : pos < disk.length) :
    pos - pos % preadBlockSize + preadBlockSize ≤ disk.length := by
  unfold preadBlockSize at *
  omega

lemma slice_block (rest : List UInt8) {o : ℕ} (h : o + n ≤ preadBlockSize)
    (hin : pos + preadBlockSize ≤ disk.length) :
    slice (slice disk pos preadBlockSize ++ rest) o n = slice disk (pos + o) n := by
  obtain ⟨bytes, hbytes⟩ : ∃ bytes, bytes = slice disk pos preadBlockSize := ⟨_, rfl⟩
  have hlen : bytes.length = preadBlockSize := by rw [hbytes, length_slice_of_le hin]
  rw [← slice_slice disk pos preadBlockSize o n h, ← hbytes, slice, slice,
    List.drop_append_of_le_length (by omega), List.take_append_of_le_length]
  rw [List.length_drop]
  omega

section
variable {start total : ℕ} (hdisk : disk.length % preadBlockSize = 0) (htotal : total < 2 ^ 31)
  (hin : start + total ≤ disk.length) (h : Delivers disk start total s)
include htotal hin h

lemma Delivers.advance {c : PreadCall} (hn : n ≤ s.size) (hc : c.WholeBlocks disk)
    (block : List UInt8) : Delivers disk start total
      ({ s with block, calls := s.calls ++ [c] }.advance (slice disk s.pos n) n) := by
  have hsize := h.size
  have hpos := h.pos
  have hlen : (slice disk s.pos n).length = n := length_slice_of_le (by omega)
  have hstored : (s.stored ++ slice disk s.pos n).length = s.stored.length + n := by
    rw [List.length_append, hlen]
  refine ⟨?_, ?_, ?_, ?_, ?_⟩
  · simp only [PreadState.advance, hstored]
    rw [← slice_append, ← h.stored, ← hpos]
  · simp only [PreadState.advance, hstored]
    omega
  · simp only [PreadState.advance, hstored]
    omega
  · simp only [PreadState.advance, hstored, h.ret]
    rw [Int.bmod_eq_of_le_mul_two (by omega) (by omega)]
    push_cast
    rfl
  · intro c' hc'
    rcases List.mem_append.mp hc' with hc' | hc'
    · exact h.calls c' hc'
    · rw [List.mem_singleton.mp hc']
      exact hc

include hdisk

lemma preadFirst_ok (hsize : s.size ≠ 0) : ∃ s',
    preadFirst disk s = .ok s' ∧ Delivers disk start total s' ∧
      (s'.size = 0 ∨ s'.pos % preadBlockSize = 0) := by
  have hlen := h.size
  have hpos := h.pos
  have hmod := Nat.mod_lt s.pos preadBlockSize_pos
  have hle := Nat.mod_le s.pos preadBlockSize
  have hblock := block_inside hdisk (by omega : s.pos < disk.length)
  have haligned : (s.pos - s.pos % preadBlockSize) % preadBlockSize = 0 := by
    rw [Nat.sub_mod_eq_zero_of_mod_eq (Nat.mod_mod _ _).symm]
  obtain ⟨k, hk⟩ : ∃ k, k = min s.size (preadBlockSize - s.pos % preadBlockSize) := ⟨_, rfl⟩
  have hstored := slice_block (s.block.drop preadBlockSize)
    (by omega : s.pos % preadBlockSize + k ≤ preadBlockSize) hblock
  rw [Nat.sub_add_cancel hle] at hstored
  refine ⟨_, ?_, h.advance htotal hin (by omega : k ≤ s.size)
    (wholeBlocks_block haligned hblock)
    (slice disk (s.pos - s.pos % preadBlockSize) preadBlockSize ++ s.block.drop preadBlockSize), ?_⟩
  · simp only [preadFirst, fetchBlock_inside hblock, Outcome.assertThat_true, Outcome.ok_bind,
      Outcome.pure_eq, ← hk, hstored]
  · simp only [PreadState.advance]
    have hdiv := Nat.div_add_mod s.pos preadBlockSize
    rcases Nat.le_total s.size (preadBlockSize - s.pos % preadBlockSize) with hshort | hlong
    · exact Or.inl (by omega)
    · right
      have hend : s.pos + k = preadBlockSize * (s.pos / preadBlockSize + 1) := by
        rw [Nat.mul_add]
        omega
      rw [hend, Nat.mul_mod_right]

lemma preadLast_ok (haligned : s.pos % preadBlockSize = 0) (hsize : s.size ≠ 0)
    (hshort : s.size < preadBlockSize) : ∃ s',
    preadLast disk s = .ok s' ∧ Delivers disk start total s' ∧ s'.size = 0 := by
  have hlen := h.size
  have hpos := h.pos
  have hblock := block_inside hdisk (by omega : s.pos < disk.length)
  rw [haligned, Nat.sub_zero] at hblock
  have hstored := slice_block (s.block.drop preadBlockSize)
    (by omega : 0 + s.size ≤ preadBlockSize) hblock
  refine ⟨_, ?_, h.advance htotal hin le_rfl (wholeBlocks_block haligned hblock)
    (slice disk s.pos preadBlockSize ++ s.block.drop preadBlockSize), Nat.sub_self _⟩
  simp only [preadLast, fetchBlock_inside hblock, Outcome.assertThat_true, hshort, Outcome.ok_bind,
    Outcome.pure_eq, hstored, Nat.add_zero]

omit hdisk in
lemma preadMid_ok (haligned : s.pos % preadBlockSize = 0) (hn : n ≤ s.size) (hpos : 0 < n)
    (hwhole : n % preadBlockSize = 0) : ∃ s', preadMid disk s n = .ok s' ∧
      Delivers disk start total s' ∧ s'.pos = s.pos + n ∧ s'.size = s.size - n := by
  have hlen := h.size
  have hstart := h.pos
  have hinside : s.pos + n ≤ disk.length := by omega
  have hc : PreadCall.WholeBlocks disk ⟨n, s.pos⟩ := ⟨haligned, hpos, hwhole, hinside⟩
  have hint : (n : ℤ) % 2 ^ 64 = n := Int.emod_eq_of_lt (by omega) (by omega)
  refine ⟨_, ?_, h.advance htotal hin hn hc s.block, rfl, rfl⟩
  simp only [preadMid, pread_inside hinside (by omega), hint, Outcome.assertThat_true,
    Outcome.ok_bind, Outcome.pure_eq]

lemma preadAligned_ok (haligned : s.pos % preadBlockSize = 0) (hsize : s.size ≠ 0) : ∃ s',
    preadAligned disk s = .ok s' ∧ Delivers disk start total s' ∧ s'.size = 0 := by
  have hdiv := Nat.div_add_mod s.size preadBlockSize
  have hmod := Nat.mod_lt s.size preadBlockSize_pos
  obtain ⟨k, hk⟩ : ∃ k, k = s.size / preadBlockSize * preadBlockSize := ⟨_, rfl⟩
  rw [Nat.mul_comm, ← hk] at hdiv
  simp only [preadAligned, haligned, Outcome.assertThat_true, Outcome.ok_bind, ← hk]
  by_cases hmid : k = 0
  · rw [if_neg (not_not.mpr hmid)]
    exact preadLast_ok hdisk htotal hin h haligned hsize (by omega)
  · have hwhole : k % preadBlockSize = 0 := by rw [hk, Nat.mul_mod_left]
    obtain ⟨s', hrun, h', hpos', hsize'⟩ :=
      preadMid_ok htotal hin h haligned (by omega) (by omega) hwhole
    rw [if_pos hmid, hrun, Outcome.ok_bind]
    by_cases hzero : s'.size = 0
    · exact ⟨s', if_pos hzero, h', hzero⟩
    · have haligned' : s'.pos % preadBlockSize = 0 := by
        rw [hpos', Nat.add_mod, haligned, hwhole]
        rfl
      rw [if_neg hzero]
      exact preadLast_ok hdisk htotal hin h' haligned' hzero (by omega)

end

lemma Delivers.done (h : Delivers disk pos size s) (hzero : s.size = 0) :
    s.ret = size ∧ s.stored = slice disk pos size := by
  have hlen : s.stored.length = size := by
    have := h.size
    omega
  exact ⟨by rw [h.ret, hlen], by rw [h.stored, hlen]⟩

lemma preadWrapper_delivers (hdisk : disk.length % preadBlockSize = 0) (block : List UInt8)
    (hsize : size < 2 ^ 31) (hin : pos + size ≤ disk.length) (hne : size ≠ 0) : ∃ s,
    preadWrapper disk block size pos = .ok s ∧ Delivers disk pos size s ∧ s.size = 0 := by
  have hstart : Delivers disk pos size ⟨block, [], size, pos, 0, []⟩ :=
    ⟨(slice_zero _ _).symm, rfl, Nat.zero_add _, rfl, fun c hc => nomatch hc⟩
  rw [preadWrapper]
  by_cases hoffset : pos % preadBlockSize = 0
  · rw [if_neg (not_not.mpr hoffset)]
    exact preadAligned_ok hdisk hsize hin hstart hoffset hne
  · obtain ⟨s, hfirst, h, hend⟩ := preadFirst_ok hdisk hsize hin hstart hne
    rw [if_pos hoffset, hfirst, Outcome.ok_bind]
    by_cases hzero : s.size = 0
    · exact ⟨s, if_pos hzero, h, hzero⟩
    · rw [if_neg hzero]
      exact preadAligned_ok hdisk hsize hin h (hend.resolve_left hzero) hzero

theorem preadWrapper_diskRead (hdisk : disk.length % preadBlockSize = 0) (block : List UInt8)
    (hsize : size < 2 ^ 31) (hin : pos + size ≤ disk.length) (hne : size ≠ 0) : ∃ s,
    preadWrapper disk block size pos = .ok s ∧
      diskRead (fun a => disk.getD a 0) pos size = .ok s.stored := by
  obtain ⟨s, hrun, h, hzero⟩ := preadWrapper_delivers hdisk block hsize hin hne
  refine ⟨s, hrun, ?_⟩
  rw [diskRead_eq hsize, readAt_getD hin, (h.done hzero).2]

/-- Reading whole blocks delivers what a single read would, for every range of a disk of whole
blocks, and no assertion fails. -/
theorem preadWrapper_plain (hdisk : disk.length % preadBlockSize = 0) (block : List UInt8)
    (hpos : 1 ≤ size) (hsize : size < 2 ^ 31) (hin : pos + size ≤ disk.length) : ∃ s,
    preadWrapper disk block size pos = .ok s ∧ s.ret = size ∧
      (s.ret, s.stored) = preadWrapperPlain disk size pos ∧
      ∀ c ∈ s.calls, c.WholeBlocks disk := by
  obtain ⟨s, hrun, h, hzero⟩ :=
    preadWrapper_delivers hdisk block hsize hin (Nat.pos_iff_ne_zero.mp hpos)
  obtain ⟨hret, hstored⟩ := h.done hzero
  refine ⟨s, hrun, hret, ?_, h.calls⟩
  rw [preadWrapperPlain, pread_inside hin hsize, hret, hstored]

/-- A range that begins and ends inside of blocks, with a whole block between them. -/
theorem preadWrapper_plain_threeBlocks : ∃ s,
    preadWrapper (List.replicate 3072 7) [] 1500 1000 = .ok s ∧ s.ret = (1500 : ℕ) ∧
      (s.ret, s.stored) = preadWrapperPlain (List.replicate 3072 7) 1500 1000 ∧
      ∀ c ∈ s.calls, c.WholeBlocks (List.replicate 3072 7) := by
  have hlen : (List.replicate 3072 (7 : UInt8)).length = 3072 := List.length_replicate
  refine preadWrapper_plain ?_ [] (by norm_num) (by norm_num) ?_
  · rw [hlen, preadBlockSize]
  · rw [hlen]
    norm_num

end Spotlight.Ext4
