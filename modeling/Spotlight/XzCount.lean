import Spotlight.XzRefine

/-! The number that `xz_read` returns, also when blocks cannot be read. -/
namespace Spotlight.Xz
open Bytes

/-- One call, with what `malloc` of an entry and the calls of its `read_block` return, and what the
blocks decode to while it runs. -/
structure Attempt extends ReadCall where
  malloc : CacheState → Bool
  calls : Heap (List UInt8) → ℤ → BlockCalls
  caller : Heap (List UInt8) → ℤ → Caller
  decodeBlock : XzBlock → Option (List UInt8)

def Attempt.reader (a : Attempt) (index : List XzBlock) : XzReader := ⟨index, a.decodeBlock⟩

def Attempt.readBlock (a : Attempt) : Heap (List UInt8) → ℤ → Outcome BlockRead :=
  calledReadBlock a.calls a.caller

/-- The cache after a sequence of calls, each with the blocks that can be decoded then. -/
def xzAttempts : CacheState → List Attempt → Outcome CacheState
  | s, [] => .ok s
  | s, a :: attempts => do
    let (s, _) ← xzReadWith a.readBlock a.malloc (a.length + 1) s a.offset a.length
    xzAttempts s attempts

/-- The blocks are those of the index, and each `read_block` delivers its block in whole or reports
an error: there is memory, and no `pread` of the data is short. -/
structure Attempt.Manageable (a : Attempt) (index : List XzBlock) (content : List UInt8) :
    Prop where
  memory : ∀ s, a.malloc s = true
  consistent : (a.reader index).Consistent content
  manageable : ∀ buffers offset, (a.calls buffers offset).Manageable (a.caller buffers offset)
  reads : ∀ buffers offset, Reads (a.reader index) offset (a.calls buffers offset)

/-- The result is an error, or the number of the bytes stored. These come from the offset on,
and fewer than asked for were stored only at the end of the content or at a failing block. -/
def Counted (r : XzReader) (content : List UInt8) (c : ReadCall) (ret : ℤ) (bytes : List UInt8) :
    Prop :=
  ret = readerError ∨
    (ret = bytes.length ∧ bytes = slice content c.offset.toNat bytes.length ∧
      (bytes.length < c.length → (content.length : ℤ) ≤ c.offset + bytes.length ∨
        ∃ b ∈ r.index, b.Contains (c.offset + bytes.length) ∧ r.decodeBlock b = none))

variable {content : List UInt8} {index : List XzBlock} {s : CacheState} {a : Attempt}
  {l : Lru XzBlock maxNumBlocksCache}

lemma Keeps.reindex {r r' : XzReader} (hr : r.index = r'.index) (h : Keeps r content s l) :
    Keeps r' content s l :=
  ⟨h.caches, hr ▸ h.listed⟩

lemma Attempt.Manageable.malloc_eq (h : a.Manageable index content) : a.malloc = enoughMemory :=
  funext h.memory

lemma Attempt.Manageable.implements (h : a.Manageable index content) :
    Implements (a.reader index) a.readBlock :=
  implements_calledReadBlock h.manageable h.reads

lemma xzAttempts_keeps {attempts : List Attempt} {r : XzReader} (hr : r.index = index)
    (h : ∀ a ∈ attempts, a.Manageable index content) (hl : Keeps r content s l) :
    ∃ s' l', xzAttempts s attempts = .ok s' ∧ Keeps r content s' l' := by
  induction attempts generalizing s l with
  | nil => exact ⟨s, l, rfl, hl⟩
  | cons a attempts ih =>
    have ha := h a List.mem_cons_self
    have hla : Keeps (a.reader index) content s l := hl.reindex hr
    obtain ⟨s₁, -, l₁, answer, hread, -, hl₁, -⟩ := xzReadWith_agree ha.consistent ha.implements
      (implements_self _) hla hla (Nat.lt_succ_self a.length) a.offset_ge a.offset_lt
    obtain ⟨s', l', hrun, hl'⟩ :=
      ih (fun b hb => h b (List.mem_cons_of_mem _ hb)) (Keeps.reindex hr.symm hl₁)
    exact ⟨s', l', by simp [xzAttempts, ha.malloc_eq, hread, hrun], hl'⟩

/-- A call returns what it should exactly when the offset is refused at once or the whole range
is served. A read that stops in between returns one less than it delivered. -/
lemma counted_iff {r : XzReader} (h : r.Consistent content) (hl : Keeps r content s l)
    (c : ReadCall) {fuel : ℕ} (hf : c.length < fuel) : ∃ s' ret bytes,
      xzRead r enoughMemory fuel s c.offset c.length = .ok (s', ret, bytes) ∧
      (Counted r content c ret bytes ↔
        Refused r l c.offset ∨ Served r content l c.offset c.length) := by
  obtain ⟨s', ret, k, hread, -, hk, hserved, hnot⟩ :=
    xzRead_result h hl hf c.offset_ge c.offset_lt
  refine ⟨s', ret, _, hread, ?_⟩
  by_cases hs : Served r content l c.offset c.length
  · obtain ⟨hall, hret⟩ := hserved hs
    refine iff_of_true (.inr ⟨?_, ?_, fun hlt => ?_⟩) (.inr hs)
    · rw [hk, hret, hall]
    · rw [hk]
    · omega
  · obtain ⟨hret, hzero⟩ := hnot hs
    by_cases hr : Refused r l c.offset
    · have hnone := hzero.mpr hr
      exact iff_of_true (.inl (by rw [hret, hnone]; rfl)) (.inl hr)
    · have hpos := mt hzero.mp hr
      refine iff_of_false ?_ (not_or.mpr ⟨hr, hs⟩)
      rintro (herror | ⟨hcount, -⟩)
      · unfold readerError at herror
        omega
      · omega

lemma Attempt.Manageable.counted_iff (h : a.Manageable index content)
    (hl : Keeps (a.reader index) content s l) {fuel : ℕ} (hf : a.length < fuel) :
    ∃ s' ret bytes,
      xzReadWith a.readBlock a.malloc fuel s a.offset a.length = .ok (s', ret, bytes) ∧
      (Counted (a.reader index) content a.toReadCall ret bytes ↔
        Refused (a.reader index) l a.offset ∨
          Served (a.reader index) content l a.offset a.length) := by
  obtain ⟨s', t, k, answer, hread, hread', -⟩ := xzReadWith_agree h.consistent h.implements
    (implements_self _) hl hl hf a.offset_ge a.offset_lt
  obtain ⟨s'', ret, bytes, hideal, hiff⟩ := Xz.counted_iff h.consistent hl a.toReadCall hf
  obtain ⟨-, rfl⟩ := Prod.mk.inj (Except.ok.inj (hread'.symm.trans hideal))
  exact ⟨s', ret, bytes, by rw [h.malloc_eq, hread], hiff⟩

/-- After any calls, with any blocks unreadable at any time: a call returns an error or the number
of the bytes it delivered exactly when nothing or the whole range is delivered, as long as each
`read_block` of them delivers its block or reports an error. -/
theorem xzRead_count {attempts : List Attempt} (h : ∀ a ∈ attempts, a.Manageable index content) :
    ∃ s l, xzAttempts emptyCache attempts = .ok s ∧
      Caches (fun b => slice content b.start b.size) s l ∧
      ∀ (a : Attempt) (fuel : ℕ), a.Manageable index content → a.length < fuel →
        ∃ s' ret bytes,
          xzReadWith a.readBlock a.malloc fuel s a.offset a.length = .ok (s', ret, bytes) ∧
          (Counted (a.reader index) content a.toReadCall ret bytes ↔
            Refused (a.reader index) l a.offset ∨
              Served (a.reader index) content l a.offset a.length) := by
  have hempty : Keeps ⟨index, fun _ => none⟩ content emptyCache Lru.empty :=
    ⟨caches_empty, by simp [Lru.empty]⟩
  obtain ⟨s, l, hrun, hl⟩ := xzAttempts_keeps rfl h hempty
  refine ⟨s, l, hrun, hl.caches, fun a fuel ha hf => ?_⟩
  have hindex : index = (a.reader index).index := rfl
  exact ha.counted_iff (hl.reindex hindex) hf

/-- The decoder finds the data of the second block of the small file damaged. -/
def brokenCalls (offset : ℤ) : BlockCalls :=
  if ¬(⟨0, 2⟩ : XzBlock).Contains (offset % 2 ^ 64) ∧
      (⟨2, 1⟩ : XzBlock).Contains (offset % 2 ^ 64) then
    { twoBlockCalls offset with last := ⟨24, .dataError, 0, []⟩, last_ne := by decide }
  else twoBlockCalls offset

/-- A read of some bytes from the front while the second of two blocks cannot be decoded. -/
def brokenSecond (length : ℕ) (h : length < 2 ^ 64) : Attempt where
  offset := 0
  length := length
  offset_ge := by decide
  offset_lt := by decide
  length_lt := h
  malloc := enoughMemory
  calls _ := brokenCalls
  caller _ _ := ⟨none, 0, 0⟩
  decodeBlock b := if b.start = 0 then some [10, 20] else none

lemma brokenCalls_ok {length : ℕ} (h : length < 2 ^ 64) (offset : ℤ) :
    (brokenCalls offset).Manageable ⟨none, 0, 0⟩ ∧
      Reads ((brokenSecond length h).reader twoBlockReader.index) offset (brokenCalls offset) := by
  have hlocate : ((brokenSecond length h).reader twoBlockReader.index).locate offset = _ :=
    twoBlockReader_locate offset
  unfold brokenCalls twoBlockCalls
  by_cases hfirst : (⟨0, 2⟩ : XzBlock).Contains (offset % 2 ^ 64)
  · simp only [hfirst, if_true, not_true, false_and, if_false] at hlocate ⊢
    refine reads_of_headed hlocate ⟨rfl, rfl, 2, rfl, by decide, rfl, rfl⟩ rfl rfl rfl ?_ le_rfl
      (fun _ => rfl) rfl 0 0
    exact ⟨fun _ => rfl, trivial⟩
  · by_cases hsecond : (⟨2, 1⟩ : XzBlock).Contains (offset % 2 ^ 64)
    · simp only [hfirst, hsecond, if_true, not_false_eq_true, true_and, if_false] at hlocate ⊢
      refine reads_of_headed hlocate ⟨rfl, rfl, 2, rfl, by decide, rfl, rfl⟩ rfl rfl rfl ?_
        (Nat.zero_le _) (fun hend => by cases hend) rfl 0 0
      exact ⟨fun _ => rfl, trivial⟩
    · simp only [hfirst, hsecond, and_false, if_false] at hlocate ⊢
      refine ⟨fun b start hhead => ?_, by rw [hlocate]; rfl, fun b hb => ?_⟩
      · cases hhead.1
      · cases hb

lemma brokenSecond_manageable {length : ℕ} (h : length < 2 ^ 64) :
    (brokenSecond length h).Manageable twoBlockReader.index twoBlockContent where
  memory _ := rfl
  consistent := by
    refine ⟨⟨rfl, by decide, rfl, by decide, rfl⟩, by decide, fun b hb bytes hbytes => ?_⟩
    rcases List.mem_cons.mp hb with rfl | hb
    · exact (Option.some.inj hbytes).symm
    · obtain rfl := List.mem_singleton.mp hb
      cases hbytes
  manageable _ offset := (brokenCalls_ok h offset).1
  reads _ offset := (brokenCalls_ok h offset).2

/-- After a call that stopped at the second block, a call inside the first one. -/
theorem xzRead_count_brokenSecond : ∃ s l,
    xzAttempts emptyCache [brokenSecond 3 (by decide)] = .ok s ∧
      Caches (fun b => slice twoBlockContent b.start b.size) s l ∧
      ∃ s' ret bytes,
        xzReadWith (brokenSecond 2 (by decide)).readBlock enoughMemory 3 s 0 2 =
          .ok (s', ret, bytes) ∧
        Counted ((brokenSecond 2 (by decide)).reader twoBlockReader.index) twoBlockContent
          (brokenSecond 2 (by decide)).toReadCall ret bytes := by
  have hattempts : ∀ a ∈ [brokenSecond 3 (by decide)],
      a.Manageable twoBlockReader.index twoBlockContent := by
    intro a ha
    obtain rfl := List.mem_singleton.mp ha
    exact brokenSecond_manageable _
  obtain ⟨s, l, hrun, hl, hcall⟩ := xzRead_count hattempts
  obtain ⟨s', ret, bytes, hread, hiff⟩ :=
    hcall (brokenSecond 2 (by decide)) 3 (brokenSecond_manageable _) (by decide)
  have htouched : touched ((brokenSecond 2 (by decide)).reader twoBlockReader.index) 0 2 =
      [⟨0, 2⟩] := by decide
  refine ⟨s, l, hrun, hl, s', ret, bytes, hread,
    hiff.mpr (.inr ⟨le_rfl, by decide, foldlM_supply (fun b hb => ?_) l⟩)⟩
  have hmem : b ∈ [(⟨0, 2⟩ : XzBlock)] := htouched ▸ hb
  obtain rfl := List.mem_singleton.mp hmem
  rfl

/-- Two bytes are delivered before the second block fails, and the call returns one. -/
theorem xzRead_count_counterexample :
    (brokenSecond 3 (by decide)).Manageable twoBlockReader.index twoBlockContent ∧
      ∃ s' ret bytes,
        xzReadWith (brokenSecond 3 (by decide)).readBlock enoughMemory 4 emptyCache 0 3 =
          .ok (s', ret, bytes) ∧
        ret = 1 ∧ bytes = [10, 20] ∧
        ¬Counted ((brokenSecond 3 (by decide)).reader twoBlockReader.index) twoBlockContent
          (brokenSecond 3 (by decide)).toReadCall ret bytes :=
  ⟨brokenSecond_manageable _, _, 1, [10, 20], rfl, rfl, rfl, by simp [Counted, readerError]⟩

end Spotlight.Xz
