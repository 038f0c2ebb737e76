import Spotlight.XzBlock

/-! Runs of `xz_read` over the `read_block` of the code. As long as the calls of `read_block` can
be managed they are the runs over blocks that are decoded in whole or refused. -/
namespace Spotlight.Xz
open Bytes

/-- `read_block` as `xz_read` uses it. What its calls return may differ from run to run. -/
def calledReadBlock (calls : Heap (List UInt8) → ℤ → BlockCalls)
    (caller : Heap (List UInt8) → ℤ → Caller) (buffers : Heap (List UInt8)) (offset : ℤ) :
    Outcome BlockRead :=
  BlockRun.toBlockRead <$> readBlock (calls buffers offset) (caller buffers offset) buffers

/-- The cache after a sequence of calls with memory for the entries, with the number and the bytes
that each of them gives. -/
def xzAnswersWith (readBlock : Heap (List UInt8) → ℤ → Outcome BlockRead) :
    CacheState → List ReadCall → Outcome (CacheState × List (ℤ × List UInt8))
  | s, [] => return (s, [])
  | s, c :: calls => do
    let (s, answer) ← xzReadWith readBlock enoughMemory (c.length + 1) s c.offset c.length
    let (s, answers) ← xzAnswersWith readBlock s calls
    return (s, answer :: answers)

/-- A `read_block` that succeeds as the one of the reader does, and leaves no buffer behind when
it fails. -/
def Implements (r : XzReader) (readBlock : Heap (List UInt8) → ℤ → Outcome BlockRead) : Prop :=
  ∀ buffers offset, ∃ b b', readBlock buffers offset = .ok b ∧
    r.readBlock buffers offset = .ok b' ∧ b.buffers.cells = b'.buffers.cells ∧
      (b.ret = .ok ↔ b'.ret = .ok) ∧ (b.ret = .ok → b = b')

variable {r : XzReader} {content : List UInt8} {s s' : CacheState}
  {l l' : Lru XzBlock maxNumBlocksCache} {offset : ℤ} {b : XzBlock}
  {readBlock readBlock' : Heap (List UInt8) → ℤ → Outcome BlockRead}

lemma implements_self (r : XzReader) : Implements r r.readBlock := by
  intro buffers offset
  obtain ⟨b, hb⟩ : ∃ b, r.readBlock buffers offset = .ok b := by
    unfold XzReader.readBlock
    cases r.locate offset with
    | none => exact ⟨_, rfl⟩
    | some b =>
      dsimp only
      cases r.decodeBlock b with
      | none => exact ⟨_, rfl⟩
      | some bytes => exact ⟨_, rfl⟩
  exact ⟨b, b, hb, hb, rfl, Iff.rfl, fun _ => rfl⟩

lemma implements_calledReadBlock {calls : Heap (List UInt8) → ℤ → BlockCalls}
    {caller : Heap (List UInt8) → ℤ → Caller}
    (hmanageable : ∀ buffers offset, (calls buffers offset).Manageable (caller buffers offset))
    (hreads : ∀ buffers offset, Reads r offset (calls buffers offset)) :
    Implements r (calledReadBlock calls caller) := by
  intro buffers offset
  obtain ⟨b, b', hread, hread', hcells, hret, heq⟩ :=
    readBlock_refines (hmanageable buffers offset) (hreads buffers offset) buffers
  exact ⟨b.toBlockRead, b', by simp [calledReadBlock, hread], hread', hcells, hret, heq⟩

lemma Implements.fetch_hit (hi : Implements r readBlock) (h : r.Consistent content)
    (hl : Keeps r content s l) (hb : b ∈ r.index) (hbo : b.Contains offset)
    (hs : supply r l b = some l') : ∃ s' p,
      fetchBlock readBlock enoughMemory s offset = .ok (s', some (p, (b.start : ℤ), b.size, true)) ∧
      Keeps r content s' l' ∧ s'.buffers.cells p = some (slice content b.start b.size) := by
  have hsame : fetchBlock readBlock enoughMemory s offset =
      fetchBlock r.readBlock enoughMemory s offset := by
    have honly := hl.only h hb hbo
    by_cases hmem : b ∈ l.items
    · obtain ⟨s', p, hget, -⟩ := getCacheBlock_hit hl.caches hmem hbo honly
      simp [fetchBlock, hget]
    · rw [supply, dif_neg hmem] at hs
      obtain ⟨hdecoded, -⟩ := Option.ite_none_right_eq_some.mp hs
      obtain ⟨bytes, hbytes⟩ := Option.isSome_iff_exists.mp hdecoded
      have hget := getCacheBlock_miss hl.caches fun c hc hco => hmem (honly c hc hco ▸ hc)
      obtain ⟨a, a', hread, hread', -, hret, heq⟩ := hi s.buffers offset
      have hok : a'.ret = .ok := by
        simp only [XzReader.readBlock, locate_eq h hb hbo, hbytes] at hread'
        rw [← Except.ok.inj hread']
      rw [heq (hret.mpr hok)] at hread
      simp [fetchBlock, hget, hread, hread']
  rw [hsame]
  exact fetchBlock_hit h hl hb hbo hs

lemma Implements.fetch_miss (hi : Implements r readBlock) (h : r.Consistent content)
    (hl : Keeps r content s l) (hlo : -2 ^ 63 ≤ offset) (hhi : offset < 2 ^ 63)
    (hrefused : Refused r l offset) : ∃ s',
      fetchBlock readBlock enoughMemory s offset = .ok (s', none) ∧ Keeps r content s' l := by
  have hout := fun b hb hbo => supply_eq_none.mp (hrefused b hb hbo)
  have hget := getCacheBlock_miss hl.caches fun c hc hco => (hout c (hl.listed c hc) hco).1 hc
  obtain ⟨b, hb, hno, hbuffers⟩ :=
    readBlock_refused h hlo hhi (fun b hb hbo => (hout b hb hbo).2) s.buffers
  obtain ⟨a, a', hread, hread', hcells, hret, -⟩ := hi s.buffers offset
  obtain rfl := Except.ok.inj (hb.symm.trans hread')
  rw [hbuffers] at hcells
  exact ⟨{ s with buffers := a.buffers }, by simp [fetchBlock, hget, hread, mt hret.mp hno],
    hl.of_cells hcells⟩

/-- Caches of the same blocks give the same answers, and become caches of the same blocks. -/
lemma xzReadWith_agree (h : r.Consistent content) (hi : Implements r readBlock)
    (hi' : Implements r readBlock') (hl : Keeps r content s l) (hl' : Keeps r content s' l)
    {length fuel : ℕ} (hf : length < fuel) (hlo : -2 ^ 63 ≤ offset) (hhi : offset < 2 ^ 63) :
    ∃ t t' k answer, xzReadWith readBlock enoughMemory fuel s offset length = .ok (t, answer) ∧
      xzReadWith readBlock' enoughMemory fuel s' offset length = .ok (t', answer) ∧
        Keeps r content t k ∧ Keeps r content t' k := by
  induction fuel generalizing s s' l length offset with
  | zero => omega
  | succ fuel ih =>
    by_cases hrefused : Refused r l offset
    · obtain ⟨t, hfetch, ht⟩ := hi.fetch_miss h hl hlo hhi hrefused
      obtain ⟨t', hfetch', ht'⟩ := hi'.fetch_miss h hl' hlo hhi hrefused
      exact ⟨t, t', l, (readerError, []), by simp [xzReadWith, hfetch],
        by simp [xzReadWith, hfetch'], ht, ht'⟩
    · obtain ⟨b, hb, hbo, k, hs⟩ : ∃ b ∈ r.index, b.Contains offset ∧
          ∃ l', supply r l b = some l' := by
        simpa [Refused, Option.ne_none_iff_exists'] using hrefused
      obtain ⟨t, p, hfetch, ht, hp⟩ := hi.fetch_hit h hl hb hbo hs
      obtain ⟨t', p', hfetch', ht', hp'⟩ := hi'.fetch_hit h hl' hb hbo hs
      obtain ⟨n, hn⟩ : ∃ n, n = min length (b.start + b.size - offset.toNat) := ⟨_, rfl⟩
      obtain ⟨hblo, hbhi⟩ := id hbo
      have hend := (h.splits.bounds.2 b hb).2
      have hfits := h.fits
      rw [xzReadWith_fetched h hb hbo hfetch hp hn, xzReadWith_fetched h hb hbo hfetch' hp' hn]
      by_cases hlt : n < length
      · rw [if_pos hlt, if_pos hlt]
        obtain ⟨u, u', k', answer, hread, hread', hu, hu'⟩ := ih ht ht'
          (show length - n < fuel by omega) (show -2 ^ 63 ≤ offset + (n : ℤ) by omega) (by omega)
        rw [CacheState.leave_hit, CacheState.leave_hit, hread, hread']
        exact ⟨u, u', k', (n + answer.1, slice content offset.toNat n ++ answer.2), rfl, rfl, hu,
          hu'⟩
      · rw [if_neg hlt, if_neg hlt]
        exact ⟨t, t', k, (n, slice content offset.toNat n), rfl, rfl, ht, ht'⟩

lemma xzAnswersWith_agree (h : r.Consistent content) (hi : Implements r readBlock)
    (hi' : Implements r readBlock') (hl : Keeps r content s l) (hl' : Keeps r content s' l)
    (calls : List ReadCall) : ∃ t t' k answers,
      xzAnswersWith readBlock s calls = .ok (t, answers) ∧
      xzAnswersWith readBlock' s' calls = .ok (t', answers) ∧
        Keeps r content t k ∧ Keeps r content t' k := by
  induction calls generalizing s s' l with
  | nil => exact ⟨s, s', l, [], rfl, rfl, hl, hl'⟩
  | cons c calls ih =>
    obtain ⟨u, u', k, answer, hread, hread', hu, hu'⟩ := xzReadWith_agree h hi hi' hl hl'
      (Nat.lt_succ_self c.length) c.offset_ge c.offset_lt
    obtain ⟨t, t', k', answers, hrest, hrest', ht, ht'⟩ := ih hu hu'
    exact ⟨t, t', k', answer :: answers, by simp [xzAnswersWith, hread, hrest],
      by simp [xzAnswersWith, hread', hrest'], ht, ht'⟩

/-- Whatever blocks of the file can be decoded, and whatever the calls of `read_block` return that
it can manage: each `xz_read` of a run gives the number and the bytes that it gives over blocks
decoded in whole or refused, and the caches hold the same blocks in the same order. -/
theorem xzAnswers_refine (h : r.Consistent content)
    {calls : Heap (List UInt8) → ℤ → BlockCalls} {caller : Heap (List UInt8) → ℤ → Caller}
    (hmanageable : ∀ buffers offset, (calls buffers offset).Manageable (caller buffers offset))
    (hreads : ∀ buffers offset, Reads r offset (calls buffers offset)) (reads : List ReadCall) :
    ∃ s s' l answers,
      xzAnswersWith (calledReadBlock calls caller) emptyCache reads = .ok (s, answers) ∧
      xzAnswersWith r.readBlock emptyCache reads = .ok (s', answers) ∧
        Keeps r content s l ∧ Keeps r content s' l := by
  have hempty : Keeps r content emptyCache Lru.empty := ⟨caches_empty, by simp [Lru.empty]⟩
  exact xzAnswersWith_agree h (implements_calledReadBlock hmanageable hreads) (implements_self r)
    hempty hempty reads

/-- Calls that decode the block of the small file that they locate. -/
def twoBlockCalls (offset : ℤ) : BlockCalls :=
  if (⟨0, 2⟩ : XzBlock).Contains (offset % 2 ^ 64) then
    { emptyPread with last := ⟨36, .streamEnd, 0, [10, 20]⟩, last_ne := by decide }
  else if (⟨2, 1⟩ : XzBlock).Contains (offset % 2 ^ 64) then
    { emptyPread with
      located := some ⟨⟨2, 1⟩, 24, by decide, by decide⟩
      last := ⟨24, .streamEnd, 0, [30]⟩
      last_ne := by decide
      inside := by
        rintro b n hb hn -
        obtain rfl := Option.some.inj hb
        obtain rfl := Option.some.inj hn
        decide }
  else { emptyPread with located := none, inside := by simp }

lemma reads_of_headed {calls : BlockCalls} {b : BlockRecord} {start : ℕ}
    (hlocate : r.locate offset = some b.toXzBlock) (hhead : calls.Headed b start)
    (hsize : calls.compressedSize = .ok) (hdecoder : calls.blockDecoder = .ok)
    (hmalloc : calls.malloc.isSome)
    (hfed : Supplied calls.fileSize start 0 (calls.turns ++ [calls.last]))
    (hle : calls.output.length ≤ b.size)
    (hend : calls.last.ret = .streamEnd → calls.output.length = b.size)
    (hdecode : r.decodeBlock b.toXzBlock =
      if calls.last.ret = .streamEnd then some calls.output else none) (start : ℤ) (size : ℕ) :
    calls.Manageable ⟨none, start, size⟩ ∧ Reads r offset calls := by
  refine ⟨fun b' start' hhead' => ?_, by rw [hlocate, hhead.1]; rfl, fun b' hb' bytes => ?_⟩
  · obtain ⟨rfl, rfl⟩ := hhead.unique hhead'
    exact ⟨fun _ => rfl, fun _ _ => ⟨hmalloc, hfed, hle, hend⟩⟩
  · obtain rfl := Option.some.inj (hhead.1.symm.trans hb')
    rw [hdecode, Option.ite_none_right_eq_some, Option.some.injEq]
    exact ⟨fun h => ⟨⟨_, hhead⟩, hsize, hdecoder, h.1, h.2.symm⟩,
      fun h => ⟨h.2.2.2.1, h.2.2.2.2.symm⟩⟩

lemma twoBlockReader_locate (offset : ℤ) : twoBlockReader.locate offset =
    if (⟨0, 2⟩ : XzBlock).Contains (offset % 2 ^ 64) then some ⟨0, 2⟩
    else if (⟨2, 1⟩ : XzBlock).Contains (offset % 2 ^ 64) then some ⟨2, 1⟩ else none := by
  simp only [XzReader.locate, twoBlockReader, List.find?_cons, List.find?_nil]
  split_ifs <;> simp_all

lemma twoBlockCalls_ok (offset : ℤ) : (twoBlockCalls offset).Manageable ⟨none, 0, 0⟩ ∧
    Reads twoBlockReader offset (twoBlockCalls offset) := by
  have hlocate := twoBlockReader_locate offset
  unfold twoBlockCalls
  split_ifs at hlocate ⊢ with hfirst hsecond
  · refine reads_of_headed hlocate ⟨rfl, rfl, 2, rfl, by decide, rfl, rfl⟩ rfl rfl rfl ?_ le_rfl
      (fun _ => rfl) rfl 0 0
    exact ⟨fun _ => rfl, trivial⟩
  · refine reads_of_headed hlocate ⟨rfl, rfl, 2, rfl, by decide, rfl, rfl⟩ rfl rfl rfl ?_ le_rfl
      (fun _ => rfl) rfl 0 0
    exact ⟨fun _ => rfl, trivial⟩
  · refine ⟨fun b start hhead => ?_, by rw [hlocate]; rfl, fun b hb => ?_⟩
    · cases hhead.1
    · cases hb

/-- A read over both blocks of the small file, and one behind its end. -/
theorem xzAnswers_refine_twoBlocks : ∃ s s' answers,
    xzAnswersWith (calledReadBlock (fun _ => twoBlockCalls) fun _ _ => ⟨none, 0, 0⟩) emptyCache
        [⟨1, 2, by decide, by decide, by decide⟩, ⟨3, 1, by decide, by decide, by decide⟩] =
      .ok (s, answers) ∧
    xzAnswersWith twoBlockReader.readBlock emptyCache
        [⟨1, 2, by decide, by decide, by decide⟩, ⟨3, 1, by decide, by decide, by decide⟩] =
      .ok (s', answers) := by
  have hdecodes : twoBlockReader.Decodes twoBlockContent :=
    ⟨⟨rfl, by decide, rfl, by decide, rfl⟩, by decide, fun _ _ => rfl⟩
  obtain ⟨s, s', -, answers, hrun, hrun', -⟩ := xzAnswers_refine hdecodes.consistent
    (fun _ offset => (twoBlockCalls_ok offset).1) (fun _ offset => (twoBlockCalls_ok offset).2)
    [⟨1, 2, by decide, by decide, by decide⟩, ⟨3, 1, by decide, by decide, by decide⟩]
  exact ⟨s, s', answers, hrun, hrun'⟩

end Spotlight.Xz
