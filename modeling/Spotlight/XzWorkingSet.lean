import Spotlight.XzRead

/-! How often the blocks of an xz file are decoded (`xz_reader.c`): in every run of reads as often
as a list of the 32 blocks used last is missed. -/
namespace Spotlight.Xz
open Bytes

variable {r : XzReader} {content : List UInt8} {s s' : CacheState}

/-- The blocks decoded so far: each has been given a buffer of its own. -/
def CacheState.decoded (s : CacheState) : ℕ := s.buffers.next

/-! Only a block that is decoded takes a new buffer. -/

lemma unlinkFromNext_buffers {entry : ℕ} (h : unlinkFromNext s entry = .ok s') :
    s'.buffers = s.buffers := by
  obtain ⟨e, -, h⟩ := Outcome.bind_eq_ok.mp h
  cases hnext : e.next with
  | none =>
    rw [hnext] at h
    obtain ⟨-, -, h⟩ := Outcome.bind_eq_ok.mp h
    cases h
    rfl
  | some next =>
    rw [hnext] at h
    obtain ⟨entries, -, h⟩ := Outcome.bind_eq_ok.mp h
    cases h
    rfl

lemma moveToCacheHead_buffers {entry : ℕ} (h : moveToCacheHead s entry = .ok s') :
    s'.buffers = s.buffers := by
  rw [moveToCacheHead] at h
  split_ifs at h
  · cases h
    rfl
  · obtain ⟨s₁, hunlink, h⟩ := Outcome.bind_eq_ok.mp h
    obtain ⟨e, -, h⟩ := Outcome.bind_eq_ok.mp h
    obtain ⟨prev, -, h⟩ := Outcome.bind_eq_ok.mp h
    obtain ⟨m₁, -, h⟩ := Outcome.bind_eq_ok.mp h
    obtain ⟨m₂, -, h⟩ := Outcome.bind_eq_ok.mp h
    obtain ⟨m₃, -, h⟩ := Outcome.bind_eq_ok.mp h
    obtain ⟨next, -, h⟩ := Outcome.bind_eq_ok.mp h
    obtain ⟨m₄, -, h⟩ := Outcome.bind_eq_ok.mp h
    cases h
    exact (unlinkFromNext_buffers hunlink :)

lemma getCacheBlock_decoded {offset : ℤ} {found : Option (ℕ × ℤ × ℕ)}
    (h : getCacheBlock s offset = .ok (s', found)) : s'.decoded = s.decoded := by
  obtain ⟨entry, -, h⟩ := Outcome.bind_eq_ok.mp h
  cases entry with
  | none =>
    cases h
    rfl
  | some entry =>
    obtain ⟨e, -, h⟩ := Outcome.bind_eq_ok.mp h
    obtain ⟨s₁, hmove, h⟩ := Outcome.bind_eq_ok.mp h
    cases h
    exact congrArg Heap.next (moveToCacheHead_buffers hmove)

lemma addNewBlock_decoded {malloc : CacheState → Bool} {block size : ℕ} {offset : ℤ}
    {cacheHit : Bool}
    (h : addNewBlock malloc s block offset size = .ok (s', cacheHit)) :
    s'.decoded = s.decoded := by
  rw [addNewBlock] at h
  split_ifs at h with hnone hrefused hroom
  · cases h
    rfl
  · cases h
    rfl
  · cases hfirst : s.cache.first <;> cases hlast : s.cache.last <;>
      simp only [hfirst, hlast, Outcome.pure_eq, Outcome.ok_bind] at h
    · obtain ⟨-, -, h⟩ := Outcome.bind_eq_ok.mp h
      cases h
      rfl
    · cases h
      rfl
    · obtain ⟨entries, -, h⟩ := Outcome.bind_eq_ok.mp h
      obtain ⟨-, -, h⟩ := Outcome.bind_eq_ok.mp h
      cases h
      rfl
    · obtain ⟨entries, -, h⟩ := Outcome.bind_eq_ok.mp h
      cases h
      rfl
  · obtain ⟨last, -, h⟩ := Outcome.bind_eq_ok.mp h
    obtain ⟨s₁, hmove, h⟩ := Outcome.bind_eq_ok.mp h
    obtain ⟨first, -, h⟩ := Outcome.bind_eq_ok.mp h
    obtain ⟨e, -, h⟩ := Outcome.bind_eq_ok.mp h
    obtain ⟨buffers, hfree, h⟩ := Outcome.bind_eq_ok.mp h
    obtain ⟨entries, -, h⟩ := Outcome.bind_eq_ok.mp h
    cases h
    rw [CacheState.decoded, Heap.free_eq_ok hfree, moveToCacheHead_buffers hmove]
    rfl

lemma fetchBlock_decoded (h : r.Consistent content) {l l' : Lru XzBlock maxNumBlocksCache}
    (hl : Keeps r content s l) {offset : ℤ} {b : XzBlock} (hb : b ∈ r.index)
    (hbo : b.Contains offset) (hs : supply r l b = some l') {found : Option (ℕ × ℤ × ℕ × Bool)}
    (hfetch : fetchBlock r.readBlock enoughMemory s offset = .ok (s', found)) :
    s'.decoded = s.decoded + if b ∈ l.items then 0 else 1 := by
  have honly := hl.only h hb hbo
  rw [fetchBlock] at hfetch
  split_ifs with hmem
  · obtain ⟨s₁, p, hget, -⟩ := getCacheBlock_hit hl.caches hmem hbo honly
    rw [hget] at hfetch
    cases hfetch
    exact getCacheBlock_decoded hget
  · rw [supply, dif_neg hmem] at hs
    obtain ⟨bytes, hbytes⟩ := Option.isSome_iff_exists.mp (Option.ite_none_right_eq_some.mp hs).1
    have hget := getCacheBlock_miss hl.caches fun c hc hco => hmem (honly c hc hco ▸ hc)
    have hread := readBlock_decoded h hb hbo hbytes s.buffers
    rw [hget, Outcome.ok_bind] at hfetch
    simp only [hread, Outcome.ok_bind, ne_eq, not_true_eq_false, if_false,
      Outcome.deref_some] at hfetch
    obtain ⟨⟨s₁, cacheHit⟩, hadd, hfetch⟩ := Outcome.bind_eq_ok.mp hfetch
    cases hfetch
    exact addNewBlock_decoded hadd

/-- The cache after the given uses of blocks, the latest first. -/
structure After (r : XzReader) (content : List UInt8) (s : CacheState) (uses : List XzBlock) :
    Prop where
  keeps : Keeps r content s (Lru.ofUses maxNumBlocksCache uses)
  decoded : s.decoded = Lru.misses maxNumBlocksCache uses

lemma After.fetch (h : r.Decodes content) {uses : List XzBlock} (ha : After r content s uses)
    {offset : ℤ} {b : XzBlock} (hb : b ∈ r.index) (hbo : b.Contains offset) : ∃ s' p,
      fetchBlock r.readBlock enoughMemory s offset =
        .ok (s', some (p, (b.start : ℤ), b.size, true)) ∧
      s'.buffers.cells p = some (slice content b.start b.size) ∧
      After r content s' (b :: uses) := by
  obtain ⟨l', hs, hitems⟩ : ∃ l', supply r (Lru.ofUses maxNumBlocksCache uses) b = some l' ∧
      l'.items = (Lru.ofUses maxNumBlocksCache (b :: uses)).items := by
    by_cases hmem : b ∈ (Lru.ofUses maxNumBlocksCache uses).items
    · exact ⟨_, dif_pos hmem, (Lru.ofUses_hit hmem).symm⟩
    · refine ⟨_, ?_, (Lru.ofUses_load maxNumBlocksCache_pos hmem).symm⟩
      rw [supply, dif_neg hmem, if_pos (Option.isSome_of_eq_some (h.decodes b hb))]
  obtain ⟨s', p, hfetch, hkeeps, hp⟩ := fetchBlock_hit h.consistent ha.keeps hb hbo hs
  refine ⟨s', p, hfetch, hp, ⟨⟨?_, ?_⟩, ?_⟩⟩
  · obtain ⟨slots, hslots, hblocks⟩ := hkeeps.caches
    exact ⟨slots, hslots, hblocks.trans hitems⟩
  · rw [← hitems]
    exact hkeeps.listed
  · rw [fetchBlock_decoded h.consistent ha.keeps hb hbo hs hfetch, ha.decoded, Lru.misses]

lemma After.read (h : r.Decodes content) {uses : List XzBlock} (ha : After r content s uses)
    {length fuel : ℕ} (hf : length < fuel) {offset : ℤ} (h₀ : 0 ≤ offset) (hhi : offset < 2 ^ 63) :
    ∃ s' result, xzRead r enoughMemory fuel s offset length = .ok (s', result) ∧
      After r content s' ((touched r offset length).reverse ++ uses) := by
  induction fuel generalizing s uses length offset with
  | zero => omega
  | succ fuel ih =>
    by_cases hin : ∃ b ∈ r.index, b.Contains offset
    · obtain ⟨b, hb, hbo⟩ := hin
      obtain ⟨s₁, p, hfetch, hp, ha₁⟩ := ha.fetch h hb hbo
      obtain ⟨n, hn⟩ : ∃ n, n = min length (b.start + b.size - offset.toNat) := ⟨_, rfl⟩
      obtain ⟨hlo, hhi'⟩ := id hbo
      have hend := (h.splits.bounds.2 b hb).2
      have hfits := h.fits
      rw [xzRead, xzReadWith_fetched h.consistent hb hbo hfetch hp hn fuel]
      by_cases hlt : n < length
      · rw [if_pos hlt]
        obtain ⟨s₂, result, hread, ha₂⟩ := ih ha₁ (show length - n < fuel by omega)
          (show 0 ≤ offset + (n : ℤ) by omega) (by omega)
        rw [xzRead] at hread
        refine ⟨s₂, (n + result.1, slice content offset.toNat n ++ result.2),
          by rw [CacheState.leave_hit, hread, Outcome.ok_bind]; rfl, ?_⟩
        rw [touched_cons h.consistent hb hbo (show offset + n = b.start + b.size by omega) hlt]
        simpa using ha₂
      · rw [if_neg hlt, touched_last h.consistent hb hbo (by omega)]
        exact ⟨s₁, _, rfl, ha₁⟩
    · have hnone : ∀ b ∈ r.index, b.Contains offset → supply r (Lru.ofUses _ uses) b = none :=
        fun b hb hbo => absurd ⟨b, hb, hbo⟩ hin
      have hempty : touched r offset length = [] := by
        rw [touched, List.filter_eq_nil_iff]
        intro b hb
        have hend := (h.splits.bounds.2 b hb).2
        have hbehind : content.length ≤ offset.toNat := by
          by_contra hlt
          obtain ⟨c, hc, hco⟩ := h.splits.covers (Nat.zero_le offset.toNat) (by omega)
          exact hin ⟨c, hc, by rwa [Int.toNat_of_nonneg h₀] at hco⟩
        rw [decide_eq_true_eq]
        omega
      refine ⟨s, (readerError, []), ?_, by rwa [hempty]⟩
      simp [xzRead, xzReadWith, fetchBlock_miss h.consistent ha.keeps (by omega) hhi hnone]

def usesOf (r : XzReader) (calls : List ReadCall) : List XzBlock :=
  (calls.flatMap fun c => touched r c.offset c.length).reverse

lemma After.reads (h : r.Decodes content) {uses : List XzBlock} (ha : After r content s uses)
    {calls : List ReadCall} (h₀ : ∀ c ∈ calls, 0 ≤ c.offset) : ∃ s',
    xzReads r enoughMemory s calls = .ok s' ∧ After r content s' (usesOf r calls ++ uses) := by
  induction calls generalizing s uses with
  | nil => exact ⟨s, rfl, ha⟩
  | cons c calls ih =>
    obtain ⟨hc, hrest⟩ := List.forall_mem_cons.mp h₀
    obtain ⟨s₁, result, hread, ha₁⟩ := ha.read h (Nat.lt_succ_self c.length) hc c.offset_lt
    obtain ⟨s', hreads, ha'⟩ := ih ha₁ hrest
    refine ⟨s', by rw [xzReads, hread]; exact hreads, ?_⟩
    simpa [usesOf] using ha'

/-- In every run of calls, with memory for the entries, the blocks are decoded as often as they are
missed by a list of the 32 blocks used last. Any further calls that use at most 32 blocks decode no
more blocks than they use. -/
theorem xzReads_decoded (h : r.Decodes content) {calls more : List ReadCall}
    (h₀ : ∀ c ∈ calls ++ more, 0 ≤ c.offset) : ∃ s s',
    xzReads r enoughMemory emptyCache calls = .ok s ∧ xzReads r enoughMemory s more = .ok s' ∧
      s.decoded = Lru.misses maxNumBlocksCache (usesOf r calls) ∧
      s'.decoded = Lru.misses maxNumBlocksCache (usesOf r more ++ usesOf r calls) ∧
      ((usesOf r more).eraseDups.length ≤ maxNumBlocksCache →
        s'.decoded ≤ s.decoded + (usesOf r more).eraseDups.length) := by
  have hempty : After r content emptyCache [] := by
    refine ⟨⟨caches_empty, fun b hb => by cases hb⟩, rfl⟩
  obtain ⟨hcalls, hmore⟩ := List.forall_mem_append.mp h₀
  obtain ⟨s, hrun, ha⟩ := hempty.reads h hcalls
  rw [List.append_nil] at ha
  obtain ⟨s', hrun', ha'⟩ := ha.reads h hmore
  refine ⟨s, s', hrun, hrun', ha.decoded, ha'.decoded, fun hfew => ?_⟩
  rw [ha.decoded, ha'.decoded]
  exact Lru.misses_append_le hfew

/-- The second block is decoded for the first read, and the first one for the read behind it. -/
theorem xzReads_decoded_twoBlocks : ∃ s s',
    xzReads twoBlockReader enoughMemory emptyCache
        [⟨2, 1, by decide, by decide, by decide⟩] = .ok s ∧
      xzReads twoBlockReader enoughMemory s [⟨0, 3, by decide, by decide, by decide⟩] = .ok s' ∧
      s.decoded = 1 ∧ s'.decoded = 2 := by
  have hdecodes : twoBlockReader.Decodes twoBlockContent :=
    ⟨⟨rfl, by decide, rfl, by decide, rfl⟩, by decide, fun _ _ => rfl⟩
  obtain ⟨s, s', hrun, hrun', hfirst, hsecond, -⟩ := xzReads_decoded hdecodes
    (show ∀ c ∈ [(⟨2, 1, by decide, by decide, by decide⟩ : ReadCall)] ++
      [⟨0, 3, by decide, by decide, by decide⟩], 0 ≤ c.offset by simp)
  exact ⟨s, s', hrun, hrun', hfirst.trans (by decide), hsecond.trans (by decide)⟩

end Spotlight.Xz
