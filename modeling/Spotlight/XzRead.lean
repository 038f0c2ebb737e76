import Spotlight.Bytes
import Spotlight.Lzma
import Spotlight.XzLru

/-! Reading a range of an xz file (`xz_read`). The index and the decoder of single blocks are
those of the lzma library. -/
namespace Spotlight.Xz
open Bytes

def readerError : ℤ := -1

/-- The block records of the index, and the bytes that a block of the file decodes to, if its
header and its data are sound. -/
structure XzReader where
  index : List XzBlock
  decodeBlock : XzBlock → Option (List UInt8)

/-- `lzma_index_iter_locate`, which takes the offset as an unsigned 64-bit number. -/
def XzReader.locate (r : XzReader) (offset : ℤ) : Option XzBlock :=
  r.index.find? fun b => b.Contains (offset % 2 ^ 64)

/-- What `read_block` leaves: its code, the buffers, the caller's pointer, and the block's start
and size. -/
structure BlockRead where
  ret : LzmaRet
  buffers : Heap (List UInt8)
  data : Option ℕ
  start : ℤ
  size : ℕ

/-- `read_block` on a file whose blocks are decoded in whole or refused. -/
def XzReader.readBlock (r : XzReader) (buffers : Heap (List UInt8)) (offset : ℤ) :
    Outcome BlockRead :=
  match r.locate offset with
  | none => .ok ⟨.progError, buffers, none, 0, 0⟩
  | some b =>
    match r.decodeBlock b with
    | none => .ok ⟨.dataError, buffers, none, b.start, b.size⟩
    | some bytes =>
      .ok ⟨.ok, (buffers.alloc bytes).2, some (buffers.alloc bytes).1, b.start, b.size⟩

/-- The first part of `xz_read`: the block around the offset, from the cache or from the file,
and whether the cache keeps its buffer. A null block is followed in any case. -/
def fetchBlock (readBlock : Heap (List UInt8) → ℤ → Outcome BlockRead)
    (malloc : CacheState → Bool) (s : CacheState) (offset : ℤ) :
    Outcome (CacheState × Option (ℕ × ℤ × ℕ × Bool)) := do
  match ← getCacheBlock s offset with
  | (s, some (block, start, size)) => return (s, some (block, start, size, true))
  | (s, none) => do
    let b ← readBlock s.buffers offset
    if b.ret ≠ .ok then return ({ s with buffers := b.buffers }, none)
    else do
      let block ← deref b.data
      let (s, cacheHit) ← addNewBlock malloc { s with buffers := b.buffers } block b.start b.size
      return (s, some (block, b.start, b.size, cacheHit))

/-- The source of the `memcpy`: `n` bytes of the block from `pos` on. -/
def copyFrom (block : List UInt8) (pos : ℤ) (n : ℕ) : Outcome (List UInt8) :=
  if 0 ≤ pos ∧ pos.toNat + n ≤ block.length then .ok (slice block pos.toNat n)
  else .error .bounds

/-- `xz_read` over any `read_block` and any `malloc` of entries: the cache after the call, the
returned number and the bytes stored in the caller's buffer. -/
def xzReadWith (readBlock : Heap (List UInt8) → ℤ → Outcome BlockRead)
    (malloc : CacheState → Bool) :
    ℕ → CacheState → ℤ → ℕ → Outcome (CacheState × ℤ × List UInt8)
  | 0, _, _, _ => .error .fuel
  | fuel + 1, s, offset, length => do
    match ← fetchBlock readBlock malloc s offset with
    | (s, none) => return (s, readerError, [])
    | (s, some (block, start, size, cacheHit)) => do
      let rest := ((start + size - offset) % 2 ^ 64).toNat
      let n := if rest < length then rest else length
      let data ← s.buffers.read block
      let bytes ← copyFrom data (offset - start) n
      let s ← if cacheHit then pure s else do
        let buffers ← s.buffers.free block
        pure { s with buffers }
      if 0 < length - n then do
        let (s, ret, more) ← xzReadWith readBlock malloc fuel s (offset + n) (length - n)
        return (s, n + ret, bytes ++ more)
      else return (s, n, bytes)

def xzRead (r : XzReader) :
    (CacheState → Bool) → ℕ → CacheState → ℤ → ℕ → Outcome (CacheState × ℤ × List UInt8) :=
  xzReadWith r.readBlock

/-- The blocks lie one behind the other from `a` to `e`, and none is empty. -/
def Splits : ℕ → List XzBlock → ℕ → Prop
  | a, [], e => a = e
  | a, b :: bs, e => b.start = a ∧ 0 < b.size ∧ Splits (a + b.size) bs e

/-- The index splits the content into blocks, and every block decodes to its part. -/
structure XzReader.Decodes (r : XzReader) (content : List UInt8) : Prop where
  splits : Splits 0 r.index content.length
  fits : content.length < 2 ^ 63
  decodes : ∀ b ∈ r.index, r.decodeBlock b = some (slice content b.start b.size)

/-- The index splits the content into blocks, and a block that can be decoded decodes to its
part. -/
structure XzReader.Consistent (r : XzReader) (content : List UInt8) : Prop where
  splits : Splits 0 r.index content.length
  fits : content.length < 2 ^ 63
  decodes : ∀ b ∈ r.index, ∀ bytes ∈ r.decodeBlock b, bytes = slice content b.start b.size

lemma XzReader.Decodes.consistent {r : XzReader} {content : List UInt8} (h : r.Decodes content) :
    r.Consistent content := by
  refine ⟨h.splits, h.fits, fun b hb bytes hbytes => ?_⟩
  rw [h.decodes b hb] at hbytes
  exact (Option.some.inj hbytes).symm

theorem Splits.bounds {a e : ℕ} {bs : List XzBlock} (h : Splits a bs e) :
    a ≤ e ∧ ∀ b ∈ bs, a ≤ b.start ∧ b.start + b.size ≤ e := by
  induction bs generalizing a with
  | nil => exact ⟨h.le, by simp⟩
  | cons b bs ih =>
    obtain ⟨hstart, hsize, hrest⟩ := h
    obtain ⟨hle, hall⟩ := ih hrest
    refine ⟨by omega, fun c hc => ?_⟩
    rcases List.mem_cons.mp hc with rfl | hc
    · exact ⟨hstart.ge, by omega⟩
    · have := hall c hc
      exact ⟨by omega, this.2⟩

theorem Splits.covers {a e : ℕ} {bs : List XzBlock} (h : Splits a bs e) {o : ℕ} (ha : a ≤ o)
    (he : o < e) : ∃ b ∈ bs, b.Contains o := by
  induction bs generalizing a with
  | nil =>
    have hae : a = e := h
    omega
  | cons b bs ih =>
    obtain ⟨hstart, hsize, hrest⟩ := h
    by_cases hb : o < a + b.size
    · exact ⟨b, List.mem_cons_self, by unfold XzBlock.Contains; omega⟩
    · obtain ⟨c, hc, hco⟩ := ih hrest (Nat.not_lt.mp hb)
      exact ⟨c, List.mem_cons_of_mem _ hc, hco⟩

theorem Splits.unique {a e : ℕ} {bs : List XzBlock} (h : Splits a bs e) {o : ℤ}
    {b c : XzBlock} (hb : b ∈ bs) (hc : c ∈ bs) (hbo : b.Contains o) (hco : c.Contains o) :
    b = c := by
  induction bs generalizing a with
  | nil => simp at hb
  | cons d bs ih =>
    obtain ⟨hstart, hsize, hrest⟩ := h
    have hbehind : ∀ x ∈ bs, x.Contains o → ¬d.Contains o := by
      intro x hx hxo hdo
      have := hrest.bounds.2 x hx
      unfold XzBlock.Contains at hxo hdo
      omega
    rcases List.mem_cons.mp hb with rfl | hb' <;> rcases List.mem_cons.mp hc with rfl | hc'
    · rfl
    · exact absurd hbo (hbehind c hc' hco)
    · exact absurd hco (hbehind b hb' hbo)
    · exact ih hrest hb' hc'

lemma Splits.around {a e : ℕ} {bs : List XzBlock} (h : Splits a bs e) {b : XzBlock}
    (hb : b ∈ bs) : ∃ pre post, bs = pre ++ b :: post ∧
      (∀ c ∈ pre, c.start + c.size ≤ b.start) ∧
      ∀ c ∈ post, b.start + b.size ≤ c.start ∧ 0 < c.size := by
  induction bs generalizing a with
  | nil => simp at hb
  | cons d bs ih =>
    obtain ⟨hstart, hsize, hrest⟩ := h
    have hpos : ∀ {a : ℕ} {bs : List XzBlock}, Splits a bs e → ∀ c ∈ bs, 0 < c.size := by
      intro a bs
      induction bs generalizing a with
      | nil => simp
      | cons x bs ih =>
        rintro ⟨-, hx, hxs⟩ c (_ | ⟨_, hc⟩)
        · exact hx
        · exact ih hxs c hc
    rcases List.mem_cons.mp hb with rfl | hb
    · refine ⟨[], bs, rfl, by simp, fun c hc => ⟨?_, hpos hrest c hc⟩⟩
      rw [hstart]
      exact (hrest.bounds.2 c hc).1
    · obtain ⟨pre, post, rfl, hpre, hpost⟩ := ih hrest hb
      refine ⟨d :: pre, post, rfl, ?_, hpost⟩
      rintro c (_ | ⟨_, hc⟩)
      · rw [hstart]
        exact (hrest.bounds.2 b hb).1
      · exact hpre c hc

/-- Every cached entry is a whole block of the index with its own bytes. -/
def Sound (r : XzReader) (content : List UInt8) (s : CacheState) : Prop :=
  ∃ l : Lru XzBlock maxNumBlocksCache,
    Caches (fun b => slice content b.start b.size) s l ∧ ∀ b ∈ l.items, b ∈ r.index

variable {r : XzReader} {content : List UInt8} {s : CacheState} {malloc : CacheState → Bool}

theorem locate_eq (h : r.Consistent content) {offset : ℤ} {b : XzBlock} (hb : b ∈ r.index)
    (hbo : b.Contains offset) : r.locate offset = some b := by
  have hbound := (h.splits.bounds.2 b hb).2
  have hfits := h.fits
  have hmod : offset % 2 ^ 64 = offset := by
    unfold XzBlock.Contains at hbo
    exact Int.emod_eq_of_lt (by omega) (by omega)
  rw [XzReader.locate, hmod]
  cases hfind : r.index.find? fun c => decide (c.Contains offset) with
  | none =>
    have := List.find?_eq_none.mp hfind b hb
    simp [hbo] at this
  | some c =>
    have hco : c.Contains offset := by simpa using List.find?_some hfind
    rw [h.splits.unique hb (List.mem_of_find?_eq_some hfind) hbo hco]

theorem locate_none (h : r.Consistent content) {offset : ℤ} (hlo : -2 ^ 63 ≤ offset)
    (hhi : offset < 2 ^ 63) (hmiss : ∀ b ∈ r.index, ¬b.Contains offset) :
    r.locate offset = none := by
  rw [XzReader.locate, List.find?_eq_none]
  intro b hb
  have hbound := (h.splits.bounds.2 b hb).2
  have hfits := h.fits
  have hno := hmiss b hb
  rw [decide_eq_true_eq]
  unfold XzBlock.Contains at hno ⊢
  omega

/-- The cached blocks once `b` was asked for, unless it is neither cached nor decoded. -/
def supply (r : XzReader) (l : Lru XzBlock maxNumBlocksCache) (b : XzBlock) :
    Option (Lru XzBlock maxNumBlocksCache) :=
  if h : b ∈ l.items then some (l.touch b h)
  else if (r.decodeBlock b).isSome then some (l.insert b h maxNumBlocksCache_pos) else none

lemma mem_supply {l l' : Lru XzBlock maxNumBlocksCache} {b c : XzBlock}
    (h : supply r l b = some l') (hc : c ∈ l'.items) : c = b ∨ c ∈ l.items := by
  unfold supply at h
  by_cases hb : b ∈ l.items
  · rw [dif_pos hb] at h
    exact .inr ((Lru.mem_touch hb).mp (Option.some.inj h ▸ hc))
  · rw [dif_neg hb] at h
    by_cases hd : (r.decodeBlock b).isSome
    · rw [if_pos hd] at h
      exact Lru.mem_insert (Option.some.inj h ▸ hc)
    · simp [hd] at h

/-- The cached blocks of a sound cache. -/
structure Keeps (r : XzReader) (content : List UInt8) (s : CacheState)
    (l : Lru XzBlock maxNumBlocksCache) : Prop where
  caches : Caches (fun b => slice content b.start b.size) s l
  listed : ∀ b ∈ l.items, b ∈ r.index

lemma Keeps.sound {l : Lru XzBlock maxNumBlocksCache} (h : Keeps r content s l) :
    Sound r content s := ⟨l, h.caches, h.listed⟩

lemma keeps_supply {s' : CacheState} {l l' : Lru XzBlock maxNumBlocksCache} {b : XzBlock}
    (hl : Keeps r content s l) (hb : b ∈ r.index) (hs : supply r l b = some l')
    (hc : Caches (fun b => slice content b.start b.size) s' l') : Keeps r content s' l' := by
  refine ⟨hc, fun c hcl => ?_⟩
  rcases mem_supply hs hcl with rfl | hcl
  · exact hb
  · exact hl.listed c hcl

lemma Keeps.only (hl : Keeps r content s l) (h : r.Consistent content) {offset : ℤ} {b : XzBlock}
    (hb : b ∈ r.index) (hbo : b.Contains offset) : ∀ c ∈ l.items, c.Contains offset → c = b :=
  fun _ hc hco => h.splits.unique (hl.listed _ hc) hb hco hbo

lemma readBlock_decoded (h : r.Consistent content) {offset : ℤ} {b : XzBlock} (hb : b ∈ r.index)
    (hbo : b.Contains offset) {bytes : List UInt8} (hbytes : r.decodeBlock b = some bytes)
    (buffers : Heap (List UInt8)) : r.readBlock buffers offset =
      .ok ⟨.ok, (buffers.alloc bytes).2, some buffers.next, b.start, b.size⟩ := by
  simp [XzReader.readBlock, locate_eq h hb hbo, hbytes]

theorem fetchBlock_hit (h : r.Consistent content) {l l' : Lru XzBlock maxNumBlocksCache}
    (hl : Keeps r content s l) {offset : ℤ} {b : XzBlock} (hb : b ∈ r.index)
    (hbo : b.Contains offset) (hs : supply r l b = some l') : ∃ s' p,
      fetchBlock r.readBlock enoughMemory s offset =
        .ok (s', some (p, (b.start : ℤ), b.size, true)) ∧
      Keeps r content s' l' ∧ s'.buffers.cells p = some (slice content b.start b.size) := by
  have honly := hl.only h hb hbo
  have hsupply := hs
  unfold supply at hs
  by_cases hmem : b ∈ l.items
  · rw [dif_pos hmem] at hs
    obtain ⟨s', p, hget, hl', hp⟩ := getCacheBlock_hit hl.caches hmem hbo honly
    exact ⟨s', p, by simp [fetchBlock, hget],
      keeps_supply hl hb hsupply (Option.some.inj hs ▸ hl'), hp⟩
  · rw [dif_neg hmem] at hs
    obtain ⟨hd, heq⟩ := Option.ite_none_right_eq_some.mp hs
    obtain rfl := Option.some.inj heq
    obtain ⟨bytes, hbytes⟩ := Option.isSome_iff_exists.mp hd
    obtain rfl := h.decodes b hb bytes hbytes
    have hget := getCacheBlock_miss hl.caches fun c hc hco => hmem (honly c hc hco ▸ hc)
    have hread := readBlock_decoded h hb hbo hbytes s.buffers
    have hmemory : s.cache.numBlocks < maxNumBlocksCache → enoughMemory
        { s with buffers := (s.buffers.alloc (slice content b.start b.size)).2 } = true :=
      fun _ => rfl
    obtain ⟨s', hadd, hs', hp⟩ := addNewBlock_insert hl.caches hmem hmemory
    exact ⟨s', _, by simp [fetchBlock, hget, hread, hadd],
      keeps_supply hl hb hsupply hs', hp⟩

lemma supply_eq_none {l : Lru XzBlock maxNumBlocksCache} {b : XzBlock} :
    supply r l b = none ↔ b ∉ l.items ∧ r.decodeBlock b = none := by
  unfold supply
  by_cases hmem : b ∈ l.items <;> simp [hmem]

lemma readBlock_refused (h : r.Consistent content) {offset : ℤ} (hlo : -2 ^ 63 ≤ offset)
    (hhi : offset < 2 ^ 63)
    (hout : ∀ b ∈ r.index, b.Contains offset → r.decodeBlock b = none)
    (buffers : Heap (List UInt8)) : ∃ b,
      r.readBlock buffers offset = .ok b ∧ b.ret ≠ .ok ∧ b.buffers = buffers := by
  by_cases hin : ∃ b ∈ r.index, b.Contains offset
  · obtain ⟨b, hb, hbo⟩ := hin
    refine ⟨⟨.dataError, buffers, none, b.start, b.size⟩, ?_, by simp, rfl⟩
    simp only [XzReader.readBlock, locate_eq h hb hbo, hout b hb hbo]
  · have hnone := locate_none h hlo hhi fun b hb hbo => hin ⟨b, hb, hbo⟩
    refine ⟨⟨.progError, buffers, none, 0, 0⟩, ?_, by simp, rfl⟩
    simp only [XzReader.readBlock, hnone]

theorem fetchBlock_miss (h : r.Consistent content) {l : Lru XzBlock maxNumBlocksCache}
    (hl : Keeps r content s l) {offset : ℤ} (hlo : -2 ^ 63 ≤ offset) (hhi : offset < 2 ^ 63)
    (hmiss : ∀ b ∈ r.index, b.Contains offset → supply r l b = none) :
    fetchBlock r.readBlock malloc s offset = .ok (s, none) := by
  have hout := fun b hb hbo => supply_eq_none.mp (hmiss b hb hbo)
  have hget := getCacheBlock_miss hl.caches fun c hc hco => (hout c (hl.listed c hc) hco).1 hc
  obtain ⟨b, hb, hret, hbuffers⟩ :=
    readBlock_refused h hlo hhi (fun b hb hbo => (hout b hb hbo).2) s.buffers
  simp [fetchBlock, hget, hb, hret, hbuffers]

/-- Behind a block that was used: without an entry its buffer is freed. -/
def CacheState.leave (s : CacheState) (block : ℕ) (cacheHit : Bool) : CacheState :=
  if cacheHit then s else { s with buffers := s.buffers.release block }

@[simp] lemma CacheState.leave_hit (s : CacheState) (block : ℕ) : s.leave block true = s := rfl

lemma xzReadWith_fetched (h : r.Consistent content)
    {readBlock : Heap (List UInt8) → ℤ → Outcome BlockRead} {offset : ℤ} {b : XzBlock}
    (hb : b ∈ r.index) (hbo : b.Contains offset) {s' : CacheState} {p : ℕ} {cacheHit : Bool}
    (hfetch : fetchBlock readBlock malloc s offset =
      .ok (s', some (p, (b.start : ℤ), b.size, cacheHit)))
    (hp : s'.buffers.cells p = some (slice content b.start b.size)) {n length : ℕ}
    (hn : n = min length (b.start + b.size - offset.toNat)) (fuel : ℕ) :
    xzReadWith readBlock malloc (fuel + 1) s offset length =
      if n < length then do
        let (s, ret, more) ← xzReadWith readBlock malloc fuel (s'.leave p cacheHit) (offset + n)
          (length - n)
        return (s, n + ret, slice content offset.toNat n ++ more)
      else .ok (s'.leave p cacheHit, n, slice content offset.toNat n) := by
  obtain ⟨-, hend⟩ := h.splits.bounds.2 b hb
  have hfits := h.fits
  obtain ⟨hlo, hhi⟩ := id hbo
  have hrest : (((b.start : ℤ) + b.size - offset) % 2 ^ 64).toNat =
      b.start + b.size - offset.toNat := by
    rw [Int.emod_eq_of_lt (by omega) (by omega)]
    omega
  have hmin : (if b.start + b.size - offset.toNat < length then
      b.start + b.size - offset.toNat else length) = n := by
    split_ifs <;> omega
  have hlen : (slice content b.start b.size).length = b.size := length_slice_of_le hend
  have hcopy : copyFrom (slice content b.start b.size) (offset - b.start) n =
      .ok (slice content offset.toNat n) := by
    rw [copyFrom, if_pos ⟨by omega, by omega⟩, slice_slice _ _ _ _ _ (by omega)]
    congr 2
    omega
  rw [xzReadWith, hfetch, Outcome.ok_bind]
  cases cacheHit <;>
    simp only [hrest, hmin, Heap.read_of_cell hp, Outcome.ok_bind, hcopy, if_true,
      Bool.false_eq_true, if_false, Heap.free_of_cell hp, Outcome.pure_eq, Nat.sub_pos_iff_lt,
      CacheState.leave]

theorem xzRead_step (h : r.Consistent content) {l l' : Lru XzBlock maxNumBlocksCache}
    (hl : Keeps r content s l) {offset : ℤ} {b : XzBlock} (hb : b ∈ r.index)
    (hbo : b.Contains offset) (hs : supply r l b = some l') (fuel length : ℕ) :
    ∃ s' n, Keeps r content s' l' ∧ n = min length (b.start + b.size - offset.toNat) ∧
      xzRead r enoughMemory (fuel + 1) s offset length =
        if n < length then do
          let (s, ret, more) ← xzRead r enoughMemory fuel s' (offset + n) (length - n)
          return (s, n + ret, slice content offset.toNat n ++ more)
        else .ok (s', n, slice content offset.toNat n) := by
  obtain ⟨s', p, hfetch, hs', hp⟩ := fetchBlock_hit h hl hb hbo hs
  exact ⟨s', _, hs', rfl, xzReadWith_fetched h hb hbo hfetch hp rfl fuel⟩

/-- The blocks that a read at `offset` touches; a read of no bytes touches the block there. -/
def touched (r : XzReader) (offset : ℤ) (length : ℕ) : List XzBlock :=
  r.index.filter fun b => (b.start : ℤ) < offset + max 1 length ∧ offset < b.start + b.size

/-- The range is inside the content, and each of its blocks is cached or decoded when its turn
comes. -/
def Served (r : XzReader) (content : List UInt8) (l : Lru XzBlock maxNumBlocksCache) (offset : ℤ)
    (length : ℕ) : Prop :=
  0 ≤ offset ∧ offset + max 1 length ≤ content.length ∧
    ((touched r offset length).foldlM (supply r) l).isSome

/-- There is no block at the offset, or it is neither cached nor decoded. -/
def Refused (r : XzReader) (l : Lru XzBlock maxNumBlocksCache) (offset : ℤ) : Prop :=
  ∀ b ∈ r.index, b.Contains offset → supply r l b = none

lemma touched_cons (h : r.Consistent content) {offset : ℤ} {b : XzBlock} (hb : b ∈ r.index)
    (hbo : b.Contains offset) {length n : ℕ} (hn : offset + n = b.start + b.size)
    (hlt : n < length) :
    touched r offset length = b :: touched r (offset + n) (length - n) := by
  obtain ⟨pre, post, hsplit, hpre, hpost⟩ := h.splits.around hb
  obtain ⟨hlo, hhi⟩ := hbo
  have hbefore : ∀ o : ℤ, (b.start : ℤ) ≤ o → ∀ m : ℕ,
      pre.filter (fun c => decide ((c.start : ℤ) < o + max 1 m ∧ o < c.start + c.size)) = [] := by
    intro o ho m
    rw [List.filter_eq_nil_iff]
    intro c hc
    have := hpre c hc
    rw [decide_eq_true_eq]
    omega
  unfold touched
  rw [hsplit, List.filter_append, List.filter_append, hbefore _ hlo, hbefore _ (by omega),
    List.nil_append, List.nil_append, List.filter_cons_of_pos (by simp; omega),
    List.filter_cons_of_neg (by simp; omega)]
  congr 1
  apply List.filter_congr
  intro c hc
  have := hpost c hc
  rw [decide_eq_decide]
  omega

lemma touched_last (h : r.Consistent content) {offset : ℤ} {b : XzBlock} (hb : b ∈ r.index)
    (hbo : b.Contains offset) {length : ℕ} (hn : offset + length ≤ b.start + b.size) :
    touched r offset length = [b] := by
  obtain ⟨pre, post, hsplit, hpre, hpost⟩ := h.splits.around hb
  obtain ⟨hlo, hhi⟩ := hbo
  unfold touched
  rw [hsplit, List.filter_append, List.filter_cons_of_pos (by simp; omega),
    List.filter_eq_nil_iff.mpr, List.filter_eq_nil_iff.mpr, List.nil_append]
  · intro c hc
    have := hpost c hc
    rw [decide_eq_true_eq]
    omega
  · intro c hc
    have := hpre c hc
    rw [decide_eq_true_eq]
    omega

lemma touched_head (h : r.Consistent content) {offset : ℤ} {b : XzBlock} (hb : b ∈ r.index)
    (hbo : b.Contains offset) (length : ℕ) : ∃ bs, touched r offset length = b :: bs := by
  by_cases hn : offset + length ≤ b.start + b.size
  · exact ⟨[], touched_last h hb hbo hn⟩
  · obtain ⟨hlo, hhi⟩ := id hbo
    obtain ⟨n, hn'⟩ := Int.eq_ofNat_of_zero_le (show 0 ≤ (b.start : ℤ) + b.size - offset by omega)
    exact ⟨_, touched_cons h hb hbo (n := n) (by omega) (by omega)⟩

/-- Every call returns and keeps the cache sound. It delivers `k` bytes of the content from the
offset on, and one less is returned when the call stopped early. -/
theorem xzRead_result (h : r.Consistent content) {l : Lru XzBlock maxNumBlocksCache}
    (hl : Keeps r content s l) {length fuel : ℕ} (hf : length < fuel) {offset : ℤ}
    (hlo : -2 ^ 63 ≤ offset) (hhi : offset < 2 ^ 63) : ∃ s' ret k,
    xzRead r enoughMemory fuel s offset length = .ok (s', ret, slice content offset.toNat k) ∧
      Sound r content s' ∧ (slice content offset.toNat k).length = k ∧
      (Served r content l offset length → k = length ∧ ret = length) ∧
      (¬Served r content l offset length →
        ret = k - 1 ∧ (k = 0 ↔ Refused r l offset)) := by
  induction fuel generalizing s l length offset with
  | zero => omega
  | succ fuel ih =>
    by_cases hrefused : Refused r l offset
    · refine ⟨s, readerError, 0, ?_, hl.sound, by simp, fun hserved => ?_, fun _ => ?_⟩
      · simp [xzRead, xzReadWith, fetchBlock_miss h hl hlo hhi hrefused]
      · obtain ⟨h₀, hend, hfold⟩ := hserved
        obtain ⟨b, hb, hbo⟩ := h.splits.covers (Nat.zero_le offset.toNat) (by omega)
        rw [Int.toNat_of_nonneg h₀] at hbo
        obtain ⟨bs, hbs⟩ := touched_head h hb hbo length
        simp [hbs, hrefused b hb hbo] at hfold
      · exact ⟨by decide, by simp [hrefused]⟩
    · obtain ⟨b, hb, hbo, l', hs⟩ : ∃ b ∈ r.index, b.Contains offset ∧
          ∃ l', supply r l b = some l' := by
        simpa [Refused, Option.ne_none_iff_exists'] using hrefused
      obtain ⟨s', n, hs', hn, hstep⟩ := xzRead_step h hl hb hbo hs fuel length
      obtain ⟨hblo, hbhi⟩ := id hbo
      obtain ⟨-, hend⟩ := h.splits.bounds.2 b hb
      have hfits := h.fits
      rw [hstep]
      by_cases hlt : n < length
      · rw [if_pos hlt]
        obtain ⟨s'', ret, k, hread, hs'', hk, hserved, hnot⟩ := ih hs'
          (show length - n < fuel by omega) (show -2 ^ 63 ≤ offset + (n : ℤ) by omega) (by omega)
        have hnext : (offset + n).toNat = offset.toNat + n := by omega
        rw [hnext] at hread hk
        have hcons := touched_cons h hb hbo (show offset + n = b.start + b.size by omega) hlt
        have hiff : Served r content l offset length ↔
            Served r content l' (offset + n) (length - n) := by
          unfold Served
          rw [hcons, List.foldlM_cons, hs, Option.bind_eq_bind, Option.bind_some]
          constructor
          · rintro ⟨h₁, h₂, h₃⟩
            exact ⟨by omega, by omega, h₃⟩
          · rintro ⟨h₁, h₂, h₃⟩
            exact ⟨by omega, by omega, h₃⟩
        refine ⟨s'', n + ret, n + k, by simp [hread, slice_append], hs'', ?_, ?_, ?_⟩
        · rw [← slice_append, List.length_append, hk, length_slice_of_le (by omega)]
        · intro hsv
          obtain ⟨hk, hret⟩ := hserved (hiff.mp hsv)
          omega
        · intro hsv
          obtain ⟨hret, -⟩ := hnot (mt hiff.mpr hsv)
          exact ⟨by omega, iff_of_false (by omega) hrefused⟩
      · rw [if_neg hlt]
        obtain rfl : n = length := by omega
        refine ⟨s', n, n, rfl, hs'.sound, length_slice_of_le (by omega), fun _ => ⟨rfl, rfl⟩, ?_⟩
        intro hsv
        refine absurd ⟨by omega, by omega, ?_⟩ hsv
        rw [touched_last h hb hbo (by omega), List.foldlM_cons, hs]
        rfl

lemma foldlM_supply {bs : List XzBlock} (hd : ∀ b ∈ bs, (r.decodeBlock b).isSome)
    (l : Lru XzBlock maxNumBlocksCache) : (bs.foldlM (supply r) l).isSome := by
  induction bs generalizing l with
  | nil => rfl
  | cons b bs ih =>
    obtain ⟨l', hs⟩ : ∃ l', supply r l b = some l' := by
      unfold supply
      by_cases hb : b ∈ l.items
      · exact ⟨_, dif_pos hb⟩
      · exact ⟨_, by rw [dif_neg hb, if_pos (hd b List.mem_cons_self)]⟩
    rw [List.foldlM_cons, hs]
    exact ih (fun c hc => hd c (List.mem_cons_of_mem _ hc)) l'

lemma Keeps.of_cells {l : Lru XzBlock maxNumBlocksCache} (h : Keeps r content s l)
    {buffers : Heap (List UInt8)} (hcells : buffers.cells = s.buffers.cells) :
    Keeps r content { s with buffers } l := by
  obtain ⟨slots, hslots, hitems⟩ := h.caches
  refine ⟨⟨slots, ⟨hslots.toChained.withBuffers buffers, fun c hc => ?_⟩, hitems⟩, h.listed⟩
  rw [← hslots.buffer c hc]
  exact congrFun hcells c.data

variable (malloc) in
/-- A block is fetched, and what is left once it was used is a sound cache, with or without an
entry for it. -/
lemma fetchBlock_sound (h : r.Decodes content) (hs : Sound r content s) {offset : ℤ} {b : XzBlock}
    (hb : b ∈ r.index) (hbo : b.Contains offset) : ∃ s' p cacheHit,
      fetchBlock r.readBlock malloc s offset =
        .ok (s', some (p, (b.start : ℤ), b.size, cacheHit)) ∧
      s'.buffers.cells p = some (slice content b.start b.size) ∧
      Sound r content (s'.leave p cacheHit) := by
  obtain ⟨l, hcaches, hlisted⟩ := hs
  have hkeeps : Keeps r content s l := ⟨hcaches, hlisted⟩
  have honly := hkeeps.only h.consistent hb hbo
  by_cases hmem : b ∈ l.items
  · obtain ⟨s', p, hget, hl', hp⟩ := getCacheBlock_hit hcaches hmem hbo honly
    refine ⟨s', p, true, by simp [fetchBlock, hget], hp, l.touch b hmem, hl', fun c hc => ?_⟩
    exact hlisted c ((Lru.mem_touch hmem).mp hc)
  have hget := getCacheBlock_miss hcaches fun c hc hco => hmem (honly c hc hco ▸ hc)
  have hread := readBlock_decoded h.consistent hb hbo (h.decodes b hb) s.buffers
  obtain ⟨s₁, hs₁⟩ : ∃ s₁ : CacheState,
      s₁ = { s with buffers := (s.buffers.alloc (slice content b.start b.size)).2 } := ⟨_, rfl⟩
  have hfetch : fetchBlock r.readBlock malloc s offset =
      (do let (s', cacheHit) ← addNewBlock malloc s₁ s.buffers.next b.start b.size
          return (s', some (s.buffers.next, (b.start : ℤ), b.size, cacheHit))) := by
    simp [fetchBlock, hget, hread, hs₁]
  rw [hfetch, hs₁]
  by_cases hrefused : s.cache.numBlocks < maxNumBlocksCache ∧ malloc s₁ = false
  · obtain ⟨hroom, hmalloc⟩ := hrefused
    have hroom₁ : s₁.cache.numBlocks < maxNumBlocksCache := by rwa [hs₁]
    have hadd := addNewBlock_refused hroom₁ hmalloc s.buffers.next b.start b.size
    rw [hs₁] at hadd
    refine ⟨_, s.buffers.next, false, by rw [hadd]; rfl, Heap.cells_alloc_self _ _, ?_⟩
    exact (hkeeps.of_cells (Heap.cells_release_alloc _ _)).sound
  · have hmemory : s.cache.numBlocks < maxNumBlocksCache → malloc
        { s with buffers := (s.buffers.alloc (slice content b.start b.size)).2 } = true := by
      intro hroom
      rw [← hs₁]
      simpa [hroom] using hrefused
    obtain ⟨s', hadd, hs', hp⟩ := addNewBlock_insert hcaches hmem hmemory
    refine ⟨s', s.buffers.next, true, by rw [hadd]; rfl, hp, _, hs', fun c hc => ?_⟩
    rcases Lru.mem_insert hc with rfl | hc
    · exact hb
    · exact hlisted c hc

variable (malloc) in
/-- Whether there is memory for an entry makes no difference to what a call delivers. -/
theorem xzRead_sound (h : r.Decodes content) (hs : Sound r content s) {length fuel : ℕ}
    (hf : length < fuel) {offset : ℤ} (hlo : -2 ^ 63 ≤ offset) (hhi : offset < 2 ^ 63) :
    ∃ s' ret bytes, xzRead r malloc fuel s offset length = .ok (s', ret, bytes) ∧
      Sound r content s' ∧ (0 ≤ offset → 0 < length → offset.toNat + length ≤ content.length →
        ret = length ∧ bytes = slice content offset.toNat length) := by
  induction fuel generalizing s length offset with
  | zero => omega
  | succ fuel ih =>
    by_cases hin : ∃ b ∈ r.index, b.Contains offset
    · obtain ⟨b, hb, hbo⟩ := hin
      obtain ⟨s₁, p, cacheHit, hfetch, hp, hs₁⟩ := fetchBlock_sound malloc h hs hb hbo
      obtain ⟨n, hn⟩ : ∃ n, n = min length (b.start + b.size - offset.toNat) := ⟨_, rfl⟩
      obtain ⟨hblo, hbhi⟩ := id hbo
      obtain ⟨-, hend⟩ := h.splits.bounds.2 b hb
      have hfits := h.fits
      rw [xzRead, xzReadWith_fetched h.consistent hb hbo hfetch hp hn]
      by_cases hlt : n < length
      · rw [if_pos hlt]
        obtain ⟨s', ret, bytes, hread, hs', hexact⟩ := ih hs₁ (show length - n < fuel by omega)
          (show -2 ^ 63 ≤ offset + (n : ℤ) by omega) (by omega)
        rw [xzRead] at hread
        refine ⟨s', n + ret, slice content offset.toNat n ++ bytes, by rw [hread]; rfl, hs',
          fun h₀ hpos hrange => ?_⟩
        have hnext : (offset + n).toNat = offset.toNat + n := by omega
        obtain ⟨rfl, rfl⟩ := hexact (by omega) (by omega) (by omega)
        refine ⟨by omega, ?_⟩
        rw [hnext, slice_append, Nat.add_sub_cancel' hlt.le]
      · rw [if_neg hlt]
        obtain rfl : n = length := by omega
        exact ⟨_, n, _, rfl, hs₁, fun _ _ _ => ⟨rfl, rfl⟩⟩
    · have hnone : ∀ b ∈ r.index, ¬b.Contains offset := fun b hb hbo => hin ⟨b, hb, hbo⟩
      obtain ⟨l, hcaches, hlisted⟩ := hs
      have hmiss : fetchBlock r.readBlock malloc s offset = .ok (s, none) :=
        fetchBlock_miss h.consistent ⟨hcaches, hlisted⟩ hlo hhi fun b hb hbo =>
          absurd hbo (hnone b hb)
      refine ⟨s, readerError, [], by simp [xzRead, xzReadWith, hmiss], ⟨l, hcaches, hlisted⟩,
        fun h₀ hpos hrange => ?_⟩
      obtain ⟨b, hb, hbo⟩ := h.splits.covers (Nat.zero_le offset.toNat) (by omega)
      rw [Int.toNat_of_nonneg h₀] at hbo
      exact absurd hbo (hnone b hb)

/-- The arguments of a call: an `off_t` and a `size_t`. -/
structure ReadCall where
  offset : ℤ
  length : ℕ
  offset_ge : -2 ^ 63 ≤ offset
  offset_lt : offset < 2 ^ 63
  length_lt : length < 2 ^ 64

def xzReads (r : XzReader) (malloc : CacheState → Bool) :
    CacheState → List ReadCall → Outcome CacheState
  | s, [] => .ok s
  | s, c :: calls => do
    let (s, _) ← xzRead r malloc (c.length + 1) s c.offset c.length
    xzReads r malloc s calls

variable (malloc) in
theorem xzReads_sound (h : r.Decodes content) (calls : List ReadCall)
    (hs : Sound r content s) : ∃ s', xzReads r malloc s calls = .ok s' ∧ Sound r content s' := by
  induction calls generalizing s with
  | nil => exact ⟨s, rfl, hs⟩
  | cons c calls ih =>
    obtain ⟨s₁, ret, bytes, hread, hs₁, -⟩ :=
      xzRead_sound malloc h hs (Nat.lt_succ_self c.length) c.offset_ge c.offset_lt
    obtain ⟨s', hrest, hs'⟩ := ih hs₁
    exact ⟨s', by simp [xzReads, hread, hrest], hs'⟩

/-- After any calls the cache is sound, and a call inside the content delivers its bytes and
keeps the cache so, whenever there is memory for an entry and whenever not. -/
theorem xzRead_exact (h : r.Decodes content) (malloc : CacheState → Bool)
    (calls : List ReadCall) :
    ∃ s, xzReads r malloc emptyCache calls = .ok s ∧ Sound r content s ∧
      ∀ offset length fuel : ℕ, 0 < length → offset + length ≤ content.length →
        length < fuel → ∃ s', xzRead r malloc fuel s offset length =
          .ok (s', (length : ℤ), slice content offset length) ∧ Sound r content s' := by
  have hempty : Sound r content emptyCache := ⟨Lru.empty, caches_empty, by simp [Lru.empty]⟩
  obtain ⟨s, hrun, hs⟩ := xzReads_sound malloc h calls hempty
  refine ⟨s, hrun, hs, fun offset length fuel hpos hrange hf => ?_⟩
  have hfits := h.fits
  obtain ⟨s', ret, bytes, hread, hs', hexact⟩ :=
    xzRead_sound malloc h hs hf (show -2 ^ 63 ≤ (offset : ℤ) by omega) (by omega)
  obtain ⟨hret, hbytes⟩ := hexact (by omega) hpos hrange
  exact ⟨s', by rw [hread, hret, hbytes, Int.toNat_natCast], hs'⟩

def twoBlockContent : List UInt8 := [10, 20, 30]

def twoBlockReader : XzReader where
  index := [⟨0, 2⟩, ⟨2, 1⟩]
  decodeBlock b := some (slice twoBlockContent b.start b.size)

/-- There is memory for one entry only. -/
def memoryForOne (s : CacheState) : Bool := s.cache.numBlocks = 0

/-- A read of both blocks, and another one from the cache of one of them. -/
theorem xzRead_exact_twoBlocks :
    ∃ s, xzReads twoBlockReader memoryForOne emptyCache
        [⟨0, 3, by decide, by decide, by decide⟩] = .ok s ∧
      ∃ s', xzRead twoBlockReader memoryForOne 3 s 1 2 = .ok (s', 2, [20, 30]) := by
  have hdecodes : twoBlockReader.Decodes twoBlockContent :=
    ⟨⟨rfl, by decide, rfl, by decide, rfl⟩, by decide, fun _ _ => rfl⟩
  obtain ⟨s, hrun, -, hread⟩ := xzRead_exact hdecodes memoryForOne
    [⟨0, 3, by decide, by decide, by decide⟩]
  obtain ⟨s', hs', -⟩ := hread 1 2 3 (by decide) (by decide) (by decide)
  exact ⟨s, hrun, s', hs'⟩

end Spotlight.Xz
