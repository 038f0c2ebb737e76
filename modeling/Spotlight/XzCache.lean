import Spotlight.Heap
import Spotlight.DoublyLinked
import Spotlight.Lru
import Spotlight.Lzma

/-! The block cache of the xz reader (`move_to_cache_head`, `get_cache_block` and
`add_new_block` of `xz_reader.c`). Entries and block buffers live in heaps of their own, and the
end of a block fits an `off_t`. -/
namespace Spotlight.Xz
open DoublyLinked

def maxNumBlocksCache : ℕ := 32

structure XzBlockCacheEntry where
  offset : ℤ
  size : ℕ
  data : ℕ
  next : Option ℕ
  prev : Option ℕ

structure XzBlockCache where
  numBlocks : ℕ
  first : Option ℕ
  last : Option ℕ

/-- The cache of a reader and the memory its pointers lead to. -/
structure CacheState where
  cache : XzBlockCache
  entries : Heap XzBlockCacheEntry
  buffers : Heap (List UInt8)

def emptyCache : CacheState := ⟨⟨0, none, none⟩, Heap.empty, Heap.empty⟩

/-- The part of `move_to_cache_head` that takes the entry off its successor, or off the end. -/
def unlinkFromNext (s : CacheState) (entry : ℕ) : Outcome CacheState := do
  let e ← s.entries.read entry
  match e.next with
  | some next => do
    let entries ← s.entries.modify next fun n => { n with prev := e.prev }
    return { s with entries }
  | none => do
    assertThat (s.cache.last = some entry)
    return { s with cache := { s.cache with last := e.prev } }

def moveToCacheHead (s : CacheState) (entry : ℕ) : Outcome CacheState :=
  if s.cache.first = some entry then .ok s
  else do
    let s ← unlinkFromNext s entry
    let e ← s.entries.read entry
    let prev ← deref e.prev
    let entries ← s.entries.modify prev fun n => { n with next := e.next }
    let entries ← entries.modify entry fun n => { n with prev := none }
    let entries ← entries.modify entry fun n => { n with next := s.cache.first }
    let next ← deref s.cache.first
    let entries ← entries.modify next fun n => { n with prev := some entry }
    return { s with entries, cache := { s.cache with first := some entry } }

/-- The scan of `get_cache_block` from an entry on; the cache's own count bounds it. -/
def getCacheBlockLoop (s : CacheState) (offset : ℤ) : ℕ → Option ℕ → Outcome (Option ℕ)
  | _, none => .ok none
  | 0, some _ => .error .fuel
  | n + 1, some entry => do
    let e ← s.entries.read entry
    if e.offset ≤ offset ∧ offset < e.offset + e.size then return some entry
    else getCacheBlockLoop s offset n e.next

/-- `get_cache_block`: on a hit the block's buffer, start and size. -/
def getCacheBlock (s : CacheState) (offset : ℤ) :
    Outcome (CacheState × Option (ℕ × ℤ × ℕ)) := do
  match ← getCacheBlockLoop s offset s.cache.numBlocks s.cache.first with
  | none => return (s, none)
  | some entry => do
    let e ← s.entries.read entry
    let s ← moveToCacheHead s entry
    return (s, some (e.data, e.offset, e.size))

/-- `malloc` says whether there is memory for a new entry. Without it the cache stays as it is: the
assertion on it is not there with `NDEBUG`. -/
def addNewBlock (malloc : CacheState → Bool) (s : CacheState) (block : ℕ) (offset : ℤ)
    (size : ℕ) : Outcome (CacheState × Bool) :=
  if maxNumBlocksCache = 0 then .ok (s, false)
  else if s.cache.numBlocks < maxNumBlocksCache ∧ malloc s = false then .ok (s, false)
  else if s.cache.numBlocks < maxNumBlocksCache then do
    let (newEntry, entries) := s.entries.alloc ⟨offset, size, block, s.cache.first, none⟩
    let entries ← match s.cache.first with
      | some first => entries.modify first fun n => { n with prev := some newEntry }
      | none => pure entries
    let last ← match s.cache.last with
      | some last => pure last
      | none => do
        assertThat (s.cache.numBlocks = 0)
        pure newEntry
    return ({ s with entries, cache := ⟨s.cache.numBlocks + 1, some newEntry, some last⟩ }, true)
  else do
    let last ← deref s.cache.last
    let s ← moveToCacheHead s last
    let first ← deref s.cache.first
    let e ← s.entries.read first
    let buffers ← s.buffers.free e.data
    let entries ← s.entries.modify first fun n => { n with data := block, offset, size }
    return ({ s with entries, buffers }, true)

def enoughMemory (_ : CacheState) : Bool := true

/-- A cached block with the addresses of its entry and of its buffer. -/
structure Slot where
  entry : ℕ
  data : ℕ
  block : XzBlock

def links (entries : Heap XzBlockCacheEntry) : ℕ → Option Links :=
  entries.view fun e => ⟨e.prev, e.next⟩

def payload (entries : Heap XzBlockCacheEntry) : ℕ → Option (ℤ × ℕ × ℕ) :=
  entries.view fun e => (e.offset, e.size, e.data)

/-- The chain of entries visits the slots in this order, and there are no other entries. -/
structure Chained (s : CacheState) (slots : List Slot) : Prop where
  linked : Linked (links s.entries) none (slots.map Slot.entry) none
  entry_nodup : (slots.map Slot.entry).Nodup
  data_nodup : (slots.map Slot.data).Nodup
  first : s.cache.first = (slots.map Slot.entry).head?
  last : s.cache.last = (slots.map Slot.entry).getLast?
  count : s.cache.numBlocks = slots.length
  payload : ∀ c ∈ slots, payload s.entries c.entry = some ((c.block.start : ℤ), c.block.size, c.data)
  owned : ∀ p, (s.entries.cells p).isSome → p ∈ slots.map Slot.entry

/-- Every slot's buffer holds the content of its block. -/
structure Represents (content : XzBlock → List UInt8) (s : CacheState) (slots : List Slot) :
    Prop extends Chained s slots where
  buffer : ∀ c ∈ slots, s.buffers.cells c.data = some (content c.block)

theorem links_prev (h : Heap XzBlockCacheEntry) (p : ℕ) (v : Option ℕ) :
    links (h.modifyCell p fun n => { n with prev := v }) = setPrev (links h) p v := by
  unfold links
  apply Heap.view_modifyCell (k := fun l : Links => { l with prev := v })
  intro _
  rfl

theorem links_next (h : Heap XzBlockCacheEntry) (p : ℕ) (v : Option ℕ) :
    links (h.modifyCell p fun n => { n with next := v }) = setNext (links h) p v := by
  unfold links
  apply Heap.view_modifyCell (k := fun l : Links => { l with next := v })
  intro _
  rfl

theorem payload_prev (h : Heap XzBlockCacheEntry) (p : ℕ) (v : Option ℕ) :
    payload (h.modifyCell p fun n => { n with prev := v }) = payload h := by
  unfold payload
  apply Heap.view_modifyCell_same
  intro _
  rfl

theorem payload_next (h : Heap XzBlockCacheEntry) (p : ℕ) (v : Option ℕ) :
    payload (h.modifyCell p fun n => { n with next := v }) = payload h := by
  unfold payload
  apply Heap.view_modifyCell_same
  intro _
  rfl

variable {s : CacheState}

theorem Chained.cell {slots : List Slot} (h : Chained s slots) {c : Slot}
    (hc : c ∈ slots) : ∃ e, s.entries.cells c.entry = some e ∧ e.offset = c.block.start ∧
      e.size = c.block.size ∧ e.data = c.data := by
  obtain ⟨e, he, hp⟩ := Option.map_eq_some_iff.mp (h.payload c hc)
  simp only [Prod.mk.injEq] at hp
  exact ⟨e, he, hp.1, hp.2.1, hp.2.2⟩

theorem Chained.entry_links {pre post : List Slot} {q c : Slot}
    (h : Chained s (pre ++ q :: c :: post)) : ∃ e, s.entries.cells c.entry = some e ∧
      e.prev = some q.entry ∧ e.next = (post.map Slot.entry).head? := by
  have hlinked := h.linked
  rw [List.map_append, linked_append] at hlinked
  obtain ⟨-, -, hcell, -⟩ := hlinked
  obtain ⟨e, he, hl⟩ := Option.map_eq_some_iff.mp hcell
  simp only [Links.mk.injEq, Option.or_none] at hl
  exact ⟨e, he, hl⟩

/-- The entries once the successor of a slot's entry is linked back to its predecessor. -/
def unlinkedEntries (entries : Heap XzBlockCacheEntry) (q : Slot) (post : List Slot) :
    Heap XzBlockCacheEntry :=
  (post.map Slot.entry).head?.elim entries fun r =>
    entries.modifyCell r fun n => { n with prev := some q.entry }

theorem Chained.isSome {slots : List Slot} (h : Chained s slots) {c : Slot}
    (hc : c ∈ slots) : (s.entries.cells c.entry).isSome := by
  obtain ⟨e, he, -⟩ := h.cell hc
  exact Option.isSome_of_eq_some he

theorem unlinkFromNext_eq {pre post : List Slot} {q c : Slot}
    (h : Chained s (pre ++ q :: c :: post)) : unlinkFromNext s c.entry =
      .ok ⟨⟨s.cache.numBlocks, s.cache.first, ((pre ++ q :: post).map Slot.entry).getLast?⟩,
        unlinkedEntries s.entries q post, s.buffers⟩ := by
  obtain ⟨e, he, hprev, hnext⟩ := h.entry_links
  have hlast := h.last
  cases post with
  | nil =>
    have hend : s.cache.last = some c.entry := by simpa using hlast
    simp [unlinkFromNext, Heap.read_of_cell he, hnext, hend, hprev, unlinkedEntries]
  | cons r post =>
    have hr := Heap.modify_of_isSome (h.isSome (c := r) (by simp))
    have hend : ((pre ++ q :: r :: post).map Slot.entry).getLast? = s.cache.last := by
      simp [hlast]
    rw [hend]
    simp [unlinkFromNext, Heap.read_of_cell he, hnext, hr, hprev, unlinkedEntries]

theorem links_unlinkedEntries (entries : Heap XzBlockCacheEntry) (q : Slot) (post : List Slot) :
    links (unlinkedEntries entries q post) =
      (post.map Slot.entry).head?.elim (links entries) fun r =>
        setPrev (links entries) r (some q.entry) := by
  cases post with
  | nil => rfl
  | cons r post => exact links_prev _ _ _

theorem payload_unlinkedEntries (entries : Heap XzBlockCacheEntry) (q : Slot)
    (post : List Slot) : payload (unlinkedEntries entries q post) = payload entries := by
  cases post with
  | nil => rfl
  | cons r post => exact payload_prev _ _ _

theorem isSome_unlinkedEntries (entries : Heap XzBlockCacheEntry) (q : Slot)
    (post : List Slot) (p : ℕ) :
    ((unlinkedEntries entries q post).cells p).isSome = (entries.cells p).isSome := by
  cases post with
  | nil => rfl
  | cons r post => exact Heap.isSome_modifyCell _ _ _ _

theorem cells_unlinkedEntries {entries : Heap XzBlockCacheEntry} {q : Slot} {post : List Slot}
    {p : ℕ} (hp : p ∉ post.map Slot.entry) :
    (unlinkedEntries entries q post).cells p = entries.cells p := by
  cases post with
  | nil => rfl
  | cons r post => exact Heap.cells_modifyCell_ne (fun heq => hp (by simp [heq])) _

/-- The entries after `move_to_cache_head`: unlinked from both neighbours, then put in front
of `f`. -/
def movedEntries (entries : Heap XzBlockCacheEntry) (q c : Slot) (post : List Slot) (f : ℕ) :
    Heap XzBlockCacheEntry :=
  ((((unlinkedEntries entries q post).modifyCell q.entry
    fun n => { n with next := (post.map Slot.entry).head? }).modifyCell c.entry
    fun n => { n with prev := none }).modifyCell c.entry
    fun n => { n with next := some f }).modifyCell f
    fun n => { n with prev := some c.entry }

theorem payload_movedEntries (entries : Heap XzBlockCacheEntry) (q c : Slot) (post : List Slot)
    (f : ℕ) : payload (movedEntries entries q c post f) = payload entries := by
  rw [movedEntries, payload_prev, payload_next, payload_prev, payload_next,
    payload_unlinkedEntries]

theorem perm_middle_cons {α : Type} (a b : α) (l k : List α) :
    (l ++ a :: b :: k).Perm (b :: (l ++ a :: k)) := by
  have h : ((l ++ [a]) ++ b :: k).Perm (b :: ((l ++ [a]) ++ k)) := List.perm_middle
  simpa using h

theorem linked_movedEntries {pre post : List Slot} {q c : Slot}
    (h : Chained s (pre ++ q :: c :: post)) {f : ℕ}
    (hf : ((pre ++ q :: post).map Slot.entry).head? = some f) :
    Linked (links (movedEntries s.entries q c post f)) none
      ((c :: (pre ++ q :: post)).map Slot.entry) none := by
  have hnd := h.entry_nodup
  have hlinked := h.linked
  simp only [List.map_append, List.map_cons] at hnd hlinked hf ⊢
  have hunlinked := hlinked.unlink hnd
  rw [← links_unlinkedEntries, Option.or_none, ← links_next] at hunlinked
  obtain ⟨hc, hrest⟩ := List.nodup_cons.mp ((perm_middle_cons _ _ _ _).nodup_iff.mp hnd)
  obtain ⟨e, he, -⟩ := h.entry_links
  have hcell : links ((unlinkedEntries s.entries q post).modifyCell q.entry
      fun n => { n with next := (post.map Slot.entry).head? }) c.entry =
        some ⟨e.prev, e.next⟩ := by
    obtain ⟨-, hcq, hcpost⟩ : _ ∧ c.entry ≠ q.entry ∧ c.entry ∉ post.map Slot.entry := by
      simpa only [List.mem_append, List.mem_cons, not_or] using hc
    rw [links, Heap.view, Heap.cells_modifyCell_ne hcq, cells_unlinkedEntries hcpost, he,
      Option.map_some]
  rw [movedEntries, links_prev, links_next, links_prev]
  exact hunlinked.putFront hc hrest hf hcell

theorem moveToCacheHead_eq {pre post : List Slot} {q c : Slot}
    (h : Chained s (pre ++ q :: c :: post)) {f : ℕ}
    (hf : ((pre ++ q :: post).map Slot.entry).head? = some f) : moveToCacheHead s c.entry =
      .ok ⟨⟨s.cache.numBlocks, some c.entry, ((pre ++ q :: post).map Slot.entry).getLast?⟩,
        movedEntries s.entries q c post f, s.buffers⟩ := by
  have hfirst : s.cache.first = some f := by
    rw [h.first, ← hf]
    cases pre <;> rfl
  have hnd := (((perm_middle_cons q c pre post).map Slot.entry).nodup_iff).mp h.entry_nodup
  have hc := (List.nodup_cons.mp hnd).1
  have hmem : f ∈ (pre ++ q :: post).map Slot.entry := List.mem_of_mem_head? hf
  have hne : s.cache.first ≠ some c.entry := by
    rw [hfirst]
    exact fun heq => hc (Option.some.inj heq ▸ hmem)
  obtain ⟨b, hb, rfl⟩ := List.mem_map.mp hmem
  obtain ⟨e, he, hprev, hnext⟩ := h.entry_links
  have hcpost : c.entry ∉ post.map Slot.entry := fun hm => hc (by
    rw [List.map_append]
    exact List.mem_append_right _ (List.mem_cons_of_mem _ hm))
  have hread : (unlinkedEntries s.entries q post).read c.entry = .ok e :=
    Heap.read_of_cell (by rw [cells_unlinkedEntries hcpost, he])
  have hq : ((unlinkedEntries s.entries q post).cells q.entry).isSome := by
    rw [isSome_unlinkedEntries]
    exact h.isSome (by simp)
  have hc' : ((unlinkedEntries s.entries q post).cells c.entry).isSome := by
    rw [isSome_unlinkedEntries]
    exact h.isSome (by simp)
  have hb' : ((unlinkedEntries s.entries q post).cells b.entry).isSome := by
    rw [isSome_unlinkedEntries]
    exact h.isSome ((perm_middle_cons q c pre post).mem_iff.mpr (List.mem_cons_of_mem _ hb))
  rw [moveToCacheHead, if_neg hne, unlinkFromNext_eq h, Outcome.ok_bind]
  simp only [hread, Outcome.ok_bind, hprev, hnext, hfirst, Outcome.deref_some,
    Heap.modify_of_isSome, Heap.isSome_modifyCell, hq, hc', hb', Outcome.pure_eq, movedEntries]

theorem moveToCacheHead_front {pre post : List Slot} {c : Slot}
    (h : Chained s (pre ++ c :: post)) :
    ∃ s', moveToCacheHead s c.entry = .ok s' ∧
      Chained s' (c :: (pre ++ post)) ∧ s'.buffers = s.buffers := by
  rcases List.eq_nil_or_concat pre with rfl | ⟨pre, q, rfl⟩
  · have hfirst : s.cache.first = some c.entry := by simp [h.first]
    exact ⟨s, by rw [moveToCacheHead, if_pos hfirst], h, rfl⟩
  rw [List.concat_eq_append, List.append_assoc, List.singleton_append] at h
  have hperm := perm_middle_cons q c pre post
  rw [List.concat_eq_append, List.append_assoc, List.singleton_append]
  obtain ⟨f, hf⟩ : ∃ f, ((pre ++ q :: post).map Slot.entry).head? = some f := by
    cases pre <;> exact ⟨_, rfl⟩
  refine ⟨_, moveToCacheHead_eq h hf, ?_, rfl⟩
  constructor
  · exact linked_movedEntries h hf
  · exact (hperm.map Slot.entry).nodup_iff.mp h.entry_nodup
  · exact (hperm.map Slot.data).nodup_iff.mp h.data_nodup
  · rfl
  · have hne : (pre ++ q :: post).map Slot.entry ≠ [] := by simp
    rw [List.map_cons, List.getLast?_cons_of_ne_nil hne]
  · rw [h.count, hperm.length_eq]
  · intro b hb
    rw [payload_movedEntries]
    exact h.payload b (hperm.mem_iff.mpr hb)
  · intro p hp
    simp only [movedEntries, Heap.isSome_modifyCell, isSome_unlinkedEntries] at hp
    exact (hperm.map Slot.entry).mem_iff.mp (h.owned p hp)

end Spotlight.Xz
