import Spotlight.XzCache

/-! The block cache of the xz reader behaves as a list of the 32 most recently used blocks. -/
namespace Spotlight.Xz
open DoublyLinked

variable {content : XzBlock → List UInt8} {s : CacheState} {malloc : CacheState → Bool}

def XzBlock.Contains (b : XzBlock) (offset : ℤ) : Prop :=
  (b.start : ℤ) ≤ offset ∧ offset < b.start + b.size

instance (b : XzBlock) (offset : ℤ) : Decidable (b.Contains offset) := by
  unfold XzBlock.Contains
  infer_instance

theorem chained_empty : Chained emptyCache [] :=
  ⟨trivial, List.nodup_nil, List.nodup_nil, rfl, rfl, rfl, by simp, by simp [emptyCache, Heap.empty]⟩

theorem getCacheBlockLoop_eq (offset : ℤ) {slots : List Slot} {before : Option ℕ}
    (hl : Linked (links s.entries) before (slots.map Slot.entry) none)
    (hp : ∀ c ∈ slots, payload s.entries c.entry =
      some ((c.block.start : ℤ), c.block.size, c.data)) :
    getCacheBlockLoop s offset slots.length (slots.map Slot.entry).head? =
      .ok ((slots.find? fun c => c.block.Contains offset).map Slot.entry) := by
  induction slots generalizing before with
  | nil => rfl
  | cons c slots ih =>
    obtain ⟨hc, hrest⟩ := hl
    obtain ⟨e, he, hlinks⟩ := Option.map_eq_some_iff.mp hc
    have hpay := hp c List.mem_cons_self
    simp only [payload, Heap.view, he, Option.map_some, Option.some.injEq, Prod.mk.injEq] at hpay
    simp only [Links.mk.injEq, Option.or_none] at hlinks
    have hih := ih hrest fun c' hc' => hp c' (List.mem_cons_of_mem _ hc')
    simp only [List.length_cons, List.map_cons, List.head?_cons, getCacheBlockLoop,
      Heap.read_of_cell he, Outcome.ok_bind, hpay, hlinks, hih]
    by_cases hhit : c.block.Contains offset
    · rw [List.find?_cons_of_pos (by simpa using hhit)]
      exact if_pos hhit
    · rw [List.find?_cons_of_neg (by simpa using hhit)]
      exact if_neg hhit

theorem getCacheBlock_none {slots : List Slot} (h : Chained s slots) {offset : ℤ}
    (hnone : (slots.find? fun c => c.block.Contains offset) = none) :
    getCacheBlock s offset = .ok (s, none) := by
  have hloop := getCacheBlockLoop_eq offset h.linked h.payload
  rw [hnone, ← h.first, ← h.count] at hloop
  simp [getCacheBlock, hloop]

theorem getCacheBlock_some {slots : List Slot} (h : Chained s slots) {offset : ℤ} {c : Slot}
    (hfind : (slots.find? fun c => c.block.Contains offset) = some c) :
    ∃ s' pre post, slots = pre ++ c :: post ∧
      getCacheBlock s offset = .ok (s', some (c.data, (c.block.start : ℤ), c.block.size)) ∧
      Chained s' (c :: (pre ++ post)) ∧ s'.buffers = s.buffers := by
  obtain ⟨-, pre, post, rfl, -⟩ := List.find?_eq_some_iff_append.mp hfind
  have hloop := getCacheBlockLoop_eq offset h.linked h.payload
  rw [hfind, ← h.first, ← h.count] at hloop
  obtain ⟨e, he, hoff, hsize, hdata⟩ := h.cell (List.mem_append_right pre List.mem_cons_self)
  obtain ⟨s', hmove, hs', hbuffers⟩ := moveToCacheHead_front h
  refine ⟨s', pre, post, rfl, ?_, hs', hbuffers⟩
  simp [getCacheBlock, hloop, Heap.read_of_cell he, hmove, hoff, hsize, hdata]

/-- The entries after a new one was put in front. -/
def grownEntries (s : CacheState) (p : ℕ) (b : XzBlock) : Heap XzBlockCacheEntry :=
  let entries := (s.entries.alloc ⟨b.start, b.size, p, s.cache.first, none⟩).2
  s.cache.first.elim entries fun f =>
    entries.modifyCell f fun n => { n with prev := some s.entries.next }

theorem payload_grownEntries (s : CacheState) (p : ℕ) (b : XzBlock) :
    payload (grownEntries s p b) = Function.update (payload s.entries) s.entries.next
      (some ((b.start : ℤ), b.size, p)) := by
  simp only [grownEntries]
  cases s.cache.first with
  | none => exact Heap.view_alloc _ _
  | some f =>
    rw [Option.elim_some, payload_prev]
    exact Heap.view_alloc _ _

theorem Chained.entry_lt {slots : List Slot} (h : Chained s slots) {c : Slot}
    (hc : c ∈ slots) : c.entry ≠ s.entries.next := by
  obtain ⟨e, he, -⟩ := h.cell hc
  exact (Heap.lt_next he).ne

theorem linked_grownEntries {slots : List Slot} (h : Chained s slots) (p : ℕ)
    (b : XzBlock) : Linked (links (grownEntries s p b)) none
      (s.entries.next :: slots.map Slot.entry) none := by
  have hfresh : s.entries.next ∉ slots.map Slot.entry := by
    intro hm
    obtain ⟨c, hc, heq⟩ := List.mem_map.mp hm
    exact h.entry_lt hc heq
  have halloc : links (s.entries.alloc ⟨b.start, b.size, p, s.cache.first, none⟩).2 =
      Function.update (links s.entries) s.entries.next (some ⟨none, s.cache.first⟩) :=
    Heap.view_alloc _ _
  have hold : Linked (links (s.entries.alloc ⟨b.start, b.size, p, s.cache.first, none⟩).2) none
      (slots.map Slot.entry) none := by
    apply h.linked.congr
    intro q hq
    rw [halloc, Function.update_of_ne (ne_of_mem_of_not_mem hq hfresh)]
  have hpush := hold.pushFront hfresh h.entry_nodup (by
    rw [halloc, Function.update_self, h.first, Option.or_none])
  rw [← h.first] at hpush
  simp only [grownEntries]
  cases hf : s.cache.first with
  | none => simpa [hf] using hpush
  | some f => simpa [hf, links_prev] using hpush

theorem addNewBlock_room {slots : List Slot} (h : Chained s slots)
    (hroom : slots.length < maxNumBlocksCache) {p : ℕ} (b : XzBlock)
    (hnew : p ∉ slots.map Slot.data) (hmalloc : malloc s = true) :
    ∃ s', addNewBlock malloc s p b.start b.size = .ok (s', true) ∧
      Chained s' (⟨s.entries.next, p, b⟩ :: slots) ∧ s'.buffers = s.buffers := by
  have hcount : s.cache.numBlocks < maxNumBlocksCache := by rwa [h.count]
  refine ⟨⟨⟨s.cache.numBlocks + 1, some s.entries.next,
    ((⟨s.entries.next, p, b⟩ :: slots : List Slot).map Slot.entry).getLast?⟩,
    grownEntries s p b, s.buffers⟩, ?_, ?_, rfl⟩
  · rw [addNewBlock, if_neg (by decide), if_neg (by simp [hmalloc]), if_pos hcount]
    rcases slots with _ | ⟨c, slots⟩
    · have hfirst : s.cache.first = none := h.first
      have hlast : s.cache.last = none := h.last
      have hzero : s.cache.numBlocks = 0 := h.count
      simp [grownEntries, hfirst, hlast, hzero]
    · have hfirst : s.cache.first = some c.entry := h.first
      have hlast := h.last
      obtain ⟨l, hl⟩ : ∃ l, ((c :: slots).map Slot.entry).getLast? = some l := by
        simp [List.getLast?_cons]
      rw [hl] at hlast
      obtain ⟨e, he, -⟩ := h.cell List.mem_cons_self
      have hmod := Heap.modify_of_cell (Heap.cells_alloc
        (a := ⟨b.start, b.size, p, some c.entry, none⟩) he)
      have hend : ((⟨s.entries.next, p, b⟩ :: c :: slots : List Slot).map
          Slot.entry).getLast? = some l := by simpa [List.getLast?_cons] using hl
      simp only [grownEntries, hfirst, hlast, hend, Option.elim_some, Heap.alloc_fst, hmod,
        Outcome.ok_bind, Outcome.pure_eq]
  · have hfresh : ∀ c ∈ slots, c.entry ≠ s.entries.next := fun c hc => h.entry_lt hc
    constructor
    · exact linked_grownEntries h p b
    · refine List.nodup_cons.mpr ⟨fun hm => ?_, h.entry_nodup⟩
      obtain ⟨c, hc, heq⟩ := List.mem_map.mp hm
      exact hfresh c hc heq
    · exact List.nodup_cons.mpr ⟨hnew, h.data_nodup⟩
    · rfl
    · rfl
    · rw [List.length_cons, ← h.count]
    · rintro c (_ | ⟨_, hc⟩)
      · rw [payload_grownEntries, Function.update_self]
      · rw [payload_grownEntries, Function.update_of_ne (hfresh c hc), h.payload c hc]
    · intro q hq
      have hview := congrFun (payload_grownEntries s p b) q
      by_cases hnext : q = s.entries.next
      · rw [hnext]
        exact List.mem_cons_self
      · rw [Function.update_of_ne hnext] at hview
        have hold : (s.entries.cells q).isSome := by
          apply Heap.isSome_of_view
          rw [← payload, ← hview]
          exact Option.some_get (Option.isSome_map.trans hq) |>.symm
        exact List.mem_cons_of_mem _ (h.owned q hold)

theorem links_payload (h : Heap XzBlockCacheEntry) (q p : ℕ) (offset : ℤ) (size : ℕ) :
    links (h.modifyCell q fun n => { n with data := p, offset, size }) = links h := by
  unfold links
  apply Heap.view_modifyCell_same
  intro _
  rfl

theorem addNewBlock_full {pre : List Slot} {c : Slot} (h : Chained s (pre ++ [c]))
    (hfull : (pre ++ [c]).length = maxNumBlocksCache) {p : ℕ} (b : XzBlock)
    (hlive : (s.buffers.cells c.data).isSome) (hnew : p ∉ (pre ++ [c]).map Slot.data) :
    ∃ s', addNewBlock malloc s p b.start b.size = .ok (s', true) ∧
      Chained s' (⟨c.entry, p, b⟩ :: pre) ∧ s'.buffers = s.buffers.release c.data := by
  obtain ⟨s₁, hmove, h₁, hbuffers⟩ := moveToCacheHead_front h
  rw [List.append_nil] at h₁
  have hcount : ¬s.cache.numBlocks < maxNumBlocksCache := by rw [h.count, hfull]; omega
  have hlast : s.cache.last = some c.entry := by simp [h.last]
  have hfirst : s₁.cache.first = some c.entry := by simp [h₁.first]
  obtain ⟨e, he, -, -, hdata⟩ := h₁.cell List.mem_cons_self
  obtain ⟨bytes, hbytes⟩ := Option.isSome_iff_exists.mp hlive
  have hfree := Heap.free_of_cell (hbuffers ▸ hbytes)
  refine ⟨{ s₁ with
    buffers := s₁.buffers.release c.data
    entries := s₁.entries.modifyCell c.entry fun n =>
      { n with data := p, offset := b.start, size := b.size } }, ?_, ?_, by rw [hbuffers]⟩
  · rw [addNewBlock, if_neg (by decide), if_neg (mt And.left hcount), if_neg hcount]
    simp only [hlast, Outcome.deref_some, Outcome.ok_bind, hmove, hfirst, Heap.read_of_cell he,
      hdata, hfree, Heap.modify_of_cell he, Outcome.pure_eq]
  · obtain ⟨hentry, hentries⟩ := List.nodup_cons.mp h₁.entry_nodup
    obtain ⟨hdatum, hdata'⟩ := List.nodup_cons.mp h₁.data_nodup
    rw [(List.perm_append_singleton c pre).map Slot.data |>.mem_iff] at hnew
    obtain ⟨hpc, hppre⟩ := not_or.mp (mt List.mem_cons.mpr hnew)
    constructor
    · rw [links_payload]
      exact h₁.linked
    · exact h₁.entry_nodup
    · exact List.nodup_cons.mpr ⟨hppre, hdata'⟩
    · exact h₁.first
    · exact h₁.last
    · exact h₁.count
    · rintro c' (_ | ⟨_, hc'⟩)
      · simp [payload, Heap.view, Heap.cells_modifyCell_self he]
      · have hne : c'.entry ≠ c.entry :=
          fun heq => hentry (heq ▸ List.mem_map_of_mem hc')
        rw [payload, Heap.view, Heap.cells_modifyCell_ne hne]
        exact h₁.payload c' (List.mem_cons_of_mem _ hc')
    · intro q hq
      rw [Heap.isSome_modifyCell] at hq
      exact h₁.owned q hq

theorem maxNumBlocksCache_pos : 0 < maxNumBlocksCache := Nat.succ_pos 31

/-- The cached blocks are the items of `l`, each with its content. -/
def Caches (content : XzBlock → List UInt8) (s : CacheState) (l : Lru XzBlock maxNumBlocksCache) :
    Prop :=
  ∃ slots, Represents content s slots ∧ slots.map Slot.block = l.items

theorem caches_empty : Caches content emptyCache Lru.empty :=
  ⟨[], ⟨chained_empty, by simp⟩, rfl⟩

theorem getCacheBlock_miss {l : Lru XzBlock maxNumBlocksCache} (h : Caches content s l)
    {offset : ℤ} (hmiss : ∀ b ∈ l.items, ¬b.Contains offset) :
    getCacheBlock s offset = .ok (s, none) := by
  obtain ⟨slots, hs, hitems⟩ := h
  apply getCacheBlock_none hs.toChained
  rw [List.find?_eq_none]
  intro c hc
  have := hmiss c.block (hitems ▸ List.mem_map_of_mem hc)
  simpa using this

theorem getCacheBlock_hit {l : Lru XzBlock maxNumBlocksCache} (h : Caches content s l)
    {offset : ℤ} {b : XzBlock} (hb : b ∈ l.items) (hhit : b.Contains offset)
    (honly : ∀ b' ∈ l.items, b'.Contains offset → b' = b) :
    ∃ s' p, getCacheBlock s offset = .ok (s', some (p, (b.start : ℤ), b.size)) ∧
      Caches content s' (l.touch b hb) ∧ s'.buffers.cells p = some (content b) := by
  obtain ⟨slots, hs, hitems⟩ := h
  have hmem : ∀ c ∈ slots, c.block ∈ l.items := fun c hc => hitems ▸ List.mem_map_of_mem hc
  obtain ⟨c₀, hc₀, rfl⟩ := List.mem_map.mp (hitems ▸ hb)
  have hsome : (slots.find? fun c => c.block.Contains offset).isSome := by
    rw [List.find?_isSome]
    exact ⟨c₀, hc₀, by simpa using hhit⟩
  obtain ⟨c, hc⟩ := Option.isSome_iff_exists.mp hsome
  have hcs : c ∈ slots := List.mem_of_find?_eq_some hc
  have hch : c.block.Contains offset := by simpa using List.find?_some hc
  have hblock := honly c.block (hmem c hcs) hch
  obtain ⟨s', pre, post, rfl, hget, hs', hbuffers⟩ := getCacheBlock_some hs.toChained hc
  rw [hblock] at hget
  refine ⟨s', c.data, hget, ⟨_, ⟨hs', fun b hb => ?_⟩, ?_⟩, ?_⟩
  · rw [hbuffers]
    exact hs.buffer b (List.perm_middle.mem_iff.mpr hb)
  · have hsplit : l.items = pre.map Slot.block ++ c₀.block :: post.map Slot.block := by
      rw [← hitems, List.map_append, List.map_cons, hblock]
    rw [Lru.touch_items hsplit, List.map_cons, List.map_append, hblock]
  · rw [hbuffers, hs.buffer c hcs, hblock]

theorem Chained.withBuffers {slots : List Slot} (h : Chained s slots)
    (buffers : Heap (List UInt8)) : Chained { s with buffers } slots :=
  ⟨h.linked, h.entry_nodup, h.data_nodup, h.first, h.last, h.count, h.payload, h.owned⟩

lemma addNewBlock_refused (hroom : s.cache.numBlocks < maxNumBlocksCache)
    (hmalloc : malloc s = false) (block : ℕ) (offset : ℤ) (size : ℕ) :
    addNewBlock malloc s block offset size = .ok (s, false) := by
  rw [addNewBlock, if_neg (by decide), if_pos ⟨hroom, hmalloc⟩]

theorem next_not_mem {slots : List Slot} (hlive : ∀ c ∈ slots, (s.buffers.cells c.data).isSome) :
    s.buffers.next ∉ slots.map Slot.data := by
  intro hm
  obtain ⟨c, hc, hdata⟩ := List.mem_map.mp hm
  obtain ⟨bytes, hbytes⟩ := Option.isSome_iff_exists.mp (hlive c hc)
  exact absurd (Heap.lt_next hbytes) (hdata ▸ lt_irrefl _)

variable (malloc) in
theorem addNewBlock_chained {slots : List Slot} (h : Chained s slots)
    (hlive : ∀ c ∈ slots, (s.buffers.cells c.data).isSome)
    (hlen : slots.length ≤ maxNumBlocksCache) (bytes : List UInt8) (b : XzBlock)
    (hmalloc : slots.length < maxNumBlocksCache →
      malloc { s with buffers := (s.buffers.alloc bytes).2 } = true) :
    ∃ s' entry, addNewBlock malloc { s with buffers := (s.buffers.alloc bytes).2 } s.buffers.next
        b.start b.size = .ok (s', true) ∧
      Chained s' (⟨entry, s.buffers.next, b⟩ :: slots.take (maxNumBlocksCache - 1)) ∧
      s'.buffers = (slots[maxNumBlocksCache - 1]?).elim (s.buffers.alloc bytes).2
        fun c => (s.buffers.alloc bytes).2.release c.data := by
  have halloc := h.withBuffers (s.buffers.alloc bytes).2
  have hnew := next_not_mem hlive
  rcases Nat.lt_or_eq_of_le hlen with hroom | hfull
  · obtain ⟨s', hadd, hs', hbuffers⟩ := addNewBlock_room halloc hroom b hnew (hmalloc hroom)
    have hlast : slots[maxNumBlocksCache - 1]? = none := List.getElem?_eq_none (by omega)
    rw [List.take_of_length_le (by omega), hlast]
    exact ⟨s', _, hadd, hs', hbuffers⟩
  · rcases List.eq_nil_or_concat slots with rfl | ⟨pre, c, rfl⟩
    · cases hfull
    rw [List.concat_eq_append] at *
    have hpre : maxNumBlocksCache - 1 = pre.length := by
      rw [List.length_append, List.length_singleton] at hfull
      omega
    obtain ⟨old, hold⟩ := Option.isSome_iff_exists.mp (hlive c (by simp))
    have hlive' : ((s.buffers.alloc bytes).2.cells c.data).isSome :=
      Option.isSome_of_eq_some (Heap.cells_alloc hold)
    obtain ⟨s', hadd, hs', hbuffers⟩ := addNewBlock_full halloc hfull b hlive' hnew
    rw [hpre, List.take_left, List.getElem?_concat_length]
    exact ⟨s', _, hadd, hs', hbuffers⟩

theorem Chained.dropped_data {slots : List Slot} (h : Chained s slots) {n : ℕ} {c d : Slot}
    (hc : c ∈ slots.take n) (hd : slots[n]? = some d) : c.data ≠ d.data := by
  have hsplit : slots.take n ++ d :: slots.drop (n + 1) = slots := by
    obtain ⟨hn, rfl⟩ := List.getElem?_eq_some_iff.mp hd
    rw [List.getElem_cons_drop, List.take_append_drop]
  have hnd := h.data_nodup
  rw [← hsplit, List.map_append, List.map_cons] at hnd
  exact (List.nodup_append.mp hnd).2.2 _ (List.mem_map_of_mem hc) _ List.mem_cons_self

/-- A miss: the block goes in front, and a full cache drops the block used longest ago. -/
theorem addNewBlock_insert {l : Lru XzBlock maxNumBlocksCache} (h : Caches content s l)
    {b : XzBlock} (hb : b ∉ l.items) (hmalloc : s.cache.numBlocks < maxNumBlocksCache →
      malloc { s with buffers := (s.buffers.alloc (content b)).2 } = true) : ∃ s',
      addNewBlock malloc { s with buffers := (s.buffers.alloc (content b)).2 } s.buffers.next
        b.start b.size = .ok (s', true) ∧
      Caches content s' (l.insert b hb maxNumBlocksCache_pos) ∧
      s'.buffers.cells s.buffers.next = some (content b) := by
  obtain ⟨slots, hs, hitems⟩ := h
  have hlen : slots.length ≤ maxNumBlocksCache := by
    rw [← List.length_map, hitems]
    exact l.length_le
  have hlive : ∀ c ∈ slots, (s.buffers.cells c.data).isSome := fun c hc =>
    Option.isSome_of_eq_some (hs.buffer c hc)
  obtain ⟨s', entry, hadd, hs', hbuffers⟩ :=
    addNewBlock_chained malloc hs.toChained hlive hlen (content b) b fun hroom => hmalloc (by
      rwa [hs.count])
  have hkept : ∀ c ∈ (⟨entry, s.buffers.next, b⟩ : Slot) :: slots.take (maxNumBlocksCache - 1),
      s'.buffers.cells c.data = some (content c.block) := by
    have hkeep : ∀ p a, (s.buffers.alloc (content b)).2.cells p = some a →
        (∀ d, slots[maxNumBlocksCache - 1]? = some d → p ≠ d.data) →
          s'.buffers.cells p = some a := by
      intro p a hp hne
      rw [hbuffers]
      cases hd : slots[maxNumBlocksCache - 1]? with
      | none => exact hp
      | some d => rw [Option.elim_some, Heap.cells_release_ne (hne d hd), hp]
    rintro c (_ | ⟨_, hc⟩)
    · refine hkeep _ _ (Heap.cells_alloc_self _ _) fun d hd heq => next_not_mem hlive ?_
      rw [show s.buffers.next = d.data from heq]
      exact List.mem_map_of_mem (List.mem_of_getElem? hd)
    · exact hkeep _ _ (Heap.cells_alloc (hs.buffer c (List.mem_of_mem_take hc))) fun d hd =>
        hs.toChained.dropped_data hc hd
  refine ⟨s', hadd, ⟨_, ⟨hs', hkept⟩, ?_⟩, hkept _ List.mem_cons_self⟩
  rw [Lru.insert_items, ← hitems, ← List.map_take]
  rfl

end Spotlight.Xz
