import Spotlight.XzLru

/-! Whole runs of the block cache: the chain of entries is the list of the 32 blocks used last,
and `free_cache_entries` releases all of it. -/
namespace Spotlight.Xz
open DoublyLinked

/-- The loop of `free_cache_entries` from `current` on, with the count so far. The cache's own
count bounds it. -/
def freeCacheEntriesLoop : ℕ → CacheState → Option ℕ → ℕ → Outcome (CacheState × ℕ)
  | _, s, none, count => .ok (s, count)
  | 0, _, some _, _ => .error .fuel
  | n + 1, s, some current, count => do
    let e ← s.entries.read current
    match e.next with
    | some next => do
      let following ← s.entries.read next
      assertThat (following.prev = some current)
    | none => pure ()
    let buffers ← s.buffers.free e.data
    let entries ← s.entries.free current
    freeCacheEntriesLoop n { s with entries, buffers } e.next (count + 1)

def freeCacheEntries (s : CacheState) : Outcome CacheState := do
  match s.cache.first with
  | some current => do
    let e ← s.entries.read current
    assertThat (e.prev = none)
    let last ← deref s.cache.last
    let l ← s.entries.read last
    assertThat (l.next = none)
  | none => pure ()
  let (s, count) ← freeCacheEntriesLoop s.cache.numBlocks s s.cache.first 0
  assertThat (count = s.cache.numBlocks)
  return { s with cache := ⟨0, none, none⟩ }

inductive CacheOp
  | getCacheBlock (offset : ℤ)
  | addNewBlock (memory : Bool) (bytes : List UInt8) (block : XzBlock)

inductive CacheResult
  | got (block : Option (ℕ × ℤ × ℕ))
  | added (kept : Bool)

/-- One operation on the cache. The buffer of an added block is new and holds `bytes`; the caller
frees it when there was no `memory` for an entry. -/
def CacheOp.run (s : CacheState) : CacheOp → Outcome (CacheState × CacheResult)
  | .getCacheBlock offset => do
    let (s, block) ← Xz.getCacheBlock s offset
    return (s, .got block)
  | .addNewBlock memory bytes b => do
    let (data, buffers) := s.buffers.alloc bytes
    let (s, kept) ← Xz.addNewBlock (fun _ => memory) { s with buffers } data b.start b.size
    let buffers ← if kept then pure s.buffers else s.buffers.free data
    return ({ s with buffers }, .added kept)

def runOps : CacheState → List CacheOp → Outcome (CacheState × List CacheResult)
  | s, [] => .ok (s, [])
  | s, op :: ops => do
    let (s, result) ← op.run s
    let (s, results) ← runOps s ops
    return (s, result :: results)

/-- A block that was added, with the address of its buffer. -/
structure Added where
  data : ℕ
  block : XzBlock
  deriving DecidableEq

/-- What the operations so far have done: the uses of blocks, the latest one first, and the
contents of the buffers handed over, the one at address `p` in place `p`. -/
structure Usage where
  uses : List Added
  buffers : List (List UInt8)

def Usage.cached (u : Usage) : Lru Added maxNumBlocksCache := Lru.ofUses _ u.uses

/-- Whether an added block is kept: a full cache needs no memory. -/
def Usage.keeps (u : Usage) (memory : Bool) : Bool :=
  memory || maxNumBlocksCache ≤ u.cached.items.length

def Usage.step (u : Usage) : CacheOp → Usage × CacheResult
  | .getCacheBlock offset =>
    match u.cached.items.find? fun a => a.block.Contains offset with
    | none => (u, .got none)
    | some a => ({ u with uses := a :: u.uses }, .got (some (a.data, a.block.start, a.block.size)))
  | .addNewBlock memory bytes b =>
    (⟨if u.keeps memory then ⟨u.buffers.length, b⟩ :: u.uses else u.uses, u.buffers ++ [bytes]⟩,
      .added (u.keeps memory))

def Usage.steps : Usage → List CacheOp → Usage × List CacheResult
  | u, [] => (u, [])
  | u, op :: ops =>
    let (u, result) := u.step op
    let (u, results) := u.steps ops
    (u, result :: results)

def Usage.after (ops : List CacheOp) : Usage := (Usage.steps ⟨[], []⟩ ops).1

def Usage.results (ops : List CacheOp) : List CacheResult := (Usage.steps ⟨[], []⟩ ops).2

def Slot.added (c : Slot) : Added := ⟨c.data, c.block⟩

/-- The chain holds the blocks used last in that order, and their buffers are the live ones. -/
structure Follows (u : Usage) (s : CacheState) (slots : List Slot) : Prop
    extends Chained s slots where
  items : slots.map Slot.added = u.cached.items
  known : ∀ a ∈ u.uses, a.data < u.buffers.length
  next : s.buffers.next = u.buffers.length
  live : ∀ p, s.buffers.cells p = if p ∈ slots.map Slot.data then u.buffers[p]? else none

variable {u : Usage} {s : CacheState} {slots : List Slot} {c : Slot}

lemma Usage.cached_hit {a : Added} (h : a ∈ u.cached.items) :
    ({ u with uses := a :: u.uses } : Usage).cached.items = (u.cached.touch a h).items :=
  Lru.ofUses_hit h

lemma Usage.cached_miss {a : Added} (h : a ∉ u.uses) (buffers : List (List UInt8)) :
    (⟨a :: u.uses, buffers⟩ : Usage).cached.items =
      a :: u.cached.items.take (maxNumBlocksCache - 1) :=
  Lru.ofUses_miss maxNumBlocksCache_pos h fun hm => h (Lru.mem_of_mem_ofUses hm)

lemma follows_empty : Follows ⟨[], []⟩ emptyCache [] :=
  ⟨chained_empty, rfl, by simp, rfl, fun _ => rfl⟩

lemma Follows.length_le (h : Follows u s slots) : slots.length ≤ maxNumBlocksCache := by
  rw [← List.length_map, h.items]
  exact u.cached.length_le

lemma Follows.data_lt (h : Follows u s slots) {c : Slot} (hc : c ∈ slots) :
    c.data < u.buffers.length := by
  have hmem : c.added ∈ u.cached.items := h.items ▸ List.mem_map_of_mem hc
  exact h.known _ (Lru.mem_of_mem_ofUses hmem)

lemma Follows.cell (h : Follows u s slots) {c : Slot} (hc : c ∈ slots) :
    s.buffers.cells c.data = some (u.buffers.get ⟨c.data, h.data_lt hc⟩) := by
  rw [h.live, if_pos (List.mem_map_of_mem hc), List.getElem?_eq_getElem (h.data_lt hc)]
  rfl

lemma find_added (slots : List Slot) (offset : ℤ) :
    ((slots.map Slot.added).find? fun a => a.block.Contains offset) =
      (slots.find? fun c => c.block.Contains offset).map Slot.added := List.find?_map

lemma getCacheBlock_follows (h : Follows u s slots) (offset : ℤ) : ∃ s' slots',
    (CacheOp.getCacheBlock offset).run s = .ok (s', (u.step (.getCacheBlock offset)).2) ∧
      Follows (u.step (.getCacheBlock offset)).1 s' slots' := by
  have hfind := find_added slots offset
  rw [h.items] at hfind
  cases hslot : slots.find? fun c => c.block.Contains offset with
  | none =>
    rw [hslot, Option.map_none] at hfind
    have hget := getCacheBlock_none h.toChained hslot
    exact ⟨s, slots, by simp [CacheOp.run, hget, Usage.step, hfind],
      by simpa [Usage.step, hfind] using h⟩
  | some c =>
    rw [hslot, Option.map_some] at hfind
    obtain ⟨s', pre, post, rfl, hget, hs', hbuffers⟩ := getCacheBlock_some h.toChained hslot
    have hmem : c.added ∈ u.cached.items := List.mem_of_find?_eq_some hfind
    have hsplit : u.cached.items = pre.map Slot.added ++ c.added :: post.map Slot.added := by
      rw [← h.items, List.map_append, List.map_cons]
    have hstep : u.step (.getCacheBlock offset) = ({ u with uses := c.added :: u.uses },
        .got (some (c.data, (c.block.start : ℤ), c.block.size))) := by
      simp [Usage.step, hfind, Slot.added]
    rw [hstep]
    refine ⟨s', _, by simp [CacheOp.run, hget], hs', ?_, ?_, ?_, ?_⟩
    · rw [Usage.cached_hit hmem, Lru.touch_items hsplit, List.map_cons, List.map_append]
    · rintro a (_ | ⟨_, ha⟩)
      · exact h.data_lt (by simp)
      · exact h.known a ha
    · rw [hbuffers, h.next]
    · intro p
      have hmiddle : (pre ++ c :: post).Perm (c :: (pre ++ post)) := List.perm_middle
      have hperm := (hmiddle.map Slot.data).mem_iff (a := p)
      rw [hbuffers, h.live]
      simp only [hperm]

lemma live_added (h : Follows u s slots) (bytes : List UInt8) (p : ℕ) :
    ((slots[maxNumBlocksCache - 1]?).elim (s.buffers.alloc bytes).2
      fun c => (s.buffers.alloc bytes).2.release c.data).cells p =
      if p ∈ s.buffers.next :: (slots.take (maxNumBlocksCache - 1)).map Slot.data then
        (u.buffers ++ [bytes])[p]? else none := by
  have hnext := h.next
  have hold : ∀ q, q ≠ s.buffers.next → (s.buffers.alloc bytes).2.cells q =
      if q ∈ slots.map Slot.data then (u.buffers ++ [bytes])[q]? else none := by
    intro q hq
    have hcells : (s.buffers.alloc bytes).2.cells q = s.buffers.cells q :=
      Function.update_of_ne hq _ _
    rw [hcells, h.live]
    split_ifs with hm
    · obtain ⟨c, hc, rfl⟩ := List.mem_map.mp hm
      rw [List.getElem?_append_left (h.data_lt hc)]
    · rfl
  have hnew : (s.buffers.alloc bytes).2.cells s.buffers.next =
      (u.buffers ++ [bytes])[s.buffers.next]? := by
    rw [Heap.cells_alloc_self, hnext, List.getElem?_concat_length]
  cases hd : slots[maxNumBlocksCache - 1]? with
  | none =>
    have hall : slots.take (maxNumBlocksCache - 1) = slots :=
      List.take_of_length_le (List.getElem?_eq_none_iff.mp hd)
    rw [Option.elim_none, hall]
    by_cases hp : p = s.buffers.next
    · rw [if_pos (hp ▸ List.mem_cons_self), hp, hnew]
    · simp only [hold p hp, List.mem_cons, hp, false_or]
  | some d =>
    obtain ⟨hlt, rfl⟩ := List.getElem?_eq_some_iff.mp hd
    have hsplit : slots.take (maxNumBlocksCache - 1) ++ [slots[maxNumBlocksCache - 1]] = slots := by
      rw [List.take_append_getElem, List.take_of_length_le]
      exact h.length_le.trans (by decide)
    have hdata : slots[maxNumBlocksCache - 1].data ≠ s.buffers.next := by
      rw [hnext]
      exact (h.data_lt (List.getElem_mem hlt)).ne
    rw [Option.elim_some]
    by_cases hp : p = slots[maxNumBlocksCache - 1].data
    · have hout : p ∉ s.buffers.next :: (slots.take (maxNumBlocksCache - 1)).map Slot.data := by
        intro hm
        rcases List.mem_cons.mp hm with heq | hm
        · exact hdata (hp ▸ heq)
        · obtain ⟨c, hc, hcp⟩ := List.mem_map.mp hm
          exact h.toChained.dropped_data hc hd (hcp.trans hp)
      rw [if_neg hout, hp, Heap.cells_release_self]
    · rw [Heap.cells_release_ne hp]
      by_cases hpn : p = s.buffers.next
      · rw [if_pos (hpn ▸ List.mem_cons_self), hpn, hnew]
      · have hiff : p ∈ slots.map Slot.data ↔
            p ∈ (slots.take (maxNumBlocksCache - 1)).map Slot.data := by
          have hmap := congrArg (List.map Slot.data) hsplit
          rw [List.map_append] at hmap
          rw [← hmap, List.mem_append, List.map_singleton, List.mem_singleton, or_iff_left hp]
        simp only [hold p hpn, hiff, List.mem_cons, hpn, false_or]

lemma Follows.length_eq (h : Follows u s slots) : u.cached.items.length = slots.length := by
  rw [← h.items, List.length_map]

lemma addNewBlock_kept (h : Follows u s slots) {memory : Bool} (hkeeps : u.keeps memory = true)
    (bytes : List UInt8) (b : XzBlock) :
    ∃ s' entry, (CacheOp.addNewBlock memory bytes b).run s = .ok (s', .added true) ∧
      Follows (u.step (.addNewBlock memory bytes b)).1 s'
        (⟨entry, s.buffers.next, b⟩ :: slots.take (maxNumBlocksCache - 1)) := by
  have hlive : ∀ c ∈ slots, (s.buffers.cells c.data).isSome := fun c hc =>
    Option.isSome_of_eq_some (h.cell hc)
  have hmemory : slots.length < maxNumBlocksCache → memory = true := by
    intro hroom
    rw [Usage.keeps, h.length_eq] at hkeeps
    simpa [Nat.not_le.mpr hroom] using hkeeps
  obtain ⟨s', entry, hadd, hs', hbuffers⟩ :=
    addNewBlock_chained (fun _ => memory) h.toChained hlive h.length_le bytes b hmemory
  have hfresh : (⟨u.buffers.length, b⟩ : Added) ∉ u.uses := fun hm =>
    lt_irrefl _ (h.known _ hm)
  rw [Usage.step, if_pos hkeeps]
  refine ⟨s', entry, by simp [CacheOp.run, hadd], hs', ?_, ?_, ?_, ?_⟩
  · rw [Usage.cached_miss hfresh, ← h.items, List.map_cons, List.map_take, Slot.added, h.next]
  · intro a ha
    rw [List.length_append, List.length_singleton]
    rcases List.mem_cons.mp ha with rfl | ha
    · exact Nat.lt_succ_self _
    · exact (h.known a ha).trans (Nat.lt_succ_self _)
  · have hnext : s'.buffers.next = s.buffers.next + 1 := by
      rw [hbuffers]
      cases slots[maxNumBlocksCache - 1]? <;> rfl
    rw [hnext, h.next, List.length_append, List.length_singleton]
  · intro p
    rw [hbuffers, List.map_cons, live_added h bytes p]

lemma addNewBlock_forgone (h : Follows u s slots) {memory : Bool} (hkeeps : u.keeps memory = false)
    (bytes : List UInt8) (b : XzBlock) :
    ∃ s', (CacheOp.addNewBlock memory bytes b).run s = .ok (s', .added false) ∧
      Follows (u.step (.addNewBlock memory bytes b)).1 s' slots := by
  obtain ⟨rfl, hroom⟩ : memory = false ∧ slots.length < maxNumBlocksCache := by
    rw [Usage.keeps, h.length_eq] at hkeeps
    simpa using hkeeps
  have hadd : addNewBlock (fun _ => false) { s with buffers := (s.buffers.alloc bytes).2 }
      s.buffers.next b.start b.size = .ok (_, false) :=
    addNewBlock_refused (h.count ▸ hroom) rfl _ _ _
  have hfree := Heap.free_of_cell (Heap.cells_alloc_self s.buffers bytes)
  have hcells := Heap.cells_release_alloc s.buffers bytes
  rw [Usage.step, if_neg (Bool.eq_false_iff.mp hkeeps), hkeeps]
  refine ⟨{ s with buffers := (s.buffers.alloc bytes).2.release s.buffers.next }, ?_,
    h.toChained.withBuffers _, h.items, fun a ha => ?_, ?_, fun p => ?_⟩
  · simp [CacheOp.run, hadd, hfree]
  · rw [List.length_append, List.length_singleton]
    exact (h.known a ha).trans (Nat.lt_succ_self _)
  · rw [List.length_append, List.length_singleton, ← h.next]
    rfl
  · rw [hcells, h.live]
    split_ifs with hp
    · obtain ⟨c, hc, rfl⟩ := List.mem_map.mp hp
      rw [List.getElem?_append_left (h.data_lt hc)]
    · rfl

lemma CacheOp.run_follows (h : Follows u s slots) (op : CacheOp) : ∃ s' slots',
    op.run s = .ok (s', (u.step op).2) ∧ Follows (u.step op).1 s' slots' := by
  cases op with
  | getCacheBlock offset => exact getCacheBlock_follows h offset
  | addNewBlock memory bytes b =>
    cases hkeeps : u.keeps memory with
    | true =>
      obtain ⟨s', entry, hrun, hs'⟩ := addNewBlock_kept h hkeeps bytes b
      exact ⟨s', _, by rw [hrun, Usage.step, hkeeps], hs'⟩
    | false =>
      obtain ⟨s', hrun, hs'⟩ := addNewBlock_forgone h hkeeps bytes b
      exact ⟨s', slots, by rw [hrun, Usage.step, hkeeps], hs'⟩

lemma runOps_follows (h : Follows u s slots) (ops : List CacheOp) : ∃ s' slots',
    runOps s ops = .ok (s', (u.steps ops).2) ∧ Follows (u.steps ops).1 s' slots' := by
  induction ops generalizing u s slots with
  | nil => exact ⟨s, slots, rfl, h⟩
  | cons op ops ih =>
    obtain ⟨s₁, slots₁, hop, h₁⟩ := op.run_follows h
    obtain ⟨s', slots', hops, h'⟩ := ih h₁
    exact ⟨s', slots', by simp [runOps, hop, hops, Usage.steps], h'⟩

lemma freeCacheEntriesLoop_step {before : Option ℕ}
    (hl : Linked (links s.entries) before ((c :: slots).map Slot.entry) none)
    (hp : payload s.entries c.entry = some ((c.block.start : ℤ), c.block.size, c.data))
    (hb : (s.buffers.cells c.data).isSome) (n count : ℕ) :
    freeCacheEntriesLoop (n + 1) s (some c.entry) count =
      freeCacheEntriesLoop n ⟨s.cache, s.entries.release c.entry, s.buffers.release c.data⟩
        (slots.map Slot.entry).head? (count + 1) := by
  obtain ⟨hc, hrest⟩ := hl
  obtain ⟨e, he, hlinks⟩ := Option.map_eq_some_iff.mp hc
  obtain ⟨bytes, hbytes⟩ := Option.isSome_iff_exists.mp hb
  simp only [payload, Heap.view, he, Option.map_some, Option.some.injEq, Prod.mk.injEq] at hp
  simp only [Links.mk.injEq, Option.or_none] at hlinks
  have hentry := Heap.free_of_cell he
  have hbuffer := Heap.free_of_cell hbytes
  cases slots with
  | nil =>
    have hnext : e.next = none := hlinks.2
    simp [freeCacheEntriesLoop, Heap.read_of_cell he, hnext, hp, hentry, hbuffer]
  | cons d slots =>
    have hnext : e.next = some d.entry := hlinks.2
    obtain ⟨f, hf, hback⟩ := Option.map_eq_some_iff.mp hrest.1
    simp only [Links.mk.injEq] at hback
    simp [freeCacheEntriesLoop, Heap.read_of_cell he, Heap.read_of_cell hf, hnext, hback, hp,
      hentry, hbuffer]

/-- Along the chain no assertion fails, no pointer is followed or freed twice, and the count is
the length of the chain. -/
lemma freeCacheEntriesLoop_eq {before : Option ℕ}
    (hl : Linked (links s.entries) before (slots.map Slot.entry) none)
    (hentry : (slots.map Slot.entry).Nodup) (hdata : (slots.map Slot.data).Nodup)
    (hp : ∀ c ∈ slots, payload s.entries c.entry =
      some ((c.block.start : ℤ), c.block.size, c.data))
    (hb : ∀ c ∈ slots, (s.buffers.cells c.data).isSome) (count : ℕ) : ∃ s',
    freeCacheEntriesLoop slots.length s (slots.map Slot.entry).head? count =
        .ok (s', count + slots.length) ∧ s'.cache = s.cache ∧
      (∀ p, s'.entries.cells p = if p ∈ slots.map Slot.entry then none else s.entries.cells p) ∧
      ∀ p, s'.buffers.cells p = if p ∈ slots.map Slot.data then none else s.buffers.cells p := by
  induction slots generalizing s before count with
  | nil => exact ⟨s, rfl, rfl, fun _ => rfl, fun _ => rfl⟩
  | cons c slots ih =>
    have hstep := freeCacheEntriesLoop_step hl (hp c List.mem_cons_self)
      (hb c List.mem_cons_self) slots.length count
    obtain ⟨hce, hentry'⟩ := List.nodup_cons.mp hentry
    obtain ⟨hcd, hdata'⟩ := List.nodup_cons.mp hdata
    have hentry_ne : ∀ d ∈ slots, d.entry ≠ c.entry := fun d hd =>
      ne_of_mem_of_not_mem (List.mem_map_of_mem hd) hce
    have hdata_ne : ∀ d ∈ slots, d.data ≠ c.data := fun d hd =>
      ne_of_mem_of_not_mem (List.mem_map_of_mem hd) hcd
    have hrest : Linked (links (s.entries.release c.entry)) (some c.entry)
        (slots.map Slot.entry) none :=
      hl.2.congr fun p hm => Heap.view_release_ne (ne_of_mem_of_not_mem hm hce)
    have hpayload : ∀ d ∈ slots, payload (s.entries.release c.entry) d.entry =
        some ((d.block.start : ℤ), d.block.size, d.data) := fun d hd =>
      (Heap.view_release_ne (hentry_ne d hd)).trans (hp d (List.mem_cons_of_mem _ hd))
    have hbuffer : ∀ d ∈ slots, ((s.buffers.release c.data).cells d.data).isSome := by
      intro d hd
      rw [Heap.cells_release_ne (hdata_ne d hd)]
      exact hb d (List.mem_cons_of_mem _ hd)
    obtain ⟨s', hloop, hcache, hentries, hbuffers⟩ :=
      ih (s := ⟨s.cache, s.entries.release c.entry, s.buffers.release c.data⟩) hrest hentry' hdata'
        hpayload hbuffer (count + 1)
    refine ⟨s', ?_, hcache, fun p => ?_, fun p => ?_⟩
    · rw [List.length_cons, List.map_cons, List.head?_cons, hstep, hloop, Nat.add_right_comm,
        Nat.add_assoc]
    · rw [hentries, Heap.cells_release]
      simp only [List.map_cons, List.mem_cons]
      split_ifs <;> tauto
    · rw [hbuffers, Heap.cells_release]
      simp only [List.map_cons, List.mem_cons]
      split_ifs <;> tauto

lemma Chained.ends (h : Chained s (c :: slots)) : ∃ e last l,
    s.entries.cells c.entry = some e ∧ e.prev = none ∧ s.cache.last = some last ∧
      s.entries.cells last = some l ∧ l.next = none := by
  obtain ⟨e, he, hlinks⟩ := Option.map_eq_some_iff.mp h.linked.1
  obtain ⟨init, d, hd⟩ := List.eq_nil_or_concat (c :: slots) |>.resolve_left (List.cons_ne_nil _ _)
  rw [List.concat_eq_append] at hd
  have hlinked := h.linked
  have hlast := h.last
  rw [hd, List.map_append] at hlinked hlast
  obtain ⟨-, hlastLinks, -⟩ := linked_append.mp hlinked
  obtain ⟨l, hl, hends⟩ := Option.map_eq_some_iff.mp hlastLinks
  exact ⟨e, d.entry, l, he, congrArg Links.prev hlinks, by simpa using hlast, hl,
    congrArg Links.next hends⟩

lemma freeCacheEntries_eq (h : Chained s slots)
    (hlive : ∀ c ∈ slots, (s.buffers.cells c.data).isSome) : ∃ s', freeCacheEntries s = .ok s' ∧
    s'.cache = ⟨0, none, none⟩ ∧
      (∀ p, s'.entries.cells p = if p ∈ slots.map Slot.entry then none else s.entries.cells p) ∧
      ∀ p, s'.buffers.cells p = if p ∈ slots.map Slot.data then none else s.buffers.cells p := by
  obtain ⟨s', hloop, hcache, hentries, hbuffers⟩ :=
    freeCacheEntriesLoop_eq h.linked h.entry_nodup h.data_nodup h.payload hlive 0
  rw [← h.count, ← h.first, Nat.zero_add] at hloop
  refine ⟨{ s' with cache := ⟨0, none, none⟩ }, ?_, rfl, hentries, hbuffers⟩
  cases slots with
  | nil =>
    have hfirst : s.cache.first = none := h.first
    rw [hfirst] at hloop
    simp [freeCacheEntries, hfirst, hloop, hcache]
  | cons c slots =>
    obtain ⟨e, last, l, he, hprev, hlast, hl, hnext⟩ := h.ends
    have hfirst : s.cache.first = some c.entry := h.first
    rw [hfirst] at hloop
    simp [freeCacheEntries, hfirst, Heap.read_of_cell he, hprev, hlast, Heap.read_of_cell hl,
      hnext, hloop, hcache]

lemma freeCacheEntries_releases (h : Follows u s slots) : ∃ s', freeCacheEntries s = .ok s' ∧
    s'.cache = ⟨0, none, none⟩ ∧ (∀ p, s'.entries.cells p = none) ∧
      ∀ p, s'.buffers.cells p = none := by
  have hlive : ∀ c ∈ slots, (s.buffers.cells c.data).isSome := fun c hc =>
    Option.isSome_of_eq_some (h.cell hc)
  obtain ⟨s', hfree, hcache, hentries, hbuffers⟩ := freeCacheEntries_eq h.toChained hlive
  refine ⟨s', hfree, hcache, fun p => ?_, fun p => ?_⟩
  · rw [hentries]
    split_ifs with hm
    · rfl
    · by_contra hsome
      exact hm (h.owned p (Option.isSome_iff_ne_none.mpr hsome))
  · rw [hbuffers, h.live]
    split_ifs <;> rfl

/-- The chain read forwards and backwards, with as many different entries and buffers as the
cache counts, in the order of the latest use. -/
structure Mirrors (items : List Added) (s : CacheState) (entries : List ℕ) : Prop where
  forwards : Visits (fun p => (s.entries.cells p).map XzBlockCacheEntry.next) s.cache.first entries
  backwards : Visits (fun p => (s.entries.cells p).map XzBlockCacheEntry.prev) s.cache.last
    entries.reverse
  payload : entries.map (payload s.entries) =
    items.map fun a => some ((a.block.start : ℤ), a.block.size, a.data)
  count : s.cache.numBlocks = items.length
  count_le : s.cache.numBlocks ≤ 32
  entry_nodup : entries.Nodup
  data_nodup : (items.map Added.data).Nodup
  owned : ∀ p, (s.entries.cells p).isSome ↔ p ∈ entries

lemma Follows.mirrors (h : Follows u s slots) :
    Mirrors u.cached.items s (slots.map Slot.entry) := by
  have hitems := h.items
  constructor
  · have hvisits := h.linked.visits_next
    rw [← h.first] at hvisits
    simpa [links, Heap.view, Function.comp_def] using hvisits
  · have hvisits := h.linked.visits_prev
    rw [← h.last] at hvisits
    simpa [links, Heap.view, Function.comp_def] using hvisits
  · rw [← hitems, List.map_map, List.map_map]
    exact List.map_congr_left fun c hc => h.payload c hc
  · rw [h.count, ← hitems, List.length_map]
  · rw [h.count]
    exact h.length_le
  · exact h.entry_nodup
  · rw [← hitems, List.map_map]
    exact h.data_nodup
  · intro p
    refine ⟨h.owned p, fun hm => ?_⟩
    obtain ⟨c, hc, rfl⟩ := List.mem_map.mp hm
    exact h.toChained.isSome hc

lemma addNewBlock_evicts (h : Follows u s slots) (hfull : slots.length = maxNumBlocksCache)
    (memory : Bool) (bytes : List UInt8) (b : XzBlock) : ∃ c s', slots.getLast? = some c ∧
      (CacheOp.addNewBlock memory bytes b).run s = .ok (s', .added true) ∧
      s'.buffers.cells c.data = none ∧ s'.buffers.cells s.buffers.next = some bytes ∧
      ∀ p, p ≠ c.data → p ≠ s.buffers.next → s'.buffers.cells p = s.buffers.cells p := by
  have hlive : ∀ c ∈ slots, (s.buffers.cells c.data).isSome := fun c hc =>
    Option.isSome_of_eq_some (h.cell hc)
  obtain ⟨s', entry, hadd, -, hbuffers⟩ :=
    addNewBlock_chained (fun _ => memory) h.toChained hlive h.length_le bytes b fun hroom =>
      absurd hfull hroom.ne
  have hlast : slots.getLast? = slots[maxNumBlocksCache - 1]? := by
    rw [List.getLast?_eq_getElem?, hfull]
  have hlt : maxNumBlocksCache - 1 < slots.length := by
    rw [hfull]
    decide
  rw [List.getElem?_eq_getElem hlt] at hbuffers hlast
  have hnext : slots[maxNumBlocksCache - 1].data ≠ s.buffers.next := by
    rw [h.next]
    exact (h.data_lt (List.getElem_mem hlt)).ne
  refine ⟨_, s', hlast, by simp [CacheOp.run, hadd], ?_, ?_, fun p hp hpn => ?_⟩
  · rw [hbuffers, Option.elim_some, Heap.cells_release_self]
  · rw [hbuffers, Option.elim_some, Heap.cells_release_ne hnext.symm, Heap.cells_alloc_self]
  · rw [hbuffers, Option.elim_some, Heap.cells_release_ne hp]
    exact Function.update_of_ne hpn _ _

/-- Every run of operations from the empty cache ends, with the results of a list of the 32
blocks used last. The chain is that list, the live buffers are those of its blocks, and
`free_cache_entries` leaves no entry and no buffer. -/
theorem runOps_lru (ops : List CacheOp) : ∃ s entries,
    runOps emptyCache ops = .ok (s, Usage.results ops) ∧
      Mirrors (Usage.after ops).cached.items s entries ∧
      (∀ p, s.buffers.cells p = if p ∈ (Usage.after ops).cached.items.map Added.data then
        (Usage.after ops).buffers[p]? else none) ∧
      (∀ offset, ∃ s', getCacheBlock s offset =
        .ok (s', ((Usage.after ops).cached.items.find? fun a => a.block.Contains offset).map
          fun a => (a.data, (a.block.start : ℤ), a.block.size))) ∧
      (∀ memory bytes b, (Usage.after ops).cached.items.length = 32 →
        ∃ a s', (Usage.after ops).cached.items.getLast? = some a ∧
          (CacheOp.addNewBlock memory bytes b).run s = .ok (s', .added true) ∧
          s'.buffers.cells a.data = none ∧ s'.buffers.cells s.buffers.next = some bytes ∧
          ∀ p, p ≠ a.data → p ≠ s.buffers.next → s'.buffers.cells p = s.buffers.cells p) ∧
      ∃ s', freeCacheEntries s = .ok s' ∧ s'.cache = ⟨0, none, none⟩ ∧
        (∀ p, s'.entries.cells p = none) ∧ ∀ p, s'.buffers.cells p = none := by
  obtain ⟨s, slots, hrun, h⟩ := runOps_follows follows_empty ops
  have hitems : slots.map Slot.added = (Usage.after ops).cached.items := h.items
  refine ⟨s, _, hrun, h.mirrors, fun p => ?_, fun offset => ?_, fun memory bytes b hfull => ?_,
    freeCacheEntries_releases h⟩
  · rw [h.live, ← hitems, List.map_map]
    rfl
  · rw [← hitems, find_added, Option.map_map]
    cases hfind : slots.find? fun c => c.block.Contains offset with
    | none => exact ⟨s, getCacheBlock_none h.toChained hfind⟩
    | some c =>
      obtain ⟨s', pre, post, -, hget, -⟩ := getCacheBlock_some h.toChained hfind
      exact ⟨s', hget⟩
  · rw [← hitems, List.length_map] at hfull
    obtain ⟨c, s', hlast, hrest⟩ := addNewBlock_evicts h hfull memory bytes b
    refine ⟨c.added, s', ?_, hrest⟩
    rw [← hitems, List.getLast?_map, hlast, Option.map_some]

end Spotlight.Xz
