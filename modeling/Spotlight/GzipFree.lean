import Spotlight.Gzip
import Spotlight.Heap
import Spotlight.DoublyLinked

/-! The access point list of a reader in memory: how it grows (`append_access_point_list` of
`gzip_reader.c`), and what `gzip_reader_free` releases in a build with `NDEBUG`. -/
namespace Spotlight.Gzip
open DoublyLinked

/-- An access point with the links that it has in memory. -/
structure LinkedEntry where
  entry : GzipAccessPointEntry
  next : Option ℕ
  prev : Option ℕ

structure GzipAccessPointList where
  length : ℕ
  first : Option ℕ
  last : Option ℕ

/-- The memory of the entries and of the lists. -/
structure ListMemory where
  entries : Heap LinkedEntry
  lists : Heap GzipAccessPointList

def createAccessPointList (m : ListMemory) : ℕ × ListMemory :=
  let (list, lists) := m.lists.alloc ⟨0, none, none⟩
  (list, { m with lists })

def appendAccessPointList (m : ListMemory) (list entry : ℕ) : Outcome ListMemory := do
  let lists ← m.lists.modify list fun l => { l with length := l.length + 1 }
  let l ← lists.read list
  let entries ← m.entries.modify entry fun e => { e with prev := l.last }
  let entries ← entries.modify entry fun e => { e with next := none }
  match l.first with
  | some _ => do
    let last ← deref l.last
    let entries ← entries.modify last fun e => { e with next := some entry }
    let lists ← lists.modify list fun l => { l with last := some entry }
    return ⟨entries, lists⟩
  | none => do
    let lists ← lists.modify list fun l => { l with first := some entry }
    let lists ← lists.modify list fun l => { l with last := some entry }
    return ⟨entries, lists⟩

def freeAccessPointEntry (entries : Heap LinkedEntry) (entry : ℕ) :
    Outcome (Heap LinkedEntry) := do
  let e ← entries.read entry
  let entries ← match e.next with
    | some next => entries.modify next fun n => { n with prev := e.prev }
    | none => pure entries
  let e ← entries.read entry
  let entries ← match e.prev with
    | some prev => entries.modify prev fun n => { n with next := e.next }
    | none => pure entries
  entries.free entry

/-- The loop of `free_access_point_list`; the list's own count bounds it. -/
def freeAccessPointListLoop :
    ℕ → Heap LinkedEntry → ℕ → Option ℕ → Outcome (Heap LinkedEntry × ℕ)
  | _, entries, current, none => .ok (entries, current)
  | 0, _, _, some _ => .error .fuel
  | n + 1, entries, current, some next => do
    let entries ← freeAccessPointEntry entries current
    let e ← entries.read next
    freeAccessPointListLoop n entries next e.next

/-- `free_access_point_list` without its assertions. The first entry is followed before it is
looked at. -/
def freeAccessPointList (m : ListMemory) (list : ℕ) : Outcome ListMemory := do
  let l ← m.lists.read list
  let current ← deref l.first
  let e ← m.entries.read current
  let (entries, current) ← freeAccessPointListLoop l.length m.entries current e.next
  let entries ← freeAccessPointEntry entries current
  let lists ← m.lists.free list
  return ⟨entries, lists⟩

def gzipReaderFree (m : ListMemory) (list : ℕ) : Outcome ListMemory := freeAccessPointList m list

/-- `create_access_point_entry`, for an access point that is made already, and the append behind
it. -/
def appendEntry (list : ℕ) (m : ListMemory) (entry : GzipAccessPointEntry) : Outcome ListMemory :=
  let (p, entries) := m.entries.alloc ⟨entry, none, none⟩
  appendAccessPointList { m with entries } list p

/-- The list of `gzip_reader_alloc` once these access points have been appended to it. -/
def readerList (entries : List GzipAccessPointEntry) : Outcome (ℕ × ListMemory) := do
  let (list, m) := createAccessPointList ⟨Heap.empty, Heap.empty⟩
  let m ← entries.foldlM (appendEntry list) m
  return (list, m)

def links (entries : Heap LinkedEntry) : ℕ → Option Links :=
  entries.view fun e => ⟨e.prev, e.next⟩

def pointAt (entries : Heap LinkedEntry) : ℕ → Option GzipAccessPointEntry :=
  entries.view LinkedEntry.entry

/-- The list at this address chains these cells in their order with these access points, and there
is nothing else. -/
structure Chained (m : ListMemory) (list : ℕ) (cells : List ℕ)
    (entries : List GzipAccessPointEntry) : Prop where
  linked : Linked (links m.entries) none cells none
  nodup : cells.Nodup
  payload : cells.map (pointAt m.entries) = entries.map some
  record : m.lists.cells list = some ⟨cells.length, cells.head?, cells.getLast?⟩
  owned : ∀ p, (m.entries.cells p).isSome → p ∈ cells
  sole : ∀ p, (m.lists.cells p).isSome → p = list

lemma links_prev (h : Heap LinkedEntry) (p : ℕ) (v : Option ℕ) :
    links (h.modifyCell p fun n => { n with prev := v }) = setPrev (links h) p v := by
  unfold links
  apply Heap.view_modifyCell (k := fun l : Links => { l with prev := v })
  intro _
  rfl

lemma links_next (h : Heap LinkedEntry) (p : ℕ) (v : Option ℕ) :
    links (h.modifyCell p fun n => { n with next := v }) = setNext (links h) p v := by
  unfold links
  apply Heap.view_modifyCell (k := fun l : Links => { l with next := v })
  intro _
  rfl

lemma pointAt_prev (h : Heap LinkedEntry) (p : ℕ) (v : Option ℕ) :
    pointAt (h.modifyCell p fun n => { n with prev := v }) = pointAt h := by
  unfold pointAt
  apply Heap.view_modifyCell_same
  intro _
  rfl

lemma pointAt_next (h : Heap LinkedEntry) (p : ℕ) (v : Option ℕ) :
    pointAt (h.modifyCell p fun n => { n with next := v }) = pointAt h := by
  unfold pointAt
  apply Heap.view_modifyCell_same
  intro _
  rfl

lemma links_release {h : Heap LinkedEntry} {p q : ℕ} (hq : q ≠ p) :
    links (h.release p) q = links h q := Heap.view_release_ne hq

lemma cell_of_links {h : Heap LinkedEntry} {p : ℕ} {l : Links} (hl : links h p = some l) :
    ∃ e, h.cells p = some e ∧ e.prev = l.prev ∧ e.next = l.next := by
  obtain ⟨e, he, rfl⟩ := Option.map_eq_some_iff.mp hl
  exact ⟨e, he, rfl, rfl⟩

variable {m : ListMemory} {list p : ℕ} {cells ps : List ℕ} {entries : Heap LinkedEntry}

lemma freeAccessPointEntry_front (hl : Linked (links entries) none (p :: ps) none)
    (hnd : (p :: ps).Nodup) : ∃ entries', freeAccessPointEntry entries p = .ok entries' ∧
      Linked (links entries') none ps none ∧
      ∀ q, (entries'.cells q).isSome ↔ (entries.cells q).isSome ∧ q ≠ p := by
  obtain ⟨hp, hrest⟩ := hl
  obtain ⟨hpps, hnd'⟩ := List.nodup_cons.mp hnd
  obtain ⟨e, he, hprev, hnext⟩ := cell_of_links hp
  cases ps with
  | nil =>
    have hnone : e.next = none := hnext
    refine ⟨entries.release p, ?_, trivial, fun q => Heap.isSome_release _ _ _⟩
    simp [freeAccessPointEntry, Heap.read_of_cell he, hprev, hnone, Heap.free_of_cell he]
  | cons q rest =>
    have hsome : e.next = some q := hnext
    have hne : p ≠ q := fun heq => hpps (heq ▸ List.mem_cons_self)
    obtain ⟨f, hf, -⟩ := cell_of_links hrest.1
    have hmodify := Heap.modify_of_cell hf fun n => { n with prev := none }
    have he' : (entries.modifyCell q fun n => { n with prev := none }).cells p = some e :=
      (Heap.cells_modifyCell_ne hne _).trans he
    refine ⟨(entries.modifyCell q fun n => { n with prev := none }).release p, ?_, ?_, fun r => ?_⟩
    · simp [freeAccessPointEntry, Heap.read_of_cell he, hprev, hsome, hmodify,
        Heap.read_of_cell he', Heap.free_of_cell he']
    · refine (hrest.setPrev (List.nodup_cons.mp hnd').1 none).congr fun r hr => ?_
      rw [links_release (ne_of_mem_of_not_mem hr hpps), links_prev]
    · rw [Heap.isSome_release, Heap.isSome_modifyCell]

lemma freeAccessPointListLoop_releases {n : ℕ} (hl : Linked (links entries) none (p :: ps) none)
    (hnd : (p :: ps).Nodup) (hn : ps.length ≤ n) : ∃ entries₁ last entries₂,
      freeAccessPointListLoop n entries p ps.head? = .ok (entries₁, last) ∧
      freeAccessPointEntry entries₁ last = .ok entries₂ ∧
      ∀ q, (entries₂.cells q).isSome ↔ (entries.cells q).isSome ∧ q ∉ p :: ps := by
  obtain ⟨entries', hfree, hl', hlive⟩ := freeAccessPointEntry_front hl hnd
  induction ps generalizing entries p n entries' with
  | nil =>
    refine ⟨entries, p, entries', ?_, hfree, fun q => by rw [hlive, List.mem_singleton]⟩
    cases n <;> rfl
  | cons q rest ih =>
    obtain ⟨n, rfl⟩ : ∃ k, n = k + 1 := ⟨n - 1, by simp at hn; omega⟩
    have hnd' := (List.nodup_cons.mp hnd).2
    obtain ⟨f, hf, -, hnext⟩ := cell_of_links hl'.1
    have hhead : f.next = rest.head? := by rw [hnext, Option.or_none]
    obtain ⟨entries'', hfree', hl'', hlive'⟩ := freeAccessPointEntry_front hl' hnd'
    obtain ⟨entries₁, last, entries₂, hloop, hlast, hlive₂⟩ :=
      ih hl' hnd' (by simpa using hn) entries'' hfree' hl'' hlive'
    refine ⟨entries₁, last, entries₂, ?_, hlast, fun r => ?_⟩
    · simp [freeAccessPointListLoop, hfree, Heap.read_of_cell hf, hhead, hloop]
    · rw [hlive₂, hlive, List.mem_cons (a := r) (b := p), not_or, and_assoc]

def ListMemory.Released (m : ListMemory) : Prop :=
  (∀ p, m.entries.cells p = none) ∧ ∀ p, m.lists.cells p = none

variable {points : List GzipAccessPointEntry}

theorem freeAccessPointList_releases (h : Chained m list (p :: ps) points) :
    ∃ m', freeAccessPointList m list = .ok m' ∧ m'.Released := by
  obtain ⟨e, he, -, hnext⟩ := cell_of_links h.linked.1
  have hhead : e.next = ps.head? := by rw [hnext, Option.or_none]
  obtain ⟨entries₁, last, entries₂, hloop, hlast, hlive⟩ :=
    freeAccessPointListLoop_releases h.linked h.nodup (Nat.le_succ ps.length)
  refine ⟨⟨entries₂, m.lists.release list⟩, ?_, fun q => ?_, fun q => ?_⟩
  · simp [freeAccessPointList, Heap.read_of_cell h.record, Heap.read_of_cell he, hhead, hloop, hlast,
      Heap.free_of_cell h.record]
  · rw [← Option.not_isSome_iff_eq_none, hlive]
    rintro ⟨hq, hout⟩
    exact hout (h.owned q hq)
  · rw [← Option.not_isSome_iff_eq_none, Heap.isSome_release]
    rintro ⟨hq, hne⟩
    exact hne (h.sole q hq)

theorem freeAccessPointList_null (h : Chained m list [] points) :
    freeAccessPointList m list = .error .null := by
  simp [freeAccessPointList, Heap.read_of_cell h.record, deref]

lemma chained_empty : ∃ list m, createAccessPointList ⟨Heap.empty, Heap.empty⟩ = (list, m) ∧
    Chained m list [] [] := by
  refine ⟨_, _, rfl, trivial, List.nodup_nil, rfl, Heap.cells_alloc_self _ _, ?_, fun p hp => ?_⟩
  · intro p hp
    cases hp
  · have hlive := (Heap.isSome_alloc _ _ _).mp hp
    refine hlive.resolve_left fun hnone => ?_
    cases hnone

/-- The memory behind an append: the new entry, and the links and the record that it changes. -/
def grownEntries (m : ListMemory) (cells : List ℕ) (entry : GzipAccessPointEntry) :
    Heap LinkedEntry :=
  let entries := ((m.entries.alloc ⟨entry, none, none⟩).2.modifyCell m.entries.next
    fun e => { e with prev := cells.getLast? }).modifyCell m.entries.next
      fun e => { e with next := none }
  cells.getLast?.elim entries fun last =>
    entries.modifyCell last fun e => { e with next := some m.entries.next }

def grownLists (m : ListMemory) (list : ℕ) (cells : List ℕ) : Heap GzipAccessPointList :=
  let lists := m.lists.modifyCell list fun l => { l with length := l.length + 1 }
  let lists := cells.head?.elim (lists.modifyCell list fun l =>
    { l with first := some m.entries.next }) fun _ => lists
  lists.modifyCell list fun l => { l with last := some m.entries.next }

lemma pointAt_grownEntries (m : ListMemory) (cells : List ℕ) (entry : GzipAccessPointEntry) :
    pointAt (grownEntries m cells entry) =
      Function.update (pointAt m.entries) m.entries.next (some entry) := by
  have halloc : pointAt (m.entries.alloc ⟨entry, none, none⟩).2 =
      Function.update (pointAt m.entries) m.entries.next (some entry) := Heap.view_alloc _ _
  simp only [grownEntries]
  cases cells.getLast? with
  | none => rw [Option.elim_none, pointAt_next, pointAt_prev, halloc]
  | some last => rw [Option.elim_some, pointAt_next, pointAt_next, pointAt_prev, halloc]

lemma Chained.next_not_mem (h : Chained m list cells points) : m.entries.next ∉ cells := by
  intro hm
  have hsome : (pointAt m.entries m.entries.next).isSome := by
    have hmap : pointAt m.entries m.entries.next ∈ points.map some :=
      h.payload ▸ List.mem_map_of_mem hm
    obtain ⟨entry, -, heq⟩ := List.mem_map.mp hmap
    exact heq ▸ rfl
  rw [pointAt, Heap.view, m.entries.fresh _ le_rfl] at hsome
  cases hsome

lemma linked_grownEntries (h : Chained m list cells points) (entry : GzipAccessPointEntry) :
    Linked (links (grownEntries m cells entry)) none (cells ++ [m.entries.next]) none := by
  have halloc : links (m.entries.alloc ⟨entry, none, none⟩).2 =
      Function.update (links m.entries) m.entries.next (some ⟨none, none⟩) := Heap.view_alloc _ _
  have hnew := h.next_not_mem
  have hold : Linked (setNext (setPrev (links (m.entries.alloc ⟨entry, none, none⟩).2)
      m.entries.next cells.getLast?) m.entries.next none) none cells none := by
    apply h.linked.congr
    intro q hq
    have hne := ne_of_mem_of_not_mem hq hnew
    rw [setNext_of_ne hne, setPrev_of_ne hne, halloc, Function.update_of_ne hne]
  have hpush := hold.pushBack hnew h.nodup (by simp [setNext, setPrev, halloc])
  simp only [grownEntries]
  cases hlast : cells.getLast? with
  | none => simpa [hlast, links_next, links_prev] using hpush
  | some last => simpa [hlast, links_next, links_prev] using hpush

lemma Chained.isSome (h : Chained m list cells points) (hp : p ∈ cells) :
    (m.entries.cells p).isSome := by
  have hmap : pointAt m.entries p ∈ points.map some := h.payload ▸ List.mem_map_of_mem hp
  obtain ⟨entry, -, heq⟩ := List.mem_map.mp hmap
  exact Heap.isSome_of_view heq.symm

lemma appendEntry_eq (h : Chained m list cells points) (entry : GzipAccessPointEntry) :
    appendEntry list m entry = .ok ⟨grownEntries m cells entry, grownLists m list cells⟩ := by
  have hlength := Heap.modify_of_cell h.record fun l => { l with length := l.length + 1 }
  have hrecord := Heap.cells_modifyCell_self h.record fun l => { l with length := l.length + 1 }
  have halloc := Heap.cells_alloc_self m.entries (⟨entry, none, none⟩ : LinkedEntry)
  have hprev := Heap.modify_of_cell halloc fun e => { e with prev := cells.getLast? }
  have hcell := Heap.cells_modifyCell_self halloc fun e => { e with prev := cells.getLast? }
  have hnext := Heap.modify_of_cell hcell fun e => { e with next := none }
  rcases List.eq_nil_or_concat cells with rfl | ⟨init, last, rfl⟩
  · have hfirst := Heap.modify_of_cell hrecord fun l => { l with first := some m.entries.next }
    have hrecord' := Heap.cells_modifyCell_self hrecord fun l =>
      { l with first := some m.entries.next }
    have hlast := Heap.modify_of_cell hrecord' fun l => { l with last := some m.entries.next }
    simp only [List.head?_nil, List.getLast?_nil] at *
    simp only [appendEntry, appendAccessPointList, Heap.alloc_fst, hlength, Outcome.ok_bind,
      Heap.read_of_cell hrecord, hprev, hnext, hfirst, hlast]
    rfl
  · rw [List.concat_eq_append] at *
    obtain ⟨first, hfirst⟩ : ∃ first, (init ++ [last]).head? = some first := by
      cases init <;> simp
    have hlive : ((m.entries.alloc ⟨entry, none, none⟩).2.cells last).isSome :=
      (Heap.isSome_alloc _ _ _).mpr (.inl (h.isSome (by simp)))
    have hlink := Heap.modify_of_isSome (f := fun e => { e with next := some m.entries.next })
      (show ((((m.entries.alloc ⟨entry, none, none⟩).2.modifyCell m.entries.next
        fun e => { e with prev := some last }).modifyCell m.entries.next
          fun e => { e with next := none }).cells last).isSome by simpa using hlive)
    have hlast := Heap.modify_of_cell hrecord fun l => { l with last := some m.entries.next }
    simp only [List.getLast?_concat] at *
    simp only [appendEntry, appendAccessPointList, Heap.alloc_fst, hlength, Outcome.ok_bind,
      Heap.read_of_cell hrecord, hprev, hnext, Outcome.deref_some, hlink, hlast, grownEntries,
      grownLists, List.getLast?_concat, hfirst]
    rfl

lemma cells_grownLists (h : Chained m list cells points) :
    (grownLists m list cells).cells list = some ⟨cells.length + 1,
      (cells ++ [m.entries.next]).head?, some m.entries.next⟩ := by
  have hrecord := Heap.cells_modifyCell_self h.record fun l => { l with length := l.length + 1 }
  cases cells with
  | nil =>
    have hfirst := Heap.cells_modifyCell_self hrecord fun l =>
      { l with first := some m.entries.next }
    exact Heap.cells_modifyCell_self hfirst fun l => { l with last := some m.entries.next }
  | cons first rest =>
    exact Heap.cells_modifyCell_self hrecord fun l => { l with last := some m.entries.next }

lemma appendEntry_chained (h : Chained m list cells points) (entry : GzipAccessPointEntry) :
    ∃ m', appendEntry list m entry = .ok m' ∧
      Chained m' list (cells ++ [m.entries.next]) (points ++ [entry]) := by
  have hnew := h.next_not_mem
  have hnodup : (cells ++ [m.entries.next]).Nodup :=
    (List.perm_append_singleton _ _).nodup_iff.mpr (List.nodup_cons.mpr ⟨hnew, h.nodup⟩)
  refine ⟨_, appendEntry_eq h entry, linked_grownEntries h entry, hnodup, ?_, ?_, fun p hp => ?_,
    fun p hp => ?_⟩
  · rw [pointAt_grownEntries, List.map_append, List.map_append, ← h.payload, List.map_singleton,
      List.map_singleton, Function.update_self]
    congr 1
    apply List.map_congr_left
    intro q hq
    exact Function.update_of_ne (ne_of_mem_of_not_mem hq hnew) _ _
  · rw [cells_grownLists h, List.getLast?_concat, List.length_append, List.length_singleton]
  · have hsome : (pointAt (grownEntries m cells entry) p).isSome := Option.isSome_map.trans hp
    rw [pointAt_grownEntries] at hsome
    by_cases heq : p = m.entries.next
    · simp [heq]
    · rw [Function.update_of_ne heq, pointAt, Heap.view, Option.isSome_map] at hsome
      exact List.mem_append_left _ (h.owned p hsome)
  · apply h.sole p
    revert hp
    unfold grownLists
    cases cells.head? <;> simp

/-- However many access points are appended, they are chained in their order. -/
theorem readerList_chained (points : List GzipAccessPointEntry) : ∃ list m cells,
    readerList points = .ok (list, m) ∧ Chained m list cells points := by
  have happends : ∀ {m list cells old}, Chained m list cells old → ∃ m' cells',
      points.foldlM (appendEntry list) m = .ok m' ∧ Chained m' list cells' (old ++ points) := by
    induction points with
    | nil =>
      intro m list cells old h
      exact ⟨m, cells, rfl, by rwa [List.append_nil]⟩
    | cons entry points ih =>
      intro m list cells old h
      obtain ⟨m₁, happend, h₁⟩ := appendEntry_chained h entry
      obtain ⟨m', cells', hrest, h'⟩ := ih h₁
      refine ⟨m', cells', by simp [List.foldlM_cons, happend, hrest], ?_⟩
      rwa [List.append_assoc, List.singleton_append] at h'
  obtain ⟨list, m, hcreate, h⟩ := chained_empty
  obtain ⟨m', cells, hfold, h'⟩ := happends h
  exact ⟨list, m', cells, by simp [readerList, hcreate, hfold], h'⟩

/-- `gzip_reader_free` releases the list with these access points, and every entry of it. To
release one twice is a fault. -/
def Releases (points : List GzipAccessPointEntry) : Prop :=
  ∃ list m m', readerList points = .ok (list, m) ∧ gzipReaderFree m list = .ok m' ∧ m'.Released

/-- A list without entries is not released: its first entry is followed. -/
theorem releases_iff : Releases points ↔ points ≠ [] := by
  obtain ⟨list, m, cells, hlist, h⟩ := readerList_chained points
  have hlength : cells.length = points.length := by
    have hmap := congrArg List.length h.payload
    rwa [List.length_map, List.length_map] at hmap
  cases cells with
  | nil =>
    have hnil : points = [] := List.eq_nil_of_length_eq_zero hlength.symm
    refine iff_of_false ?_ fun hne => hne hnil
    rintro ⟨list', m', m'', hlist', hfree, -⟩
    obtain ⟨rfl, rfl⟩ := Prod.mk.inj (Except.ok.inj (hlist'.symm.trans hlist))
    have hnull := freeAccessPointList_null h
    rw [gzipReaderFree, hnull] at hfree
    cases hfree
  | cons p ps =>
    obtain ⟨m', hfree, hreleased⟩ := freeAccessPointList_releases h
    refine iff_of_true ⟨list, m, m', hlist, hfree, hreleased⟩ fun hnil => ?_
    rw [hnil] at hlength
    cases hlength

end Spotlight.Gzip
