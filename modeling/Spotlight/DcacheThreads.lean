import Spotlight.Dcache
import Spotlight.Rings

/-! Threads that run `dcache_insert` and `dcache_lookup` on one parent at the same time. Every
read or write of a `childs` or `siblings` pointer is a step of its own. -/
namespace Spotlight.Ext4.Threads
open Relation Rings

/-- The `childs` pointer of the parent, and all entries. -/
structure Memory where
  childs : Option ℕ
  entries : Heap DcacheEntry

/-- Where a thread is: idle, or in front of its next access. `new` is the entry it inserts, `name`
the one it looks up; the pointers are those it has read before. -/
inductive Thread
  | idle
  /-- `if (!parent->childs)` of an insertion -/
  | insertTest (new : ℕ)
  /-- `new_entry->siblings = new_entry` -/
  | insertAlone (new : ℕ)
  /-- the three accesses of `new_entry->siblings = parent->childs->siblings` -/
  | insertHead (new : ℕ)
  | insertNext (new : ℕ) (head : Option ℕ)
  | insertCopy (new : ℕ) (next : Option ℕ)
  /-- the two accesses of `parent->childs->siblings = new_entry` -/
  | insertReload (new : ℕ)
  | insertLink (new : ℕ) (head : Option ℕ)
  /-- `parent->childs = new_entry` -/
  | insertPublish (new : ℕ)
  /-- `if (!parent->childs)` of a lookup -/
  | lookupTest (name : List UInt8)
  /-- `iter = parent->childs` -/
  | lookupFirst (name : List UInt8)
  /-- `parent->childs = iter` on a match, else `iter = iter->siblings` -/
  | lookupAt (name : List UInt8) (iter : Option ℕ)
  /-- `while (iter != parent->childs)` -/
  | lookupWhile (name : List UInt8) (iter : Option ℕ)

/-- The next access of a thread, and where it is then. -/
def access (m : Memory) : Thread → Outcome (Memory × Thread)
  | .idle => .ok (m, .idle)
  | .insertTest new =>
    match m.childs with
    | none => .ok (m, .insertAlone new)
    | some _ => .ok (m, .insertHead new)
  | .insertAlone new => do
    let entries ← m.entries.modify new fun e => { e with siblings := some new }
    return ({ m with entries }, .insertPublish new)
  | .insertHead new => .ok (m, .insertNext new m.childs)
  | .insertNext new head => do
    let p ← deref head
    let e ← m.entries.read p
    return (m, .insertCopy new e.siblings)
  | .insertCopy new next => do
    let entries ← m.entries.modify new fun e => { e with siblings := next }
    return ({ m with entries }, .insertReload new)
  | .insertReload new => .ok (m, .insertLink new m.childs)
  | .insertLink new head => do
    let p ← deref head
    let entries ← m.entries.modify p fun e => { e with siblings := some new }
    return ({ m with entries }, .insertPublish new)
  | .insertPublish new => .ok ({ m with childs := some new }, .idle)
  | .lookupTest name =>
    match m.childs with
    | none => .ok (m, .idle)
    | some _ => .ok (m, .lookupFirst name)
  | .lookupFirst name => .ok (m, .lookupAt name m.childs)
  | .lookupAt name iter => do
    let p ← deref iter
    let e ← m.entries.read p
    if NameMatches e.name name then return ({ m with childs := some p }, .idle)
    else return (m, .lookupWhile name e.siblings)
  | .lookupWhile name iter =>
    if iter = m.childs then .ok (m, .idle) else .ok (m, .lookupAt name iter)

variable {T : Type} [DecidableEq T]

/-- The memory and the threads that use it. -/
structure System (T : Type) where
  memory : Memory
  threads : T → Thread

def System.init : System T := ⟨⟨none, Heap.empty⟩, fun _ => .idle⟩

/-- The entry of an insertion before anything is linked. -/
def newEntry (name : List UInt8) (inode : ℕ) : DcacheEntry := ⟨none, none, inode, cString name⟩

/-- A step of the thread `t`: it begins an insertion or a lookup, or does its next access. -/
inductive Step (t : T) (s : System T) : System T → Prop
  | insert (name : List UInt8) (inode : ℕ) (hidle : s.threads t = .idle)
      (hlen : name.length + 1 ≤ dcacheEntryNameLen) :
      Step t s ⟨⟨s.memory.childs, (s.memory.entries.alloc (newEntry name inode)).2⟩,
        Function.update s.threads t
          (.insertTest (s.memory.entries.alloc (newEntry name inode)).1)⟩
  | lookup (name : List UInt8) (hidle : s.threads t = .idle) :
      Step t s ⟨s.memory, Function.update s.threads t (.lookupTest name)⟩
  | access {m : Memory} {th : Thread} (h : access s.memory (s.threads t) = .ok (m, th)) :
      Step t s ⟨m, Function.update s.threads t th⟩

def siblings (m : Memory) (p : ℕ) : Option ℕ := (m.entries.cells p).bind DcacheEntry.siblings

/-- A thread that is about to link its entry behind the head overwrites the pointer it copied. -/
def Thread.Current (m : Memory) : Thread → Prop
  | .insertLink new head => head.bind (siblings m) = siblings m new
  | _ => True

/-- Steps of runs in which no link overwrites another pointer than the one copied. -/
def CurrentStep (s s' : System T) : Prop :=
  ∃ t, (s.threads t).Current s.memory ∧ Step t s s'

/-- The entry of an insertion that is not yet linked. -/
def Thread.unlinked : Thread → Option ℕ
  | .insertTest new => some new
  | .insertAlone new => some new
  | .insertHead new => some new
  | .insertNext new _ => some new
  | .insertCopy new _ => some new
  | .insertReload new => some new
  | .insertLink new _ => some new
  | _ => none

def Thread.Inserting (th : Thread) : Prop := th.unlinked.isSome ∨ ∃ new, th = .insertPublish new

def alone : ℕ → Memory → Thread → Outcome (Memory × Thread)
  | 0, m, th => .ok (m, th)
  | n + 1, m, th => do
    let (m, th) ← access m th
    alone n m th

/-- What a thread holds on to, when the linked entries are those of `s`. -/
def Thread.Holds (s : Finset ℕ) (m : Memory) : Thread → Prop
  | .idle => True
  | .insertTest _ => True
  | .insertAlone _ => True
  | .insertHead _ => m.childs.isSome
  | .insertNext _ head => m.childs.isSome ∧ ∃ p ∈ s, head = some p
  | .insertCopy _ next => m.childs.isSome ∧ ∃ p ∈ s, next = some p
  | .insertReload new => m.childs.isSome ∧ ∃ p ∈ s, siblings m new = some p
  | .insertLink new head => (∃ p ∈ s, head = some p) ∧ ∃ p ∈ s, siblings m new = some p
  | .insertPublish new => new ∈ s
  | .lookupTest _ => True
  | .lookupFirst _ => m.childs.isSome
  | .lookupAt _ iter => ∃ p ∈ s, iter = some p
  | .lookupWhile _ iter => ∃ p ∈ s, iter = some p

/-- The linked entries form rings, and the head is one of them. -/
structure Linked (s : Finset ℕ) (m : Memory) : Prop where
  closed : Closed (siblings m) s
  separate : Separate (siblings m) s
  head : ∀ p, m.childs = some p → p ∈ s

/-- The invariant: every thread holds on to linked entries, and has an unlinked one of its own. -/
structure Safe (s : Finset ℕ) (sys : System T) : Prop where
  linked : Linked s sys.memory
  holds : ∀ t, (sys.threads t).Holds s sys.memory
  unlinked : ∀ t p, (sys.threads t).unlinked = some p →
    p ∉ s ∧ (sys.memory.entries.cells p).isSome
  own : ∀ t t' p, (sys.threads t).unlinked = some p → (sys.threads t').unlinked = some p → t = t'

variable {m m' : Memory} {s s' : Finset ℕ} {th th' : Thread} {sys sys' : System T} {p q : ℕ}

lemma siblings_modify (hp : (m.entries.cells p).isSome) (v : Option ℕ) :
    ∃ entries, m.entries.modify p (fun e => { e with siblings := v }) = .ok entries ∧
      siblings ⟨m.childs, entries⟩ = Function.update (siblings m) p v ∧
      ∀ q, (entries.cells q).isSome = (m.entries.cells q).isSome := by
  refine ⟨_, Heap.modify_of_isSome hp _, ?_, fun q => Heap.isSome_modifyCell _ _ q _⟩
  obtain ⟨e, he⟩ := Option.isSome_iff_exists.mp hp
  funext q
  by_cases hq : q = p
  · rw [hq, Function.update_self, siblings, Heap.cells_modifyCell_self he]
    rfl
  · rw [Function.update_of_ne hq, siblings, Heap.cells_modifyCell_ne hq, siblings]

lemma live_of_siblings (h : siblings m p = some q) : (m.entries.cells p).isSome := by
  cases hp : m.entries.cells p with
  | none => simp [siblings, hp] at h
  | some e => rfl

lemma read_siblings (h : siblings m p = some q) :
    ∃ e, m.entries.read p = .ok e ∧ e.siblings = some q := by
  obtain ⟨e, he⟩ := Option.isSome_iff_exists.mp (live_of_siblings h)
  refine ⟨e, Heap.read_of_cell he, ?_⟩
  rw [siblings, he] at h
  exact h

/-- What an access of one thread means for the others. -/
structure Moves (s : Finset ℕ) (m : Memory) (th : Thread) (s' : Finset ℕ) (m' : Memory)
    (th' : Thread) : Prop where
  linked : Linked s' m'
  holds : th'.Holds s' m'
  grows : s ⊆ s'
  news : ∀ p ∈ s', p ∈ s ∨ th.unlinked = some p
  head : m.childs.isSome → m'.childs.isSome
  others : ∀ p, p ∉ s → th.unlinked ≠ some p → siblings m' p = siblings m p
  live : ∀ p, (m'.entries.cells p).isSome = (m.entries.cells p).isSome
  unlinked : ∀ p, th'.unlinked = some p → th.unlinked = some p ∧ p ∉ s'

lemma Linked.moves (h : Linked s m) (childs : Option ℕ) (hhead : ∀ p, childs = some p → p ∈ s)
    (hsome : m.childs.isSome → childs.isSome) (hholds : th'.Holds s ⟨childs, m.entries⟩)
    (hunlinked : ∀ p, th'.unlinked = some p → th.unlinked = some p ∧ p ∉ s) :
    Moves s m th s ⟨childs, m.entries⟩ th' where
  linked := ⟨h.closed, h.separate, hhead⟩
  holds := hholds
  grows := subset_rfl
  news _ hp := .inl hp
  head := hsome
  others _ _ _ := rfl
  live _ := rfl
  unlinked := hunlinked

lemma Linked.reads (h : Linked s m) (hholds : th'.Holds s m)
    (hunlinked : ∀ p, th'.unlinked = some p → th.unlinked = some p ∧ p ∉ s) :
    Moves s m th s m th' :=
  h.moves m.childs h.head id hholds hunlinked

lemma Linked.joins (h : Linked s m) {entries : Heap DcacheEntry} {new p : ℕ}
    (hnew : th.unlinked = some new) (hp : p = new ∨ p ∈ s)
    (hsib : siblings ⟨m.childs, entries⟩ = Function.update (siblings m) p (some new))
    (hclosed : Closed (Function.update (siblings m) p (some new)) (insert new s))
    (hseparate : Separate (Function.update (siblings m) p (some new)) (insert new s))
    (hlive : ∀ q, (entries.cells q).isSome = (m.entries.cells q).isSome) :
    Moves s m th (insert new s) ⟨m.childs, entries⟩ (.insertPublish new) where
  linked := ⟨hsib ▸ hclosed, hsib ▸ hseparate, fun q hq => Finset.mem_insert_of_mem (h.head q hq)⟩
  holds := Finset.mem_insert_self _ _
  grows := Finset.subset_insert _ _
  news q hq := (Finset.mem_insert.mp hq).symm.imp_right fun heq => by rw [hnew, heq]
  head := id
  others q hq hne := by
    rw [hsib, Function.update_of_ne]
    rintro rfl
    rcases hp with rfl | hp
    · exact hne hnew
    · exact hq hp
  live := hlive
  unlinked := by simp [Thread.unlinked]

theorem access_moves (h : Linked s m) (hholds : th.Holds s m)
    (hnew : ∀ p, th.unlinked = some p → p ∉ s ∧ (m.entries.cells p).isSome)
    (hcurrent : th.Current m) :
    ∃ m' th' s', access m th = .ok (m', th') ∧ Moves s m th s' m' th' := by
  cases th with
  | idle => exact ⟨m, .idle, s, rfl, h.reads trivial (by simp [Thread.unlinked])⟩
  | insertTest new =>
    obtain ⟨hout, -⟩ := hnew new rfl
    cases hchilds : m.childs with
    | none =>
      exact ⟨m, .insertAlone new, s, by simp [access, hchilds],
        h.reads trivial (by simpa [Thread.unlinked] using hout)⟩
    | some p =>
      exact ⟨m, .insertHead new, s, by simp [access, hchilds],
        h.reads (Option.isSome_of_eq_some hchilds) (by simpa [Thread.unlinked] using hout)⟩
  | insertAlone new =>
    obtain ⟨hout, hlive⟩ := hnew new rfl
    obtain ⟨entries, hmodify, hsib, hcells⟩ := siblings_modify hlive (some new)
    exact ⟨⟨m.childs, entries⟩, .insertPublish new, insert new s, by simp [access, hmodify],
      h.joins rfl (.inl rfl) hsib (h.closed.alone hout) (h.separate.alone h.closed hout) hcells⟩
  | insertHead new =>
    obtain ⟨hout, -⟩ := hnew new rfl
    obtain ⟨p, hp⟩ := Option.isSome_iff_exists.mp hholds
    exact ⟨m, .insertNext new m.childs, s, rfl,
      h.reads ⟨hholds, p, h.head p hp, hp⟩ (by simpa [Thread.unlinked] using hout)⟩
  | insertNext new head =>
    obtain ⟨hout, -⟩ := hnew new rfl
    obtain ⟨hsome, p, hp, rfl⟩ := hholds
    obtain ⟨q, hq, hpq⟩ := h.closed p hp
    obtain ⟨e, hread, he⟩ := read_siblings hpq
    exact ⟨m, .insertCopy new e.siblings, s, by simp [access, hread],
      h.reads ⟨hsome, q, hq, he⟩ (by simpa [Thread.unlinked] using hout)⟩
  | insertCopy new next =>
    obtain ⟨hout, hlive⟩ := hnew new rfl
    obtain ⟨hsome, q, hq, rfl⟩ := hholds
    obtain ⟨entries, hmodify, hsib, hcells⟩ := siblings_modify hlive (some q)
    have hsame : ∀ p ∈ s, siblings ⟨m.childs, entries⟩ p = siblings m p := by
      intro p hp
      rw [hsib, Function.update_of_ne (ne_of_mem_of_not_mem hp hout)]
    refine ⟨⟨m.childs, entries⟩, .insertReload new, s, by simp [access, hmodify], ?_⟩
    refine ⟨⟨h.closed.congr hsame, h.separate.congr hsame, h.head⟩, ⟨hsome, q, hq, ?_⟩,
      subset_rfl, fun p hp => .inl hp, id, ?_, hcells, by simpa [Thread.unlinked] using hout⟩
    · rw [hsib, Function.update_self]
    · intro p _ hp
      rw [hsib, Function.update_of_ne fun heq => hp (by rw [heq]; rfl)]
  | insertReload new =>
    obtain ⟨hout, -⟩ := hnew new rfl
    obtain ⟨hsome, q, hq, hcopy⟩ := hholds
    obtain ⟨p, hp⟩ := Option.isSome_iff_exists.mp hsome
    exact ⟨m, .insertLink new m.childs, s, rfl,
      h.reads ⟨⟨p, h.head p hp, hp⟩, q, hq, hcopy⟩ (by simpa [Thread.unlinked] using hout)⟩
  | insertLink new head =>
    obtain ⟨hout, hlive⟩ := hnew new rfl
    obtain ⟨⟨p, hp, rfl⟩, q, hq, hcopy⟩ := hholds
    obtain ⟨r, -, hpr⟩ := h.closed p hp
    obtain ⟨entries, hmodify, hsib, hcells⟩ :=
      siblings_modify (live_of_siblings hpr) (some new)
    have hsame : siblings m p = siblings m new := hcurrent
    exact ⟨⟨m.childs, entries⟩, .insertPublish new, insert new s, by simp [access, hmodify],
      h.joins rfl (.inr hp) hsib (h.closed.link p hq hcopy) (h.separate.link h.closed hp hout hsame)
        hcells⟩
  | insertPublish new =>
    exact ⟨⟨some new, m.entries⟩, .idle, s, rfl,
      h.moves (some new) (fun p hp => Option.some.inj hp ▸ hholds) (fun _ => rfl) trivial
        (by simp [Thread.unlinked])⟩
  | lookupTest name =>
    cases hchilds : m.childs with
    | none =>
      exact ⟨m, .idle, s, by simp [access, hchilds],
        h.reads trivial (by simp [Thread.unlinked])⟩
    | some p =>
      exact ⟨m, .lookupFirst name, s, by simp [access, hchilds],
        h.reads (Option.isSome_of_eq_some hchilds) (by simp [Thread.unlinked])⟩
  | lookupFirst name =>
    obtain ⟨p, hp⟩ := Option.isSome_iff_exists.mp hholds
    exact ⟨m, .lookupAt name m.childs, s, rfl,
      h.reads ⟨p, h.head p hp, hp⟩ (by simp [Thread.unlinked])⟩
  | lookupAt name iter =>
    obtain ⟨p, hp, rfl⟩ := hholds
    obtain ⟨q, hq, hpq⟩ := h.closed p hp
    obtain ⟨e, hread, he⟩ := read_siblings hpq
    by_cases hmatch : NameMatches e.name name
    · exact ⟨⟨some p, m.entries⟩, .idle, s, by simp [access, hread, hmatch],
        h.moves (some p) (fun a ha => Option.some.inj ha ▸ hp) (fun _ => rfl) trivial
          (by simp [Thread.unlinked])⟩
    · exact ⟨m, .lookupWhile name e.siblings, s, by simp [access, hread, hmatch],
        h.reads ⟨q, hq, he⟩ (by simp [Thread.unlinked])⟩
  | lookupWhile name iter =>
    by_cases hback : iter = m.childs
    · exact ⟨m, .idle, s, by simp [access, hback], h.reads trivial (by simp [Thread.unlinked])⟩
    · exact ⟨m, .lookupAt name iter, s, by simp [access, hback],
        h.reads hholds (by simp [Thread.unlinked])⟩

lemma Thread.Holds.mono (h : th.Holds s m) (hs : s ⊆ s')
    (hhead : m.childs.isSome → m'.childs.isSome)
    (hsib : ∀ p, th.unlinked = some p → siblings m' p = siblings m p) : th.Holds s' m' := by
  cases th with
  | idle => trivial
  | insertTest new => trivial
  | insertAlone new => trivial
  | insertHead new => exact hhead h
  | insertNext new head =>
    obtain ⟨hsome, p, hp, heq⟩ := h
    exact ⟨hhead hsome, p, hs hp, heq⟩
  | insertCopy new next =>
    obtain ⟨hsome, p, hp, heq⟩ := h
    exact ⟨hhead hsome, p, hs hp, heq⟩
  | insertReload new =>
    obtain ⟨hsome, p, hp, heq⟩ := h
    exact ⟨hhead hsome, p, hs hp, (hsib new rfl).trans heq⟩
  | insertLink new head =>
    obtain ⟨⟨p, hp, heq⟩, q, hq, hcopy⟩ := h
    exact ⟨⟨p, hs hp, heq⟩, q, hs hq, (hsib new rfl).trans hcopy⟩
  | insertPublish new => exact hs h
  | lookupTest name => trivial
  | lookupFirst name => exact hhead h
  | lookupAt name iter =>
    obtain ⟨p, hp, heq⟩ := h
    exact ⟨p, hs hp, heq⟩
  | lookupWhile name iter =>
    obtain ⟨p, hp, heq⟩ := h
    exact ⟨p, hs hp, heq⟩

omit [DecidableEq T] in
lemma safe_init : Safe ∅ (System.init : System T) where
  linked := ⟨by simp [Closed], by simp [Separate], by simp [System.init]⟩
  holds _ := trivial
  unlinked _ _ h := nomatch h
  own _ _ _ h := nomatch h

lemma Safe.access (h : Safe s sys) {t : T} (hmoves : Moves s sys.memory (sys.threads t) s' m th) :
    Safe s' ⟨m, Function.update sys.threads t th⟩ := by
  have hown : ∀ t' ≠ t, ∀ p, (sys.threads t').unlinked = some p →
      p ∉ s ∧ (sys.threads t).unlinked ≠ some p := fun t' ht' p hp =>
    ⟨(h.unlinked t' p hp).1, fun hp' => ht' (h.own t' t p hp hp')⟩
  refine ⟨hmoves.linked, fun t' => ?_, fun t' p hp => ?_, fun t₁ t₂ p h₁ h₂ => ?_⟩
  · by_cases ht : t' = t
    · simpa only [ht, Function.update_self] using hmoves.holds
    · simp only [Function.update_of_ne ht]
      refine (h.holds t').mono hmoves.grows hmoves.head fun p hp => ?_
      obtain ⟨hout, hne⟩ := hown t' ht p hp
      exact hmoves.others p hout hne
  · rw [hmoves.live]
    by_cases ht : t' = t
    · simp only [ht, Function.update_self] at hp
      obtain ⟨hp, hout⟩ := hmoves.unlinked p hp
      exact ⟨hout, (h.unlinked t p hp).2⟩
    · simp only [Function.update_of_ne ht] at hp
      obtain ⟨hout, hne⟩ := hown t' ht p hp
      exact ⟨fun hin => (hmoves.news p hin).elim hout hne, (h.unlinked t' p hp).2⟩
  · have hback : ∀ t', (Function.update sys.threads t th t').unlinked = some p →
        (sys.threads t').unlinked = some p := by
      intro t' hp
      by_cases ht : t' = t
      · simp only [ht, Function.update_self] at hp
        exact ht ▸ (hmoves.unlinked p hp).1
      · rwa [Function.update_of_ne ht] at hp
    exact h.own t₁ t₂ p (hback t₁ h₁) (hback t₂ h₂)

lemma siblings_alloc (hp : (m.entries.cells p).isSome) (childs : Option ℕ) (e : DcacheEntry) :
    siblings ⟨childs, (m.entries.alloc e).2⟩ p = siblings m p := by
  obtain ⟨a, ha⟩ := Option.isSome_iff_exists.mp hp
  rw [siblings, siblings, Heap.cells_alloc ha, ha]

lemma Safe.insert (h : Safe s sys) (t : T) (e : DcacheEntry) :
    Safe s ⟨⟨sys.memory.childs, (sys.memory.entries.alloc e).2⟩,
      Function.update sys.threads t (.insertTest (sys.memory.entries.alloc e).1)⟩ := by
  have hdead : ¬(sys.memory.entries.cells sys.memory.entries.next).isSome := by
    rw [sys.memory.entries.fresh _ le_rfl]
    exact Bool.false_ne_true
  have hlive : ∀ p ∈ s, (sys.memory.entries.cells p).isSome := by
    intro p hp
    obtain ⟨q, -, hpq⟩ := h.linked.closed p hp
    exact live_of_siblings hpq
  have hsame : ∀ p ∈ s, siblings ⟨sys.memory.childs, (sys.memory.entries.alloc e).2⟩ p =
      siblings sys.memory p := fun p hp => siblings_alloc (hlive p hp) _ e
  refine ⟨⟨h.linked.closed.congr hsame, h.linked.separate.congr hsame, h.linked.head⟩,
    fun t' => ?_, fun t' p hp => ?_, fun t₁ t₂ p h₁ h₂ => ?_⟩
  · by_cases ht : t' = t
    · simp only [ht, Function.update_self]
      trivial
    · simp only [Function.update_of_ne ht]
      exact (h.holds t').mono subset_rfl id fun p hp => siblings_alloc (h.unlinked t' p hp).2 _ e
  · by_cases ht : t' = t
    · simp only [ht, Function.update_self] at hp
      obtain rfl := Option.some.inj hp
      exact ⟨fun hin => hdead (hlive _ hin), by simp⟩
    · simp only [Function.update_of_ne ht] at hp
      obtain ⟨hout, hp⟩ := h.unlinked t' p hp
      obtain ⟨a, ha⟩ := Option.isSome_iff_exists.mp hp
      exact ⟨hout, Option.isSome_of_eq_some (Heap.cells_alloc ha)⟩
  · -- an entry that another thread owns was allocated before
    have hother : ∀ t' ≠ t, (Function.update sys.threads t
        (.insertTest (sys.memory.entries.alloc e).1) t').unlinked = some p →
        (sys.threads t').unlinked = some p ∧ p ≠ sys.memory.entries.next := by
      intro t' ht hp
      rw [Function.update_of_ne ht] at hp
      exact ⟨hp, fun heq => hdead (heq ▸ (h.unlinked t' p hp).2)⟩
    by_cases ht₁ : t₁ = t
    · by_cases ht₂ : t₂ = t
      · rw [ht₁, ht₂]
      · simp only [ht₁, Function.update_self] at h₁
        exact absurd (Option.some.inj h₁).symm (hother t₂ ht₂ h₂).2
    · by_cases ht₂ : t₂ = t
      · simp only [ht₂, Function.update_self] at h₂
        exact absurd (Option.some.inj h₂).symm (hother t₁ ht₁ h₁).2
      · exact h.own t₁ t₂ p (hother t₁ ht₁ h₁).1 (hother t₂ ht₂ h₂).1

/-- One step keeps the rings, if it does not overwrite another pointer than the one copied. -/
theorem safe_step (h : Safe s sys) (hstep : CurrentStep sys sys') : ∃ s', Safe s' sys' := by
  obtain ⟨t, hcurrent, hstep⟩ := hstep
  cases hstep with
  | insert name inode _ _ => exact ⟨s, h.insert t _⟩
  | lookup name _ =>
    exact ⟨s, h.access (h.linked.reads trivial (by simp [Thread.unlinked]))⟩
  | access haccess =>
    obtain ⟨m', th', s', haccess', hmoves⟩ :=
      access_moves h.linked (h.holds t) (h.unlinked t) hcurrent
    obtain ⟨rfl, rfl⟩ := Prod.mk.inj (Except.ok.inj (haccess.symm.trans haccess'))
    exact ⟨s', h.access hmoves⟩

theorem safe_run (h : ReflTransGen CurrentStep System.init sys) : ∃ s, Safe s sys := by
  induction h with
  | refl => exact ⟨∅, safe_init⟩
  | tail _ hstep ih =>
    obtain ⟨s, hs⟩ := ih
    exact safe_step hs hstep

lemma alone_succ {n : ℕ} (h : access m th = .ok (m', th')) :
    alone (n + 1) m th = alone n m' th' := by
  rw [alone, h]
  rfl

lemma access_lookupAt (hpq : Follows (siblings m) p q) (name : List UInt8) :
    (∃ m', access m (.lookupAt name (some p)) = .ok (m', .idle)) ∨
      access m (.lookupAt name (some p)) = .ok (m, .lookupWhile name (some q)) := by
  obtain ⟨e, hread, he⟩ := read_siblings hpq
  by_cases hmatch : NameMatches e.name name
  · exact .inl ⟨⟨some p, m.entries⟩, by simp [access, hread, hmatch]⟩
  · exact .inr (by simp [access, hread, hmatch, he])

lemma lookup_ends {head : ℕ} (hhead : m.childs = some head) (name : List UInt8)
    {rest : List ℕ} (hp : (p :: (rest ++ [head])).IsChain (Follows (siblings m)))
    (hrest : head ∉ rest) : ∃ n m', alone n m (.lookupAt name (some p)) = .ok (m', .idle) := by
  induction rest generalizing p with
  | nil =>
    rcases access_lookupAt (List.isChain_cons_cons.mp hp).1 name with ⟨m', h⟩ | h
    · exact ⟨1, m', alone_succ h⟩
    · have hwhile : access m (.lookupWhile name (some head)) = .ok (m, .idle) :=
        if_pos hhead.symm
      exact ⟨2, m, (alone_succ h).trans (alone_succ hwhile)⟩
  | cons q rest ih =>
    obtain ⟨hpq, htail⟩ := List.isChain_cons_cons.mp hp
    rcases access_lookupAt hpq name with ⟨m', h⟩ | h
    · exact ⟨1, m', alone_succ h⟩
    · obtain ⟨n, m', hn⟩ := ih htail fun hin => hrest (List.mem_cons_of_mem _ hin)
      have hne : some q ≠ m.childs := by
        rw [hhead]
        exact fun heq => hrest (Option.some.inj heq ▸ List.mem_cons_self)
      have hwhile : access m (.lookupWhile name (some q)) =
          .ok (m, .lookupAt name (some q)) := if_neg hne
      exact ⟨n + 2, m', ((alone_succ h).trans (alone_succ hwhile)).trans hn⟩

/-- A state in which no thread is in the middle of an insertion. -/
def System.Quiet (sys : System T) : Prop := ∀ t, ¬(sys.threads t).Inserting

/-- The siblings of the head form a ring, and it is all that is reachable. -/
def RingFrom (m : Memory) : Prop :=
  ∀ p, m.childs = some p → ∃ rest, IsRing (siblings m) p rest ∧
    ∀ q, ReflTransGen (Follows (siblings m)) p q ↔ q ∈ p :: rest

lemma Linked.ringFrom (h : Linked s m) : RingFrom m := by
  intro p hp
  obtain ⟨rest, hring, -⟩ := exists_isRing h.closed h.separate (h.head p hp)
  exact ⟨rest, hring, fun q => hring.reaches_iff⟩

lemma RingFrom.lookup_ends (h : RingFrom m) (name : List UInt8) :
    ∃ n m', alone n m (.lookupTest name) = .ok (m', .idle) := by
  cases hhead : m.childs with
  | none => exact ⟨1, m, alone_succ (by simp [access, hhead])⟩
  | some p =>
    obtain ⟨rest, hring, -⟩ := h p hhead
    obtain ⟨n, m', hn⟩ := Threads.lookup_ends hhead name hring.chain
      (List.nodup_cons.mp hring.nodup).1
    have htest : access m (.lookupTest name) = .ok (m, .lookupFirst name) := by
      simp [access, hhead]
    have hfirst : access m (.lookupFirst name) = .ok (m, .lookupAt name (some p)) := by
      simp [access, hhead]
    exact ⟨n + 2, m', ((alone_succ htest).trans (alone_succ hfirst)).trans hn⟩

instance (m : Memory) (th : Thread) : Decidable (th.Current m) :=
  match th with
  | .insertLink _ _ => inferInstanceAs (Decidable (_ = _))
  | .idle | .insertTest _ | .insertAlone _ | .insertHead _ | .insertNext _ _ | .insertCopy _ _
  | .insertReload _ | .insertPublish _ | .lookupTest _ | .lookupFirst _ | .lookupAt _ _
  | .lookupWhile _ _ => .isTrue trivial

def System.insert (sys : System T) (t : T) (name : List UInt8) (inode : ℕ) : System T :=
  ⟨⟨sys.memory.childs, (sys.memory.entries.alloc (newEntry name inode)).2⟩,
    Function.update sys.threads t (.insertTest (sys.memory.entries.alloc (newEntry name inode)).1)⟩

def System.lookup (sys : System T) (t : T) (name : List UInt8) : System T :=
  ⟨sys.memory, Function.update sys.threads t (.lookupTest name)⟩

/-- The next accesses of the threads in this order, as long as they are allowed. -/
def System.accesses (allowed : Memory → Thread → Prop) [∀ m th, Decidable (allowed m th)]
    (sys : System T) : List T → Outcome (System T)
  | [] => .ok sys
  | t :: ts => do
    assertThat (allowed sys.memory (sys.threads t))
    let (m, th) ← access sys.memory (sys.threads t)
    System.accesses allowed ⟨m, Function.update sys.threads t th⟩ ts

lemma steps_of_accesses {allowed : Memory → Thread → Prop} [∀ m th, Decidable (allowed m th)]
    {ts : List T} (h : sys.accesses allowed ts = .ok sys') :
    ReflTransGen (fun a b => ∃ t, allowed a.memory (a.threads t) ∧ Step t a b) sys sys' := by
  induction ts generalizing sys with
  | nil =>
    obtain rfl := Except.ok.inj h
    exact .refl
  | cons t ts ih =>
    rw [System.accesses] at h
    obtain ⟨⟨⟩, hallowed, h⟩ := Outcome.bind_eq_ok.mp h
    obtain ⟨⟨m, th⟩, haccess, hrest⟩ := Outcome.bind_eq_ok.mp h
    exact .head ⟨t, Outcome.assertThat_eq_ok.mp hallowed, .access haccess⟩ (ih hrest)

lemma current_insert {t : T} (hidle : sys.threads t = .idle) {name : List UInt8}
    (hlen : name.length + 1 ≤ dcacheEntryNameLen) (inode : ℕ) :
    CurrentStep sys (sys.insert t name inode) :=
  ⟨t, by rw [hidle]; trivial, .insert name inode hidle hlen⟩

lemma current_lookup {t : T} (hidle : sys.threads t = .idle) (name : List UInt8) :
    CurrentStep sys (sys.lookup t name) :=
  ⟨t, by rw [hidle]; trivial, .lookup name hidle⟩

/-- In a run in which no link overwrites another pointer than the one copied, the siblings always
form a ring, and a lookup that runs alone ends. -/
theorem dcache_ring (h : ReflTransGen CurrentStep System.init sys) :
    RingFrom sys.memory ∧
      ∀ name, ∃ n m, alone n sys.memory (.lookupTest name) = .ok (m, .idle) := by
  obtain ⟨s, hs⟩ := safe_run h
  have hring := hs.linked.ringFrom
  exact ⟨hring, fun name => hring.lookup_ends name⟩

/-- Two threads insert behind an entry, a step of one and then of the other, while a third looks up
the name of the first and moves the head to it before it is published. Each links its entry where
the pointer is still the one that it copied. -/
theorem dcache_ring_twoInsertions : ∃ sys : System (Fin 3),
    ReflTransGen CurrentStep System.init sys ∧ sys.Quiet ∧ sys.memory.childs = some 2 ∧
      siblings sys.memory 2 = some 0 ∧ siblings sys.memory 0 = some 1 ∧
      siblings sys.memory 1 = some 2 ∧ RingFrom sys.memory ∧
        ∀ name, ∃ n m, alone n sys.memory (.lookupTest name) = .ok (m, .idle) := by
  obtain ⟨sys₁, sys, hfirst, hidle₁, hboth, hidle, hring⟩ : ∃ sys₁ sys : System (Fin 3),
      (System.init.insert 0 [97] 11).accesses (fun m th => th.Current m) [0, 0, 0] = .ok sys₁ ∧
      (∀ t, sys₁.threads t = .idle) ∧
      (((sys₁.insert 0 [98] 12).insert 1 [99] 13).lookup 2 [98]).accesses
        (fun m th => th.Current m) [0, 0, 2, 1, 0, 0, 2, 0, 0, 2, 2, 2, 1, 1, 1, 1, 0, 1, 1] =
          .ok sys ∧
      (∀ t, sys.threads t = .idle) ∧ sys.memory.childs = some 2 ∧
      siblings sys.memory 2 = some 0 ∧ siblings sys.memory 0 = some 1 ∧
      siblings sys.memory 1 = some 2 := by
    refine ⟨_, _, rfl, ?_, rfl, ?_, rfl, rfl, rfl, rfl⟩ <;> intro t <;> fin_cases t <;> rfl
  have hbegin : ReflTransGen CurrentStep System.init sys₁ :=
    .head (current_insert (t := 0) rfl (by decide) 11) (steps_of_accesses hfirst)
  have hrest : ReflTransGen CurrentStep
      (((sys₁.insert 0 [98] 12).insert 1 [99] 13).lookup 2 [98]) sys := steps_of_accesses hboth
  have hidle₂ : (sys₁.insert 0 [98] 12).threads 1 = .idle := hidle₁ 1
  have hidle₃ : ((sys₁.insert 0 [98] 12).insert 1 [99] 13).threads 2 = .idle := hidle₁ 2
  have hfst : CurrentStep sys₁ (sys₁.insert 0 [98] 12) :=
    current_insert (hidle₁ 0) (by decide) 12
  have hsnd : CurrentStep (sys₁.insert 0 [98] 12) ((sys₁.insert 0 [98] 12).insert 1 [99] 13) :=
    current_insert hidle₂ (by decide) 13
  have hlookup : CurrentStep ((sys₁.insert 0 [98] 12).insert 1 [99] 13)
      (((sys₁.insert 0 [98] 12).insert 1 [99] 13).lookup 2 [98]) :=
    current_lookup hidle₃ [98]
  have hrun := (((hbegin.tail hfst).tail hsnd).tail hlookup).trans hrest
  refine ⟨sys, hrun, fun t => ?_, hring.1, hring.2.1, hring.2.2.1, hring.2.2.2, dcache_ring hrun⟩
  rw [hidle t]
  simp [Thread.Inserting, Thread.unlinked]

omit [DecidableEq T] in
/-- A link that overwrites another pointer leaves an entry on no ring. -/
theorem link_keeps_rings_iff (h : Safe s sys) {t : T} {new : ℕ}
    (ht : sys.threads t = .insertLink new (some p)) :
    ∃ m, access sys.memory (sys.threads t) = .ok (m, .insertPublish new) ∧
      ((∀ a ∈ insert new s, ∃ rest, IsRing (siblings m) a rest) ↔
        (sys.threads t).Current sys.memory) := by
  have hholds := h.holds t
  have hunlinked := h.unlinked t new
  rw [ht] at hholds hunlinked ⊢
  obtain ⟨⟨a, hp, heq⟩, q, hq, hcopy⟩ := hholds
  obtain rfl := Option.some.inj heq
  obtain ⟨r, -, hpr⟩ := h.linked.closed p hp
  obtain ⟨entries, hmodify, hsib, -⟩ := siblings_modify (live_of_siblings hpr) (some new)
  refine ⟨⟨sys.memory.childs, entries⟩, by simp [access, hmodify], ?_⟩
  rw [hsib]
  exact link_isRing_iff h.linked.closed h.linked.separate hp (hunlinked rfl).1 hq hcopy

lemma lookup_loops {head : ℕ} {c : Finset ℕ} {name : List UInt8} (hhead : m.childs = some head)
    (hout : head ∉ c) (hc : ∀ p ∈ c, ∃ e, m.entries.read p = .ok e ∧ ¬NameMatches e.name name ∧
      ∃ q ∈ c, e.siblings = some q) (n : ℕ) {p : ℕ} (hp : p ∈ c) :
    (∀ m', alone n m (.lookupAt name (some p)) ≠ .ok (m', .idle)) ∧
      ∀ m', alone n m (.lookupWhile name (some p)) ≠ .ok (m', .idle) := by
  induction n generalizing p with
  | zero => simp [alone]
  | succ n ih =>
    obtain ⟨e, hread, hmatch, q, hq, he⟩ := hc p hp
    have hat : access m (.lookupAt name (some p)) = .ok (m, .lookupWhile name (some q)) := by
      simp [access, hread, hmatch, he]
    have hne : some p ≠ m.childs := by
      rw [hhead]
      exact fun heq => hout (Option.some.inj heq ▸ hp)
    have hwhile : access m (.lookupWhile name (some p)) = .ok (m, .lookupAt name (some p)) :=
      if_neg hne
    rw [alone_succ hat, alone_succ hwhile]
    exact ⟨(ih hq).2, (ih hp).1⟩

/-- Two threads insert behind the first entry. Both copy its `siblings` before one of them links,
and the one that links first publishes last. Then the head is on no ring, and a lookup of another
name never comes back to it. -/
theorem dcache_ring_counterexample : ∃ sys : System Bool,
    ReflTransGen (fun a b => ∃ t, Step t a b) System.init sys ∧ sys.Quiet ∧
      ¬RingFrom sys.memory ∧
        ∀ n m, alone n sys.memory (.lookupTest [100]) ≠ .ok (m, .idle) := by
  obtain ⟨sys₁, sys, hfirst, hidle₁, hboth, hidle, hhead, hcells⟩ : ∃ sys₁ sys : System Bool,
      (System.init.insert false [97] 11).accesses (fun _ _ => True) [false, false, false] = .ok sys₁ ∧
      (∀ t, sys₁.threads t = .idle) ∧
      ((sys₁.insert false [98] 12).insert true [99] 13).accesses (fun _ _ => True) [false, false,
        false, false, false, true, true, true, true, true, false, true, true, false] = .ok sys ∧
      (∀ t, sys.threads t = .idle) ∧ sys.memory.childs = some 1 ∧
      sys.memory.entries.read 0 = .ok ⟨none, some 2, 11, [97]⟩ ∧
      sys.memory.entries.read 1 = .ok ⟨none, some 0, 12, [98]⟩ ∧
      sys.memory.entries.read 2 = .ok ⟨none, some 0, 13, [99]⟩ ∧
      ∀ n, sys.memory.entries.cells (n + 3) = none :=
    ⟨_, _, rfl, by rintro (_ | _) <;> rfl, rfl, by rintro (_ | _) <;> rfl, rfl, rfl, rfl, rfl,
      fun _ => rfl⟩
  obtain ⟨hzero, hone, htwo, hrest⟩ := hcells
  refine ⟨sys, ?_, ?_, ?_, ?_⟩
  · have hbegin : ReflTransGen (fun a b : System Bool => ∃ t, Step t a b) System.init
        (System.init.insert false [97] 11) :=
      .single ⟨false, .insert [97] 11 rfl (by decide)⟩
    have hsecond : ∃ t, Step t sys₁ (sys₁.insert false [98] 12) :=
      ⟨false, .insert [98] 12 (hidle₁ false) (by decide)⟩
    have hthird : ∃ t, Step t (sys₁.insert false [98] 12)
        ((sys₁.insert false [98] 12).insert true [99] 13) :=
      ⟨true, .insert [99] 13 (hidle₁ true) (by decide)⟩
    have hsteps : ∀ {a b : System Bool} {ts : List Bool}, a.accesses (fun _ _ => True) ts = .ok b →
        ReflTransGen (fun a b => ∃ t, Step t a b) a b := fun h =>
      ReflTransGen.mono (fun _ _ => Exists.imp fun _ => And.right) _ _ (steps_of_accesses h)
    exact (((hbegin.trans (hsteps hfirst)).tail hsecond).tail hthird).trans (hsteps hboth)
  · intro t
    rw [hidle t]
    simp [Thread.Inserting, Thread.unlinked]
  · intro hring
    obtain ⟨rest, hrest', -⟩ := hring 1 hhead
    obtain ⟨a, -, ha⟩ := hrest'.exists_follows
    obtain ⟨e, hread, he⟩ := read_siblings ha
    rcases a with _ | _ | _ | n
    · simp_all
    · simp_all
    · simp_all
    · simp [Heap.read, hrest n, deref] at hread
  · intro n m
    -- from the head the walk only meets the first entry and the one of the other thread
    have hround : ∀ p ∈ ({0, 2} : Finset ℕ), ∃ e, sys.memory.entries.read p = .ok e ∧
        ¬NameMatches e.name [100] ∧ ∃ q ∈ ({0, 2} : Finset ℕ), e.siblings = some q := by
      intro p hp
      rcases Finset.mem_insert.mp hp with rfl | hp
      · exact ⟨_, hzero, by decide, 2, by decide, rfl⟩
      · obtain rfl := Finset.mem_singleton.mp hp
        exact ⟨_, htwo, by decide, 0, by decide, rfl⟩
    have hloop := fun n => lookup_loops hhead (by decide) hround n (p := 0) (by decide)
    have htest : access sys.memory (.lookupTest [100]) = .ok (sys.memory, .lookupFirst [100]) := by
      simp [access, hhead]
    have hfirst : access sys.memory (.lookupFirst [100]) =
        .ok (sys.memory, .lookupAt [100] (some 1)) := by
      simp [access, hhead]
    have hat : access sys.memory (.lookupAt [100] (some 1)) =
        .ok (sys.memory, .lookupWhile [100] (some 0)) := by
      rw [access, deref, Outcome.ok_bind, hone, Outcome.ok_bind, if_neg (by decide)]
      rfl
    rcases n with _ | _ | _ | n
    · simp [alone]
    · simp [alone, htest]
    · simp [alone, htest, hfirst]
    · rw [alone_succ htest, alone_succ hfirst, alone_succ hat]
      exact (hloop n).2 m

end Spotlight.Ext4.Threads
