import Spotlight.Heap
import Spotlight.Rings

/-! The directory cache (`dcache.c`): a tree whose siblings form circular lists. -/
namespace Spotlight.Ext4
open Rings

def dcacheEntryNameLen : ℕ := 40

structure DcacheEntry where
  childs : Option ℕ
  siblings : Option ℕ
  inode : ℕ
  name : List UInt8

/-- The characters in front of the terminating NUL. -/
def cString (bytes : List UInt8) : List UInt8 := bytes.takeWhile (· ≠ 0)

/-- `strncmp(stored, name, namelen) == 0 && stored[namelen] == 0`, for the `namelen` characters of
`name`. -/
def NameMatches (stored name : List UInt8) : Prop :=
  cString (stored.take name.length) = cString name ∧ stored.getD name.length 0 = 0

instance (stored name : List UInt8) : Decidable (NameMatches stored name) :=
  inferInstanceAs (Decidable (_ ∧ _))

lemma cString_of_notMem {bytes : List UInt8} (h : 0 ∉ bytes) : cString bytes = bytes := by
  rw [cString, List.takeWhile_eq_self_iff]
  intro b hb
  rw [decide_eq_true_eq]
  rintro rfl
  exact h hb

lemma nameMatches_iff {stored name : List UInt8} (hs : 0 ∉ stored) (hn : 0 ∉ name) :
    NameMatches stored name ↔ stored = name := by
  have htake : 0 ∉ stored.take name.length := fun h => hs (List.mem_of_mem_take h)
  rw [NameMatches, cString_of_notMem htake, cString_of_notMem hn]
  constructor
  · rintro ⟨heq, hend⟩
    have hlen : stored.length ≤ name.length := by
      by_contra hlt
      have hin : name.length < stored.length := Nat.not_le.mp hlt
      rw [List.getD_eq_getElem _ _ hin] at hend
      exact hs (hend ▸ List.getElem_mem hin)
    rwa [List.take_of_length_le hlen] at heq
  · rintro rfl
    simp

/-- The static root entry, of which only the inode and the `childs` are used, and the others. A
pointer to an entry is `none` for the root. -/
structure Dcache where
  rootInode : ℕ
  rootChilds : Option ℕ
  entries : Heap DcacheEntry

def dcacheInitRoot (d : Dcache) (n : ℕ) : Dcache × ℤ :=
  if d.rootInode ≠ 0 then (d, -1)
  else ({ d with rootInode := n, rootChilds := none }, 0)

def Dcache.readChilds (d : Dcache) : Option ℕ → Outcome (Option ℕ)
  | none => .ok d.rootChilds
  | some p => do
    let e ← d.entries.read p
    return e.childs

def Dcache.writeChilds (d : Dcache) (childs : Option ℕ) : Option ℕ → Outcome Dcache
  | none => .ok { d with rootChilds := childs }
  | some p => do
    let entries ← d.entries.modify p fun e => { e with childs }
    return { d with entries }

def Dcache.writeSiblings (d : Dcache) (p : ℕ) (siblings : Option ℕ) : Outcome Dcache := do
  let entries ← d.entries.modify p fun e => { e with siblings }
  return { d with entries }

/-- `dcache_insert` of the `namelen` characters of `name`; it returns `NULL` for a long one. -/
def dcacheInsert (d : Dcache) (parent : Option ℕ) (name : List UInt8) (n : ℕ) :
    Outcome (Dcache × Option ℕ) :=
  if dcacheEntryNameLen < name.length + 1 then .ok (d, none)
  else do
    assertThat (parent = none → d.rootInode ≠ 0)
    let (newEntry, entries) := d.entries.alloc ⟨none, none, n, cString name⟩
    let d := { d with entries }
    match ← d.readChilds parent with
    | none => do
      let d ← d.writeSiblings newEntry (some newEntry)
      let d ← d.writeChilds (some newEntry) parent
      return (d, some newEntry)
    | some head => do
      let e ← d.entries.read head
      let d ← d.writeSiblings newEntry e.siblings
      let d ← d.writeSiblings head (some newEntry)
      let d ← d.writeChilds (some newEntry) parent
      return (d, some newEntry)

/-- The loop of `dcache_lookup` over the siblings of `head`. -/
def dcacheLookupLoop (d : Dcache) (parent : Option ℕ) (name : List UInt8) (head : ℕ) :
    ℕ → Option ℕ → Outcome (Dcache × Option ℕ)
  | 0, _ => .error .fuel
  | n + 1, iter => do
    let p ← deref iter
    let e ← d.entries.read p
    if NameMatches e.name name then do
      let d ← d.writeChilds (some p) parent
      return (d, some p)
    else if e.siblings = some head then return (d, none)
    else dcacheLookupLoop d parent name head n e.siblings

/-- `dcache_lookup`. A ring has at most as many places as entries were ever allocated. -/
def dcacheLookup (d : Dcache) (parent : Option ℕ) (name : List UInt8) :
    Outcome (Dcache × Option ℕ) := do
  match ← d.readChilds parent with
  | none => return (d, none)
  | some head => dcacheLookupLoop d parent name head d.entries.next (some head)

def dcacheGetInode (d : Dcache) : Option ℕ → Outcome ℕ
  | none => .ok d.rootInode
  | some p => do
    let e ← d.entries.read p
    return e.inode

def Dcache.siblings (d : Dcache) (p : ℕ) : Option ℕ :=
  (d.entries.cells p).bind DcacheEntry.siblings

def Dcache.childs (d : Dcache) : Option ℕ → Option ℕ
  | none => d.rootChilds
  | some p => (d.entries.cells p).bind DcacheEntry.childs

def Dcache.label (d : Dcache) (p : ℕ) : Option (ℕ × List UInt8) :=
  (d.entries.cells p).map fun e => (e.inode, e.name)

/-- A parent is the root or an entry. -/
def Dcache.Valid (d : Dcache) (parent : Option ℕ) : Prop :=
  ∀ p, parent = some p → (d.entries.cells p).isSome

/-- The tree that the entries form: the children of every parent, in the order of their ring. -/
structure Dcache.Represents (d : Dcache) (kids : Option ℕ → List ℕ) : Prop where
  head : ∀ parent, d.childs parent = (kids parent).head?
  ring : ∀ parent p rest, kids parent = p :: rest → IsRing d.siblings p rest
  live : ∀ parent, ∀ p ∈ kids parent, (d.entries.cells p).isSome
  apart : ∀ parent parent' p, p ∈ kids parent → p ∈ kids parent' → parent = parent'

variable {d d' : Dcache} {kids : Option ℕ → List ℕ} {parent : Option ℕ} {p q : ℕ}

/-- Entries keep their inode and name, and none comes or goes. -/
structure Dcache.Keeps (d d' : Dcache) : Prop where
  label : d'.label = d.label
  rootInode : d'.rootInode = d.rootInode
  next : d'.entries.next = d.entries.next

lemma Dcache.Keeps.trans {d'' : Dcache} (h : d.Keeps d') (h' : d'.Keeps d'') : d.Keeps d'' :=
  ⟨h'.label.trans h.label, h'.rootInode.trans h.rootInode, h'.next.trans h.next⟩

lemma isSome_label (d : Dcache) (p : ℕ) : (d.label p).isSome = (d.entries.cells p).isSome := by
  rw [Dcache.label, Option.isSome_map]

lemma Dcache.Keeps.live (h : d.Keeps d') (p : ℕ) :
    (d'.entries.cells p).isSome = (d.entries.cells p).isSome := by
  rw [← isSome_label, h.label, isSome_label]

lemma readChilds_eq (h : d.Valid parent) : d.readChilds parent = .ok (d.childs parent) := by
  cases parent with
  | none => rfl
  | some p =>
    obtain ⟨e, he⟩ := Option.isSome_iff_exists.mp (h p rfl)
    simp [Dcache.readChilds, Dcache.childs, Heap.read_of_cell he, he]

lemma writeSiblings_ok (hp : (d.entries.cells p).isSome) (v : Option ℕ) : ∃ d',
    d.writeSiblings p v = .ok d' ∧ d'.siblings = Function.update d.siblings p v ∧
      d'.childs = d.childs ∧ d.Keeps d' := by
  obtain ⟨e, he⟩ := Option.isSome_iff_exists.mp hp
  refine ⟨{ d with entries := d.entries.modifyCell p fun e => { e with siblings := v } }, ?_, ?_,
    ?_, ?_, rfl, rfl⟩
  · simp [Dcache.writeSiblings, Heap.modify_of_cell he]
  · funext q
    by_cases hq : q = p
    · simp [hq, Dcache.siblings, Heap.cells_modifyCell_self he]
    · simp [hq, Dcache.siblings, Heap.cells_modifyCell_ne hq]
  · funext parent
    cases parent with
    | none => rfl
    | some q =>
      by_cases hq : q = p
      · simp [hq, Dcache.childs, Heap.cells_modifyCell_self he, he]
      · simp [Dcache.childs, Heap.cells_modifyCell_ne hq]
  · funext q
    by_cases hq : q = p
    · simp [hq, Dcache.label, Heap.cells_modifyCell_self he, he]
    · simp [Dcache.label, Heap.cells_modifyCell_ne hq]

lemma writeChilds_ok (h : d.Valid parent) (v : Option ℕ) : ∃ d',
    d.writeChilds v parent = .ok d' ∧ d'.siblings = d.siblings ∧
      d'.childs = Function.update d.childs parent v ∧ d.Keeps d' := by
  cases parent with
  | none =>
    refine ⟨{ d with rootChilds := v }, rfl, rfl, ?_, rfl, rfl, rfl⟩
    funext parent
    cases parent with
    | none => rfl
    | some q => rfl
  | some p =>
    obtain ⟨e, he⟩ := Option.isSome_iff_exists.mp (h p rfl)
    refine ⟨{ d with entries := d.entries.modifyCell p fun e => { e with childs := v } }, ?_, ?_,
      ?_, ?_, rfl, rfl⟩
    · simp [Dcache.writeChilds, Heap.modify_of_cell he]
    · funext q
      by_cases hq : q = p
      · simp [hq, Dcache.siblings, Heap.cells_modifyCell_self he, he]
      · simp [Dcache.siblings, Heap.cells_modifyCell_ne hq]
    · funext parent
      cases parent with
      | none => rfl
      | some q =>
        by_cases hq : q = p
        · simp [hq, Dcache.childs, Heap.cells_modifyCell_self he]
        · simp [hq, Dcache.childs, Heap.cells_modifyCell_ne hq]
    · funext q
      by_cases hq : q = p
      · simp [hq, Dcache.label, Heap.cells_modifyCell_self he, he]
      · simp [Dcache.label, Heap.cells_modifyCell_ne hq]

/-- The cache with a new entry that is not yet linked. -/
def Dcache.allocated (d : Dcache) (n : ℕ) (name : List UInt8) : Dcache :=
  { d with entries := (d.entries.alloc ⟨none, none, n, cString name⟩).2 }

lemma cells_allocated (d : Dcache) (n : ℕ) (name : List UInt8) :
    (d.allocated n name).entries.cells = Function.update d.entries.cells d.entries.next
      (some ⟨none, none, n, cString name⟩) := rfl

lemma siblings_allocated (n : ℕ) (name : List UInt8) (hp : p ≠ d.entries.next) :
    (d.allocated n name).siblings p = d.siblings p := by
  rw [Dcache.siblings, cells_allocated, Function.update_of_ne hp, Dcache.siblings]

lemma childs_allocated (d : Dcache) (n : ℕ) (name : List UInt8) :
    (d.allocated n name).childs = d.childs := by
  funext parent
  cases parent with
  | none => rfl
  | some p =>
    by_cases hp : p = d.entries.next
    · simp [hp, Dcache.childs, cells_allocated, d.entries.fresh _ le_rfl]
    · simp [Dcache.childs, cells_allocated, Function.update_of_ne hp]

lemma label_allocated (d : Dcache) (n : ℕ) (name : List UInt8) :
    (d.allocated n name).label =
      Function.update d.label d.entries.next (some (n, cString name)) := by
  funext p
  by_cases hp : p = d.entries.next
  · simp [hp, Dcache.label, cells_allocated]
  · simp [hp, Dcache.label, cells_allocated]

lemma Dcache.Represents.update (h : d.Represents kids) {l : List ℕ}
    (hchilds : d'.childs = Function.update d.childs parent l.head?)
    (hring : ∀ p rest, l = p :: rest → IsRing d'.siblings p rest)
    (hothers : ∀ parent', parent' ≠ parent → ∀ p ∈ kids parent', d'.siblings p = d.siblings p)
    (hlive : ∀ p, (d.entries.cells p).isSome → (d'.entries.cells p).isSome)
    (hl : ∀ p ∈ l, (d'.entries.cells p).isSome ∧ ∀ parent', parent' ≠ parent → p ∉ kids parent') :
    d'.Represents (Function.update kids parent l) := by
  constructor
  · intro parent'
    by_cases heq : parent' = parent
    · rw [hchilds, heq, Function.update_self, Function.update_self]
    · rw [hchilds, Function.update_of_ne heq, Function.update_of_ne heq, h.head]
  · intro parent' p rest hkids
    by_cases heq : parent' = parent
    · rw [heq, Function.update_self] at hkids
      exact hring p rest hkids
    · rw [Function.update_of_ne heq] at hkids
      refine (h.ring parent' p rest hkids).congr fun a ha => hothers parent' heq a ?_
      rw [hkids]
      exact ha
  · intro parent' p hp
    by_cases heq : parent' = parent
    · rw [heq, Function.update_self] at hp
      exact (hl p hp).1
    · rw [Function.update_of_ne heq] at hp
      exact hlive p (h.live parent' p hp)
  · intro parent₁ parent₂ p h₁ h₂
    by_cases heq₁ : parent₁ = parent
    · by_cases heq₂ : parent₂ = parent
      · rw [heq₁, heq₂]
      · rw [heq₁, Function.update_self] at h₁
        rw [Function.update_of_ne heq₂] at h₂
        exact absurd h₂ ((hl p h₁).2 parent₂ heq₂)
    · rw [Function.update_of_ne heq₁] at h₁
      by_cases heq₂ : parent₂ = parent
      · rw [heq₂, Function.update_self] at h₂
        exact absurd h₁ ((hl p h₂).2 parent₁ heq₁)
      · rw [Function.update_of_ne heq₂] at h₂
        exact h.apart parent₁ parent₂ p h₁ h₂

lemma Dcache.Represents.next_notMem (h : d.Represents kids) (parent : Option ℕ) :
    d.entries.next ∉ kids parent := by
  intro hp
  have hlive := h.live parent _ hp
  rw [d.entries.fresh _ le_rfl] at hlive
  cases hlive

lemma live_allocated (n : ℕ) (name : List UInt8) (hp : (d.entries.cells p).isSome) :
    ((d.allocated n name).entries.cells p).isSome := by
  obtain ⟨e, he⟩ := Option.isSome_iff_exists.mp hp
  exact Option.isSome_of_eq_some (Heap.cells_alloc he)

lemma Dcache.Represents.insertAlone (h : d.Represents kids) {new : ℕ}
    (hnew : ∀ parent, new ∉ kids parent) (hsib : d'.siblings new = some new)
    (hothers : ∀ p, p ≠ new → d'.siblings p = d.siblings p)
    (hchilds : d'.childs = Function.update d.childs parent (some new))
    (hlive : ∀ p, (d.entries.cells p).isSome → (d'.entries.cells p).isSome)
    (hself : (d'.entries.cells new).isSome) :
    d'.Represents (Function.update kids parent [new]) := by
  refine h.update hchilds ?_ ?_ hlive ?_
  · intro p rest hp
    obtain ⟨rfl, rfl⟩ := List.cons.inj hp
    exact .single hsib
  · intro parent' _ p hp
    exact hothers p (ne_of_mem_of_not_mem hp (hnew parent'))
  · intro p hp
    obtain rfl := List.mem_singleton.mp hp
    exact ⟨hself, fun parent' _ => hnew parent'⟩

lemma Dcache.Represents.insertFront (h : d.Represents kids) {new head : ℕ} {rest : List ℕ}
    (hkids : kids parent = head :: rest) (hnew : ∀ parent, new ∉ kids parent)
    (hsib : d'.siblings = Function.update (Function.update d.siblings new (d.siblings head)) head
      (some new))
    (hchilds : d'.childs = Function.update d.childs parent (some new))
    (hlive : ∀ p, (d.entries.cells p).isSome → (d'.entries.cells p).isSome)
    (hself : (d'.entries.cells new).isSome) :
    d'.Represents (Function.update kids parent (new :: (rest ++ [head]))) := by
  have hhead : head ∈ kids parent := hkids ▸ List.mem_cons_self
  refine h.update hchilds ?_ ?_ hlive ?_
  · intro p rest' hp
    obtain ⟨rfl, rfl⟩ := List.cons.inj hp
    rw [hsib]
    exact (h.ring parent head rest hkids).insert (hkids ▸ hnew parent)
  · intro parent' hparent' p hp
    have hph : p ≠ head := fun heq => hparent' (h.apart _ _ p hp (heq ▸ hhead))
    rw [hsib, Function.update_of_ne hph,
      Function.update_of_ne (ne_of_mem_of_not_mem hp (hnew parent'))]
  · intro p hp
    rcases List.mem_cons.mp hp with rfl | hp
    · exact ⟨hself, fun parent' _ => hnew parent'⟩
    · have hin : p ∈ kids parent := by
        rw [hkids]
        exact (List.perm_append_singleton head rest).subset hp
      exact ⟨hlive p (h.live parent p hin),
        fun parent' hparent' hin' => hparent' (h.apart _ _ p hin' hin)⟩

/-- The new entry becomes the first child of the parent, in front of the old second one. -/
theorem dcacheInsert_ok (h : d.Represents kids) (hparent : d.Valid parent)
    (hroot : d.rootInode ≠ 0) {name : List UInt8}
    (hlen : name.length + 1 ≤ dcacheEntryNameLen) (n : ℕ) : ∃ d',
    dcacheInsert d parent name n = .ok (d', some d.entries.next) ∧
      d'.Represents (Function.update kids parent (d.entries.next :: (kids parent).rotate 1)) ∧
      d'.label = Function.update d.label d.entries.next (some (n, cString name)) ∧
      d'.rootInode = d.rootInode := by
  have hnew : ((d.allocated n name).entries.cells d.entries.next).isSome := by
    rw [cells_allocated, Function.update_self]
    rfl
  have hvalid : (d.allocated n name).Valid parent := fun p hp =>
    live_allocated n name (hparent p hp)
  have hnext := h.next_notMem
  have hrun : dcacheInsert d parent name n = do
      match d.childs parent with
      | none => do
        let d' ← (d.allocated n name).writeSiblings d.entries.next (some d.entries.next)
        let d' ← d'.writeChilds (some d.entries.next) parent
        return (d', some d.entries.next)
      | some head => do
        let e ← (d.allocated n name).entries.read head
        let d' ← (d.allocated n name).writeSiblings d.entries.next e.siblings
        let d' ← d'.writeSiblings head (some d.entries.next)
        let d' ← d'.writeChilds (some d.entries.next) parent
        return (d', some d.entries.next) := by
    have hread := readChilds_eq hvalid
    rw [childs_allocated] at hread
    rw [dcacheInsert, if_neg (not_lt.mpr hlen), Outcome.assertThat_true fun _ => hroot,
      Outcome.ok_bind]
    change ((d.allocated n name).readChilds parent >>= _) = _
    rw [hread, Outcome.ok_bind]
    cases d.childs parent <;> rfl
  rw [hrun, h.head]
  cases hkids : kids parent with
  | nil =>
    obtain ⟨d₁, h₁, hsib₁, hchilds₁, hkeeps₁⟩ := writeSiblings_ok hnew (some d.entries.next)
    have hvalid₁ : d₁.Valid parent := fun p hp => by rw [hkeeps₁.live, hvalid p hp]
    obtain ⟨d₂, h₂, hsib₂, hchilds₂, hkeeps₂⟩ := writeChilds_ok hvalid₁ (some d.entries.next)
    have hkeeps := hkeeps₁.trans hkeeps₂
    refine ⟨d₂, by simp [h₁, h₂], h.insertAlone hnext ?_ ?_ ?_ ?_ ?_, ?_, hkeeps.rootInode⟩
    · rw [hsib₂, hsib₁, Function.update_self]
    · intro p hp
      rw [hsib₂, hsib₁, Function.update_of_ne hp, siblings_allocated n name hp]
    · rw [hchilds₂, hchilds₁, childs_allocated]
    · intro p hp
      rw [hkeeps.live]
      exact live_allocated n name hp
    · rw [hkeeps.live, hnew]
    · rw [hkeeps.label, label_allocated]
  | cons head rest =>
    have hrotate : (head :: rest).rotate 1 = rest ++ [head] := by simp
    rw [hrotate]
    have hhead : head ∈ kids parent := hkids ▸ List.mem_cons_self
    obtain ⟨e, he⟩ := Option.isSome_iff_exists.mp (h.live parent head hhead)
    have hread : (d.allocated n name).entries.cells head = some e := Heap.cells_alloc he
    have hcopy : e.siblings = d.siblings head := by rw [Dcache.siblings, he, Option.bind_some]
    obtain ⟨d₁, h₁, hsib₁, hchilds₁, hkeeps₁⟩ := writeSiblings_ok hnew e.siblings
    have hlive₁ : (d₁.entries.cells head).isSome := by rw [hkeeps₁.live, hread, Option.isSome_some]
    obtain ⟨d₂, h₂, hsib₂, hchilds₂, hkeeps₂⟩ := writeSiblings_ok hlive₁ (some d.entries.next)
    have hvalid₂ : d₂.Valid parent := fun p hp => by rw [hkeeps₂.live, hkeeps₁.live, hvalid p hp]
    obtain ⟨d₃, h₃, hsib₃, hchilds₃, hkeeps₃⟩ := writeChilds_ok hvalid₂ (some d.entries.next)
    have hkeeps := (hkeeps₁.trans hkeeps₂).trans hkeeps₃
    have hsib : d₃.siblings = Function.update (Function.update d.siblings d.entries.next
        (d.siblings head)) head (some d.entries.next) := by
      rw [hsib₃, hsib₂, hsib₁, hcopy]
      congr 1
      funext p
      by_cases hp : p = d.entries.next
      · rw [hp, Function.update_self, Function.update_self]
      · rw [Function.update_of_ne hp, Function.update_of_ne hp, siblings_allocated n name hp]
    refine ⟨d₃, by simp [Heap.read_of_cell hread, h₁, h₂, h₃],
      h.insertFront hkids hnext hsib ?_ ?_ ?_, ?_, hkeeps.rootInode⟩
    · rw [hchilds₃, hchilds₂, hchilds₁, childs_allocated]
    · intro p hp
      rw [hkeeps.live]
      exact live_allocated n name hp
    · rw [hkeeps.live, hnew]
    · rw [hkeeps.label, label_allocated]

/-- The entry at `p` is the one that a lookup of `name` wants. -/
def Dcache.Matches (d : Dcache) (name : List UInt8) (p : ℕ) : Prop :=
  ∃ n stored, d.label p = some (n, stored) ∧ NameMatches stored name

lemma dcacheLookupLoop_turn (hpq : Follows d.siblings p q) (parent : Option ℕ)
    (name : List UInt8) (head fuel : ℕ) :
    (d.Matches name p → dcacheLookupLoop d parent name head (fuel + 1) (some p) = do
      let d' ← d.writeChilds (some p) parent
      return (d', some p)) ∧
    (¬d.Matches name p → dcacheLookupLoop d parent name head (fuel + 1) (some p) =
      if q = head then .ok (d, none)
      else dcacheLookupLoop d parent name head fuel (some q)) := by
  obtain ⟨e, he, hq⟩ := Option.bind_eq_some_iff.mp (show d.siblings p = some q from hpq)
  have hmatch : d.Matches name p ↔ NameMatches e.name name := by
    simp [Dcache.Matches, Dcache.label, he]
  rw [hmatch, dcacheLookupLoop, Outcome.deref_some, Outcome.ok_bind, Heap.read_of_cell he,
    Outcome.ok_bind, hq]
  refine ⟨fun hm => if_pos hm, fun hm => (if_neg hm).trans ?_⟩
  simp only [Option.some.injEq, Outcome.pure_eq]

lemma dcacheLookupLoop_ok (d : Dcache) (parent : Option ℕ) (name : List UInt8) {head : ℕ}
    {rest : List ℕ} {fuel : ℕ} (hchain : (p :: (rest ++ [head])).IsChain (Follows d.siblings))
    (hhead : head ∉ rest) (hfuel : rest.length < fuel) :
    ((∀ q ∈ p :: rest, ¬d.Matches name q) ∧
      dcacheLookupLoop d parent name head fuel (some p) = .ok (d, none)) ∨
    ∃ xs q ys, p :: rest = xs ++ q :: ys ∧ (∀ a ∈ xs, ¬d.Matches name a) ∧ d.Matches name q ∧
      dcacheLookupLoop d parent name head fuel (some p) = do
        let d' ← d.writeChilds (some q) parent
        return (d', some q) := by
  obtain ⟨fuel, rfl⟩ := Nat.exists_eq_add_one.mpr (Nat.zero_lt_of_lt hfuel)
  induction rest generalizing p fuel with
  | nil =>
    obtain ⟨hyes, hno⟩ := dcacheLookupLoop_turn (List.isChain_cons_cons.mp hchain).1 parent name
      head fuel
    by_cases hm : d.Matches name p
    · exact .inr ⟨[], p, [], rfl, by simp, hm, hyes hm⟩
    · exact .inl ⟨by simpa using hm, (hno hm).trans (if_pos rfl)⟩
  | cons a rest ih =>
    obtain ⟨hpa, htail⟩ := List.isChain_cons_cons.mp hchain
    obtain ⟨hyes, hno⟩ := dcacheLookupLoop_turn hpa parent name head fuel
    by_cases hm : d.Matches name p
    · exact .inr ⟨[], p, a :: rest, rfl, by simp, hm, hyes hm⟩
    · have hah : a ≠ head := fun heq => hhead (heq ▸ List.mem_cons_self)
      have hstep := (hno hm).trans (if_neg hah)
      obtain ⟨fuel, rfl⟩ : ∃ n, fuel = n + 1 := by
        refine Nat.exists_eq_add_one.mpr ?_
        rw [List.length_cons] at hfuel
        omega
      rcases ih htail (fun hin => hhead (List.mem_cons_of_mem _ hin)) fuel
        (by rw [List.length_cons] at hfuel; omega) with
        ⟨hall, hrun⟩ | ⟨xs, q, ys, hsplit, hxs, hq, hrun⟩
      · refine .inl ⟨?_, hstep.trans hrun⟩
        rintro b (_ | ⟨_, hb⟩)
        · exact hm
        · exact hall b hb
      · refine .inr ⟨p :: xs, q, ys, by rw [hsplit]; rfl, ?_, hq, hstep.trans hrun⟩
        rintro b (_ | ⟨_, hb⟩)
        · exact hm
        · exact hxs b hb

lemma Dcache.Represents.length_le (h : d.Represents kids) (parent : Option ℕ)
    (hnodup : (kids parent).Nodup) : (kids parent).length ≤ d.entries.next := by
  rw [← List.toFinset_card_of_nodup hnodup, ← Finset.card_range d.entries.next]
  apply Finset.card_le_card
  intro p hp
  obtain ⟨e, he⟩ := Option.isSome_iff_exists.mp (h.live parent p (List.mem_toFinset.mp hp))
  exact Finset.mem_range.mpr (Heap.lt_next he)

/-- A lookup returns the first child that matches, and makes it the head of the ring. -/
theorem dcacheLookup_ok (h : d.Represents kids) (hparent : d.Valid parent) (name : List UInt8) :
    (dcacheLookup d parent name = .ok (d, none) ∧ ∀ p ∈ kids parent, ¬d.Matches name p) ∨
    ∃ d' xs p ys, dcacheLookup d parent name = .ok (d', some p) ∧
      kids parent = xs ++ p :: ys ∧ (∀ q ∈ xs, ¬d.Matches name q) ∧ d.Matches name p ∧
      d'.Represents (Function.update kids parent (p :: (ys ++ xs))) ∧ d.Keeps d' := by
  cases hkids : kids parent with
  | nil =>
    left
    rw [dcacheLookup, readChilds_eq hparent, h.head, hkids]
    exact ⟨rfl, by simp⟩
  | cons head rest =>
    have hring := h.ring parent head rest hkids
    have hlen := h.length_le parent (hkids ▸ hring.nodup)
    have hrun : dcacheLookup d parent name =
        dcacheLookupLoop d parent name head d.entries.next (some head) := by
      rw [dcacheLookup, readChilds_eq hparent, h.head, hkids]
      rfl
    rw [hkids, List.length_cons] at hlen
    rw [hrun]
    rcases dcacheLookupLoop_ok d parent name hring.chain (List.nodup_cons.mp hring.nodup).1
      (Nat.lt_of_succ_le hlen) with ⟨hall, hloop⟩ | ⟨xs, p, ys, hsplit, hxs, hp, hloop⟩
    · exact .inl ⟨hloop, hall⟩
    · obtain ⟨d', hwrite, hsib, hchilds, hkeeps⟩ := writeChilds_ok hparent (some p)
      have hsub : ∀ q ∈ p :: (ys ++ xs), q ∈ kids parent := by
        intro q hq
        have hperm : (p :: ys ++ xs).Perm (xs ++ p :: ys) := List.perm_append_comm
        rw [hkids, hsplit]
        exact hperm.subset hq
      refine .inr ⟨d', xs, p, ys, by rw [hloop, hwrite]; rfl, hsplit, hxs, hp,
        h.update hchilds ?_ (fun _ _ q _ => by rw [hsib]) (fun q hq => by rwa [hkeeps.live]) ?_,
        hkeeps⟩
      · intro p' rest' hp'
        obtain ⟨rfl, rfl⟩ := List.cons.inj hp'
        rw [hsib]
        cases xs with
        | nil =>
          obtain ⟨rfl, rfl⟩ := List.cons.inj hsplit
          rwa [List.append_nil]
        | cons x xs =>
          obtain ⟨rfl, rfl⟩ := List.cons.inj hsplit
          exact hring.rotate
      · intro q hq
        rw [hkeeps.live]
        exact ⟨h.live parent q (hsub q hq),
          fun parent' hparent' hin => hparent' (h.apart _ _ q hin (hsub q hq))⟩

end Spotlight.Ext4
