import Spotlight.Dcache

/-! Sequences of `dcache_insert` and `dcache_lookup` in one thread: the rings of the tree, and what
a lookup finds. -/
namespace Spotlight.Ext4
open Rings

/-- What an insertion that returned an entry has entered, and where. -/
structure Insertion where
  parent : Option ℕ
  entry : ℕ
  name : List UInt8

/-- A parent of a call: the root, or an entry that was returned before. -/
def KnownParent (log : List Insertion) (parent : Option ℕ) : Prop :=
  ∀ p, parent = some p → ∃ i ∈ log, i.entry = p

def entriesUnder (log : List Insertion) (parent : Option ℕ) : List ℕ :=
  (log.filter (·.parent = parent)).map Insertion.entry

/-- Caches that calls of one thread lead to, with the insertions made, the last one first. -/
inductive DcacheRun : Dcache → List Insertion → Prop
  | init {n : ℕ} (hn : n ≠ 0) : DcacheRun (dcacheInitRoot ⟨0, none, Heap.empty⟩ n).1 []
  | insert {d d' : Dcache} {log : List Insertion} {parent : Option ℕ} {name : List UInt8} {n p : ℕ}
      (hrun : DcacheRun d log) (hparent : KnownParent log parent) (hname : 0 ∉ name)
      (hcall : dcacheInsert d parent name n = .ok (d', some p)) :
      DcacheRun d' (⟨parent, p, name⟩ :: log)
  | refuse {d d' : Dcache} {log : List Insertion} {parent : Option ℕ} {name : List UInt8} {n : ℕ}
      (hrun : DcacheRun d log) (hparent : KnownParent log parent) (hname : 0 ∉ name)
      (hcall : dcacheInsert d parent name n = .ok (d', none)) : DcacheRun d' log
  | lookup {d d' : Dcache} {log : List Insertion} {parent : Option ℕ} {name : List UInt8}
      {e : Option ℕ} (hrun : DcacheRun d log) (hparent : KnownParent log parent) (hname : 0 ∉ name)
      (hcall : dcacheLookup d parent name = .ok (d', e)) : DcacheRun d' log

/-- The children of a parent form one ring, of the entries inserted under it. -/
def RingOf (d : Dcache) (log : List Insertion) (parent : Option ℕ) : Prop :=
  (d.childs parent = none ∧ entriesUnder log parent = []) ∨
    ∃ head rest, d.childs parent = some head ∧ IsRing d.siblings head rest ∧
      (head :: rest).Perm (entriesUnder log parent)

variable {d d' : Dcache} {log : List Insertion} {kids : Option ℕ → List ℕ} {parent : Option ℕ}
  {p n : ℕ} {name : List UInt8}

/-- The tree holds what was inserted, under the names it was inserted with. -/
structure Inserted (d : Dcache) (log : List Insertion) (kids : Option ℕ → List ℕ) : Prop where
  represents : d.Represents kids
  rootInode : d.rootInode ≠ 0
  kids : ∀ parent, (kids parent).Perm (entriesUnder log parent)
  label : ∀ i ∈ log, 0 ∉ i.name ∧ ∃ n, d.label i.entry = some (n, i.name)

lemma mem_entriesUnder : p ∈ entriesUnder log parent ↔
    ∃ i ∈ log, i.parent = parent ∧ i.entry = p := by
  simp [entriesUnder, and_assoc]

lemma Inserted.valid (h : Inserted d log kids) (hparent : KnownParent log parent) :
    d.Valid parent := by
  intro p hp
  obtain ⟨i, hi, rfl⟩ := hparent p hp
  obtain ⟨-, n, hlabel⟩ := h.label i hi
  rw [← isSome_label, hlabel, Option.isSome_some]

lemma Inserted.insert (h : Inserted d log kids) (hparent : KnownParent log parent)
    (hname : 0 ∉ name) (hcall : dcacheInsert d parent name n = .ok (d', some p)) :
    ∃ kids', Inserted d' (⟨parent, p, name⟩ :: log) kids' := by
  have hlen : name.length + 1 ≤ dcacheEntryNameLen := by
    by_contra hlong
    rw [dcacheInsert, if_pos (not_le.mp hlong)] at hcall
    cases hcall
  obtain ⟨d₁, hrun, hrep, hlabel, hroot⟩ :=
    dcacheInsert_ok h.represents (h.valid hparent) h.rootInode hlen n
  rw [hrun] at hcall
  obtain ⟨rfl, hp⟩ := Prod.mk.inj (Except.ok.inj hcall)
  obtain rfl : d.entries.next = p := Option.some.inj hp
  rw [cString_of_notMem hname] at hlabel
  refine ⟨_, hrep, hroot ▸ h.rootInode, fun parent' => ?_, fun i hi => ?_⟩
  · by_cases heq : parent' = parent
    · rw [heq, Function.update_self, entriesUnder, List.filter_cons_of_pos (by simp), List.map_cons]
      exact ((List.rotate_perm _ _).trans (h.kids parent)).cons _
    · rw [Function.update_of_ne heq, entriesUnder,
        List.filter_cons_of_neg (by simpa using fun hsame => heq hsame.symm)]
      exact h.kids parent'
  · rw [hlabel]
    rcases List.mem_cons.mp hi with rfl | hi
    · exact ⟨hname, n, Function.update_self ..⟩
    · obtain ⟨hnul, n', hold⟩ := h.label i hi
      refine ⟨hnul, n', ?_⟩
      rw [Function.update_of_ne, hold]
      intro hsame
      rw [hsame, Dcache.label, d.entries.fresh _ le_rfl] at hold
      cases hold

lemma Inserted.lookup (h : Inserted d log kids) (hparent : KnownParent log parent)
    (hname : 0 ∉ name) : ∃ d' e kids', dcacheLookup d parent name = .ok (d', e) ∧
      Inserted d' log kids' ∧
      (∀ p, e = some p → ∃ i ∈ log, i.parent = parent ∧ i.entry = p ∧ i.name = name) ∧
      (e = none → ∀ i ∈ log, i.parent = parent → i.name ≠ name) := by
  have hmatch : ∀ i ∈ log, d.Matches name i.entry ↔ i.name = name := by
    intro i hi
    obtain ⟨hnul, n, hlabel⟩ := h.label i hi
    simp [Dcache.Matches, hlabel, nameMatches_iff hnul hname]
  rcases dcacheLookup_ok h.represents (h.valid hparent) name with
    ⟨hrun, hall⟩ | ⟨d', xs, p, ys, hrun, hsplit, -, hp, hrep, hkeeps⟩
  · refine ⟨d, none, kids, hrun, h, by simp, fun _ i hi hunder heq => ?_⟩
    refine hall i.entry ?_ ((hmatch i hi).mpr heq)
    exact (h.kids parent).symm.subset (mem_entriesUnder.mpr ⟨i, hi, hunder, rfl⟩)
  · have hin : p ∈ entriesUnder log parent := by
      refine (h.kids parent).subset ?_
      rw [hsplit]
      simp
    obtain ⟨i, hi, hunder, rfl⟩ := mem_entriesUnder.mp hin
    refine ⟨d', some i.entry, _, hrun, ⟨hrep, hkeeps.rootInode ▸ h.rootInode,
      fun parent' => ?_, fun i hi => ?_⟩, fun q hq => ?_, by simp⟩
    · by_cases heq : parent' = parent
      · rw [heq, Function.update_self]
        refine List.Perm.trans ?_ (h.kids parent)
        rw [hsplit]
        exact @List.perm_append_comm _ (i.entry :: ys) _
      · rw [Function.update_of_ne heq]
        exact h.kids parent'
    · rw [hkeeps.label]
      exact h.label i hi
    · exact ⟨i, hi, hunder, Option.some.inj hq, (hmatch i hi).mp hp⟩

lemma dcacheInsert_refused {d' : Dcache} (h : Inserted d log kids)
    (hparent : KnownParent log parent)
    (hcall : dcacheInsert d parent name n = .ok (d', none)) : d' = d := by
  by_cases hlen : name.length + 1 ≤ dcacheEntryNameLen
  · obtain ⟨d₁, hrun, -⟩ := dcacheInsert_ok h.represents (h.valid hparent) h.rootInode hlen n
    rw [hrun] at hcall
    cases hcall
  · rw [dcacheInsert, if_pos (not_le.mp hlen)] at hcall
    exact (Prod.mk.inj (Except.ok.inj hcall)).1.symm

lemma DcacheRun.inserted (h : DcacheRun d log) : ∃ kids, Inserted d log kids := by
  induction h with
  | @init n hn =>
    refine ⟨fun _ => [], ⟨?_, ?_, ?_, ?_⟩, hn, fun _ => .refl _, by simp⟩
    · rintro (_ | p) <;> rfl
    all_goals simp
  | insert hrun hparent hname hcall ih =>
    obtain ⟨kids, hins⟩ := ih
    exact hins.insert hparent hname hcall
  | refuse hrun hparent hname hcall ih =>
    obtain ⟨kids, hins⟩ := ih
    rw [dcacheInsert_refused hins hparent hcall]
    exact ⟨kids, hins⟩
  | lookup hrun hparent hname hcall ih =>
    obtain ⟨kids, hins⟩ := ih
    obtain ⟨d₁, e, kids', hlookup, hins', -⟩ := hins.lookup hparent hname
    rw [hlookup] at hcall
    obtain ⟨rfl, -⟩ := Prod.mk.inj (Except.ok.inj hcall)
    exact ⟨kids', hins'⟩

/-- After any calls the children of every parent form one ring of what was inserted under it, and
further calls end: an insertion, which returns `NULL` for long names only, and a lookup, which finds
an entry with exactly this name if there is one. -/
theorem dcacheRun_rings (h : DcacheRun d log) :
    (∀ parent, RingOf d log parent) ∧
    ∀ parent name, KnownParent log parent → 0 ∉ name →
      (∀ n, ∃ d' e, dcacheInsert d parent name n = .ok (d', e) ∧
        (e = none ↔ dcacheEntryNameLen < name.length + 1)) ∧
      ∃ d' e, dcacheLookup d parent name = .ok (d', e) ∧
        (∀ p, e = some p → ∃ i ∈ log, i.parent = parent ∧ i.entry = p ∧ i.name = name) ∧
        (e = none ↔ ∀ i ∈ log, i.parent = parent → i.name ≠ name) := by
  obtain ⟨kids, hins⟩ := h.inserted
  refine ⟨fun parent => ?_, fun parent name hparent hname => ⟨fun n => ?_, ?_⟩⟩
  · have hperm := hins.kids parent
    rw [RingOf, hins.represents.head]
    cases hkids : kids parent with
    | nil =>
      rw [hkids] at hperm
      exact .inl ⟨rfl, hperm.nil_eq.symm⟩
    | cons head rest =>
      rw [hkids] at hperm
      exact .inr ⟨head, rest, rfl, hins.represents.ring parent head rest hkids, hperm⟩
  · by_cases hlen : name.length + 1 ≤ dcacheEntryNameLen
    · obtain ⟨d', hrun, -⟩ :=
        dcacheInsert_ok hins.represents (hins.valid hparent) hins.rootInode hlen n
      exact ⟨d', _, hrun, by simpa using hlen⟩
    · exact ⟨d, none, if_pos (not_le.mp hlen), by simpa using hlen⟩
  · obtain ⟨d', e, kids', hrun, -, hfound, hmissing⟩ := hins.lookup hparent hname
    refine ⟨d', e, hrun, hfound, hmissing, fun hall => ?_⟩
    cases e with
    | none => rfl
    | some p =>
      obtain ⟨i, hi, hunder, -, heq⟩ := hfound p rfl
      exact absurd heq (hall i hi hunder)

/-- Two names under the root, and a lookup of the first of them. -/
theorem dcacheRun_rings_pair : ∃ d p q, DcacheRun d [⟨none, q, [98]⟩, ⟨none, p, [97]⟩] ∧
    RingOf d [⟨none, q, [98]⟩, ⟨none, p, [97]⟩] none := by
  have hroot : ∀ log, KnownParent log none := fun log p hp => by cases hp
  have hnul : 0 ∉ [(97 : UInt8)] ∧ 0 ∉ [(98 : UInt8)] := by decide
  have hfirst := DcacheRun.insert (.init (n := 2) (by decide)) (hroot _) hnul.1 (n := 11) rfl
  have hsecond := DcacheRun.insert hfirst (hroot _) hnul.2 (n := 12) rfl
  have hrun := DcacheRun.lookup hsecond (hroot _) hnul.1 rfl
  exact ⟨_, _, _, hrun, (dcacheRun_rings hrun).1 none⟩

end Spotlight.Ext4
