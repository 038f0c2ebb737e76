import Spotlight.PathLookup

/-! The directory cache over runs of path lookups: when its entries hold the inodes that the
directories on the disk give to their paths. -/
namespace Spotlight.Ext4
open Rings Relation

/-- A scan of the directory with the inode `idx` finds `name` and the inode `n`. -/
def Finds (fs : Mount) (fuel idx : ℕ) (name : List UInt8) (n : ℕ) : Prop :=
  Prod.snd <$> lookupName fs fuel idx name = .ok (some n)

/-- The inode that names lead to on the disk, from the directory with the inode `idx` on. -/
def resolve (fs : Mount) (fuel : ℕ) : ℕ → List (List UInt8) → Outcome (Option ℕ)
  | idx, [] => .ok (some idx)
  | idx, name :: names => do
    match ← lookupName fs fuel idx name with
    | (_, none) => return none
    | (_, some n) => resolve fs fuel n names

def DirectoriesOnly (fs : Mount) (fuel : ℕ) : ℕ → List (List UInt8) → Prop
  | _, [] => True
  | idx, name :: names =>
    match lookupName fs fuel idx name with
    | .ok (inode, some n) => sIsDir inode.iMode ∧ DirectoriesOnly fs fuel n names
    | .ok (inode, none) => sIsDir inode.iMode
    | .error _ => True

/-- Names that fit an entry are found with the same inode in the directory of the entry above.
`held` is the inode of that entry, which is the root after a name too long for an entry. -/
def Unshadowed (fs : Mount) (fuel : ℕ) : ℕ → ℕ → List (List UInt8) → Prop
  | _, _, [] => True
  | held, idx, name :: names =>
    match lookupName fs fuel idx name with
    | .ok (_, some n) =>
      if name.length + 1 ≤ dcacheEntryNameLen then
        Finds fs fuel held name n ∧ Unshadowed fs fuel n n names
      else Unshadowed fs fuel rootInodeN n names
    | _ => True

/-- The calls of `inode_get_idx_by_path`, one after the other. -/
def lookups (fs : Mount) (fuel : ℕ) : Dcache → List (List UInt8) → Outcome Dcache
  | d, [] => .ok d
  | d, path :: paths => do
    let (d, _) ← inodeGetIdxByPath fs fuel d path
    lookups fs fuel d paths

/-- An absolute path through directories, with names of at most 255 bytes. -/
structure Admissible (fs : Mount) (fuel : ℕ) (path : List UInt8) : Prop where
  absolute : path.head? = some slash
  fits : Fits path
  directories : DirectoriesOnly fs fuel rootInodeN (components path)

def Dcache.inodeAt (d : Dcache) : Option ℕ → Option ℕ
  | none => some d.rootInode
  | some p => (d.label p).map Prod.fst

def Dcache.Child (d : Dcache) (parent : Option ℕ) (p : ℕ) : Prop :=
  ∃ head, d.childs parent = some head ∧ ReflTransGen (Follows d.siblings) head p

def Dcache.Reaches (d : Dcache) : Option ℕ → List (List UInt8) → Option ℕ → Prop
  | parent, [], e => parent = e
  | parent, name :: names, e =>
    ∃ p n, d.Child parent p ∧ d.label p = some (n, name) ∧ d.Reaches (some p) names e

/-- An entry that is reached from the root holds the inode that its path has on the disk. -/
def Faithful (fs : Mount) (fuel : ℕ) (d : Dcache) : Prop :=
  ∀ names e i, d.Reaches none names e → d.inodeAt e = some i →
    resolve fs fuel rootInodeN names = .ok (some i)

variable {fs : Mount} {fuel : ℕ} {d d' : Dcache} {kids kids' : Option ℕ → List ℕ}
  {parent : Option ℕ} {p i j n idx : ℕ} {name path : List UInt8} {names walked : List (List UInt8)}

lemma finds_iff : Finds fs fuel idx name n ↔
    ∃ inode, lookupName fs fuel idx name = .ok (inode, some n) := by
  rw [Finds]
  cases lookupName fs fuel idx name with
  | error e => simp
  | ok r => simp [Prod.ext_iff]

/-- The names that were found in the cache, all of which fit an entry. -/
def Leads (fs : Mount) (fuel : ℕ) : ℕ → List (List UInt8) → ℕ → Prop
  | idx, [], n => idx = n
  | idx, name :: names, n => name.length + 1 ≤ dcacheEntryNameLen ∧
    ∃ i, Finds fs fuel idx name i ∧ Leads fs fuel i names n

lemma Leads.directoriesOnly (h : Leads fs fuel idx walked n)
    (hdirs : DirectoriesOnly fs fuel idx (walked ++ names)) : DirectoriesOnly fs fuel n names := by
  induction walked generalizing idx with
  | nil => rwa [← show idx = n from h]
  | cons name walked ih =>
    obtain ⟨-, i, hfind, hrest⟩ := h
    obtain ⟨inode, hlookup⟩ := finds_iff.mp hfind
    rw [List.cons_append, DirectoriesOnly, hlookup] at hdirs
    exact ih hrest hdirs.2

lemma Leads.unshadowed_iff (h : Leads fs fuel idx walked n) :
    Unshadowed fs fuel idx idx (walked ++ names) ↔ Unshadowed fs fuel n n names := by
  induction walked generalizing idx with
  | nil => rw [List.nil_append, show idx = n from h]
  | cons name walked ih =>
    obtain ⟨hlen, i, hfind, hrest⟩ := h
    obtain ⟨inode, hlookup⟩ := finds_iff.mp hfind
    rw [← ih hrest, List.cons_append, Unshadowed, hlookup]
    dsimp only
    rw [if_pos hlen, and_iff_right hfind]

/-- The tree of a cache that was filled by lookups. -/
structure Tree (d : Dcache) (kids : Option ℕ → List ℕ) : Prop where
  represents : d.Represents kids
  rootInode : d.rootInode = rootInodeN
  named : ∀ parent, ∀ p ∈ kids parent, ∃ n name, d.label p = some (n, name) ∧ 0 ∉ name ∧
    name.length + 1 ≤ dcacheEntryNameLen

/-- Every entry holds the inode that a scan of the directory above it finds. -/
def Sound (fs : Mount) (fuel : ℕ) (d : Dcache) (kids : Option ℕ → List ℕ) : Prop :=
  ∀ parent, ∀ p ∈ kids parent, ∀ n name, d.label p = some (n, name) →
    ∃ i, d.inodeAt parent = some i ∧ Finds fs fuel i name n

/-- A child of the root holds an inode that a scan of the root does not find. -/
def Shadowed (fs : Mount) (fuel : ℕ) (d : Dcache) (kids : Option ℕ → List ℕ) : Prop :=
  ∃ p ∈ kids none, ∃ n name, d.label p = some (n, name) ∧ ¬Finds fs fuel rootInodeN name n

/-- Entries stay where they are and keep their inode and name. -/
structure Grows (d : Dcache) (kids : Option ℕ → List ℕ) (d' : Dcache) (kids' : Option ℕ → List ℕ) :
    Prop where
  kids : ∀ parent, kids parent ⊆ kids' parent
  label : ∀ p l, d.label p = some l → d'.label p = some l
  rootInode : d'.rootInode = d.rootInode

lemma Grows.refl (d : Dcache) (kids : Option ℕ → List ℕ) : Grows d kids d kids :=
  ⟨fun _ => List.Subset.refl _, fun _ _ => id, rfl⟩

lemma Grows.trans {d'' : Dcache} {kids'' : Option ℕ → List ℕ} (h : Grows d kids d' kids')
    (h' : Grows d' kids' d'' kids'') : Grows d kids d'' kids'' :=
  ⟨fun parent => List.Subset.trans (h.kids parent) (h'.kids parent),
    fun p l hl => h'.label p l (h.label p l hl), h'.rootInode.trans h.rootInode⟩

lemma Grows.inodeAt (h : Grows d kids d' kids') (hi : d.inodeAt parent = some i) :
    d'.inodeAt parent = some i := by
  cases parent with
  | none => rwa [Dcache.inodeAt, h.rootInode]
  | some p =>
    obtain ⟨l, hl, rfl⟩ := Option.map_eq_some_iff.mp hi
    rw [Dcache.inodeAt, h.label p l hl]
    rfl

lemma Grows.shadowed (h : Grows d kids d' kids') (hshadowed : Shadowed fs fuel d kids) :
    Shadowed fs fuel d' kids' := by
  obtain ⟨p, hp, n, name, hlabel, hfind⟩ := hshadowed
  exact ⟨p, h.kids none hp, n, name, h.label p _ hlabel, hfind⟩

lemma tree_freshDcache : Tree freshDcache fun _ => [] := by
  refine ⟨⟨?_, ?_, ?_, ?_⟩, rfl, ?_⟩
  · rintro (_ | p) <;> rfl
  all_goals simp

lemma sound_nil (d : Dcache) : Sound fs fuel d fun _ => [] := by
  intro parent p hp
  simp at hp

lemma Tree.child_iff (h : Tree d kids) : d.Child parent p ↔ p ∈ kids parent := by
  rw [Dcache.Child, h.represents.head]
  cases hkids : kids parent with
  | nil => simp
  | cons head rest =>
    simp [(h.represents.ring parent head rest hkids).reaches_iff]

lemma inodeAt_of_label (h : d.label p = some (n, name)) : d.inodeAt (some p) = some n := by
  rw [Dcache.inodeAt, h]
  rfl

lemma exists_inodeAt (h : d.Valid parent) : ∃ i, d.inodeAt parent = some i := by
  cases parent with
  | none => exact ⟨_, rfl⟩
  | some p =>
    have hlive := h p rfl
    rw [← isSome_label] at hlive
    obtain ⟨l, hl⟩ := Option.isSome_iff_exists.mp hlive
    exact ⟨_, inodeAt_of_label hl⟩

lemma dcacheGetInode_eq (h : d.inodeAt parent = some i) : dcacheGetInode d parent = .ok i := by
  cases parent with
  | none => exact congrArg Except.ok (Option.some.inj h)
  | some p =>
    rw [Dcache.inodeAt, Dcache.label, Option.map_map] at h
    obtain ⟨e, he, rfl⟩ := Option.map_eq_some_iff.mp h
    simp [dcacheGetInode, Heap.read_of_cell he]

/-- Siblings are turned around, and nothing else changes. -/
structure Turns (d : Dcache) (kids : Option ℕ → List ℕ) (d' : Dcache) (kids' : Option ℕ → List ℕ) :
    Prop where
  keeps : d.Keeps d'
  kids : ∀ parent, (kids' parent).Perm (kids parent)

lemma Turns.refl (d : Dcache) (kids : Option ℕ → List ℕ) : Turns d kids d kids :=
  ⟨⟨rfl, rfl, rfl⟩, fun _ => .refl _⟩

lemma Turns.trans {d'' : Dcache} {kids'' : Option ℕ → List ℕ} (h : Turns d kids d' kids')
    (h' : Turns d' kids' d'' kids'') : Turns d kids d'' kids'' :=
  ⟨h.keeps.trans h'.keeps, fun parent => (h'.kids parent).trans (h.kids parent)⟩

lemma Turns.grows (h : Turns d kids d' kids') : Grows d kids d' kids' :=
  ⟨fun parent => (h.kids parent).symm.subset, fun p l hl => by rw [h.keeps.label, hl],
    h.keeps.rootInode⟩

lemma Turns.inodeAt_eq (h : Turns d kids d' kids') : d'.inodeAt = d.inodeAt := by
  funext parent
  cases parent with
  | none => exact congrArg some h.keeps.rootInode
  | some p => rw [Dcache.inodeAt, h.keeps.label, Dcache.inodeAt]

lemma Turns.valid (h : Turns d kids d' kids') (hparent : d.Valid parent) : d'.Valid parent :=
  fun p hp => by rw [h.keeps.live, hparent p hp]

lemma Turns.tree (h : Turns d kids d' kids') (htree : Tree d kids) (hrep : d'.Represents kids') :
    Tree d' kids' := by
  refine ⟨hrep, h.keeps.rootInode.trans htree.rootInode, fun parent p hp => ?_⟩
  rw [h.keeps.label]
  exact htree.named parent p ((h.kids parent).subset hp)

lemma Turns.sound (h : Turns d kids d' kids') (hsound : Sound fs fuel d kids) :
    Sound fs fuel d' kids' := by
  intro parent p hp n name hlabel
  rw [h.keeps.label] at hlabel
  rw [h.inodeAt_eq]
  exact hsound parent p ((h.kids parent).subset hp) n name hlabel

lemma Tree.valid_of_mem (h : Tree d kids) (hp : p ∈ kids parent) : d.Valid (some p) := by
  rintro q ⟨⟩
  exact h.represents.live parent p hp

lemma dcacheLookup_tree (h : Tree d kids) (hparent : d.Valid parent) (hname : 0 ∉ name) :
    dcacheLookup d parent name = .ok (d, none) ∨
    ∃ d' kids' p n, dcacheLookup d parent name = .ok (d', some p) ∧ Tree d' kids' ∧
      Turns d kids d' kids' ∧ p ∈ kids parent ∧ d.label p = some (n, name) ∧
      name.length + 1 ≤ dcacheEntryNameLen := by
  rcases dcacheLookup_ok h.represents hparent name with
    ⟨hrun, -⟩ | ⟨d', xs, p, ys, hrun, hsplit, -, ⟨n, stored, hlabel, hmatch⟩, hrep, hkeeps⟩
  · exact .inl hrun
  · have hp : p ∈ kids parent := by
      rw [hsplit]
      simp
    obtain ⟨n', stored', hlabel', hnul, hlen⟩ := h.named parent p hp
    obtain ⟨rfl, rfl⟩ := Prod.mk.inj (Option.some.inj (hlabel.symm.trans hlabel'))
    obtain rfl := (nameMatches_iff hnul hname).mp hmatch
    have hturns : Turns d kids d' (Function.update kids parent (p :: (ys ++ xs))) := by
      refine ⟨hkeeps, fun parent' => ?_⟩
      by_cases heq : parent' = parent
      · rw [heq, Function.update_self, hsplit]
        exact @List.perm_append_comm _ (p :: ys) _
      · rw [Function.update_of_ne heq]
    exact .inr ⟨d', _, p, n, hrun, hturns.tree h hrep, hturns, hp, hlabel, hlen⟩

lemma noNul_token (hnul : 0 ∉ path) : 0 ∉ token path := fun hin =>
  hnul ((List.takeWhile_prefix _).subset hin)

lemma getCachedInodeNumLoop_ok (fs : Mount) (fuel : ℕ) (next : Option ℕ) (h : Tree d kids)
    (hnul : 0 ∉ path) (hnext : d.Valid next) {fuel' : ℕ} (hfuel : path.length < fuel') :
    ∃ d' kids' rest e walked,
      (getCachedInodeNumLoop fuel' d path next = .ok (d', rest, e) ∨
        getCachedInodeNumLoop fuel' d path next = .error .fuel ∧ 255 < (token rest).length) ∧
        Tree d' kids' ∧ Turns d kids d' kids' ∧ d.Valid e ∧ 0 ∉ rest ∧
        components path = walked ++ components rest ∧
        (Sound fs fuel d kids → ∀ i, d.inodeAt next = some i →
          ∃ j, d.inodeAt e = some j ∧ Leads fs fuel i walked j) := by
  induction fuel' generalizing d kids path next with
  | zero => omega
  | succ fuel' ih =>
    rw [getCachedInodeNumLoop]
    obtain ⟨path', hpath, hnul', hlen, hcomponents⟩ : ∃ path',
        (if path.head? = some slash then path.tail else path) = path' ∧ 0 ∉ path' ∧
          path'.length ≤ path.length ∧ components path = components path' := by
      by_cases hslash : path.head? = some slash
      · obtain ⟨rest, rfl⟩ := List.head?_eq_some_iff.mp hslash
        exact ⟨rest, if_pos rfl, fun hin => hnul (List.mem_cons_of_mem _ hin), by simp,
          components_slash rest⟩
      · exact ⟨path, if_neg hslash, hnul, le_rfl, rfl⟩
    dsimp only
    rw [hpath, hcomponents, getPathTokenLen_eq hnul']
    by_cases hlong : 255 < (token path').length
    · rw [if_pos hlong]
      exact ⟨d, kids, path', next, [], .inr ⟨rfl, hlong⟩, h, .refl d kids, hnext, hnul', rfl,
        fun _ i hi => ⟨i, hi, rfl⟩⟩
    rw [if_neg hlong, Outcome.ok_bind, take_token, drop_token]
    by_cases htoken : token path' = []
    · refine ⟨d, kids, path', next, [], .inl (by rw [htoken]; rfl), h, .refl d kids, hnext, hnul',
        rfl, fun _ i hi => ⟨i, hi, rfl⟩⟩
    · have hshorter := length_afterToken htoken
      rw [if_neg (by simpa using htoken), components_token htoken]
      rcases dcacheLookup_tree h hnext (noNul_token hnul') with
        hrun | ⟨d₁, kids₁, p, n, hrun, htree, hturns, hp, hlabel, hname⟩
      · rw [hrun]
        exact ⟨d, kids, path', next, [], .inl rfl, h, .refl d kids, hnext, hnul',
          (components_token htoken).symm, fun _ i hi => ⟨i, hi, rfl⟩⟩
      · obtain ⟨d', kids', rest, e, walked, hloop, htree', hturns', he, hrest, hsplit, hleads⟩ :=
          ih (some p) htree (noNul_afterToken hnul') (hturns.valid (h.valid_of_mem hp)) (by omega)
        refine ⟨d', kids', rest, e, token path' :: walked, by rw [hrun]; exact hloop, htree',
          hturns.trans hturns', fun q hq => by rw [← hturns.keeps.live, he q hq], hrest,
          by rw [hsplit]; rfl, fun hsound i hi => ?_⟩
        obtain ⟨i', hi', hfind⟩ := hsound next p hp n _ hlabel
        obtain rfl : i' = i := Option.some.inj (hi'.symm.trans hi)
        rw [hturns.inodeAt_eq] at hleads
        obtain ⟨j, hj, hleads⟩ := hleads (hturns.sound hsound) n (inodeAt_of_label hlabel)
        exact ⟨j, hj, hname, n, hfind, hleads⟩

lemma label_next (d : Dcache) : d.label d.entries.next = none := by
  rw [Dcache.label, d.entries.fresh _ le_rfl]
  rfl

lemma dcacheInsert_tree (h : Tree d kids) (hparent : d.Valid parent) (hnul : 0 ∉ name)
    (hlen : name.length + 1 ≤ dcacheEntryNameLen) (n : ℕ) : ∃ d' kids' p,
    dcacheInsert d parent name n = .ok (d', some p) ∧ Tree d' kids' ∧ Grows d kids d' kids' ∧
      p ∈ kids' parent ∧ d'.label p = some (n, name) ∧
      ∀ parent', ∀ q ∈ kids' parent', q ∈ kids parent' ∨ q = p ∧ parent' = parent := by
  have hroot : d.rootInode ≠ 0 := by
    rw [h.rootInode]
    decide
  obtain ⟨d', hrun, hrep, hlabel, hroot'⟩ := dcacheInsert_ok h.represents hparent hroot hlen n
  rw [cString_of_notMem hnul] at hlabel
  have hnew : d'.label d.entries.next = some (n, name) := by rw [hlabel, Function.update_self]
  have hlabels : ∀ p l, d.label p = some l → d'.label p = some l := by
    intro p l hl
    rw [hlabel, Function.update_of_ne, hl]
    rintro rfl
    rw [label_next] at hl
    cases hl
  have hkids : ∀ parent', ∀ q ∈ Function.update kids parent
      (d.entries.next :: (kids parent).rotate 1) parent',
      q ∈ kids parent' ∨ q = d.entries.next ∧ parent' = parent := by
    intro parent' q hq
    by_cases heq : parent' = parent
    · rw [heq, Function.update_self, List.mem_cons, List.mem_rotate] at hq
      rw [heq]
      exact hq.symm.imp id fun hq => ⟨hq, rfl⟩
    · rw [Function.update_of_ne heq] at hq
      exact .inl hq
  refine ⟨d', _, d.entries.next, hrun, ⟨hrep, hroot'.trans h.rootInode, fun parent' q hq => ?_⟩,
    ⟨fun parent' q hq => ?_, hlabels, hroot'⟩, ?_, hnew, hkids⟩
  · rcases hkids parent' q hq with hq | ⟨rfl, -⟩
    · obtain ⟨n', name', hl, hrest⟩ := h.named parent' q hq
      exact ⟨n', name', hlabels q _ hl, hrest⟩
    · exact ⟨n, name, hnew, hnul, hlen⟩
  · by_cases heq : parent' = parent
    · rw [heq, Function.update_self]
      rw [heq] at hq
      exact List.mem_cons_of_mem _ (List.mem_rotate.mpr hq)
    · rwa [Function.update_of_ne heq]
  · rw [Function.update_self]
    exact List.mem_cons_self

lemma dcacheInsert_long (hlen : ¬name.length + 1 ≤ dcacheEntryNameLen) (parent : Option ℕ)
    (n : ℕ) : dcacheInsert d parent name n = .ok (d, none) :=
  if_pos (not_le.mp hlen)

lemma Sound.insert (h : Sound fs fuel d kids) (htree : Tree d kids) (hgrows : Grows d kids d' kids')
    (hkids : ∀ parent', ∀ q ∈ kids' parent', q ∈ kids parent' ∨ q = p ∧ parent' = parent)
    (hlabel : d'.label p = some (n, name)) (hi : d.inodeAt parent = some i)
    (hfind : Finds fs fuel i name n) : Sound fs fuel d' kids' := by
  intro parent' q hq n' name' hlabel'
  rcases hkids parent' q hq with hq | ⟨rfl, rfl⟩
  · obtain ⟨n₀, name₀, hlabel₀, -⟩ := htree.named parent' q hq
    obtain ⟨rfl, rfl⟩ :=
      Prod.mk.inj (Option.some.inj (hlabel'.symm.trans (hgrows.label q _ hlabel₀)))
    obtain ⟨i', hi', hfind'⟩ := h parent' q hq _ _ hlabel₀
    exact ⟨i', hgrows.inodeAt hi', hfind'⟩
  · obtain ⟨rfl, rfl⟩ := Prod.mk.inj (Option.some.inj (hlabel'.symm.trans hlabel))
    exact ⟨i, hgrows.inodeAt hi, hfind⟩

/-- The number that names lead to on the disk, with the measuring of each name. -/
def resolveTokens (fs : Mount) (fuel : ℕ) : ℕ → List (List UInt8) → Outcome ℕ
  | idx, [] => .ok idx
  | idx, name :: names =>
    if 255 < name.length then .error .fuel
    else do
      match ← lookupName fs fuel idx name with
      | (_, none) => return 0
      | (_, some n) => resolveTokens fs fuel n names

lemma Leads.resolveTokens_append (h : Leads fs fuel idx walked n) (names : List (List UInt8)) :
    resolveTokens fs fuel idx (walked ++ names) = resolveTokens fs fuel n names := by
  induction walked generalizing idx with
  | nil => rw [List.nil_append, show idx = n from h]
  | cons name walked ih =>
    obtain ⟨hlen, i, hfind, hrest⟩ := h
    obtain ⟨inode, hlookup⟩ := finds_iff.mp hfind
    rw [dcacheEntryNameLen] at hlen
    rw [List.cons_append, resolveTokens, if_neg (by omega), hlookup]
    exact ih hrest

lemma walkNames_number (h : Tree d kids) (hparent : d.Valid parent)
    (hnul : ∀ name ∈ names, 0 ∉ name) (idx : ℕ) :
    Prod.snd <$> walkNames fs fuel d names parent idx = resolveTokens fs fuel idx names := by
  induction names generalizing d kids parent idx with
  | nil => rfl
  | cons name names ih =>
    rw [walkNames, resolveTokens]
    obtain ⟨hname, hnames⟩ := List.forall_mem_cons.mp hnul
    split_ifs with hlong
    · rfl
    rcases lookupName fs fuel idx name with e | ⟨inode, _ | n⟩
    · rfl
    · rfl
    · dsimp only [Outcome.ok_bind]
      split_ifs with hdir
      · by_cases hlen : name.length + 1 ≤ dcacheEntryNameLen
        · obtain ⟨d', kids', p, hrun, htree, -, hp, -⟩ := dcacheInsert_tree h hparent hname hlen n
          rw [hrun]
          exact ih htree (htree.valid_of_mem hp) hnames n
        · rw [dcacheInsert_long hlen]
          exact ih h (by simp [Dcache.Valid]) hnames n
      · exact ih h hparent hnames n

lemma walkNames_run (h : Tree d kids) (hparent : d.Valid parent) (hi : d.inodeAt parent = some i)
    (hnul : ∀ name ∈ names, 0 ∉ name)
    (hrun : walkNames fs fuel d names parent idx = .ok (d', n)) : ∃ kids',
    Tree d' kids' ∧ Grows d kids d' kids' ∧
      (DirectoriesOnly fs fuel idx names → Unshadowed fs fuel i idx names →
        Sound fs fuel d kids → Sound fs fuel d' kids') ∧
      (DirectoriesOnly fs fuel idx names → ¬Unshadowed fs fuel i idx names →
        i = idx ∨ parent = none → Shadowed fs fuel d' kids') := by
  induction names generalizing d kids parent i idx with
  | nil =>
    obtain ⟨rfl, rfl⟩ := Prod.mk.inj (Except.ok.inj hrun)
    exact ⟨kids, h, .refl d kids, fun _ _ => id, fun _ hun => absurd trivial hun⟩
  | cons name names ih =>
    obtain ⟨hname, hnames⟩ := List.forall_mem_cons.mp hnul
    rw [walkNames] at hrun
    by_cases hlong : 255 < name.length
    · rw [if_pos hlong] at hrun
      cases hrun
    rw [if_neg hlong] at hrun
    rw [DirectoriesOnly, Unshadowed]
    rcases hlookup : lookupName fs fuel idx name with e | ⟨inode, _ | n⟩
    · rw [hlookup] at hrun
      cases hrun
    · rw [hlookup] at hrun
      obtain ⟨rfl, rfl⟩ := Prod.mk.inj (Except.ok.inj hrun)
      exact ⟨kids, h, .refl d kids, fun _ _ => id, fun _ hun => absurd trivial hun⟩
    rw [hlookup] at hrun
    dsimp only [Outcome.ok_bind] at hrun ⊢
    by_cases hdir : sIsDir inode.iMode
    · rw [if_pos hdir] at hrun
      by_cases hlen : name.length + 1 ≤ dcacheEntryNameLen
      · rw [if_pos hlen]
        obtain ⟨d₁, kids₁, p, hinsert, htree, hgrows, hp, hlabel, hkids⟩ :=
          dcacheInsert_tree h hparent hname hlen n
        rw [hinsert] at hrun
        obtain ⟨kids', htree', hgrows', hsound, hshadowed⟩ :=
          ih htree (htree.valid_of_mem hp) (inodeAt_of_label hlabel) hnames hrun
        refine ⟨kids', htree', hgrows.trans hgrows', fun hdirs hun hs => ?_,
          fun hdirs hun hor => ?_⟩
        · exact hsound hdirs.2 hun.2 (hs.insert h hgrows hkids hlabel hi hun.1)
        · by_cases hfind : Finds fs fuel i name n
          · exact hshadowed hdirs.2 (fun hrest => hun ⟨hfind, hrest⟩) (.inl rfl)
          · -- the entry above is not the directory scanned, so the new one is below the root
            rcases hor with rfl | rfl
            · exact absurd (finds_iff.mpr ⟨inode, hlookup⟩) hfind
            · obtain rfl : d.rootInode = i := Option.some.inj hi
              rw [h.rootInode] at hfind
              exact hgrows'.shadowed ⟨p, hp, n, name, hlabel, hfind⟩
      · rw [if_neg hlen]
        rw [dcacheInsert_long hlen] at hrun
        have hvalid : d.Valid none := by simp [Dcache.Valid]
        obtain ⟨kids', htree', hgrows', hsound, hshadowed⟩ :=
          ih h hvalid (congrArg some h.rootInode) hnames hrun
        exact ⟨kids', htree', hgrows', fun hdirs => hsound hdirs.2,
          fun hdirs hun _ => hshadowed hdirs.2 hun (.inr rfl)⟩
    · rw [if_neg hdir] at hrun
      obtain ⟨kids', htree', hgrows', -⟩ := ih h hparent hi hnames hrun
      exact ⟨kids', htree', hgrows', fun hdirs => absurd hdirs.1 hdir,
        fun hdirs => absurd hdirs.1 hdir⟩

lemma noNul_of_mem_splitOn (hname : name ∈ path.splitOn slash) : ∀ c ∈ name, c ∈ path := by
  induction path generalizing name with
  | nil =>
    rw [List.splitOn_nil, List.mem_singleton] at hname
    rw [hname]
    simp
  | cons c path ih =>
    rw [List.splitOn_cons_eq_if_modifyHead] at hname
    split_ifs at hname with hc
    · rcases List.mem_cons.mp hname with rfl | hname
      · simp
      · exact fun b hb => List.mem_cons_of_mem _ (ih hname b hb)
    · cases hsplit : path.splitOn slash with
      | nil => exact absurd hsplit (List.splitOn_ne_nil _ _)
      | cons first rest =>
        rw [hsplit] at hname ih
        rcases List.mem_cons.mp hname with rfl | hname
        · rintro b (_ | ⟨_, hb⟩)
          · exact List.mem_cons_self
          · exact List.mem_cons_of_mem _ (ih List.mem_cons_self b hb)
        · exact fun b hb => List.mem_cons_of_mem _ (ih (List.mem_cons_of_mem _ hname) b hb)

lemma noNul_of_mem_components (hnul : 0 ∉ path) : ∀ name ∈ components path, 0 ∉ name :=
  fun _ hname hin => hnul (noNul_of_mem_splitOn (List.mem_of_mem_filter hname) 0 hin)

lemma inodeGetIdxByPath_eq (fs : Mount) (fuel : ℕ) (h : Tree d kids)
    (hslash : path.head? = some slash) (hnul : 0 ∉ path) : ∃ d₁ kids₁ e j walked names,
    inodeGetIdxByPath fs fuel d path = walkNames fs fuel d₁ names e j ∧ Tree d₁ kids₁ ∧
      Turns d kids d₁ kids₁ ∧ d₁.Valid e ∧ d₁.inodeAt e = some j ∧
      (∀ name ∈ names, 0 ∉ name) ∧ components path = walked ++ names ∧
      (Sound fs fuel d kids → Leads fs fuel rootInodeN walked j) := by
  obtain ⟨d₁, kids₁, rest, e, walked, hrun, htree, hturns, he, hrest, hsplit, hleads⟩ :=
    getCachedInodeNumLoop_ok fs fuel none h hnul
      (by simp [Dcache.Valid]) (Nat.lt_add_one path.length)
  obtain ⟨j, hj⟩ := exists_inodeAt he
  have hj₁ : d₁.inodeAt e = some j := by rw [hturns.inodeAt_eq, hj]
  refine ⟨d₁, kids₁, e, j, walked, components rest, ?_, htree, hturns, hturns.valid he, hj₁,
    noNul_of_mem_components hrest, hsplit, fun hsound => ?_⟩
  · rw [inodeGetIdxByPath, Outcome.assertThat_true hslash, Outcome.ok_bind, getCachedInodeNum]
    rcases hrun with hrun | ⟨hrun, hlong⟩
    · rw [hrun]
      change (dcacheGetInode d₁ e >>= _) = _
      rw [dcacheGetInode_eq hj₁, Outcome.ok_bind]
      exact inodeGetIdxByPathLoop_eq fs fuel hrest (Nat.lt_add_one _) d₁ e j
    · have htoken : token rest ≠ [] := by
        intro heq
        simp [heq] at hlong
      rw [hrun, components_token htoken, walkNames, if_pos hlong]
      rfl
  · obtain ⟨j', hj', hleads⟩ := hleads hsound rootInodeN (congrArg some h.rootInode)
    obtain rfl : j' = j := Option.some.inj (hj'.symm.trans hj)
    exact hleads

lemma inodeGetIdxByPath_number (fs : Mount) (fuel : ℕ) (h : Tree d kids)
    (hsound : Sound fs fuel d kids) (hslash : path.head? = some slash) (hnul : 0 ∉ path) :
    Prod.snd <$> inodeGetIdxByPath fs fuel d path =
      resolveTokens fs fuel rootInodeN (components path) := by
  obtain ⟨d₁, kids₁, e, j, walked, names, heq, htree, -, he, -, hnames, hsplit, hleads⟩ :=
    inodeGetIdxByPath_eq fs fuel h hslash hnul
  rw [heq, walkNames_number htree he hnames, hsplit, (hleads hsound).resolveTokens_append]

lemma inodeGetIdxByPath_grows (h : Tree d kids) (hslash : path.head? = some slash)
    (hnul : 0 ∉ path) (hrun : inodeGetIdxByPath fs fuel d path = .ok (d', n)) :
    ∃ kids', Tree d' kids' ∧ Grows d kids d' kids' := by
  obtain ⟨d₁, kids₁, e, j, walked, names, heq, htree, hturns, he, hj, hnames, -⟩ :=
    inodeGetIdxByPath_eq fs fuel h hslash hnul
  obtain ⟨kids', htree', hgrows, -⟩ := walkNames_run htree he hj hnames (heq ▸ hrun)
  exact ⟨kids', htree', hturns.grows.trans hgrows⟩

/-- A call keeps a sound cache sound, or enters a name in the wrong directory. -/
lemma inodeGetIdxByPath_sound (h : Tree d kids) (hsound : Sound fs fuel d kids)
    (hpath : Admissible fs fuel path)
    (hrun : inodeGetIdxByPath fs fuel d path = .ok (d', n)) : ∃ kids', Tree d' kids' ∧
      (Unshadowed fs fuel rootInodeN rootInodeN (components path) → Sound fs fuel d' kids') ∧
      (¬Unshadowed fs fuel rootInodeN rootInodeN (components path) →
        Shadowed fs fuel d' kids') := by
  obtain ⟨d₁, kids₁, e, j, walked, names, heq, htree, hturns, he, hj, hnul, hsplit, hleads⟩ :=
    inodeGetIdxByPath_eq fs fuel h hpath.absolute hpath.fits.noNul
  obtain ⟨kids', htree', -, hkeep, hlose⟩ := walkNames_run htree he hj hnul (heq ▸ hrun)
  have hleads := hleads hsound
  have hdirs := hpath.directories
  rw [hsplit] at hdirs ⊢
  rw [hleads.unshadowed_iff]
  exact ⟨kids', htree', fun hun => hkeep (hleads.directoriesOnly hdirs) hun (hturns.sound hsound),
    fun hun => hlose (hleads.directoriesOnly hdirs) hun (.inl rfl)⟩

lemma Sound.resolve_of_reaches (h : Sound fs fuel d kids) (htree : Tree d kids) {e : Option ℕ}
    (hreaches : d.Reaches parent names e) (hj : d.inodeAt parent = some j)
    (hi : d.inodeAt e = some i) : resolve fs fuel j names = .ok (some i) := by
  induction names generalizing parent j with
  | nil =>
    obtain rfl : parent = e := hreaches
    rw [resolve, hj.symm.trans hi]
  | cons name names ih =>
    obtain ⟨p, n, hchild, hlabel, hrest⟩ := hreaches
    obtain ⟨j', hj', hfind⟩ := h parent p (htree.child_iff.mp hchild) n name hlabel
    obtain rfl : j' = j := Option.some.inj (hj'.symm.trans hj)
    obtain ⟨inode, hlookup⟩ := finds_iff.mp hfind
    rw [resolve, hlookup]
    exact ih hrest (inodeAt_of_label hlabel)

lemma Sound.faithful (h : Sound fs fuel d kids) (htree : Tree d kids) : Faithful fs fuel d :=
  fun _ _ _ hreaches hi => h.resolve_of_reaches htree hreaches (congrArg some htree.rootInode) hi

lemma Shadowed.not_faithful (h : Shadowed fs fuel d kids) (htree : Tree d kids) :
    ¬Faithful fs fuel d := by
  obtain ⟨p, hp, n, name, hlabel, hfind⟩ := h
  intro hfaithful
  have hresolve := hfaithful [name] (some p) n
    ⟨p, n, htree.child_iff.mpr hp, hlabel, rfl⟩ (inodeAt_of_label hlabel)
  rw [resolve] at hresolve
  rcases hlookup : lookupName fs fuel rootInodeN name with e | ⟨inode, _ | n'⟩
  · rw [hlookup] at hresolve
    cases hresolve
  · rw [hlookup] at hresolve
    cases hresolve
  · rw [hlookup] at hresolve
    obtain rfl : n' = n := Option.some.inj (Except.ok.inj hresolve)
    exact hfind (finds_iff.mpr ⟨inode, hlookup⟩)

lemma lookups_shadowed {calls : List (List UInt8)} (h : Tree d kids)
    (hshadowed : Shadowed fs fuel d kids) (hcalls : ∀ path ∈ calls, Admissible fs fuel path)
    (hrun : lookups fs fuel d calls = .ok d') :
    ∃ kids', Tree d' kids' ∧ Shadowed fs fuel d' kids' := by
  induction calls generalizing d kids with
  | nil =>
    obtain rfl := Except.ok.inj hrun
    exact ⟨kids, h, hshadowed⟩
  | cons path calls ih =>
    obtain ⟨hpath, hcalls⟩ := List.forall_mem_cons.mp hcalls
    obtain ⟨⟨d₁, n⟩, hcall, hrun⟩ := Outcome.bind_eq_ok.mp hrun
    obtain ⟨kids₁, htree, hgrows⟩ := inodeGetIdxByPath_grows h hpath.absolute hpath.fits.noNul hcall
    exact ih htree (hgrows.shadowed hshadowed) hcalls hrun

lemma lookups_run {calls : List (List UInt8)} (h : Tree d kids) (hsound : Sound fs fuel d kids)
    (hcalls : ∀ path ∈ calls, Admissible fs fuel path)
    (hrun : lookups fs fuel d calls = .ok d') : ∃ kids', Tree d' kids' ∧
      ((∀ path ∈ calls, Unshadowed fs fuel rootInodeN rootInodeN (components path)) →
        Sound fs fuel d' kids') ∧
      ((¬∀ path ∈ calls, Unshadowed fs fuel rootInodeN rootInodeN (components path)) →
        Shadowed fs fuel d' kids') := by
  induction calls generalizing d kids with
  | nil =>
    obtain rfl := Except.ok.inj hrun
    exact ⟨kids, h, fun _ => hsound, fun hun => absurd (by simp) hun⟩
  | cons path calls ih =>
    obtain ⟨hpath, hcalls⟩ := List.forall_mem_cons.mp hcalls
    obtain ⟨⟨d₁, n⟩, hcall, hrun⟩ := Outcome.bind_eq_ok.mp hrun
    obtain ⟨kids₁, htree, hkeep, hlose⟩ := inodeGetIdxByPath_sound h hsound hpath hcall
    rw [List.forall_mem_cons]
    by_cases hun : Unshadowed fs fuel rootInodeN rootInodeN (components path)
    · rw [and_iff_right hun]
      exact ih htree (hkeep hun) hcalls hrun
    · rw [and_iff_left_of_imp fun hall => absurd hall hun]
      obtain ⟨kids', htree', hshadowed⟩ := lookups_shadowed htree (hlose hun) hcalls hrun
      exact ⟨kids', htree', fun hall => absurd hall hun, fun _ => hshadowed⟩

/-- After any run the entries hold the inodes of their paths exactly when no call had a name that
was entered below the root in place of its directory, and then every further lookup returns what
it returns with a fresh cache. -/
theorem lookups_faithful {calls : List (List UInt8)}
    (hcalls : ∀ path ∈ calls, Admissible fs fuel path)
    (hrun : lookups fs fuel freshDcache calls = .ok d) :
    (Faithful fs fuel d ↔
      ∀ path ∈ calls, Unshadowed fs fuel rootInodeN rootInodeN (components path)) ∧
    ((∀ path ∈ calls, Unshadowed fs fuel rootInodeN rootInodeN (components path)) →
      ∀ path, Admissible fs fuel path →
        Prod.snd <$> inodeGetIdxByPath fs fuel d path =
          Prod.snd <$> inodeGetIdxByPath fs fuel freshDcache path) := by
  obtain ⟨kids, htree, hkeep, hlose⟩ :=
    lookups_run tree_freshDcache (sound_nil freshDcache) hcalls hrun
  refine ⟨⟨fun hfaithful => ?_, fun hun => (hkeep hun).faithful htree⟩, fun hun path hpath => ?_⟩
  · by_contra hun
    exact (hlose hun).not_faithful htree hfaithful
  · rw [inodeGetIdxByPath_number fs fuel htree (hkeep hun) hpath.absolute hpath.fits.noNul,
      inodeGetIdxByPath_number fs fuel tree_freshDcache (sound_nil freshDcache) hpath.absolute
        hpath.fits.noNul]

/-- A 64 KiB image of 1 KiB blocks: the inode table in block 4, the root directory in block 9 and
the directory of inode 11, whose name has 40 bytes, in block 10. Both have a file `b`. -/
def longNamePieces : List (ℕ × List UInt8) := [
  (1024, [16]), (1028, [64]), (1044, [1]), (1057, [32]), (1064, [16]), (1112, [128]), (2056, [4]),
  (4224, [0xED, 0x41, 0, 0, 0, 4]), (4264, [9]),
  (5376, [0xED, 0x41, 0, 0, 0, 4]), (5416, [10]),
  (5504, [0xA4, 0x81]), (5632, [0xA4, 0x81]),
  (9216, [2, 0, 0, 0, 12, 0, 1, 2, 46, 0, 0, 0, 2, 0, 0, 0, 12, 0, 2, 2, 46, 46, 0, 0]),
  (9240, [11, 0, 0, 0, 48, 0, 40, 2] ++ List.replicate 40 97),
  (9288, [12, 0, 0, 0, 0xB8, 3, 1, 1, 98]),
  (10240, [11, 0, 0, 0, 12, 0, 1, 2, 46, 0, 0, 0, 2, 0, 0, 0, 12, 0, 2, 2, 46, 46, 0, 0]),
  (10264, [13, 0, 0, 0, 0xE8, 3, 1, 1, 98])]

def longNameDisk : Disk := fun i =>
  match longNamePieces.find? fun piece => piece.1 ≤ i ∧ i < piece.1 + piece.2.length with
  | some piece => piece.2.getD (i - piece.1) 0
  | none => 0

def longNameMount : Mount where
  disk := longNameDisk
  super := ⟨16, 64, 1, 0, 8192, 16, 128, 0⟩
  gdescTable := [⟨4⟩]

/-- The directory with the long name, the file in it, and the file in the root. -/
def longPath : List UInt8 := slash :: List.replicate 40 97
def longFilePath : List UInt8 := longPath ++ [slash, 98]
def rootFilePath : List UInt8 := [slash, 98]

def longNameDir (block : UInt8) : Ext4Inode where
  iMode := 0x41ED
  iSizeLo := 1024
  iFlags := 0
  iBlock := block :: List.replicate 59 0
  iSizeHigh := 0

set_option maxRecDepth 100000 in
lemma lookupName_long : lookupName longNameMount 8 rootInodeN (List.replicate 40 97) =
    .ok (longNameDir 9, some 11) := by
  decide

set_option maxRecDepth 100000 in
lemma lookupName_longFile :
    lookupName longNameMount 8 11 [98] = .ok (longNameDir 10, some 13) := by
  decide

set_option maxRecDepth 100000 in
lemma lookupName_rootFile :
    lookupName longNameMount 8 rootInodeN [98] = .ok (longNameDir 9, some 12) := by
  decide

lemma admissible_long : Admissible longNameMount 8 longPath := by
  refine ⟨rfl, ⟨by decide, by decide⟩, ?_⟩
  rw [show components longPath = [List.replicate 40 97] by decide, DirectoriesOnly,
    lookupName_long]
  exact ⟨by decide, trivial⟩

lemma admissible_longFile : Admissible longNameMount 8 longFilePath := by
  refine ⟨rfl, ⟨by decide, by decide⟩, ?_⟩
  rw [show components longFilePath = [List.replicate 40 97, [98]] by decide, DirectoriesOnly,
    lookupName_long]
  refine ⟨by decide, ?_⟩
  rw [DirectoriesOnly, lookupName_longFile]
  exact ⟨by decide, trivial⟩

lemma admissible_rootFile : Admissible longNameMount 8 rootFilePath := by
  refine ⟨rfl, ⟨by decide, by decide⟩, ?_⟩
  rw [show components rootFilePath = [[98]] by decide, DirectoriesOnly, lookupName_rootFile]
  exact ⟨by decide, trivial⟩

lemma exists_lookups (fs : Mount) (fuel : ℕ) (calls : List (List UInt8))
    (h : (lookups fs fuel freshDcache calls).toBool = true) :
    ∃ d, lookups fs fuel freshDcache calls = .ok d := by
  cases hrun : lookups fs fuel freshDcache calls with
  | error e =>
    rw [hrun] at h
    cases h
  | ok d => exact ⟨d, rfl⟩

set_option maxRecDepth 100000 in
/-- Two calls for a directory with a long name and for a file in the root. -/
theorem lookups_faithful_long : ∃ d,
    lookups longNameMount 8 freshDcache [longPath, rootFilePath] = .ok d ∧
      Faithful longNameMount 8 d ∧
      Prod.snd <$> inodeGetIdxByPath longNameMount 8 d longFilePath =
        Prod.snd <$> inodeGetIdxByPath longNameMount 8 freshDcache longFilePath := by
  obtain ⟨d, hrun⟩ := exists_lookups longNameMount 8 [longPath, rootFilePath]
    (by decide)
  have hcalls : ∀ path ∈ [longPath, rootFilePath], Admissible longNameMount 8 path := by
    simp [admissible_long, admissible_rootFile]
  have hun : ∀ path ∈ [longPath, rootFilePath],
      Unshadowed longNameMount 8 rootInodeN rootInodeN (components path) := by
    rw [List.forall_mem_cons, List.forall_mem_singleton,
      show components longPath = [List.replicate 40 97] by decide,
      show components rootFilePath = [[98]] by decide, Unshadowed, lookupName_long, Unshadowed,
      lookupName_rootFile]
    exact ⟨trivial, finds_iff.mpr ⟨_, lookupName_rootFile⟩, trivial⟩
  obtain ⟨hiff, hfresh⟩ := lookups_faithful hcalls hrun
  exact ⟨d, hrun, hiff.mpr hun, hfresh hun longFilePath admissible_longFile⟩

set_option maxRecDepth 100000 in
/-- The file in the directory with the long name is entered below the root, and is returned for
the file in the root from then on. -/
theorem lookups_counterexample :
    superFill longNameDisk = .ok longNameMount.super ∧
    superGroupFill longNameDisk longNameMount.super = .ok longNameMount.gdescTable ∧
    Admissible longNameMount 8 longFilePath ∧ Admissible longNameMount 8 rootFilePath ∧
    ∃ d, lookups longNameMount 8 freshDcache [longFilePath] = .ok d ∧
      Prod.snd <$> inodeGetIdxByPath longNameMount 8 d rootFilePath = .ok 13 ∧
      Prod.snd <$> inodeGetIdxByPath longNameMount 8 freshDcache rootFilePath = .ok 12 ∧
      ¬Faithful longNameMount 8 d := by
  obtain ⟨d, hrun⟩ := exists_lookups longNameMount 8 [longFilePath] (by decide)
  have hwrong : (do
      let d ← lookups longNameMount 8 freshDcache [longFilePath]
      Prod.snd <$> inodeGetIdxByPath longNameMount 8 d rootFilePath) = .ok 13 := by
    decide
  rw [hrun, Outcome.ok_bind] at hwrong
  refine ⟨by decide, by decide, admissible_longFile, admissible_rootFile, d, hrun,
    hwrong, by decide, ?_⟩
  have hcalls : ∀ path ∈ [longFilePath], Admissible longNameMount 8 path := by
    simp [admissible_longFile]
  obtain ⟨kids, htree, -, hlose⟩ :=
    lookups_run tree_freshDcache (sound_nil freshDcache) hcalls hrun
  refine (hlose fun hun => ?_).not_faithful htree
  rw [List.forall_mem_singleton,
    show components longFilePath = [List.replicate 40 97, [98]] by decide, Unshadowed,
    lookupName_long] at hun
  dsimp only at hun
  rw [if_neg (by simp [dcacheEntryNameLen]), Unshadowed, lookupName_longFile] at hun
  dsimp only at hun
  rw [if_pos (by simp [dcacheEntryNameLen])] at hun
  obtain ⟨inode, hlookup⟩ := finds_iff.mp hun.1
  rw [lookupName_rootFile] at hlookup
  simp at hlookup

end Spotlight.Ext4
