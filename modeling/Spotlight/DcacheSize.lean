import Spotlight.PathCache

/-! How large the directory cache gets (`dcache.c`, `inode.c`): no entry is ever freed. Names that
fit an entry are entered once in each directory; a name that does not fit makes every lookup of a
path through it enter the names behind it again. -/
namespace Spotlight.Ext4
open Rings

variable {fs : Mount} {fuel : ℕ} {d d' : Dcache} {kids kids' : Option ℕ → List ℕ}
  {parent e e' : Option ℕ} {p idx n : ℕ} {name path : List UInt8} {names walked : List (List UInt8)}

def FitEntries (names : List (List UInt8)) : Prop :=
  ∀ name ∈ names, name.length + 1 ≤ dcacheEntryNameLen

instance (names : List (List UInt8)) : Decidable (FitEntries names) :=
  inferInstanceAs (Decidable (∀ _ ∈ _, _))

/-! Only `dcache_insert` allocates. -/

lemma writeChilds_next {childs : Option ℕ} (h : d.writeChilds childs parent = .ok d') :
    d'.entries.next = d.entries.next := by
  cases parent with
  | none =>
    cases h
    rfl
  | some p =>
    obtain ⟨m, hmodify, h⟩ := Outcome.bind_eq_ok.mp h
    cases h
    exact (congrArg Heap.next (Heap.modify_eq_ok hmodify) :)

lemma writeSiblings_next {siblings : Option ℕ} (h : d.writeSiblings p siblings = .ok d') :
    d'.entries.next = d.entries.next := by
  obtain ⟨m, hmodify, h⟩ := Outcome.bind_eq_ok.mp h
  cases h
  exact (congrArg Heap.next (Heap.modify_eq_ok hmodify) :)

lemma dcacheInsert_next (h : dcacheInsert d parent name n = .ok (d', some p)) :
    d'.entries.next = d.entries.next + 1 := by
  rw [dcacheInsert] at h
  split_ifs at h with hlong
  · cases h
  · obtain ⟨-, -, h⟩ := Outcome.bind_eq_ok.mp h
    obtain ⟨childs, -, h⟩ := Outcome.bind_eq_ok.mp h
    cases childs with
    | none =>
      obtain ⟨d₁, h₁, h⟩ := Outcome.bind_eq_ok.mp h
      obtain ⟨d₂, h₂, h⟩ := Outcome.bind_eq_ok.mp h
      cases h
      rw [writeChilds_next h₂, writeSiblings_next h₁]
    | some head =>
      obtain ⟨entry, -, h⟩ := Outcome.bind_eq_ok.mp h
      obtain ⟨d₁, h₁, h⟩ := Outcome.bind_eq_ok.mp h
      obtain ⟨d₂, h₂, h⟩ := Outcome.bind_eq_ok.mp h
      obtain ⟨d₃, h₃, h⟩ := Outcome.bind_eq_ok.mp h
      cases h
      rw [writeChilds_next h₃, writeSiblings_next h₂, writeSiblings_next h₁]

/-! An entry is reached from the root by one list of names. -/

def Dcache.nameOf (d : Dcache) (p : ℕ) : Option (List UInt8) := (d.label p).map Prod.snd

lemma nameOf_of_label (h : d.label p = some (n, name)) : d.nameOf p = some name := by
  rw [Dcache.nameOf, h]
  rfl

lemma Grows.reaches (h : Grows d kids d' kids') (htree : Tree d kids) (htree' : Tree d' kids')
    (hreaches : d.Reaches parent names e) : d'.Reaches parent names e := by
  induction names generalizing parent with
  | nil => exact hreaches
  | cons name names ih =>
    obtain ⟨p, n, hchild, hlabel, hrest⟩ := hreaches
    exact ⟨p, n, htree'.child_iff.mpr (h.kids parent (htree.child_iff.mp hchild)),
      h.label p _ hlabel, ih hrest⟩

lemma reaches_append (hwalked : d.Reaches parent walked e) (hnames : d.Reaches e names e') :
    d.Reaches parent (walked ++ names) e' := by
  induction walked generalizing parent with
  | nil =>
    obtain rfl : parent = e := hwalked
    exact hnames
  | cons name walked ih =>
    obtain ⟨p, n, hchild, hlabel, hrest⟩ := hwalked
    exact ⟨p, n, hchild, hlabel, ih hrest⟩

lemma reaches_child (htree : Tree d kids) (hwalked : d.Reaches parent walked e) (hp : p ∈ kids e)
    (hlabel : d.label p = some (n, name)) : d.Reaches parent (walked ++ [name]) (some p) :=
  reaches_append hwalked ⟨p, n, htree.child_iff.mpr hp, hlabel, rfl⟩

/-- The siblings have different names, and every entry is reached by a listed path. -/
structure Compact (d : Dcache) (kids : Option ℕ → List ℕ) (listed : List (List UInt8) → Prop) :
    Prop where
  tree : Tree d kids
  distinct : ∀ parent, ∀ p ∈ kids parent, ∀ q ∈ kids parent, d.nameOf p = d.nameOf q → p = q
  reached : ∀ p < d.entries.next, ∃ names, listed names ∧ d.Reaches none names (some p)

variable {listed : List (List UInt8) → Prop}

lemma Compact.reaches_inj (h : Compact d kids listed) (hn : d.Reaches parent names e)
    (hn' : d.Reaches parent names e') : e = e' := by
  induction names generalizing parent with
  | nil => exact (show parent = e from hn).symm.trans hn'
  | cons name names ih =>
    obtain ⟨p, n, hchild, hlabel, hrest⟩ := hn
    obtain ⟨p', n', hchild', hlabel', hrest'⟩ := hn'
    obtain rfl : p = p' := h.distinct parent p (h.tree.child_iff.mp hchild) p'
      (h.tree.child_iff.mp hchild') (by rw [nameOf_of_label hlabel, nameOf_of_label hlabel'])
    exact ih hrest hrest'

lemma Turns.compact (h : Turns d kids d' kids') (htree' : Tree d' kids')
    (hc : Compact d kids listed) : Compact d' kids' listed := by
  refine ⟨htree', fun parent p hp q hq hname => ?_, fun p hp => ?_⟩
  · refine hc.distinct parent p ((h.kids parent).subset hp) q ((h.kids parent).subset hq) ?_
    rwa [Dcache.nameOf, Dcache.nameOf, h.keeps.label] at hname
  · rw [h.keeps.next] at hp
    obtain ⟨names, hlisted, hreaches⟩ := hc.reached p hp
    exact ⟨names, hlisted, h.grows.reaches hc.tree htree' hreaches⟩

/-- No child of the parent has the name that comes first. -/
def NoneNamed (d : Dcache) (kids : Option ℕ → List ℕ) (parent : Option ℕ)
    (names : List (List UInt8)) : Prop :=
  ∀ name ∈ names.head?, ∀ q ∈ kids parent, d.nameOf q ≠ some name

lemma Tree.kids_next (h : Tree d kids) : kids (some d.entries.next) = [] := by
  have hhead := h.represents.head (some d.entries.next)
  rw [Dcache.childs, d.entries.fresh _ le_rfl, Option.bind_none] at hhead
  exact List.head?_eq_none_iff.mp hhead.symm

lemma Compact.insert (h : Compact d kids listed) (hparent : d.Valid parent) (hnul : 0 ∉ name)
    (hlen : name.length + 1 ≤ dcacheEntryNameLen) (hnew : NoneNamed d kids parent [name])
    (hwalked : d.Reaches none walked parent) (hlisted : listed (walked ++ [name])) (n : ℕ) :
    ∃ d' kids' p, dcacheInsert d parent name n = .ok (d', some p) ∧ Compact d' kids' listed ∧
      d'.Valid (some p) ∧ kids' (some p) = [] ∧ d'.Reaches none (walked ++ [name]) (some p) := by
  obtain ⟨d', kids', p, hrun, htree, hgrows, hp, hlabel, hkids⟩ :=
    dcacheInsert_tree h.tree hparent hnul hlen n
  obtain rfl : d.entries.next = p := by
    have hroot : d.rootInode ≠ 0 := by
      rw [h.tree.rootInode]
      decide
    obtain ⟨d'', hrun', -⟩ := dcacheInsert_ok h.tree.represents hparent hroot hlen n
    rw [hrun] at hrun'
    exact (Option.some.inj (Prod.mk.inj (Except.ok.inj hrun')).2).symm
  have hnext := dcacheInsert_next hrun
  have hreaches := reaches_child htree (hgrows.reaches h.tree htree hwalked) hp hlabel
  have hold : ∀ parent', ∀ q ∈ kids parent', d'.nameOf q = d.nameOf q := by
    intro parent' q hq
    obtain ⟨n', name', hl, -⟩ := h.tree.named parent' q hq
    rw [nameOf_of_label hl, nameOf_of_label (hgrows.label q _ hl)]
  have hname := nameOf_of_label hlabel
  refine ⟨d', kids', _, hrun, ⟨htree, fun parent' a ha b hb heq => ?_, fun q hq => ?_⟩,
    htree.valid_of_mem hp, ?_, hreaches⟩
  · rcases hkids parent' a ha with ha | ⟨rfl, rfl⟩ <;>
      rcases hkids parent' b hb with hb | ⟨rfl, hpar⟩
    · rw [hold _ a ha, hold _ b hb] at heq
      exact h.distinct parent' a ha b hb heq
    · rw [hname, hold _ a ha] at heq
      exact absurd heq (hnew name rfl a (hpar ▸ ha))
    · rw [hname, hold _ b hb] at heq
      exact absurd heq.symm (hnew name rfl b hb)
    · rfl
  · rw [hnext] at hq
    rcases Nat.lt_succ_iff_lt_or_eq.mp hq with hq | rfl
    · obtain ⟨names, hl, hr⟩ := h.reached q hq
      exact ⟨names, hl, hgrows.reaches h.tree htree hr⟩
    · exact ⟨_, hlisted, hreaches⟩
  · rw [List.eq_nil_iff_forall_not_mem]
    intro q hq
    rcases hkids _ q hq with hq | ⟨-, hpar⟩
    · rw [h.tree.kids_next] at hq
      cases hq
    · have hlive := hparent _ hpar.symm
      rw [d.entries.fresh _ le_rfl] at hlive
      cases hlive

lemma dcacheLookup_none (h : Tree d kids) (hparent : d.Valid parent) (hnul : 0 ∉ name)
    (hrun : dcacheLookup d parent name = .ok (d', none)) :
    d' = d ∧ ∀ q ∈ kids parent, d.nameOf q ≠ some name := by
  rcases dcacheLookup_ok h.represents hparent name with
    ⟨hrun', hnone⟩ | ⟨d₁, xs, p, ys, hrun', -⟩
  · rw [hrun] at hrun'
    cases hrun'
    refine ⟨rfl, fun q hq hname => ?_⟩
    obtain ⟨n, stored, hlabel, hstored, -⟩ := h.named parent q hq
    rw [nameOf_of_label hlabel] at hname
    cases hname
    exact hnone q hq ⟨n, _, hlabel, (nameMatches_iff hstored hnul).mpr rfl⟩
  · rw [hrun] at hrun'
    cases hrun'

def SingleSlashes (path : List UInt8) : Prop := ¬[slash, slash] <:+: path

instance (path : List UInt8) : Decidable (SingleSlashes path) :=
  inferInstanceAs (Decidable (¬_))

lemma getCachedInodeNumLoop_walk (h : Tree d kids) (hnul : 0 ∉ path) (hparent : d.Valid parent)
    (hsingle : SingleSlashes path) (hlen : ∀ name ∈ components path, name.length ≤ 255) {turns : ℕ}
    (hturns : path.length < turns) : ∃ d' kids' rest e walked,
      getCachedInodeNumLoop turns d path parent = .ok (d', rest, e) ∧ Tree d' kids' ∧
        Turns d kids d' kids' ∧ d'.Valid e ∧ 0 ∉ rest ∧
        components path = walked ++ components rest ∧ d'.Reaches parent walked e ∧
        NoneNamed d' kids' e (components rest) := by
  induction turns generalizing d kids path parent with
  | zero => omega
  | succ turns ih =>
    rw [getCachedInodeNumLoop]
    obtain ⟨path', hpath, hnul', hshort, hcomponents, hsuffix, hend⟩ : ∃ path',
        (if path.head? = some slash then path.tail else path) = path' ∧ 0 ∉ path' ∧
          path'.length ≤ path.length ∧ components path = components path' ∧ path' <:+ path ∧
          path'.head? ≠ some slash := by
      by_cases hslash : path.head? = some slash
      · obtain ⟨rest, rfl⟩ := List.head?_eq_some_iff.mp hslash
        refine ⟨rest, if_pos rfl, fun hin => hnul (List.mem_cons_of_mem _ hin), by simp,
          components_slash rest, List.suffix_cons _ _, fun hnext => ?_⟩
        obtain ⟨rest', rfl⟩ := List.head?_eq_some_iff.mp hnext
        exact hsingle (List.prefix_append [slash, slash] rest').isInfix
      · exact ⟨path, if_neg hslash, hnul, le_rfl, rfl, List.suffix_rfl, hslash⟩
    dsimp only
    rw [hcomponents] at hlen ⊢
    rw [hpath, getPathTokenLen_eq hnul']
    by_cases htoken : token path' = []
    · obtain rfl := eq_nil_of_token_nil htoken hend
      exact ⟨d, kids, [], parent, [], rfl, h, .refl d kids, hparent, hnul', rfl, rfl,
        fun name hname => by cases hname⟩
    · have hcons := components_token htoken
      rw [hcons] at hlen
      obtain ⟨hfirst, hrest⟩ := List.forall_mem_cons.mp hlen
      have hshorter := length_afterToken htoken
      rw [if_neg (not_lt.mpr hfirst), Outcome.ok_bind, take_token, drop_token,
        if_neg (by simpa using htoken)]
      rcases dcacheLookup_tree h hparent (noNul_token hnul') with
        hrun | ⟨d₁, kids₁, p, n, hrun, htree, hturn, hp, hlabel, -⟩
      · rw [hrun]
        refine ⟨d, kids, path', parent, [], rfl, h, .refl d kids, hparent, hnul', rfl, rfl, ?_⟩
        rw [hcons]
        rintro name ⟨⟩
        exact (dcacheLookup_none h hparent (noNul_token hnul') hrun).2
      · have hsingle' : SingleSlashes (afterToken path') := fun hin =>
          hsingle (hin.trans ((List.dropWhile_suffix _).trans hsuffix).isInfix)
        obtain ⟨d', kids', rest, e, walked, hloop, htree', hturn', he, hrest', hsplit, hreaches,
          hnew⟩ := ih htree (noNul_afterToken hnul') (hturn.valid (h.valid_of_mem hp)) hsingle'
            hrest (by omega)
        refine ⟨d', kids', rest, e, token path' :: walked, by rw [hrun]; exact hloop, htree',
          hturn.trans hturn', he, hrest', by rw [hcons, hsplit]; rfl, ?_, hnew⟩
        exact ⟨p, n, htree'.child_iff.mpr ((hturn.trans hturn').grows.kids parent hp),
          (hturn.trans hturn').grows.label p _ hlabel, hreaches⟩

lemma walkNames_cons (hdirs : DirectoriesOnly fs fuel idx (name :: names))
    (hrun : walkNames fs fuel d (name :: names) parent idx = .ok (d', n)) :
    (∃ inode, lookupName fs fuel idx name = .ok (inode, none)) ∧ d' = d ∨
    ∃ inode n₁ d₁ p, lookupName fs fuel idx name = .ok (inode, some n₁) ∧
      dcacheInsert d parent name n₁ = .ok (d₁, p) ∧ DirectoriesOnly fs fuel n₁ names ∧
      walkNames fs fuel d₁ names p n₁ = .ok (d', n) := by
  rw [walkNames] at hrun
  rw [DirectoriesOnly] at hdirs
  by_cases hlong : 255 < name.length
  · rw [if_pos hlong] at hrun
    cases hrun
  rw [if_neg hlong] at hrun
  rcases hlookup : lookupName fs fuel idx name with e | ⟨inode, _ | n₁⟩
  · rw [hlookup] at hrun
    cases hrun
  · rw [hlookup] at hrun
    cases hrun
    exact .inl ⟨⟨inode, rfl⟩, rfl⟩
  · rw [hlookup] at hrun hdirs
    dsimp only [Outcome.ok_bind] at hrun
    rw [if_pos hdirs.1] at hrun
    obtain ⟨⟨d₁, p⟩, hinsert, hrest⟩ := Outcome.bind_eq_ok.mp hrun
    exact .inr ⟨inode, n₁, d₁, p, rfl, hinsert, hdirs.2, hrest⟩

lemma walkNames_compact (h : Compact d kids listed) (hparent : d.Valid parent)
    (hnul : ∀ name ∈ names, 0 ∉ name) (hfit : FitEntries names)
    (hdirs : DirectoriesOnly fs fuel idx names) (hwalked : d.Reaches none walked parent)
    (hnew : NoneNamed d kids parent names)
    (hlisted : ∀ pre, pre ≠ [] → pre <+: names → listed (walked ++ pre))
    (hrun : walkNames fs fuel d names parent idx = .ok (d', n)) :
    ∃ kids', Compact d' kids' listed := by
  induction names generalizing d kids parent idx walked with
  | nil =>
    cases hrun
    exact ⟨kids, h⟩
  | cons name names ih =>
    obtain ⟨hname, hnames⟩ := List.forall_mem_cons.mp hnul
    obtain ⟨hlen, hfit⟩ := List.forall_mem_cons.mp hfit
    rcases walkNames_cons hdirs hrun with ⟨-, rfl⟩ | ⟨inode, n₁, d₂, p₂, -, hinsert₂, hdirs, hrun⟩
    · exact ⟨kids, h⟩
    obtain ⟨d₁, kids₁, p, hinsert, hc₁, hvalid, hempty, hreaches⟩ :=
      h.insert hparent hname hlen (fun _ hm => hnew _ hm) hwalked
        (hlisted [name] (by simp) (by simp)) n₁
    obtain ⟨rfl, rfl⟩ := Prod.mk.inj (Except.ok.inj (hinsert.symm.trans hinsert₂))
    refine ih hc₁ hvalid hnames hfit hdirs hreaches ?_ ?_ hrun
    · intro name' _ q hq
      rw [hempty] at hq
      cases hq
    · intro pre hpre hprefix
      rw [List.append_assoc]
      exact hlisted _ (by simp) (by simpa using hprefix)

/-! Runs of lookups. -/

lemma Sound.of_tree (h : Sound fs fuel d kids) (htree : Tree d kids) (htree' : Tree d kids') :
    Sound fs fuel d kids' := fun parent p hp =>
  h parent p (htree.child_iff.mp (htree'.child_iff.mpr hp))

lemma Sound.leads (h : Sound fs fuel d kids) (htree : Tree d kids)
    (hreaches : d.Reaches parent names e) (hi : d.inodeAt parent = some idx) :
    ∃ j, d.inodeAt e = some j ∧ Leads fs fuel idx names j := by
  induction names generalizing parent idx with
  | nil =>
    obtain rfl : parent = e := hreaches
    exact ⟨idx, hi, rfl⟩
  | cons name names ih =>
    obtain ⟨p, n, hchild, hlabel, hrest⟩ := hreaches
    have hp := htree.child_iff.mp hchild
    obtain ⟨n', name', hlabel', -, hlen⟩ := htree.named parent p hp
    obtain ⟨rfl, rfl⟩ := Prod.mk.inj (Option.some.inj (hlabel.symm.trans hlabel'))
    obtain ⟨i, hi', hfind⟩ := h parent p hp n name hlabel
    obtain rfl : i = idx := Option.some.inj (hi'.symm.trans hi)
    obtain ⟨j, hj, hleads⟩ := ih hrest (inodeAt_of_label hlabel)
    exact ⟨j, hj, hlen, n, hfind, hleads⟩

lemma unshadowed_of_fit (hfit : FitEntries names) : Unshadowed fs fuel idx idx names := by
  induction names generalizing idx with
  | nil => trivial
  | cons name names ih =>
    obtain ⟨hlen, hfit⟩ := List.forall_mem_cons.mp hfit
    rw [Unshadowed]
    rcases hlookup : lookupName fs fuel idx name with e | ⟨inode, _ | n⟩
    · trivial
    · trivial
    · dsimp only
      rw [if_pos hlen]
      exact ⟨finds_iff.mpr ⟨inode, hlookup⟩, ih hfit⟩

/-- A path that the cache stores whole. -/
structure Storable (fs : Mount) (fuel : ℕ) (path : List UInt8) : Prop where
  admissible : Admissible fs fuel path
  single : SingleSlashes path
  fit : FitEntries (components path)

lemma inodeGetIdxByPath_walk (h : Tree d kids) (hpath : Admissible fs fuel path)
    (hsingle : SingleSlashes path) : ∃ d₁ kids₁ e walked names, Tree d₁ kids₁ ∧
      Turns d kids d₁ kids₁ ∧ d₁.Valid e ∧ (∀ name ∈ names, 0 ∉ name) ∧
      components path = walked ++ names ∧ d₁.Reaches none walked e ∧
      NoneNamed d₁ kids₁ e names ∧ ∀ j, d₁.inodeAt e = some j →
        inodeGetIdxByPath fs fuel d path = walkNames fs fuel d₁ names e j := by
  obtain ⟨d₁, kids₁, rest, e, walked, hwalk, htree, hturn, he, hrest, hsplit, hreaches, hnew⟩ :=
    getCachedInodeNumLoop_walk h hpath.fits.noNul (by simp [Dcache.Valid] : d.Valid none) hsingle
      hpath.fits.length (Nat.lt_add_one path.length)
  refine ⟨d₁, kids₁, e, walked, components rest, htree, hturn, he, noNul_of_mem_components hrest,
    hsplit, hreaches, hnew, fun j hj => ?_⟩
  rw [inodeGetIdxByPath, Outcome.assertThat_true hpath.absolute, Outcome.ok_bind,
    getCachedInodeNum, hwalk]
  change (dcacheGetInode d₁ e >>= _) = _
  rw [dcacheGetInode_eq hj, Outcome.ok_bind]
  exact inodeGetIdxByPathLoop_eq fs fuel hrest (Nat.lt_add_one _) d₁ e j

lemma inodeGetIdxByPath_compact (h : Compact d kids listed) (hsound : Sound fs fuel d kids)
    (hpath : Storable fs fuel path)
    (hlisted : ∀ pre, pre ≠ [] → pre <+: components path → listed pre)
    (hrun : inodeGetIdxByPath fs fuel d path = .ok (d', n)) :
    ∃ kids', Compact d' kids' listed ∧ Sound fs fuel d' kids' := by
  obtain ⟨hadmissible, hsingle, hfit⟩ := hpath
  obtain ⟨kids₂, htree₂, hkeep, -⟩ := inodeGetIdxByPath_sound h.tree hsound hadmissible hrun
  obtain ⟨d₁, kids₁, e, walked, names, htree, hturn, he, hnul, hsplit, hreaches, hnew, hwalk⟩ :=
    inodeGetIdxByPath_walk h.tree hadmissible hsingle
  have hroot : d₁.inodeAt none = some rootInodeN := congrArg some htree.rootInode
  obtain ⟨j, hj, hleads⟩ := (hturn.sound hsound).leads htree hreaches hroot
  have hdirs := hadmissible.directories
  rw [hsplit] at hdirs hfit
  rw [hwalk j hj] at hrun
  obtain ⟨kids', hc⟩ := walkNames_compact (hturn.compact htree h) he hnul
    (fun name hname => hfit name (List.mem_append_right _ hname))
    (hleads.directoriesOnly hdirs) hreaches hnew
    (fun pre hpre hprefix => hlisted _ (by simp [hpre])
      (by rw [hsplit]; exact (List.prefix_append_right_inj walked).mpr hprefix)) hrun
  exact ⟨kids', hc, (hkeep (unshadowed_of_fit (hsplit ▸ hfit))).of_tree htree₂ hc.tree⟩

lemma lookups_compact {calls : List (List UInt8)} (h : Compact d kids listed)
    (hsound : Sound fs fuel d kids) (hcalls : ∀ path ∈ calls, Storable fs fuel path)
    (hlisted : ∀ path ∈ calls, ∀ pre, pre ≠ [] → pre <+: components path → listed pre)
    (hrun : lookups fs fuel d calls = .ok d') : ∃ kids', Compact d' kids' listed := by
  induction calls generalizing d kids with
  | nil =>
    cases hrun
    exact ⟨kids, h⟩
  | cons path calls ih =>
    obtain ⟨hpath, hcalls⟩ := List.forall_mem_cons.mp hcalls
    obtain ⟨hfirst, hlisted⟩ := List.forall_mem_cons.mp hlisted
    obtain ⟨⟨d₁, n⟩, hcall, hrun⟩ := Outcome.bind_eq_ok.mp hrun
    obtain ⟨kids₁, hc, hs⟩ := inodeGetIdxByPath_compact h hsound hpath hfirst hcall
    exact ih hc hs hcalls hlisted hrun

/-- The paths that lead to the files looked up and to the directories above them. -/
def prefixes (calls : List (List UInt8)) : Finset (List (List UInt8)) :=
  (calls.flatMap fun path => (components path).inits).toFinset.erase []

/-- After any run of lookups of paths that the cache stores whole, no directory of the cache has a
name twice, and there are no more entries than different paths to enter. -/
theorem lookups_size {calls : List (List UInt8)} (hcalls : ∀ path ∈ calls, Storable fs fuel path)
    (hrun : lookups fs fuel freshDcache calls = .ok d) :
    (∀ names e e', d.Reaches none names e → d.Reaches none names e' → e = e') ∧
      d.entries.next ≤ (prefixes calls).card := by
  have hfresh : Compact freshDcache (fun _ => []) (· ∈ prefixes calls) :=
    ⟨tree_freshDcache, by simp, fun p hp => absurd hp (Nat.not_lt_zero p)⟩
  have hlisted : ∀ path ∈ calls, ∀ pre, pre ≠ [] → pre <+: components path →
      pre ∈ prefixes calls := by
    intro path hpath pre hpre hprefix
    rw [prefixes, Finset.mem_erase, List.mem_toFinset, List.mem_flatMap]
    exact ⟨hpre, path, hpath, (List.mem_inits _ _).mpr hprefix⟩
  obtain ⟨kids, hc⟩ := lookups_compact hfresh (sound_nil freshDcache) hcalls hlisted hrun
  refine ⟨fun names e e' hn hn' => hc.reaches_inj hn hn', ?_⟩
  have hcard := Finset.card_le_card_of_forall_subsingleton
    (s := Finset.range d.entries.next) (t := prefixes calls)
    (fun p names => d.Reaches none names (some p))
    (fun p hp => hc.reached p (Finset.mem_range.mp hp))
    (fun names _ p hp q hq => Option.some.inj (hc.reaches_inj hp.2 hq.2))
  rwa [Finset.card_range] at hcard

set_option maxRecDepth 100000 in
/-- A file in the root, looked up twice. -/
theorem lookups_size_rootFile : ∃ d,
    lookups longNameMount 8 freshDcache [rootFilePath, rootFilePath] = .ok d ∧
      d.entries.next ≤ 1 := by
  obtain ⟨d, hrun⟩ := exists_lookups longNameMount 8 [rootFilePath, rootFilePath] (by decide)
  have hstorable : Storable longNameMount 8 rootFilePath :=
    ⟨admissible_rootFile, by decide, by decide⟩
  have hcard : (prefixes [rootFilePath, rootFilePath]).card = 1 := by decide
  refine ⟨d, hrun, ?_⟩
  rw [← hcard]
  exact (lookups_size (by simp [hstorable]) hrun).2

lemma lookups_append (fs : Mount) (fuel : ℕ) (d : Dcache) (calls calls' : List (List UInt8)) :
    lookups fs fuel d (calls ++ calls') =
      lookups fs fuel d calls >>= (lookups fs fuel · calls') := by
  induction calls generalizing d with
  | nil => rfl
  | cons path calls ih =>
    rw [List.cons_append, lookups, lookups]
    cases inodeGetIdxByPath fs fuel d path with
    | error e => rfl
    | ok r => exact ih r.1

/-! A name that does not fit. -/

lemma Tree.fitEntries (h : Tree d kids) (hreaches : d.Reaches parent names e) :
    FitEntries names := by
  induction names generalizing parent with
  | nil => simp [FitEntries]
  | cons name names ih =>
    obtain ⟨p, n, hchild, hlabel, hrest⟩ := hreaches
    obtain ⟨n', name', hlabel', -, hlen⟩ := h.named parent p (h.child_iff.mp hchild)
    obtain ⟨rfl, rfl⟩ := Prod.mk.inj (Option.some.inj (hlabel.symm.trans hlabel'))
    exact List.forall_mem_cons.mpr ⟨hlen, ih hrest⟩

lemma walkNames_next (h : Tree d kids) (hparent : d.Valid parent) (hnul : ∀ name ∈ names, 0 ∉ name)
    (hdirs : DirectoriesOnly fs fuel idx names) {i : ℕ}
    (hfound : resolve fs fuel idx names = .ok (some i))
    (hrun : walkNames fs fuel d names parent idx = .ok (d', n)) :
    d'.entries.next =
      d.entries.next + names.countP fun name => name.length + 1 ≤ dcacheEntryNameLen := by
  induction names generalizing d kids parent idx with
  | nil =>
    cases hrun
    rfl
  | cons name names ih =>
    obtain ⟨hname, hnames⟩ := List.forall_mem_cons.mp hnul
    rw [resolve] at hfound
    rcases walkNames_cons hdirs hrun with
      ⟨⟨inode, hlookup⟩, -⟩ | ⟨inode, n₁, d₁, p, hlookup, hinsert, hdirs, hrun⟩
    · rw [hlookup] at hfound
      cases hfound
    rw [hlookup] at hfound
    rw [List.countP_cons]
    by_cases hlen : name.length + 1 ≤ dcacheEntryNameLen
    · obtain ⟨d₂, kids₂, p₂, hinsert₂, htree, -, hp, -⟩ :=
        dcacheInsert_tree h hparent hname hlen n₁
      obtain ⟨rfl, rfl⟩ := Prod.mk.inj (Except.ok.inj (hinsert₂.symm.trans hinsert))
      have hnext := ih htree (htree.valid_of_mem hp) hnames hdirs hfound hrun
      rw [hnext, dcacheInsert_next hinsert, if_pos (by simpa using hlen)]
      omega
    · rw [dcacheInsert_long hlen] at hinsert
      cases hinsert
      have hnext := ih h (by simp [Dcache.Valid]) hnames hdirs hfound hrun
      rw [hnext, if_neg (by simpa using hlen)]
      rfl

/-- A name that does not fit an entry stands first, so the cache is left at once. -/
lemma inodeGetIdxByPath_next (h : Tree d kids) (hpath : Admissible fs fuel path)
    (hsingle : SingleSlashes path)
    (hlong : ∀ name ∈ (components path).head?, ¬name.length + 1 ≤ dcacheEntryNameLen) {i : ℕ}
    (hfound : resolve fs fuel rootInodeN (components path) = .ok (some i))
    (hrun : inodeGetIdxByPath fs fuel d path = .ok (d', n)) :
    d'.entries.next = d.entries.next +
      (components path).countP fun name => name.length + 1 ≤ dcacheEntryNameLen := by
  obtain ⟨d₁, kids₁, e, walked, names, htree, hturn, he, hnul, hsplit, hreaches, -, hwalk⟩ :=
    inodeGetIdxByPath_walk h hpath hsingle
  have hwalked : walked = [] := by
    have hfit := htree.fitEntries hreaches
    cases walked with
    | nil => rfl
    | cons name walked =>
      rw [hsplit] at hlong
      exact absurd (hfit name List.mem_cons_self) (hlong name rfl)
  rw [hwalked] at hreaches hsplit
  obtain rfl : none = e := hreaches
  have hdirs := hpath.directories
  rw [hsplit, List.nil_append] at hdirs hfound ⊢
  rw [hwalk rootInodeN (congrArg some htree.rootInode)] at hrun
  rw [← hturn.keeps.next]
  exact walkNames_next htree he hnul hdirs hfound hrun

lemma lookups_tree {calls : List (List UInt8)} (h : Tree d kids)
    (hcalls : ∀ path ∈ calls, Admissible fs fuel path)
    (hrun : lookups fs fuel d calls = .ok d') : ∃ kids', Tree d' kids' := by
  induction calls generalizing d kids with
  | nil =>
    cases hrun
    exact ⟨kids, h⟩
  | cons path calls ih =>
    obtain ⟨hpath, hcalls⟩ := List.forall_mem_cons.mp hcalls
    obtain ⟨⟨d₁, n⟩, hcall, hrun⟩ := Outcome.bind_eq_ok.mp hrun
    obtain ⟨kids₁, htree, -⟩ := inodeGetIdxByPath_grows h hpath.absolute hpath.fits.noNul hcall
    exact ih htree hcalls hrun

lemma lookups_next (h : Tree d kids) (hpath : Admissible fs fuel path)
    (hsingle : SingleSlashes path)
    (hlong : ∀ name ∈ (components path).head?, ¬name.length + 1 ≤ dcacheEntryNameLen) {i : ℕ}
    (hfound : resolve fs fuel rootInodeN (components path) = .ok (some i)) {k : ℕ}
    (hrun : lookups fs fuel d (List.replicate k path) = .ok d') :
    d'.entries.next = d.entries.next +
      k * (components path).countP fun name => name.length + 1 ≤ dcacheEntryNameLen := by
  induction k generalizing d kids with
  | zero =>
    cases hrun
    simp
  | succ k ih =>
    rw [List.replicate_succ] at hrun
    obtain ⟨⟨d₁, n⟩, hcall, hrun⟩ := Outcome.bind_eq_ok.mp hrun
    obtain ⟨kids₁, htree, -⟩ := inodeGetIdxByPath_grows h hpath.absolute hpath.fits.noNul hcall
    rw [ih htree hrun, inodeGetIdxByPath_next h hpath hsingle hlong hfound hcall]
    ring

/-- After any run of lookups, each further lookup of a file below a directory of the root with a
name that does not fit an entry enters all the fitting names of its path once more: the cache
grows without end. -/
theorem lookups_grows {calls : List (List UInt8)} {d₀ : Dcache}
    (hcalls : ∀ path ∈ calls, Admissible fs fuel path)
    (hbefore : lookups fs fuel freshDcache calls = .ok d₀) (hpath : Admissible fs fuel path)
    (hsingle : SingleSlashes path)
    (hlong : ∀ name ∈ (components path).head?, ¬name.length + 1 ≤ dcacheEntryNameLen) {i : ℕ}
    (hfound : resolve fs fuel rootInodeN (components path) = .ok (some i)) {k : ℕ}
    (hrun : lookups fs fuel d₀ (List.replicate k path) = .ok d) :
    d.entries.next = d₀.entries.next +
      k * (components path).countP fun name => name.length + 1 ≤ dcacheEntryNameLen := by
  obtain ⟨kids, htree⟩ := lookups_tree tree_freshDcache hcalls hbefore
  exact lookups_next htree hpath hsingle hlong hfound hrun

set_option maxRecDepth 100000 in
/-- A file in a directory with a name of 40 bytes, looked up three times after another file. -/
theorem lookups_grows_longFile : ∃ d₀ d,
    lookups longNameMount 8 freshDcache [rootFilePath] = .ok d₀ ∧
      lookups longNameMount 8 d₀ (List.replicate 3 longFilePath) = .ok d ∧
      d.entries.next = d₀.entries.next + 3 := by
  obtain ⟨d, hrun⟩ := exists_lookups longNameMount 8
    ([rootFilePath] ++ List.replicate 3 longFilePath) (by decide)
  rw [lookups_append] at hrun
  obtain ⟨d₀, hbefore, hrun⟩ := Outcome.bind_eq_ok.mp hrun
  have hcomponents : components longFilePath = [List.replicate 40 97, [98]] := by decide
  have hlong : ∀ name ∈ (components longFilePath).head?,
      ¬name.length + 1 ≤ dcacheEntryNameLen := by
    rw [hcomponents]
    decide
  have hfound : resolve longNameMount 8 rootInodeN (components longFilePath) = .ok (some 13) := by
    rw [hcomponents, resolve, lookupName_long]
    dsimp only [Outcome.ok_bind]
    rw [resolve, lookupName_longFile]
    rfl
  have hgrows := lookups_grows (by simp [admissible_rootFile]) hbefore admissible_longFile
    (by decide) hlong hfound hrun
  rw [hcomponents] at hgrows
  exact ⟨d₀, d, hbefore, hrun, hgrows⟩

end Spotlight.Ext4
