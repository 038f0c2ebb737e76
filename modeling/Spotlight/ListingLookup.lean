import Spotlight.Readdir

/-! Listing a directory and looking names up in it agree. -/
namespace Spotlight.Ext4
open Bytes Records

/-- Names of a directory: those in use are not empty, pairwise distinct and free of separators and
NUL. -/
structure WellNamed (es : List Ext4DirEntry2) : Prop where
  names : ∀ e ∈ es, e.inode ≠ 0 → e.name ≠ [] ∧ slash ∉ e.name ∧ 0 ∉ e.name
  distinct : ((es.filter (·.inode ≠ 0)).map Ext4DirEntry2.name).Nodup

/-- A name that can stand in a path, of 1 to 255 bytes. -/
structure IsName (name : List UInt8) : Prop where
  nonempty : name ≠ []
  length : name.length ≤ 255
  noSlash : slash ∉ name
  noNul : 0 ∉ name

/-- The listing of the directory shows the name exactly when the lookup of it, in a fresh cache,
returns a number, which is then that of the entry. -/
def ListingAgrees (fs : Mount) (path name : List UInt8) (es : List Ext4DirEntry2) : Prop :=
  ∃ fuel₀, ∀ fuel ≥ fuel₀, ∃ d names n,
    opReaddir fs fuel keepAll freshDcache path [] 0 = .ok (d, 0, names) ∧
    Prod.snd <$> inodeGetIdxByPath fs fuel freshDcache (path ++ slash :: name) = .ok n ∧
    ((∃ o, (name, o) ∈ names) ↔ n ≠ 0) ∧ ∀ e ∈ es, e.Is name → n = e.inode

variable {fs : Mount} {fuel depth : ℕ} {inode : Ext4Inode} {o n idx : ℕ} {e e' : Ext4DirEntry2}
  {es : List Ext4DirEntry2} {path name : List UInt8} {names names' : List (List UInt8)}
  {dir : ℕ → List Ext4DirEntry2} {d : Dcache} {blocks : List (List Ext4DirEntry2)}

lemma components_append_slash (path name : List UInt8) :
    components (path ++ slash :: name) = components path ++ components name := by
  rw [components, List.splitOn_append_cons_self, List.filter_append]
  rfl

lemma components_name (h : IsName name) : components name = [name] := by
  rw [components, List.splitOn_eq_singleton h.noSlash]
  simp [h.nonempty]

lemma mem_listing : (∃ o', (name, o') ∈ listing o es) ↔
    ∃ e ∈ es, e.Shown ∧ cString e.name = name := by
  induction es generalizing o with
  | nil => simp [listing]
  | cons e es ih =>
    rw [listing, List.exists_mem_cons_iff]
    split_ifs with hshown
    · simp only [List.mem_cons, exists_or, ih, Prod.mk.injEq, exists_and_left, hshown, true_and]
      simp [eq_comm]
    · rw [ih]
      simp [hshown]

lemma WellNamed.mem_listing (h : WellNamed es) :
    (∃ o', (name, o') ∈ listing o es) ↔ ∃ e ∈ es, e.Is name := by
  rw [Ext4.mem_listing]
  refine exists_congr fun e => and_congr_right fun he => ?_
  constructor
  · rintro ⟨⟨hinode, -⟩, hname⟩
    obtain ⟨-, -, hnul⟩ := h.names e he hinode
    exact ⟨hinode, by rwa [cString_of_notMem hnul] at hname⟩
  · rintro ⟨hinode, hname⟩
    obtain ⟨hne, -, hnul⟩ := h.names e he hinode
    rw [Ext4DirEntry2.Shown, cString_of_notMem hnul]
    exact ⟨⟨hinode, hne⟩, hname⟩

lemma findEntry_eq_some (h : findEntry es name = some e) : e ∈ es ∧ e.Is name :=
  ⟨List.mem_of_find?_eq_some h, by simpa using List.find?_some h⟩

lemma findEntry_eq_none : findEntry es name = none ↔ ∀ e ∈ es, ¬e.Is name := by
  rw [findEntry, List.find?_eq_none]
  simp

lemma WellNamed.findEntry_eq (h : WellNamed es) (he : e ∈ es) (his : e.Is name) :
    findEntry es name = some e := by
  cases hfind : findEntry es name with
  | none => exact absurd his (findEntry_eq_none.mp hfind e he)
  | some e' =>
    obtain ⟨he', his'⟩ := findEntry_eq_some hfind
    have hlive : ∀ e ∈ es, e.Is name → e ∈ es.filter (·.inode ≠ 0) := fun e he his => by
      simp [he, his.1]
    rw [List.inj_on_of_nodup_map h.distinct (hlive e' he' his') (hlive e he his)
      (his'.2.trans his.2.symm)]

lemma resolveTokens_mono {fuel' : ℕ} (hle : fuel ≤ fuel')
    (h : resolveTokens fs fuel idx names = .ok n) : resolveTokens fs fuel' idx names = .ok n := by
  induction names generalizing idx with
  | nil => exact h
  | cons name names ih =>
    rw [resolveTokens] at h ⊢
    split_ifs at h ⊢
    obtain ⟨⟨inode, found⟩, hlookup, h⟩ := Outcome.bind_eq_ok.mp h
    rw [lookupName_mono hle hlookup, Outcome.ok_bind]
    cases found with
    | none => exact h
    | some number => exact ih h

lemma resolveTokens_append (h : resolveTokens fs fuel idx names = .ok n) (hn : n ≠ 0)
    (names' : List (List UInt8)) :
    resolveTokens fs fuel idx (names ++ names') = resolveTokens fs fuel n names' := by
  induction names generalizing idx with
  | nil =>
    obtain rfl : idx = n := Except.ok.inj h
    rfl
  | cons name names ih =>
    rw [resolveTokens] at h
    rw [List.cons_append, resolveTokens]
    split_ifs at h ⊢
    obtain ⟨⟨inode, found⟩, hlookup, h⟩ := Outcome.bind_eq_ok.mp h
    rw [hlookup, Outcome.ok_bind]
    cases found with
    | none => exact absurd (Except.ok.inj h).symm hn
    | some number => exact ih h

lemma inodeGetIdxByPath_fresh (fs : Mount) (fuel : ℕ) (hslash : path.head? = some slash)
    (hnul : 0 ∉ path) : Prod.snd <$> inodeGetIdxByPath fs fuel freshDcache path =
      resolveTokens fs fuel rootInodeN (components path) :=
  inodeGetIdxByPath_number fs fuel tree_freshDcache (sound_nil freshDcache) hslash hnul

lemma inodeGetIdxByPath_child (hslash : path.head? = some slash) (hnul : 0 ∉ path)
    (hnumber : Prod.snd <$> inodeGetIdxByPath fs depth freshDcache path = .ok n) (hn : n ≠ 0)
    (hname : IsName name) (hle : depth ≤ fuel) :
    Prod.snd <$> inodeGetIdxByPath fs fuel freshDcache (path ++ slash :: name) =
      (fun r => r.2.getD 0) <$> lookupName fs fuel n name := by
  have hslash' : (path ++ slash :: name).head? = some slash := by
    rw [List.head?_append, hslash]
    rfl
  have hnul' : 0 ∉ path ++ slash :: name := by simp [hnul, hname.noNul, slash]
  rw [inodeGetIdxByPath_fresh fs depth hslash hnul] at hnumber
  rw [inodeGetIdxByPath_fresh fs fuel hslash' hnul', components_append_slash,
    components_name hname, resolveTokens_append (resolveTokens_mono hle hnumber) hn, resolveTokens,
    if_neg (not_lt.mpr hname.length)]
  cases lookupName fs fuel n name with
  | error e => rfl
  | ok r =>
    obtain ⟨inode, found⟩ := r
    cases found <;> rfl

lemma opReaddir_keepAll (hlog : fs.super.sLogBlockSize ≤ 20) (h : Directory fs fuel inode blocks)
    (hopen : Opens fs fuel d path inode) (hfuel : blocks.flatten.length < fuel) : ∃ d',
    opReaddir fs fuel keepAll d path [] 0 =
      if FitsNameBuf blocks.flatten then .ok (d', 0, listing 0 blocks.flatten)
      else .error .bounds := by
  obtain ⟨d', ctx, hctx, hrun⟩ := opReaddir_opens hlog h hopen keepAll []
  refine ⟨d', ?_⟩
  rw [hrun]
  split_ifs with hfits
  · rw [opReaddirLoop_feed hlog h.entries (h.size_lt hlog) hfits hctx hfuel, feed_keepAll]
    rfl
  · rw [opReaddirLoop_long hlog h.entries (h.size_lt hlog) hfits hctx hfuel
      (accepts_keepAll _ _)]
    rfl

/-- Listing and looking up agree on a name exactly when every name in use has room for its NUL in
`name_buf`, and the search for the name stays within 32 bits. -/
theorem opReaddir_agrees (hlog : fs.super.sLogBlockSize ≤ 20) (hslash : path.head? = some slash)
    (hnul : 0 ∉ path)
    (hnumber : Prod.snd <$> inodeGetIdxByPath fs depth freshDcache path = .ok n)
    (hn : DirectoryAt fs depth dir n) (hnamed : WellNamed (dir n)) (hname : IsName name) :
    ListingAgrees fs path name (dir n) ↔ FitsNameBuf (dir n) ∧ Reached name 0 (dir n) := by
  have hlookup := fun fuel (hle : depth ≤ fuel) => lookupName_directory hlog hn hle name
  obtain ⟨inode, blocks, hinode, -, hblocks, hentries⟩ := hn
  have hzero : n ≠ 0 := by
    rintro rfl
    cases hinode
  have hopen : Opens fs depth freshDcache path inode := inodeGetByPath_of_number hnumber hinode
  have hlist : ∀ fuel ≥ depth, (dir n).length < fuel → ∃ d',
      opReaddir fs fuel keepAll freshDcache path [] 0 =
        if FitsNameBuf (dir n) then .ok (d', 0, listing 0 (dir n)) else .error .bounds := by
    intro fuel hle hfuel
    rw [hentries] at hfuel ⊢
    exact opReaddir_keepAll hlog (hblocks.mono hle) (hopen.mono hle) hfuel
  constructor
  · rintro ⟨fuel₀, hagree⟩
    obtain ⟨fuel, hge, hle, hlen⟩ :
        ∃ fuel, fuel₀ ≤ fuel ∧ depth ≤ fuel ∧ (dir n).length < fuel :=
      ⟨max fuel₀ (max depth ((dir n).length + 1)), by omega, by omega, by omega⟩
    obtain ⟨d, names, number, hlisted, hfound, -⟩ := hagree fuel hge
    constructor
    · by_contra hlong
      obtain ⟨d', hrun⟩ := hlist fuel hle hlen
      rw [hrun, if_neg hlong] at hlisted
      cases hlisted
    · by_contra hnot
      rw [inodeGetIdxByPath_child hslash hnul hnumber hzero hname hle,
        (hlookup fuel hle).2 hnot] at hfound
      cases hfound
  · rintro ⟨hfits, hreached⟩
    refine ⟨max depth ((dir n).length + 1), fun fuel hfuel => ?_⟩
    have hle : depth ≤ fuel := by omega
    obtain ⟨d', hrun⟩ := hlist fuel hle (by omega)
    obtain ⟨inode', hfound⟩ := (hlookup fuel hle).1 hreached (by omega)
    refine ⟨d', listing 0 (dir n), ((findEntry (dir n) name).map Ext4DirEntry2.inode).getD 0,
      by rw [hrun, if_pos hfits], ?_, ?_, fun e he his => ?_⟩
    · rw [inodeGetIdxByPath_child hslash hnul hnumber hzero hname hle, hfound]
      rfl
    · rw [hnamed.mem_listing]
      cases hfind : findEntry (dir n) name with
      | none => simpa using findEntry_eq_none.mp hfind
      | some e =>
        obtain ⟨he, his⟩ := findEntry_eq_some hfind
        exact ⟨fun _ => his.1, fun _ => ⟨e, he, his⟩⟩
    · rw [hnamed.findEntry_eq he his]
      rfl

lemma DirectoryAt.mono (hle : depth ≤ fuel) (h : DirectoryAt fs depth dir n) :
    DirectoryAt fs fuel dir n := by
  obtain ⟨inode, blocks, hinode, hdir, hblocks, hentries⟩ := h
  exact ⟨inode, blocks, hinode, hdir, hblocks.mono hle, hentries⟩

set_option maxRecDepth 100000 in
/-- The file in the directory with the long name. -/
theorem opReaddir_agrees_longName : ListingAgrees longNameMount longPath [98] longNameSub := by
  have hnumber : Prod.snd <$> inodeGetIdxByPath longNameMount 8 freshDcache longPath = .ok 11 := by
    decide
  have hnamed : WellNamed (longNameEntries 11) := ⟨by decide, by decide⟩
  have hname : IsName [98] := ⟨by decide, by decide, by decide, by decide⟩
  exact (opReaddir_agrees (by decide) rfl (by decide) hnumber
    (directoryAt_longName_sub.mono (Nat.zero_le 8)) hnamed hname).mpr ⟨by decide, by decide⟩

set_option maxRecDepth 100000 in
/-- A name of 255 bytes is found, but a listing stores the NUL behind it outside of `name_buf`. -/
theorem opReaddir_agrees_counterexample :
    superFill fullNameDisk = .ok fullNameMount.super ∧
    superGroupFill fullNameDisk fullNameMount.super = .ok fullNameMount.gdescTable ∧
    DirectoryAt fullNameMount 0 (fun _ => fullNameRoot) rootInodeN ∧ WellNamed fullNameRoot ∧
    IsName (List.replicate 255 97) ∧
    (∀ fuel ≥ 4, opReaddir fullNameMount fuel keepAll freshDcache [slash] [] 0 = .error .bounds ∧
      Prod.snd <$> inodeGetIdxByPath fullNameMount fuel freshDcache
        ([slash] ++ slash :: List.replicate 255 97) = .ok 11) ∧
    ¬ListingAgrees fullNameMount [slash] (List.replicate 255 97) fullNameRoot := by
  obtain ⟨hinode, hdir⟩ := fullName_root
  have hname : IsName (List.replicate 255 97) := ⟨by decide, by decide, by decide, by decide⟩
  have hn : DirectoryAt fullNameMount 0 (fun _ => fullNameRoot) rootInodeN :=
    ⟨longNameDir 9, [fullNameRoot], hinode, by decide, hdir, rfl⟩
  have hlist : ∀ fuel ≥ 4,
      opReaddir fullNameMount fuel keepAll freshDcache [slash] [] 0 = .error .bounds := by
    intro fuel hfuel
    obtain ⟨d', hrun⟩ := opReaddir_keepAll (by decide) (hdir.mono (Nat.zero_le fuel))
      (opens_root hinode) hfuel
    rw [hrun, if_neg (by decide)]
  have hfind : ∀ fuel ≥ 4, Prod.snd <$> inodeGetIdxByPath fullNameMount fuel freshDcache
      ([slash] ++ slash :: List.replicate 255 97) = .ok 11 := by
    intro fuel hfuel
    obtain ⟨inode, hlookup⟩ := (lookupName_directory (by decide) hn (Nat.zero_le fuel)
      (List.replicate 255 97)).1 (by decide) hfuel
    rw [inodeGetIdxByPath_child rfl (by decide)
      (show Prod.snd <$> inodeGetIdxByPath fullNameMount 0 freshDcache [slash] = .ok rootInodeN
        from rfl) (by decide) hname (Nat.zero_le fuel), hlookup,
      show findEntry fullNameRoot (List.replicate 255 97) =
        some ⟨11, 1000, List.replicate 255 97⟩ by decide]
    rfl
  refine ⟨by decide, by decide, hn, ⟨by decide, by decide⟩, hname,
    fun fuel hfuel => ⟨hlist fuel hfuel, hfind fuel hfuel⟩, ?_⟩
  rintro ⟨fuel₀, hagree⟩
  obtain ⟨d, names, number, hok, -⟩ := hagree (max fuel₀ 4) (Nat.le_max_left _ _)
  rw [hlist _ (Nat.le_max_right _ _)] at hok
  cases hok

end Spotlight.Ext4
