import Spotlight.PathCache
import Spotlight.Dentries

/-! Paths in an image whose directories are well formed: the inode that a path means, and when
`inode_get_idx_by_path` returns it. -/
namespace Spotlight.Ext4
open Bytes Records

/-- The inode `n` is that of a directory with the entries `dir n`. -/
def DirectoryAt (fs : Mount) (depth : ℕ) (dir : ℕ → List Ext4DirEntry2) (n : ℕ) : Prop :=
  ∃ inode blocks, inodeGetByNumber fs n = .ok (some inode) ∧ sIsDir inode.iMode ∧
    Directory fs depth inode blocks ∧ dir n = blocks.flatten

/-- The inode that names lead to, from the directory `n` on: for each of them the first entry in
use with that name counts. It is 0 when there is none. -/
def resolveNames (dir : ℕ → List Ext4DirEntry2) : ℕ → List (List UInt8) → ℕ
  | n, [] => n
  | n, name :: names =>
    match findEntry (dir n) name with
    | none => 0
    | some e => resolveNames dir e.inode names

/-- `P` holds of every directory that is searched for the names, and of the name wanted there. -/
def Along (dir : ℕ → List Ext4DirEntry2) (P : ℕ → List UInt8 → Prop) :
    ℕ → List (List UInt8) → Prop
  | _, [] => True
  | n, name :: names =>
    P n name ∧ ∀ e, findEntry (dir n) name = some e → Along dir P e.inode names

/-- What is searched for the names are directories, all well formed. -/
def ThroughDirectories (fs : Mount) (depth : ℕ) (dir : ℕ → List Ext4DirEntry2)
    (names : List (List UInt8)) : Prop :=
  Along dir (fun n _ => DirectoryAt fs depth dir n) rootInodeN names

/-- Every directory is searched up to the entry or to its end within 32 bits. -/
def SearchedAlong (dir : ℕ → List Ext4DirEntry2) (names : List (List UInt8)) : Prop :=
  Along dir (fun n name => Reached name 0 (dir n)) rootInodeN names

/-- What a step needs to end: a name that eight bits can count, and a search within 32 bits. -/
def Measured (dir : ℕ → List Ext4DirEntry2) (n : ℕ) (name : List UInt8) : Prop :=
  name.length ≤ 255 ∧ Reached name 0 (dir n)

variable {fs : Mount} {fuel depth : ℕ} {dir : ℕ → List Ext4DirEntry2} {n : ℕ}
  {name path : List UInt8} {names : List (List UInt8)} {P Q : ℕ → List UInt8 → Prop}

lemma Along.congr (h : ∀ name ∈ names, ∀ n, P n name ↔ Q n name) :
    Along dir P n names ↔ Along dir Q n names := by
  induction names generalizing n with
  | nil => rfl
  | cons name names ih =>
    obtain ⟨hname, hnames⟩ := List.forall_mem_cons.mp h
    rw [Along, Along, hname n]
    exact and_congr_right fun _ => forall₂_congr fun e _ => ih hnames

lemma lookupName_directory (hlog : fs.super.sLogBlockSize ≤ 20)
    (hn : DirectoryAt fs depth dir n) (hle : depth ≤ fuel) (name : List UInt8) :
    (Reached name 0 (dir n) → (dir n).length < fuel → ∃ inode, lookupName fs fuel n name =
      .ok (inode, (findEntry (dir n) name).map Ext4DirEntry2.inode)) ∧
    (¬Reached name 0 (dir n) → lookupName fs fuel n name = .error .fuel) := by
  obtain ⟨inode, blocks, hnumber, -, hblocks, hentries⟩ := hn
  have hblocks := hblocks.mono hle
  obtain ⟨p, r, hp⟩ := hblocks.mapped 0 (.inl rfl)
  have hupdate := dirCtxUpdate_ok hlog hp
  obtain ⟨hctx, -⟩ := holds_of_dirCtxUpdate hupdate
  have htiles := hblocks.entries
  rw [← hentries] at htiles
  rw [lookupName, hnumber, Outcome.ok_bind, Outcome.deref_some, Outcome.ok_bind,
    inodeDirCtxReset, hupdate, Outcome.ok_bind]
  constructor
  · intro hreached hlen
    rw [dentryLoop_reached hlog htiles hreached hctx hlen]
    exact ⟨inode, rfl⟩
  · intro hnot
    rw [dentryLoop_hangs hlog htiles hnot hctx]
    rfl

lemma resolveTokens_along (hlog : fs.super.sLogBlockSize ≤ 20)
    (hdirs : Along dir (fun n _ => DirectoryAt fs depth dir n) n names) : ∃ fuel₀, ∀ fuel ≥ fuel₀,
      (Along dir (Measured dir) n names →
        resolveTokens fs fuel n names = .ok (resolveNames dir n names)) ∧
      (¬Along dir (Measured dir) n names → resolveTokens fs fuel n names = .error .fuel) := by
  induction names generalizing n with
  | nil => exact ⟨0, fun fuel _ => ⟨fun _ => rfl, fun h => absurd trivial h⟩⟩
  | cons name names ih =>
    obtain ⟨hn, hrest⟩ := hdirs
    -- enough for what is behind the entry, when there is one
    obtain ⟨fuel₁, hfuel₁⟩ : ∃ fuel₁, ∀ e, findEntry (dir n) name = some e → ∀ fuel ≥ fuel₁,
        (Along dir (Measured dir) e.inode names →
          resolveTokens fs fuel e.inode names = .ok (resolveNames dir e.inode names)) ∧
        (¬Along dir (Measured dir) e.inode names →
          resolveTokens fs fuel e.inode names = .error .fuel) := by
      cases hfind : findEntry (dir n) name with
      | none => exact ⟨0, fun e he => by cases he⟩
      | some e =>
        obtain ⟨fuel₁, hfuel₁⟩ := ih (hrest e hfind)
        exact ⟨fuel₁, fun e' he' => by rwa [← Option.some.inj he']⟩
    refine ⟨max (max depth ((dir n).length + 1)) fuel₁, fun fuel hfuel => ?_⟩
    have hdepth : depth ≤ fuel := by omega
    obtain ⟨hyes, hno⟩ := lookupName_directory hlog hn hdepth name
    rw [resolveTokens, Along]
    by_cases hlong : 255 < name.length
    · rw [if_pos hlong]
      exact ⟨fun h => absurd h.1.1 (not_le.mpr hlong), fun _ => rfl⟩
    rw [if_neg hlong]
    by_cases hreached : Reached name 0 (dir n)
    · have hmeasured : Measured dir n name := ⟨not_lt.mp hlong, hreached⟩
      obtain ⟨inode, hlookup⟩ := hyes hreached (by omega)
      rw [hlookup, and_iff_right hmeasured, resolveNames]
      cases hfind : findEntry (dir n) name with
      | none => exact ⟨fun _ => rfl, fun h => absurd (fun e he => by cases he) h⟩
      | some e =>
        obtain ⟨hok, hhang⟩ := hfuel₁ e hfind fuel (by omega)
        have hsome : (∀ e', some e = some e' → Along dir (Measured dir) e'.inode names) ↔
            Along dir (Measured dir) e.inode names := by simp
        rw [hsome]
        exact ⟨hok, hhang⟩
    · rw [hno hreached]
      exact ⟨fun h => absurd h.1.2 hreached, fun _ => rfl⟩

lemma eventually_unique {α : Type} {f : ℕ → Outcome α} {a b : Outcome α}
    (h : ∃ fuel₀, ∀ fuel ≥ fuel₀, f fuel = a) (h' : ∃ fuel₀, ∀ fuel ≥ fuel₀, f fuel = b) :
    a = b := by
  obtain ⟨fuel₀, ha⟩ := h
  obtain ⟨fuel₁, hb⟩ := h'
  rw [← ha (max fuel₀ fuel₁) (Nat.le_max_left _ _), hb _ (Nat.le_max_right _ _)]

lemma resolveTokens_iff (hlog : fs.super.sLogBlockSize ≤ 20)
    (hdirs : Along dir (fun n _ => DirectoryAt fs depth dir n) n names) :
    (∃ fuel₀, ∀ fuel ≥ fuel₀,
      resolveTokens fs fuel n names = .ok (resolveNames dir n names)) ↔
      Along dir (Measured dir) n names := by
  obtain ⟨fuel₀, hfuel₀⟩ := resolveTokens_along hlog hdirs
  constructor
  · intro hok
    by_contra hnot
    have hhang : ∃ fuel₀, ∀ fuel ≥ fuel₀, resolveTokens fs fuel n names = .error .fuel :=
      ⟨fuel₀, fun fuel hfuel => (hfuel₀ fuel hfuel).2 hnot⟩
    cases eventually_unique hok hhang
  · exact fun h => ⟨fuel₀, fun fuel hfuel => (hfuel₀ fuel hfuel).1 h⟩

/-- A fresh cache: the number that the path means is returned exactly when every directory is
searched within 32 bits. -/
theorem inodeGetIdxByPath_resolves (hlog : fs.super.sLogBlockSize ≤ 20)
    (hslash : path.head? = some slash) (hfits : Fits path)
    (hdirs : ThroughDirectories fs depth dir (components path)) :
    (∃ fuel₀, ∀ fuel ≥ fuel₀, Prod.snd <$> inodeGetIdxByPath fs fuel freshDcache path =
      .ok (resolveNames dir rootInodeN (components path))) ↔
      SearchedAlong dir (components path) := by
  have hmeasured : SearchedAlong dir (components path) ↔
      Along dir (Measured dir) rootInodeN (components path) := by
    refine Along.congr fun name hname n => ?_
    rw [Measured, and_iff_right (hfits.length name hname)]
  rw [hmeasured, ← resolveTokens_iff hlog hdirs]
  refine exists_congr fun fuel₀ => forall₂_congr fun fuel _ => ?_
  rw [inodeGetIdxByPath_number fs fuel tree_freshDcache (sound_nil freshDcache) hslash hfits.noNul]

/-- What the two directories of the image with the long name hold. -/
def longNameRoot : List Ext4DirEntry2 :=
  [⟨2, 12, [46]⟩, ⟨2, 12, [46, 46]⟩, ⟨11, 48, List.replicate 40 97⟩, ⟨12, 952, [98]⟩]

def longNameSub : List Ext4DirEntry2 := [⟨11, 12, [46]⟩, ⟨2, 12, [46, 46]⟩, ⟨13, 1000, [98]⟩]

def longNameEntries (n : ℕ) : List Ext4DirEntry2 := if n = 11 then longNameSub else longNameRoot

lemma directory_longName {fs : Mount} (hsuper : fs.super = longNameMount.super) {block : UInt8}
    {es : List Ext4DirEntry2} (h : Tiles (StoredAt (readAt (fileByte fs 0 (longNameDir block)) 0 1024))
      Ext4DirEntry2.recLen 1024 0 es) : Directory fs 0 (longNameDir block) [es] := by
  have hbs : superBlockSize fs.super = 1024 := by
    rw [hsuper]
    decide
  refine ⟨by simp [inodeGetSize, longNameDir, hbs], by simp, fun l hl => ?_, fun l es' hl => ?_⟩
  · obtain rfl : l = 0 := by simpa using hl
    obtain ⟨p, hp⟩ : ∃ p, inodeGetDataPblock fs 0 (longNameDir block) 0 = .ok (p, 1) :=
      inodeGetDataPblock_indirect (by simp [longNameDir]) (Nat.zero_le _) (by rw [hsuper]; decide)
    exact ⟨p, 1, hp⟩
  · obtain ⟨rfl, rfl⟩ : l = 0 ∧ es' = es := by
      rw [List.getElem?_singleton] at hl
      split_ifs at hl with hzero
      exact ⟨hzero, (Option.some.inj hl).symm⟩
    rw [hbs, Nat.zero_mul]
    exact h

set_option maxRecDepth 100000 in
lemma longName_root : inodeGetByNumber longNameMount rootInodeN = .ok (some (longNameDir 9)) ∧
    Directory longNameMount 0 (longNameDir 9) [longNameRoot] :=
  ⟨by decide, directory_longName rfl (by decide)⟩

lemma directoryAt_longName_root : DirectoryAt longNameMount 0 longNameEntries rootInodeN :=
  ⟨longNameDir 9, [longNameRoot], longName_root.1, by decide, longName_root.2, rfl⟩

set_option maxRecDepth 100000 in
lemma directoryAt_longName_sub : DirectoryAt longNameMount 0 longNameEntries 11 :=
  ⟨longNameDir 10, [longNameSub], by decide, by decide, directory_longName rfl (by decide), rfl⟩

lemma through_longFile :
    ThroughDirectories longNameMount 0 longNameEntries (components longFilePath) := by
  rw [show components longFilePath = [List.replicate 40 97, [98]] by decide]
  refine ⟨directoryAt_longName_root, fun e he => ?_⟩
  obtain rfl : ⟨11, 48, List.replicate 40 97⟩ = e := Option.some.inj he
  exact ⟨directoryAt_longName_sub, fun _ _ => trivial⟩

lemma searched_longFile : SearchedAlong longNameEntries (components longFilePath) := by
  rw [show components longFilePath = [List.replicate 40 97, [98]] by decide]
  refine ⟨by decide, fun e he => ?_⟩
  obtain rfl : ⟨11, 48, List.replicate 40 97⟩ = e := Option.some.inj he
  exact ⟨by decide, fun _ _ => trivial⟩

theorem inodeGetIdxByPath_resolves_longFile : ∃ fuel₀, ∀ fuel ≥ fuel₀,
    Prod.snd <$> inodeGetIdxByPath longNameMount fuel freshDcache longFilePath = .ok 13 :=
  (inodeGetIdxByPath_resolves (by decide) rfl admissible_longFile.fits through_longFile).mpr
    searched_longFile

/-- An image of 64 KiB blocks whose root directory has 4 GiB: two extents of 32768 blocks, and in
every block entries of 32 KiB that are not in use. The first block begins with `.` and `..`. -/
def hugePieces : List (ℕ × List UInt8) := [
  (1024, [16]), (1028, [0x10, 0, 1]), (1048, [6]), (1058, [8]), (1064, [16]), (1112, [128]),
  (65544, [2]), (131200, [0xED, 0x41]), (131234, [8]),
  (131240, [0x0A, 0xF3, 2, 0, 4, 0, 0, 0, 0, 0, 0, 0,
    0, 0, 0, 0, 0, 0x80, 0, 0, 16, 0, 0, 0, 0, 0x80, 0, 0, 0, 0x80, 0, 0, 0x10, 0x80, 0, 0]),
  (131308, [1]),
  (2 ^ 20, [2, 0, 0, 0, 12, 0, 1, 2, 46, 0, 0, 0, 2, 0, 0, 0, 0xF4, 0x7F, 2, 2, 46, 46])]

def hugeDisk : Disk := fun i =>
  match hugePieces.find? fun piece => piece.1 ≤ i ∧ i < piece.1 + piece.2.length with
  | some piece => piece.2.getD (i - piece.1) 0
  | none => if 2 ^ 20 ≤ i ∧ i % 32768 = 5 then 0x80 else 0

def hugeMount : Mount where
  disk := hugeDisk
  super := ⟨16, 65552, 0, 6, 524288, 16, 128, 0⟩
  gdescTable := [⟨2⟩]

def hugeExtents : List Ext4Extent := [⟨0, 32768, 0, 16⟩, ⟨32768, 32768, 0, 32784⟩]

def hugeRoot : Ext4Inode where
  iMode := 0x41ED
  iSizeLo := 0
  iFlags := 0x80000
  iBlock := [0x0A, 0xF3, 2, 0, 4, 0, 0, 0, 0, 0, 0, 0,
    0, 0, 0, 0, 0, 0x80, 0, 0, 16, 0, 0, 0, 0, 0x80, 0, 0, 0, 0x80, 0, 0, 0x10, 0x80, 0, 0] ++
    List.replicate 24 0
  iSizeHigh := 1

def unusedEntry : Ext4DirEntry2 := ⟨0, 32768, []⟩

def hugeBlocks : List (List Ext4DirEntry2) :=
  [⟨2, 12, [46]⟩, ⟨2, 32756, [46, 46]⟩, unusedEntry] ::
    List.replicate 65535 [unusedEntry, unusedEntry]

lemma hugeRoot_stored : ExtTree.Stored hugeMount 0 hugeExtents hugeRoot.iBlock := by
  refine ⟨rfl, ExtTree.entries_cons.mpr ⟨rfl, ExtTree.entries_cons.mpr ⟨rfl, ?_⟩⟩, by decide⟩
  intro j x hx
  simp at hx

lemma inodeGetDataPblock_huge {l : ℕ} (hl : l < 65536) :
    ∃ r, inodeGetDataPblock hugeMount 1 hugeRoot l = .ok (16 + l, r) := by
  have hinit : ∀ a ∈ ExtTree.extents 0 hugeExtents, a.Initialised := by
    unfold Ext4Extent.Initialised
    decide
  have hw : ExtTree.WellFormed 0 hugeExtents := ⟨by decide, by decide⟩
  have hends : ∀ e ∈ hugeExtents, e.eeBlock + e.eeLen < 2 ^ 32 := by decide
  have hrun : ∀ e ∈ hugeExtents, e.Covers l → e.eeStartLo + (l - e.eeBlock) = 16 + l →
      ∃ r, inodeGetDataPblock hugeMount 1 hugeRoot l = .ok (16 + l, r) := by
    intro e he hc hstart
    rw [inodeGetDataPblock, if_pos (by decide),
      ExtTree.extentGetPblock_of_covers hugeRoot_stored hw hinit he (hends e he) hc Nat.one_pos, hstart]
    exact ⟨_, rfl⟩
  by_cases hfirst : l < 32768
  · refine hrun ⟨0, 32768, 0, 16⟩ (by simp [hugeExtents]) ⟨Nat.zero_le _, ?_⟩ (by simp)
    simpa [Ext4Extent.length] using hfirst
  · refine hrun ⟨32768, 32768, 0, 32784⟩ (by simp [hugeExtents]) ⟨not_lt.mp hfirst, ?_⟩ ?_
    · simp [Ext4Extent.length]
      omega
    · dsimp only
      omega

/-- Behind the first entries the disk is periodic. -/
lemma hugeDisk_periodic {i : ℕ} (hi : 2 ^ 20 + 22 ≤ i) :
    hugeDisk i = if i % 32768 = 5 then 0x80 else 0 := by
  have hnone : hugePieces.find? (fun piece => piece.1 ≤ i ∧ i < piece.1 + piece.2.length) =
      none := by
    rw [List.find?_eq_none]
    simp only [hugePieces, List.forall_mem_cons, List.length_cons, List.length_nil,
      decide_eq_true_eq]
    simp only [List.not_mem_nil, false_imp_iff, implies_true, and_true]
    omega
  rw [hugeDisk, hnone]
  have hdata : 2 ^ 20 ≤ i := by omega
  simp only [hdata, true_and]

lemma unusedEntry_stored {a k : ℕ} (ha : 2 ^ 20 + 22 ≤ a + k) (hmod : (a + k) % 32768 = 0)
    (hk : k + 32768 ≤ 65536) : StoredAt (readAt hugeDisk a 65536) k unusedEntry := by
  have hbyte : ∀ i < 8, hugeDisk (a + k + i) = if i = 5 then 0x80 else 0 := by
    intro i hi
    rw [hugeDisk_periodic (by omega)]
    congr 1
    rw [eq_iff_iff]
    omega
  have hread : readAt hugeDisk (a + k) 8 = [0, 0, 0, 0, 0, 0x80, 0, 0] := by
    rw [readAt, List.map_congr_left fun i hi => hbyte i (List.mem_range.mp hi)]
    decide
  apply storedAt_readAt
  · rw [hread]
    decide
  · rw [hread]
    decide
  · rw [hbyte 6 (by decide)]
    rfl
  · rfl
  · decide
  · exact hk

set_option maxRecDepth 100000 in
lemma directory_huge : Directory hugeMount 1 hugeRoot hugeBlocks := by
  have hbs : superBlockSize hugeMount.super = 65536 := by decide
  have hlength : hugeBlocks.length = 65536 := by
    rw [hugeBlocks, List.length_cons, List.length_replicate]
  refine ⟨?_, ?_, fun l hl => ?_, fun l es hl => ?_⟩
  · rw [hlength, hbs]
    decide
  · rw [hlength]
    decide
  · obtain ⟨r, hr⟩ := inodeGetDataPblock_huge (show l < 65536 by omega)
    exact ⟨16 + l, r, hr⟩
  · have hin : l < 65536 := hlength ▸ (List.getElem?_eq_some_iff.mp hl).1
    obtain ⟨r, hr⟩ := inodeGetDataPblock_huge hin
    rw [readAt_fileByte hr (by omega), blocks2bytes, hbs]
    cases l with
    | zero =>
      obtain rfl := Option.some.inj hl
      refine ⟨?_, ?_, unusedEntry_stored (by decide) (by decide) (by decide), rfl⟩
      · exact storedAt_readAt (by decide) (by decide) (by decide)
          (by decide) (by decide) (by decide)
      · exact storedAt_readAt (by decide) (by decide) (by decide)
          (by decide) (by decide) (by decide)
    | succ l =>
      obtain rfl : es = [unusedEntry, unusedEntry] := by
        rw [hugeBlocks, List.getElem?_cons_succ, List.getElem?_replicate] at hl
        split_ifs at hl
        exact (Option.some.inj hl).symm
      exact ⟨unusedEntry_stored (by omega) (by omega) (by decide),
        unusedEntry_stored (by simp only [unusedEntry]; omega) (by simp only [unusedEntry]; omega)
          (by decide), rfl⟩

lemma findEntry_huge : findEntry hugeBlocks.flatten [120] = none := by
  have hfirst : ∀ e ∈ [⟨2, 12, [46]⟩, ⟨2, 32756, [46, 46]⟩, unusedEntry], ¬e.Is [120] := by decide
  rw [findEntry, List.find?_eq_none]
  intro e he
  rw [decide_eq_true_eq]
  obtain ⟨es, hes, he⟩ := List.mem_flatten.mp he
  apply hfirst
  rw [hugeBlocks] at hes
  rcases List.mem_cons.mp hes with rfl | hes
  · exact he
  · rw [List.eq_of_mem_replicate hes] at he
    have hunused : e = unusedEntry := by simpa using he
    rw [hunused]
    simp

lemma directoryAt_huge : DirectoryAt hugeMount 1 (fun _ => hugeBlocks.flatten) rootInodeN :=
  ⟨hugeRoot, hugeBlocks, by decide +kernel, by decide, directory_huge, rfl⟩

set_option maxRecDepth 100000 in
/-- A name that the root directory of 4 GiB does not have is searched for without end. -/
theorem inodeGetIdxByPath_resolves_counterexample :
    superFill hugeDisk = .ok hugeMount.super ∧
    superGroupFill hugeDisk hugeMount.super = .ok hugeMount.gdescTable ∧
    ThroughDirectories hugeMount 1 (fun _ => hugeBlocks.flatten) (components [slash, 120]) ∧
    resolveNames (fun _ => hugeBlocks.flatten) rootInodeN (components [slash, 120]) = 0 ∧
    ∀ fuel ≥ 1, inodeGetIdxByPath hugeMount fuel freshDcache [slash, 120] = .error .fuel := by
  have hcomponents : components [slash, 120] = [[120]] := by decide
  have hnot : ¬Reached [120] 0 hugeBlocks.flatten := by
    intro hreached
    have hstop := hreached.stop_lt directory_huge.entries findEntry_huge
    exact absurd hstop (by decide)
  rw [hcomponents]
  refine ⟨by decide, by decide, ⟨directoryAt_huge, fun e he => ?_⟩, ?_,
    fun fuel hfuel => ?_⟩
  · rw [findEntry_huge] at he
    cases he
  · rw [resolveNames, findEntry_huge]
  · have hlookup := (lookupName_directory (by decide) directoryAt_huge hfuel [120]).2 hnot
    have hnumber := inodeGetIdxByPath_number hugeMount fuel tree_freshDcache
      (sound_nil freshDcache) (show [slash, 120].head? = some slash from rfl) (by decide)
    rw [hcomponents, resolveTokens, if_neg (by decide), hlookup] at hnumber
    cases hrun : inodeGetIdxByPath hugeMount fuel freshDcache [slash, 120] with
    | ok r =>
      rw [hrun] at hnumber
      cases hnumber
    | error e =>
      rw [hrun] at hnumber
      exact congrArg Except.error (Except.error.inj hnumber)

end Spotlight.Ext4
