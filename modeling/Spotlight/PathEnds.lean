import Spotlight.PathResolve

/-! When the measuring of names, the walk through the cache and the lookup of a path end. -/
namespace Spotlight.Ext4
open Bytes Records

variable {fs : Mount} {fuel fuel' depth : ℕ} {dir : ℕ → List Ext4DirEntry2} {d : Dcache}
  {kids : Option ℕ → List ℕ} {path : List UInt8}

lemma Sound.mono (hle : fuel ≤ fuel') (h : Sound fs fuel d kids) : Sound fs fuel' d kids := by
  intro parent p hp n name hlabel
  obtain ⟨i, hi, hfind⟩ := h parent p hp n name hlabel
  obtain ⟨inode, hlookup⟩ := finds_iff.mp hfind
  exact ⟨i, hi, finds_iff.mpr ⟨inode, lookupName_mono hle hlookup⟩⟩

/-- The counter ends, with the length of the token, when that is at most 255. -/
lemma getPathTokenLenLoop_iff (hnul : 0 ∉ path) :
    (∃ turns, getPathTokenLenLoop path turns 0 = .ok (token path).length) ↔
      (token path).length ≤ 255 := by
  constructor
  · rintro ⟨turns, hturns⟩
    by_contra hlong
    rw [getPathTokenLenLoop_long hnul (not_le.mp hlong) turns (Nat.zero_le _)] at hturns
    cases hturns
  · exact fun hlen => ⟨256, getPathTokenLenLoop_eq hnul hlen (Nat.zero_le _) (by omega)⟩

lemma getCachedInodeNum_of_ok {n : ℕ}
    (h : Prod.snd <$> inodeGetIdxByPath fs fuel d path = .ok n) :
    ∃ r, getCachedInodeNum d path = .ok r := by
  cases hrun : inodeGetIdxByPath fs fuel d path with
  | error e =>
    rw [hrun] at h
    cases h
  | ok r =>
    obtain ⟨u, -, hrun⟩ := Outcome.bind_eq_ok.mp hrun
    obtain ⟨r', hcached, -⟩ := Outcome.bind_eq_ok.mp hrun
    exact ⟨r', hcached⟩

/-- Measuring ends for names of at most 255 bytes. After any run of lookups that kept the cache
sound, the walk through the cache and the lookup of a path end, with the number that the path
means, exactly when every name that is searched for is one of these and every search stays within
32 bits. -/
theorem inodeGetIdxByPath_ends (hlog : fs.super.sLogBlockSize ≤ 20) {calls : List (List UInt8)}
    (hcalls : ∀ path ∈ calls, Admissible fs fuel path)
    (hun : ∀ path ∈ calls, Unshadowed fs fuel rootInodeN rootInodeN (components path))
    (hrun : lookups fs fuel freshDcache calls = .ok d) (hslash : path.head? = some slash)
    (hnul : 0 ∉ path) (hdirs : ThroughDirectories fs depth dir (components path)) :
    (∀ rest : List UInt8, 0 ∉ rest →
      ((∃ turns, getPathTokenLenLoop rest turns 0 = .ok (token rest).length) ↔
        (token rest).length ≤ 255)) ∧
    (((∃ r, getCachedInodeNum d path = .ok r) ∧
      ∃ fuel₀, ∀ fuel ≥ fuel₀, Prod.snd <$> inodeGetIdxByPath fs fuel d path =
        .ok (resolveNames dir rootInodeN (components path))) ↔
      Along dir (Measured dir) rootInodeN (components path)) := by
  obtain ⟨kids, htree, hkeep, -⟩ :=
    lookups_run tree_freshDcache (sound_nil freshDcache) hcalls hrun
  have hnumber : ∀ fuel' ≥ fuel, Prod.snd <$> inodeGetIdxByPath fs fuel' d path =
      resolveTokens fs fuel' rootInodeN (components path) := fun fuel' hle =>
    inodeGetIdxByPath_number fs fuel' htree ((hkeep hun).mono hle) hslash hnul
  refine ⟨fun rest hrest => getPathTokenLenLoop_iff hrest, ?_⟩
  rw [← resolveTokens_iff hlog hdirs]
  constructor
  · rintro ⟨-, fuel₀, hfuel₀⟩
    refine ⟨max fuel₀ fuel, fun fuel' hfuel' => ?_⟩
    rw [← hnumber fuel' (by omega), hfuel₀ fuel' (by omega)]
  · rintro ⟨fuel₀, hfuel₀⟩
    have hends : ∀ fuel' ≥ max fuel₀ fuel, Prod.snd <$> inodeGetIdxByPath fs fuel' d path =
        .ok (resolveNames dir rootInodeN (components path)) := by
      intro fuel' hfuel'
      rw [hnumber fuel' (by omega), hfuel₀ fuel' (by omega)]
    exact ⟨getCachedInodeNum_of_ok (hends _ le_rfl), _, hends⟩

set_option maxRecDepth 100000 in
/-- A lookup of the file in the directory with the long name, in the cache that a lookup of the
directory has left. -/
theorem inodeGetIdxByPath_ends_longFile : ∃ d,
    lookups longNameMount 8 freshDcache [longPath] = .ok d ∧
      (∃ r, getCachedInodeNum d longFilePath = .ok r) ∧
      ∃ fuel₀, ∀ fuel ≥ fuel₀,
        Prod.snd <$> inodeGetIdxByPath longNameMount fuel d longFilePath = .ok 13 := by
  obtain ⟨d, hrun⟩ := exists_lookups longNameMount 8 [longPath]
    (by decide)
  have hcalls : ∀ path ∈ [longPath], Admissible longNameMount 8 path := by
    simp [admissible_long]
  have hun : ∀ path ∈ [longPath],
      Unshadowed longNameMount 8 rootInodeN rootInodeN (components path) := by
    rw [List.forall_mem_singleton, show components longPath = [List.replicate 40 97] by decide,
      Unshadowed, lookupName_long]
    trivial
  have hmeasured : Along longNameEntries (Measured longNameEntries) rootInodeN
      (components longFilePath) := by
    refine (Along.congr fun name hname n => ?_).mpr searched_longFile
    rw [Measured, and_iff_right (admissible_longFile.fits.length name hname)]
  exact ⟨d, hrun, (inodeGetIdxByPath_ends (by decide) hcalls hun hrun rfl
    admissible_longFile.fits.noNul through_longFile).2.mpr hmeasured⟩

def endlessPath : List UInt8 := slash :: List.replicate 256 97

set_option maxRecDepth 100000 in
/-- No directory has such a name, but its measuring does not end. -/
theorem inodeGetIdxByPath_ends_counterexample :
    ThroughDirectories longNameMount 0 longNameEntries (components endlessPath) ∧
    resolveNames longNameEntries rootInodeN (components endlessPath) = 0 ∧
    (∀ turns, getPathTokenLenLoop (List.replicate 256 97) turns 0 = .error .fuel) ∧
    getCachedInodeNum freshDcache endlessPath = .error .fuel ∧
    ∀ fuel, inodeGetIdxByPath longNameMount fuel freshDcache endlessPath = .error .fuel := by
  have hcomponents : components endlessPath = [List.replicate 256 97] := by decide
  have hmissing : findEntry longNameRoot (List.replicate 256 97) = none := by decide
  have hslash : endlessPath.head? = some slash := rfl
  have hnul : 0 ∉ List.replicate 256 (97 : UInt8) := by decide
  have hlong : 255 < (token (List.replicate 256 97)).length := by decide
  have hcached : getCachedInodeNum freshDcache endlessPath = .error .fuel := by
    rw [getCachedInodeNum, getCachedInodeNumLoop, if_pos hslash,
      show endlessPath.tail = List.replicate 256 97 from rfl]
    dsimp only
    rw [getPathTokenLen_eq hnul, if_pos hlong]
    rfl
  rw [hcomponents]
  refine ⟨⟨directoryAt_longName_root, fun e he => ?_⟩, ?_, fun turns => ?_, hcached, fun fuel => ?_⟩
  · rw [show longNameEntries rootInodeN = longNameRoot from rfl, hmissing] at he
    cases he
  · rw [resolveNames, show longNameEntries rootInodeN = longNameRoot from rfl, hmissing]
  · exact getPathTokenLenLoop_long hnul hlong turns (Nat.zero_le _)
  · rw [inodeGetIdxByPath, Outcome.assertThat_true hslash, Outcome.ok_bind, hcached]
    rfl

end Spotlight.Ext4
