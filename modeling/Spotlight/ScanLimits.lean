import Spotlight.ListingLookup
import Spotlight.Scans

/-! Malformed directories: whether the scans of them end, and what they read. -/
namespace Spotlight.Ext4
open Bytes Records Loops

variable {σ : Type} {S β : Type} {fs : Mount} {fuel : ℕ} {inode : Ext4Inode} {o n : ℕ}
  {name : List UInt8} {ctx : InodeDirCtx} {es : List Ext4DirEntry2} {scan : Scan S β} {start : S}
  {filler : σ → List UInt8 → ℕ → σ × Bool} {t : σ} {q : ℕ × σ}

/-- The scans read inside of the block buffer exactly when every entry that they meet lies in its
block, as far as it is read. The listing stores inside of `name_buf` where the names have room. -/
theorem scans_inside (hlog : fs.super.sLogBlockSize ≤ 20)
    (hreset : inodeDirCtxReset fs fuel inode = .ok ctx) :
    (∀ name, (dentryScan fs name).FindsWithout fs fuel inode .bounds 0 →
      ((∀ n, dentryLoop fs fuel inode name n 0 ctx ≠ .error .bounds) ↔
        ∀ o, (dentryScan fs name).Meets fs fuel inode 0 o →
          (rawDentry fs fuel inode o).Inside (superBlockSize fs.super)
            (o % superBlockSize fs.super) (name.length = (rawDentry fs fuel inode o).nameLen))) ∧
    ∀ (σ : Type) (filler : σ → List UInt8 → ℕ → σ × Bool) (offset : ℕ) (t : σ),
      (readdirScan fs filler).FindsWithout fs fuel inode .bounds (offset, t) →
      (∀ q, (readdirScan fs filler).Meets fs fuel inode (offset, t) q →
        q.1 + (rawDentry fs fuel inode q.1).recLen < 2 ^ 63 ∧
          ((rawDentry fs fuel inode q.1).inode ≠ 0 →
            (rawDentry fs fuel inode q.1).nameLen < ext4NameLen)) →
      ((∀ n, opReaddirLoop fs fuel inode filler n offset ctx t ≠ .error .bounds) ↔
        ∀ q, (readdirScan fs filler).Meets fs fuel inode (offset, t) q →
          (rawDentry fs fuel inode q.1).Inside (superBlockSize fs.super)
            (q.1 % superBlockSize fs.super) True) := by
  have hctx := (holds_of_dirCtxUpdate hreset).1
  constructor
  · intro name hfinds
    simp only [dentryLoop_scan hlog hctx]
    rw [← not_exists, Scan.result_eq_error (by decide) (by decide) hfinds, not_exists]
    refine forall_congr' fun o => ?_
    rw [not_and]
    refine imp_congr_right fun _ => ?_
    rw [dentryScan_offset, dentryScan_entry, dentryEntry_bounds, not_not]
  · intro σ filler offset t hfinds hroom
    simp only [opReaddirLoop_scan hlog hctx]
    rw [← not_exists, Scan.result_eq_error (by decide) (by decide) hfinds, not_exists]
    refine forall_congr' fun q => ?_
    rw [not_and]
    refine imp_congr_right fun hmeets => ?_
    rw [readdirScan_offset, readdirScan_entry, readdirEntry_bounds, not_not]
    exact and_iff_left (hroom q hmeets)

lemma dentryScan_entries (h : Tiles (EntryAt fs fuel inode) Ext4DirEntry2.recLen
      (inodeGetSize inode) 0 es) (hreached : Reached name 0 es)
    (hcomes : Comes ((dentryScan fs name).turn fs fuel inode) 0 o) :
    ∃ es', Tiles (EntryAt fs fuel inode) Ext4DirEntry2.recLen (inodeGetSize inode) o es' ∧
      Reached name o es' := by
  induction hcomes with
  | refl => exact ⟨es, h, hreached⟩
  | tail _ hturn ih =>
    obtain ⟨es', htiles, hreached⟩ := ih
    obtain ⟨hsize, -, hgoes⟩ := Scan.turn_eq_inr.mp hturn
    rw [dentryScan_offset] at hsize hgoes
    rw [dentryScan_entry] at hgoes
    obtain ⟨e, es', rfl, hentry, hrest⟩ := htiles.exists_cons hsize
    obtain ⟨hnot, hnext⟩ := dentryEntry_inr hgoes
    have hreached := hreached.2.resolve_left (mt (hentry.raw_is name).mpr hnot)
    rw [hentry.raw.2.1, Nat.mod_eq_of_lt hreached.lt] at hnext
    exact ⟨es', hnext ▸ hrest, hnext ▸ hreached⟩

lemma readdirScan_entries (h : Tiles (EntryAt fs fuel inode) Ext4DirEntry2.recLen
      (inodeGetSize inode) o es)
    (hcomes : Comes ((readdirScan fs filler).turn fs fuel inode) (o, t) q) :
    ∃ es', es' <:+ es ∧
      Tiles (EntryAt fs fuel inode) Ext4DirEntry2.recLen (inodeGetSize inode) q.1 es' := by
  induction hcomes with
  | refl => exact ⟨es, List.suffix_refl es, h⟩
  | tail _ hturn ih =>
    obtain ⟨es', hsuffix, htiles⟩ := ih
    obtain ⟨hsize, -, hgoes⟩ := Scan.turn_eq_inr.mp hturn
    rw [readdirScan_offset] at hsize hgoes
    rw [readdirScan_entry] at hgoes
    obtain ⟨e, es', rfl, hentry, hrest⟩ := htiles.exists_cons hsize
    have hnext := readdirEntry_inr hgoes
    rw [hentry.raw.2.1] at hnext
    exact ⟨es', (List.suffix_cons e es').trans hsuffix, hnext ▸ hrest⟩

lemma Scan.findsWithout_of_entries {fault : Fault}
    (h : ∀ s, Comes (scan.turn fs fuel inode) start s → scan.offset s < inodeGetSize inode →
      ∃ e, EntryAt fs fuel inode (scan.offset s) e) :
    scan.FindsWithout fs fuel inode fault start := by
  intro s hcomes hsize hp
  obtain ⟨e, hentry⟩ := h s hcomes hsize
  obtain ⟨⟨p, r, hfound⟩, -, -⟩ := hentry.raw
  rw [lookupAt, hfound] at hp
  cases hp

lemma dentryScan_tiles (h : Tiles (EntryAt fs fuel inode) Ext4DirEntry2.recLen
      (inodeGetSize inode) 0 es) (hreached : Reached name 0 es) :
    (∀ fault, (dentryScan fs name).FindsWithout fs fuel inode fault 0) ∧
    (∀ o o', (dentryScan fs name).Passes fs fuel inode 0 o o' →
      (rawDentry fs fuel inode o).recLen ≠ 0 ∧
        o + (rawDentry fs fuel inode o).recLen < 2 ^ 32) ∧
    ∀ o, (dentryScan fs name).Meets fs fuel inode 0 o → ∀ named,
      (rawDentry fs fuel inode o).Inside (superBlockSize fs.super)
        (o % superBlockSize fs.super) named := by
  have hentry : ∀ o, Comes ((dentryScan fs name).turn fs fuel inode) 0 o →
      o < inodeGetSize inode → ∃ e, EntryAt fs fuel inode o e ∧
        (e.Is name ∨ o + e.recLen < 2 ^ 32) := by
    intro o hcomes hsize
    obtain ⟨es', htiles, hreached⟩ := dentryScan_entries h hreached hcomes
    obtain ⟨e, es', rfl, hentry, -⟩ := htiles.exists_cons hsize
    exact ⟨e, hentry, hreached.2.imp_right Reached.lt⟩
  refine ⟨fun fault => Scan.findsWithout_of_entries fun o hcomes hsize => ?_, ?_, ?_⟩
  · obtain ⟨e, he, -⟩ := hentry o hcomes hsize
    exact ⟨e, he⟩
  · rintro o o' ⟨⟨hcomes, hsize, -⟩, hgoes⟩
    obtain ⟨e, he, hlt⟩ := hentry o hcomes hsize
    rw [dentryScan_offset, dentryScan_entry] at hgoes
    obtain ⟨hnot, -⟩ := dentryEntry_inr hgoes
    rw [he.raw_is] at hnot
    rw [he.raw.2.1]
    exact ⟨he.recLen_pos.ne', hlt.resolve_left hnot⟩
  · rintro o ⟨hcomes, hsize, -⟩
    obtain ⟨e, he, -⟩ := hentry o hcomes hsize
    exact he.raw.2.2

lemma readdirScan_tiles (h : Tiles (EntryAt fs fuel inode) Ext4DirEntry2.recLen
      (inodeGetSize inode) o es) (hsize : inodeGetSize inode < 2 ^ 63) (hfits : FitsNameBuf es)
    (filler : σ → List UInt8 → ℕ → σ × Bool) (t : σ) :
    (∀ fault, (readdirScan fs filler).FindsWithout fs fuel inode fault (o, t)) ∧
    ∀ q, (readdirScan fs filler).Meets fs fuel inode (o, t) q →
      (rawDentry fs fuel inode q.1).recLen ≠ 0 ∧
        (rawDentry fs fuel inode q.1).Listable (superBlockSize fs.super) q.1 := by
  have hentry : ∀ q, Comes ((readdirScan fs filler).turn fs fuel inode) (o, t) q →
      q.1 < inodeGetSize inode → ∃ e ∈ es, EntryAt fs fuel inode q.1 e ∧
        q.1 + e.recLen ≤ inodeGetSize inode := by
    intro q hcomes hlt
    obtain ⟨es', hsuffix, htiles⟩ := readdirScan_entries h hcomes
    obtain ⟨e, es', rfl, hentry, hrest⟩ := htiles.exists_cons hlt
    exact ⟨e, hsuffix.subset List.mem_cons_self, hentry, hrest.le⟩
  refine ⟨fun fault => Scan.findsWithout_of_entries fun q hcomes hlt => ?_, ?_⟩
  · obtain ⟨e, -, he, -⟩ := hentry q hcomes hlt
    exact ⟨e, he⟩
  · rintro q ⟨hcomes, hlt, -⟩
    obtain ⟨e, hmem, he, hle⟩ := hentry q hcomes hlt
    refine ⟨?_, he.raw.2.2 True, ?_⟩
    · rw [he.raw.2.1]
      exact he.recLen_pos.ne'
    · rw [he.raw.2.1]
      exact ⟨hle.trans_lt hsize, hfits e hmem⟩

set_option maxRecDepth 100000 in
lemma reset_longName : ∃ ctx, inodeDirCtxReset longNameMount 0 (longNameDir 9) = .ok ctx := by
  obtain ⟨p, r, hp⟩ := longName_root.2.mapped 0 (.inl rfl)
  exact ⟨_, dirCtxUpdate_ok (by decide) hp⟩

set_option maxRecDepth 100000 in
theorem scans_inside_longName : ∃ ctx,
    inodeDirCtxReset longNameMount 0 (longNameDir 9) = .ok ctx ∧
    (∀ n, dentryLoop longNameMount 0 (longNameDir 9) [98] n 0 ctx ≠ .error .bounds) ∧
    ∀ n, opReaddirLoop longNameMount 0 (longNameDir 9) keepAll n 0 ctx [] ≠ .error .bounds := by
  obtain ⟨ctx, hreset⟩ := reset_longName
  obtain ⟨-, hdir⟩ := longName_root
  obtain ⟨hfinds, -, hinside⟩ := dentryScan_tiles (show Tiles _ _ _ _ _ from hdir.entries)
    (show Reached [98] 0 [longNameRoot].flatten by decide)
  obtain ⟨hfinds', hmeets⟩ := readdirScan_tiles hdir.entries (by decide) (by decide) keepAll []
  obtain ⟨hname, hlist⟩ := scans_inside (by decide) hreset
  exact ⟨ctx, hreset, (hname _ (hfinds _)).mpr fun o h => hinside o h _,
    (hlist _ keepAll 0 [] (hfinds' _) fun q h => (hmeets q h).2.2).mpr fun q h => (hmeets q h).2.1⟩

lemma dentryEntry_skips {e : RawDentry} (hinode : e.inode = 0)
    (hhead : o % superBlockSize fs.super + 6 ≤ superBlockSize fs.super) (name : List UInt8) :
    dentryEntry fs name o e = .inr ((o + e.recLen) % 2 ^ 32) := by
  have hinside : ∀ named, e.Inside (superBlockSize fs.super) (o % superBlockSize fs.super) named :=
    fun named => ⟨hhead, fun h => absurd hinode h⟩
  rw [dentryEntry, if_pos (hinside _), if_neg fun his => his.1 hinode]

lemma readdirEntry_skips {e : RawDentry} (hinode : e.inode = 0)
    (hhead : o % superBlockSize fs.super + 6 ≤ superBlockSize fs.super)
    (hnext : o + e.recLen < 2 ^ 63) (filler : σ → List UInt8 → ℕ → σ × Bool) (t : σ) :
    readdirEntry fs filler (o, t) e = .inr (o + e.recLen, t) := by
  have hlist : e.Listable (superBlockSize fs.super) o :=
    ⟨⟨hhead, fun h => absurd hinode h⟩, hnext, fun h => absurd hinode h⟩
  rw [readdirEntry, if_pos hlist, if_pos (.inl hinode)]

/-- The image with the long name, where the first entry of the root directory is not in use and has
this length. -/
def skippedDisk (lo hi : UInt8) : Disk := fun i =>
  if 9216 ≤ i ∧ i < 9222 then [0, 0, 0, 0, lo, hi].getD (i - 9216) 0 else longNameDisk i

def skippedMount (lo hi : UInt8) : Mount where
  disk := skippedDisk lo hi
  super := longNameMount.super
  gdescTable := longNameMount.gdescTable

lemma skipped_lookup (lo hi : UInt8) (fuel : ℕ) :
    inodeGetDataPblock (skippedMount lo hi) fuel (longNameDir 9) 0 = .ok (9, 1) := rfl

lemma skipped_reset (lo hi : UInt8) (fuel : ℕ) :
    ∃ ctx, inodeDirCtxReset (skippedMount lo hi) fuel (longNameDir 9) = .ok ctx :=
  ⟨_, dirCtxUpdate_ok (show longNameMount.super.sLogBlockSize ≤ 20 by decide)
    (skipped_lookup lo hi fuel)⟩

lemma skipped_raw (lo hi : UInt8) (fuel : ℕ) :
    (rawDentry (skippedMount lo hi) fuel (longNameDir 9) 0).inode = 0 ∧
    (rawDentry (skippedMount lo hi) fuel (longNameDir 9) 0).recLen =
      lo.toNat + 256 * hi.toNat := by
  have hbs : superBlockSize (skippedMount lo hi).super = 1024 :=
    show superBlockSize longNameMount.super = 1024 by decide
  have hstart : blocks2bytes (skippedMount lo hi).super 9 = 9216 :=
    show blocks2bytes longNameMount.super 9 = 9216 by decide
  have hbyte : ∀ i < 6, (dataBlock (skippedMount lo hi) fuel (longNameDir 9) 0).getD i 0 =
      [0, 0, 0, 0, lo, hi].getD i 0 := by
    intro i hi'
    rw [dataBlock, pblockOf_eq (skipped_lookup lo hi fuel), hbs, hstart,
      getD_readAt _ _ (by omega)]
    show skippedDisk lo hi (9216 + i) = _
    rw [skippedDisk, if_pos (by omega), Nat.add_sub_cancel_left]
  simp only [rawDentry, Nat.zero_div, Nat.zero_mod, u32At, u16At]
  rw [hbyte 0 (by decide), hbyte 1 (by decide), hbyte 2 (by decide), hbyte 3 (by decide),
    hbyte 4 (by decide), hbyte 5 (by decide)]
  exact ⟨rfl, rfl⟩

lemma skipped_turn (lo hi : UInt8) (fuel : ℕ) :
    (∀ name, (dentryScan (skippedMount lo hi) name).turn (skippedMount lo hi) fuel (longNameDir 9)
      0 = .inr (lo.toNat + 256 * hi.toNat)) ∧
    ∀ (σ : Type) (filler : σ → List UInt8 → ℕ → σ × Bool) (t : σ),
      (readdirScan (skippedMount lo hi) filler).turn (skippedMount lo hi) fuel (longNameDir 9)
        (0, t) = .inr (lo.toNat + 256 * hi.toNat, t) := by
  obtain ⟨hinode, hrecLen⟩ := skipped_raw lo hi fuel
  have hbs : superBlockSize (skippedMount lo hi).super = 1024 :=
    show superBlockSize longNameMount.super = 1024 by decide
  have hhead : 0 % superBlockSize (skippedMount lo hi).super + 6 ≤
      superBlockSize (skippedMount lo hi).super := by
    rw [hbs]
    decide
  have hlookup : lookupAt (skippedMount lo hi) fuel (longNameDir 9) 0 = .ok (9, 1) := by
    rw [lookupAt, Nat.zero_div, Nat.zero_mod, skipped_lookup]
  have hsize : 0 < inodeGetSize (longNameDir 9) := by decide
  have hlo := lo.toNat_lt
  have hhi := hi.toNat_lt
  constructor
  · intro name
    rw [Scan.turn_entry hsize hlookup, dentryScan_entry, dentryScan_offset,
      dentryEntry_skips hinode hhead, hrecLen, Nat.zero_add, Nat.mod_eq_of_lt (by omega)]
  · intro σ filler t
    rw [Scan.turn_entry hsize hlookup, readdirScan_entry, readdirScan_offset,
      readdirEntry_skips hinode hhead (by omega), hrecLen, Nat.zero_add]

lemma inodeGetIdxByPath_root {fault : Fault}
    (hinode : inodeGetByNumber fs rootInodeN = .ok (some inode))
    (hreset : inodeDirCtxReset fs fuel inode = .ok ctx) (hname : IsName name)
    (hloop : dentryLoop fs fuel inode name fuel 0 ctx = .error fault) :
    Prod.snd <$> inodeGetIdxByPath fs fuel freshDcache (slash :: name) = .error fault := by
  have hcomponents : components (slash :: name) = [name] := by
    rw [show slash :: name = [] ++ slash :: name from rfl, components_append_slash,
      components_name hname]
    rfl
  rw [inodeGetIdxByPath_fresh fs fuel rfl (by simp [hname.noNul, slash]), hcomponents,
    resolveTokens, if_neg (not_lt.mpr hname.length), lookupName, hinode, Outcome.ok_bind,
    Outcome.deref_some, Outcome.ok_bind, hreset, Outcome.ok_bind, hloop]
  rfl

lemma opReaddir_root {fault : Fault}
    (hinode : inodeGetByNumber fs rootInodeN = .ok (some inode))
    (hreset : inodeDirCtxReset fs fuel inode = .ok ctx)
    (hloop : opReaddirLoop fs fuel inode filler fuel 0 ctx t = .error fault) :
    opReaddir fs fuel filler freshDcache [slash] t 0 = .error fault := by
  obtain ⟨d', hopen⟩ := opens_root hinode
  rw [opReaddir, hopen, Outcome.ok_bind]
  dsimp only
  rw [hreset, Outcome.ok_bind, hloop]
  rfl

set_option maxRecDepth 100000 in
/-- An entry of 1022 bytes that is not in use leads to one whose fields end behind the block. -/
theorem scans_inside_counterexample :
    superFill (skippedDisk 254 3) = .ok (skippedMount 254 3).super ∧
    superGroupFill (skippedDisk 254 3) (skippedMount 254 3).super =
      .ok (skippedMount 254 3).gdescTable ∧
    inodeGetByNumber (skippedMount 254 3) rootInodeN = .ok (some (longNameDir 9)) ∧
    ∀ fuel, (∃ ctx, inodeDirCtxReset (skippedMount 254 3) fuel (longNameDir 9) = .ok ctx ∧
        (∀ name, ∀ n ≥ 2, dentryLoop (skippedMount 254 3) fuel (longNameDir 9) name n 0 ctx =
          .error .bounds) ∧
        ∀ n ≥ 2, opReaddirLoop (skippedMount 254 3) fuel (longNameDir 9) keepAll n 0 ctx [] =
          .error .bounds) ∧
      (2 ≤ fuel → Prod.snd <$> inodeGetIdxByPath (skippedMount 254 3) fuel freshDcache [slash, 98] =
        .error .bounds) ∧
      (2 ≤ fuel → opReaddir (skippedMount 254 3) fuel keepAll freshDcache [slash] [] 0 =
        .error .bounds) := by
  have hinode : inodeGetByNumber (skippedMount 254 3) rootInodeN =
      .ok (some (longNameDir 9)) := by
    decide
  refine ⟨by decide, by decide, hinode, fun fuel => ?_⟩
  obtain ⟨ctx, hreset⟩ := skipped_reset 254 3 fuel
  obtain ⟨hname, hlist⟩ := skipped_turn 254 3 fuel
  have hctx := (holds_of_dirCtxUpdate hreset).1
  have hlookup : lookupAt (skippedMount 254 3) fuel (longNameDir 9) 1022 = .ok (9, 1) :=
    skipped_lookup 254 3 fuel
  have hsize : 1022 < inodeGetSize (longNameDir 9) := by decide
  have hhead : ¬1022 % superBlockSize (skippedMount 254 3).super + 6 ≤
      superBlockSize (skippedMount 254 3).super := by decide
  have hscan : ∀ name, ∀ n ≥ 2,
      dentryLoop (skippedMount 254 3) fuel (longNameDir 9) name n 0 ctx = .error .bounds := by
    intro name n hn
    obtain ⟨m, rfl⟩ := Nat.exists_eq_add_of_le' hn
    have hturn : (dentryScan (skippedMount 254 3) name).turn (skippedMount 254 3) fuel
        (longNameDir 9) 1022 = .inl (.error .bounds) := by
      rw [Scan.turn_entry hsize hlookup, dentryScan_entry, dentryScan_offset]
      exact dentryEntry_bounds.mpr fun hinside => hhead hinside.1
    rw [dentryLoop_scan (by decide) hctx, Scan.result_inr (hname name)]
    exact Scan.result_inl hturn m
  have hread : ∀ n ≥ 2,
      opReaddirLoop (skippedMount 254 3) fuel (longNameDir 9) keepAll n 0 ctx [] =
        .error .bounds := by
    intro n hn
    obtain ⟨m, rfl⟩ := Nat.exists_eq_add_of_le' hn
    have hturn : (readdirScan (skippedMount 254 3) keepAll).turn (skippedMount 254 3) fuel
        (longNameDir 9) (1022, []) = .inl (.error .bounds) := by
      rw [Scan.turn_entry hsize hlookup, readdirScan_entry, readdirScan_offset]
      exact readdirEntry_bounds.mpr fun hlist => hhead hlist.1.1
    rw [opReaddirLoop_scan (by decide) hctx, Scan.result_inr (hlist _ keepAll [])]
    exact Scan.result_inl hturn m
  exact ⟨⟨ctx, hreset, hscan, hread⟩, fun hfuel =>
    inodeGetIdxByPath_root hinode hreset ⟨by decide, by decide, by decide, by decide⟩
      (hscan [98] fuel hfuel),
    fun hfuel => opReaddir_root hinode hreset (hread fuel hfuel)⟩

end Spotlight.Ext4
