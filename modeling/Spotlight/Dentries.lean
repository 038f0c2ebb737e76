import Spotlight.Directory
import Spotlight.Records

/-! The entries of a directory, and what the scan for a name finds among them. -/
namespace Spotlight.Ext4
open Bytes Records

/-- `struct ext4_dir_entry_2`; `name_len` is the length of the name. -/
structure Ext4DirEntry2 where
  inode : ℕ
  recLen : ℕ
  name : List UInt8
  deriving DecidableEq, Repr

/-- The entry stands at offset `k` of a block and ends inside it. -/
structure StoredAt (block : List UInt8) (k : ℕ) (e : Ext4DirEntry2) : Prop where
  inode : u32At block k = e.inode
  recLen : u16At block (k + 4) = e.recLen
  nameLen : (block.getD (k + 6) 0).toNat = e.name.length
  name : slice block (k + 8) e.name.length = e.name
  fits : 8 + e.name.length ≤ e.recLen
  inside : k + e.recLen ≤ block.length

lemma storedAt_iff {block : List UInt8} {k : ℕ} {e : Ext4DirEntry2} : StoredAt block k e ↔
    u32At block k = e.inode ∧ u16At block (k + 4) = e.recLen ∧
      (block.getD (k + 6) 0).toNat = e.name.length ∧ slice block (k + 8) e.name.length = e.name ∧
      8 + e.name.length ≤ e.recLen ∧ k + e.recLen ≤ block.length := by
  constructor
  · rintro ⟨h₁, h₂, h₃, h₄, h₅, h₆⟩
    exact ⟨h₁, h₂, h₃, h₄, h₅, h₆⟩
  · rintro ⟨h₁, h₂, h₃, h₄, h₅, h₆⟩
    exact ⟨h₁, h₂, h₃, h₄, h₅, h₆⟩

instance (block : List UInt8) (k : ℕ) (e : Ext4DirEntry2) : Decidable (StoredAt block k e) :=
  decidable_of_iff _ storedAt_iff.symm

lemma storedAt_readAt {disk : Disk} {a bs k : ℕ} {e : Ext4DirEntry2}
    (hinode : u32At (readAt disk (a + k) 8) 0 = e.inode)
    (hrecLen : u16At (readAt disk (a + k) 8) 4 = e.recLen)
    (hnameLen : (disk (a + k + 6)).toNat = e.name.length)
    (hname : readAt disk (a + k + 8) e.name.length = e.name)
    (hfits : 8 + e.name.length ≤ e.recLen) (hinside : k + e.recLen ≤ bs) :
    StoredAt (readAt disk a bs) k e := by
  have hslice : slice (readAt disk a bs) k 8 = readAt disk (a + k) 8 :=
    slice_readAt disk a (by omega)
  rw [← hslice, u32At_slice _ (by decide), Nat.add_zero] at hinode
  rw [← hslice, u16At_slice _ (by decide)] at hrecLen
  refine ⟨hinode, hrecLen, ?_, ?_, hfits, by rwa [length_readAt]⟩
  · rwa [getD_readAt disk a (by omega), ← Nat.add_assoc]
  · rwa [slice_readAt disk a (by omega), ← Nat.add_assoc]

/-- A directory whose entries tile each of its blocks. Logical block numbers have 32 bits, and the
first block is read even when there is none. -/
structure Directory (fs : Mount) (fuel : ℕ) (inode : Ext4Inode)
    (blocks : List (List Ext4DirEntry2)) : Prop where
  size : inodeGetSize inode = blocks.length * superBlockSize fs.super
  count : blocks.length ≤ 2 ^ 32
  mapped : ∀ l, l = 0 ∨ l < blocks.length →
    ∃ p r, inodeGetDataPblock fs fuel inode l = .ok (p, r)
  tiles : ∀ l es, blocks[l]? = some es →
    Tiles (StoredAt (readAt (fileByte fs fuel inode) (l * superBlockSize fs.super)
      (superBlockSize fs.super))) Ext4DirEntry2.recLen (superBlockSize fs.super) 0 es

/-- The entry stands at offset `o` of the directory, in a block that the block map leads to. -/
def EntryAt (fs : Mount) (fuel : ℕ) (inode : Ext4Inode) (o : ℕ) (e : Ext4DirEntry2) : Prop :=
  ∃ p r, inodeGetDataPblock fs fuel inode (o / superBlockSize fs.super) = .ok (p, r) ∧
    o / superBlockSize fs.super < 2 ^ 32 ∧
    StoredAt (readAt fs.disk (blocks2bytes fs.super p) (superBlockSize fs.super))
      (o % superBlockSize fs.super) e

variable {fs : Mount} {fuel : ℕ} {inode : Ext4Inode} {o k l n p r : ℕ} {e : Ext4DirEntry2}
  {block name : List UInt8} {blocks : List (List Ext4DirEntry2)} {es : List Ext4DirEntry2}
  {ctx : InodeDirCtx}

lemma StoredAt.lt (h : StoredAt block k e) : k < block.length := by
  have := h.fits
  have := h.inside
  omega

lemma superBlockSize_le (hlog : fs.super.sLogBlockSize ≤ 20) :
    superBlockSize fs.super ≤ 2 ^ 30 := by
  rw [superBlockSize_eq (by omega)]
  exact Nat.pow_le_pow_right (by decide) (by omega)

lemma offset_div_mod {bs : ℕ} (l : ℕ) (hk : k < bs) :
    (l * bs + k) / bs = l ∧ (l * bs + k) % bs = k := by
  rw [Nat.mul_comm]
  constructor
  · rw [Nat.mul_add_div (Nat.zero_lt_of_lt hk), Nat.div_eq_of_lt hk, Nat.add_zero]
  · rw [Nat.mul_add_mod, Nat.mod_eq_of_lt hk]

lemma readAt_fileByte (hl : inodeGetDataPblock fs fuel inode l = .ok (p, r)) (hp : p ≠ 0) :
    readAt (fileByte fs fuel inode) (l * superBlockSize fs.super) (superBlockSize fs.super) =
      readAt fs.disk (blocks2bytes fs.super p) (superBlockSize fs.super) := by
  apply readAt_congr
  intro i hi
  obtain ⟨hdiv, hmod⟩ := offset_div_mod l hi
  simp only [fileByte, hdiv, hmod, pblockOf_eq hl, if_neg hp, blocks2bytes]

lemma not_storedAt_hole (hl : inodeGetDataPblock fs fuel inode l = .ok (0, r)) :
    ¬StoredAt (readAt (fileByte fs fuel inode) (l * superBlockSize fs.super)
      (superBlockSize fs.super)) k e := by
  intro h
  have hfits := h.fits
  have hinside := h.inside
  rw [length_readAt] at hinside
  have hzero : ∀ i < superBlockSize fs.super,
      (readAt (fileByte fs fuel inode) (l * superBlockSize fs.super)
        (superBlockSize fs.super)).getD i 0 = 0 := by
    intro i hi
    rw [getD_readAt _ _ hi, fileByte]
    simp only [(offset_div_mod l hi).1, pblockOf_eq hl, if_true]
  have hrec := h.recLen
  rw [u16At, hzero _ (by omega), hzero _ (by omega)] at hrec
  have : e.recLen = 0 := hrec.symm
  omega

lemma Directory.entries (h : Directory fs fuel inode blocks) :
    Tiles (EntryAt fs fuel inode) Ext4DirEntry2.recLen (inodeGetSize inode) 0 blocks.flatten := by
  have hall : Tiles (EntryAt fs fuel inode) Ext4DirEntry2.recLen
      ((0 + blocks.length) * superBlockSize fs.super) (0 * superBlockSize fs.super)
      blocks.flatten := by
    refine tiles_flatten fun l es hl => ?_
    rw [Nat.zero_add]
    refine (h.tiles l es hl).shift (k := l * superBlockSize fs.super) fun k e hk => ?_
    have hlt := hk.lt
    rw [length_readAt] at hlt
    have hin : l < blocks.length := (List.getElem?_eq_some_iff.mp hl).1
    obtain ⟨p, r, hp⟩ := h.mapped l (.inr hin)
    obtain ⟨hdiv, hmod⟩ := offset_div_mod l hlt
    have hhole : p ≠ 0 := by
      rintro rfl
      exact not_storedAt_hole hp hk
    rw [EntryAt, hdiv, hmod]
    refine ⟨p, r, hp, hin.trans_le h.count, ?_⟩
    rwa [← readAt_fileByte hp hhole]
  rwa [Nat.zero_add, ← h.size, Nat.zero_mul] at hall

def InodeDirCtx.Holds (fs : Mount) (fuel : ℕ) (inode : Ext4Inode) (ctx : InodeDirCtx) : Prop :=
  dirCtxUpdate fs fuel inode ctx.lblock = .ok ctx

lemma dirCtxUpdate_ok (hlog : fs.super.sLogBlockSize ≤ 20)
    (hl : inodeGetDataPblock fs fuel inode l = .ok (p, r)) : dirCtxUpdate fs fuel inode l =
      .ok ⟨l, readAt fs.disk (blocks2bytes fs.super p) (superBlockSize fs.super)⟩ := by
  have hsize := superBlockSize_le hlog
  rw [dirCtxUpdate, hl, Outcome.ok_bind]
  dsimp only
  rw [diskRead_eq (by omega)]
  rfl

lemma holds_of_dirCtxUpdate (h : dirCtxUpdate fs fuel inode l = .ok ctx) :
    ctx.Holds fs fuel inode ∧ ctx.lblock = l := by
  have hl : ctx.lblock = l := by
    obtain ⟨⟨p, r⟩, -, hrest⟩ := Outcome.bind_eq_ok.mp h
    obtain ⟨buf, -, hctx⟩ := Outcome.bind_eq_ok.mp hrest
    rw [← Except.ok.inj hctx]
  exact ⟨by rw [InodeDirCtx.Holds, hl, h], hl⟩

/-- A block of the directory as it comes into the buffer. -/
def dataBlock (fs : Mount) (fuel : ℕ) (inode : Ext4Inode) (l : ℕ) : List UInt8 :=
  readAt fs.disk (blocks2bytes fs.super (pblockOf fs fuel inode l)) (superBlockSize fs.super)

@[simp] lemma length_dataBlock (fs : Mount) (fuel : ℕ) (inode : Ext4Inode) (l : ℕ) :
    (dataBlock fs fuel inode l).length = superBlockSize fs.super := length_readAt _ _ _

/-- What is taken for an entry, whatever is stored at its place. -/
structure RawDentry where
  inode : ℕ
  recLen : ℕ
  nameLen : ℕ
  name : List UInt8

def rawDentry (fs : Mount) (fuel : ℕ) (inode : Ext4Inode) (o : ℕ) : RawDentry :=
  let block := dataBlock fs fuel inode (o / superBlockSize fs.super % 2 ^ 32)
  let k := o % superBlockSize fs.super
  let nameLen := (block.getD (k + 6) 0).toNat
  ⟨u32At block k, u16At block (k + 4), nameLen, slice block (k + 8) nameLen⟩

/-- The fields that are read, from offset `k` of the block on, end in it. The name is one of them
when it is asked for. -/
def RawDentry.Inside (e : RawDentry) (bs k : ℕ) (named : Prop) : Prop :=
  k + 6 ≤ bs ∧ (e.inode ≠ 0 → k + 7 ≤ bs ∧ (named → k + 8 + e.nameLen ≤ bs))

instance (e : RawDentry) (bs k : ℕ) (named : Prop) [Decidable named] :
    Decidable (e.Inside bs k named) := inferInstanceAs (Decidable (_ ∧ _))

lemma rawDentry_fields (h : block = dataBlock fs fuel inode (o / superBlockSize fs.super % 2 ^ 32)) :
    u32At block (o % superBlockSize fs.super) = (rawDentry fs fuel inode o).inode ∧
    u16At block (o % superBlockSize fs.super + 4) = (rawDentry fs fuel inode o).recLen ∧
    (block.getD (o % superBlockSize fs.super + 6) 0).toNat = (rawDentry fs fuel inode o).nameLen ∧
    slice block (o % superBlockSize fs.super + 8) (rawDentry fs fuel inode o).nameLen =
      (rawDentry fs fuel inode o).name := by
  simp only [h, rawDentry, and_self]

def RawDentry.Is (e : RawDentry) (name : List UInt8) : Prop :=
  e.inode ≠ 0 ∧ name.length = e.nameLen ∧ name = e.name

instance (e : RawDentry) (name : List UInt8) : Decidable (e.Is name) :=
  inferInstanceAs (Decidable (_ ∧ _))

lemma inodeDentryGet_raw (hlog : fs.super.sLogBlockSize ≤ 20) (hctx : ctx.Holds fs fuel inode)
    (hsize : o < inodeGetSize inode)
    (hp : inodeGetDataPblock fs fuel inode (o / superBlockSize fs.super % 2 ^ 32) = .ok (p, r)) :
    ∃ ctx', ctx'.Holds fs fuel inode ∧
      ctx'.buf = dataBlock fs fuel inode (o / superBlockSize fs.super % 2 ^ 32) ∧
      inodeDentryGet fs fuel inode o ctx = .ok (ctx', some (o % superBlockSize fs.super)) := by
  have hupdate := dirCtxUpdate_ok hlog hp
  rw [inodeDentryGet, Outcome.assertThat_true hsize.le, Outcome.ok_bind, if_neg hsize.ne',
    dataBlock, pblockOf_eq hp]
  by_cases hsame : o / superBlockSize fs.super % 2 ^ 32 = ctx.lblock
  · rw [if_pos hsame]
    refine ⟨ctx, hctx, ?_, rfl⟩
    rw [InodeDirCtx.Holds, ← hsame, hupdate] at hctx
    rw [← Except.ok.inj hctx]
  · rw [if_neg hsame, hupdate]
    exact ⟨_, (holds_of_dirCtxUpdate hupdate).1, rfl, rfl⟩

lemma inodeDentryGet_end (ctx : InodeDirCtx) :
    inodeDentryGet fs fuel inode (inodeGetSize inode) ctx = .ok (ctx, none) := by
  rw [inodeDentryGet, Outcome.assertThat_true le_rfl, Outcome.ok_bind, if_pos rfl]
  rfl

lemma bytesAt_ok (h : o + n ≤ block.length) : bytesAt block o n = .ok (slice block o n) := if_pos h

def Ext4DirEntry2.Is (e : Ext4DirEntry2) (name : List UInt8) : Prop :=
  e.inode ≠ 0 ∧ e.name = name

instance (e : Ext4DirEntry2) (name : List UInt8) : Decidable (e.Is name) :=
  inferInstanceAs (Decidable (_ ∧ _))

lemma dentryLoop_end (name : List UInt8) (n : ℕ) (ctx : InodeDirCtx) :
    dentryLoop fs fuel inode name (n + 1) (inodeGetSize inode) ctx = .ok none := by
  rw [dentryLoop, inodeDentryGet_end]
  rfl

/-- One turn of the scan, whatever the directory holds. -/
lemma dentryLoop_raw (hlog : fs.super.sLogBlockSize ≤ 20) (hctx : ctx.Holds fs fuel inode)
    (hsize : o < inodeGetSize inode)
    (hp : inodeGetDataPblock fs fuel inode (o / superBlockSize fs.super % 2 ^ 32) = .ok (p, r))
    (name : List UInt8) (n : ℕ) : ∃ ctx', ctx'.Holds fs fuel inode ∧
    dentryLoop fs fuel inode name (n + 1) o ctx =
      if (rawDentry fs fuel inode o).Inside (superBlockSize fs.super)
          (o % superBlockSize fs.super) (name.length = (rawDentry fs fuel inode o).nameLen) then
        if (rawDentry fs fuel inode o).Is name then .ok (some (rawDentry fs fuel inode o).inode)
        else dentryLoop fs fuel inode name n ((o + (rawDentry fs fuel inode o).recLen) % 2 ^ 32) ctx'
      else .error .bounds := by
  obtain ⟨ctx', hctx', hbuf, hget⟩ := inodeDentryGet_raw hlog hctx hsize hp
  refine ⟨ctx', hctx', ?_⟩
  have hlen : ctx'.buf.length = superBlockSize fs.super := by rw [hbuf, length_dataBlock]
  obtain ⟨hinode, hrecLen, hnameLen, hname⟩ := rawDentry_fields hbuf
  generalize rawDentry fs fuel inode o = e at hinode hrecLen hnameLen hname ⊢
  generalize o % superBlockSize fs.super = k at hget hinode hrecLen hnameLen hname ⊢
  rw [dentryLoop, hget, Outcome.ok_bind]
  dsimp only
  by_cases hhead : k + 6 ≤ superBlockSize fs.super
  · rw [bytesAt_ok (by omega), Outcome.ok_bind, bytesAt_ok (by omega), Outcome.ok_bind,
      u16At_slice _ le_rfl, u32At_slice _ le_rfl, Nat.add_zero, Nat.add_zero, hinode, hrecLen]
    by_cases hzero : e.inode = 0
    · rw [if_pos hzero, if_pos (show e.Inside _ _ _ from ⟨hhead, fun h => absurd hzero h⟩),
        if_neg (show ¬e.Is name from fun his => his.1 hzero)]
    rw [if_neg hzero]
    by_cases hseven : k + 7 ≤ superBlockSize fs.super
    · rw [bytesAt_ok (by omega), Outcome.ok_bind, getD_slice _ Nat.one_pos, Nat.add_zero, hnameLen]
      by_cases hlength : name.length = e.nameLen
      · rw [if_neg (not_not.mpr hlength)]
        by_cases hfits : k + 8 + e.nameLen ≤ superBlockSize fs.super
        · rw [bytesAt_ok (by omega), Outcome.ok_bind, hname,
            if_pos (show e.Inside _ _ _ from ⟨hhead, fun _ => ⟨hseven, fun _ => hfits⟩⟩)]
          by_cases hsame : name = e.name
          · rw [if_neg (not_not.mpr hsame), if_pos (show e.Is name from ⟨hzero, hlength, hsame⟩)]
            rfl
          · rw [if_pos hsame, if_neg (show ¬e.Is name from fun his => hsame his.2.2)]
        · rw [if_neg (show ¬e.Inside _ _ _ from fun h => hfits ((h.2 hzero).2 hlength)), bytesAt,
            if_neg (by omega)]
          rfl
      · rw [if_pos hlength, if_neg (show ¬e.Is name from fun his => hlength his.2.1),
          if_pos (show e.Inside _ _ _ from
            ⟨hhead, fun _ => ⟨hseven, fun h => absurd h hlength⟩⟩)]
    · rw [if_neg (show ¬e.Inside _ _ _ from fun h => hseven (h.2 hzero).1), bytesAt,
        if_neg (by omega)]
      rfl
  · rw [if_neg (show ¬e.Inside _ _ _ from fun h => hhead h.1), bytesAt, if_neg (by omega)]
    rfl

lemma EntryAt.raw (h : EntryAt fs fuel inode o e) :
    (∃ p r, inodeGetDataPblock fs fuel inode (o / superBlockSize fs.super % 2 ^ 32) = .ok (p, r)) ∧
    rawDentry fs fuel inode o = ⟨e.inode, e.recLen, e.name.length, e.name⟩ ∧
    ∀ named, (rawDentry fs fuel inode o).Inside (superBlockSize fs.super)
      (o % superBlockSize fs.super) named := by
  obtain ⟨p, r, hp, hl, hstored⟩ := h
  rw [← Nat.mod_eq_of_lt hl] at hp
  have hraw : rawDentry fs fuel inode o = ⟨e.inode, e.recLen, e.name.length, e.name⟩ := by
    rw [rawDentry, dataBlock, pblockOf_eq hp, hstored.inode, hstored.recLen, hstored.nameLen,
      hstored.name]
  have hfits := hstored.fits
  have hinside := hstored.inside
  rw [length_readAt] at hinside
  refine ⟨⟨p, r, hp⟩, hraw, fun named => ?_⟩
  rw [hraw]
  exact ⟨by omega, fun _ => ⟨by omega, fun _ => by dsimp only; omega⟩⟩

lemma EntryAt.raw_is (h : EntryAt fs fuel inode o e) (name : List UInt8) :
    (rawDentry fs fuel inode o).Is name ↔ e.Is name := by
  rw [h.raw.2.1, RawDentry.Is, Ext4DirEntry2.Is]
  refine and_congr_right fun _ => ⟨fun h => h.2.symm, ?_⟩
  rintro rfl
  exact ⟨rfl, rfl⟩

lemma dentryLoop_turn (hlog : fs.super.sLogBlockSize ≤ 20) (hctx : ctx.Holds fs fuel inode)
    (h : EntryAt fs fuel inode o e) (hsize : o < inodeGetSize inode) (name : List UInt8) (n : ℕ) :
    (e.Is name → dentryLoop fs fuel inode name (n + 1) o ctx = .ok (some e.inode)) ∧
    (¬e.Is name → ∃ ctx', ctx'.Holds fs fuel inode ∧
      dentryLoop fs fuel inode name (n + 1) o ctx =
        dentryLoop fs fuel inode name n ((o + e.recLen) % 2 ^ 32) ctx') := by
  obtain ⟨⟨p, r, hp⟩, hraw, hinside⟩ := h.raw
  obtain ⟨ctx', hctx', hrun⟩ := dentryLoop_raw hlog hctx hsize hp name n
  have his := h.raw_is name
  rw [if_pos (hinside _), hraw] at hrun
  rw [hraw] at his
  rw [hrun]
  exact ⟨fun h => if_pos (his.mpr h), fun h => ⟨ctx', hctx', if_neg (mt his.mp h)⟩⟩

def findEntry (es : List Ext4DirEntry2) (name : List UInt8) : Option Ext4DirEntry2 :=
  es.find? fun e => e.Is name

/-- A scan from `o` on comes to the entry, or to the end of the directory, at an offset that fits
the 32 bits of its variable. -/
def Reached (name : List UInt8) : ℕ → List Ext4DirEntry2 → Prop
  | o, [] => o < 2 ^ 32
  | o, e :: es => o < 2 ^ 32 ∧ (e.Is name ∨ Reached name (o + e.recLen) es)

instance decidableReached (name : List UInt8) :
    (o : ℕ) → (es : List Ext4DirEntry2) → Decidable (Reached name o es)
  | o, [] => inferInstanceAs (Decidable (o < 2 ^ 32))
  | o, e :: es =>
    have := decidableReached name (o + e.recLen) es
    inferInstanceAs (Decidable (o < 2 ^ 32 ∧ (e.Is name ∨ Reached name (o + e.recLen) es)))

lemma Reached.lt (h : Reached name o es) : o < 2 ^ 32 := by
  cases es with
  | nil => exact h
  | cons e es => exact h.1

lemma Reached.stop_lt {At : ℕ → Ext4DirEntry2 → Prop} {stop : ℕ} (h : Reached name o es)
    (htiles : Tiles At Ext4DirEntry2.recLen stop o es) (hnone : findEntry es name = none) :
    stop < 2 ^ 32 := by
  induction es generalizing o with
  | nil =>
    rw [← show o = stop from htiles]
    exact h
  | cons e es ih =>
    rw [findEntry, List.find?_eq_none] at hnone
    have his : ¬e.Is name := by simpa using hnone e List.mem_cons_self
    refine ih (h.2.resolve_left his) htiles.2 ?_
    rw [findEntry, List.find?_eq_none]
    exact fun e' he' => hnone e' (List.mem_cons_of_mem _ he')

lemma EntryAt.recLen_pos (h : EntryAt fs fuel inode o e) : 0 < e.recLen := by
  obtain ⟨p, r, -, -, hstored⟩ := h
  have := hstored.fits
  omega

/-- Blocks end at multiples of their size, so no entry lies across the limit of 32 bits. -/
lemma EntryAt.next_le (hlog : fs.super.sLogBlockSize ≤ 20) (h : EntryAt fs fuel inode o e)
    (ho : o < 2 ^ 32) : o + e.recLen ≤ 2 ^ 32 := by
  obtain ⟨p, r, -, -, hstored⟩ := h
  have hinside := hstored.inside
  rw [length_readAt] at hinside
  have hbs : superBlockSize fs.super = 2 ^ (fs.super.sLogBlockSize + 10) :=
    superBlockSize_eq (by omega)
  have hdvd : superBlockSize fs.super ∣ 2 ^ 32 := by
    rw [hbs]
    exact pow_dvd_pow 2 (by omega)
  obtain ⟨m, hm⟩ := hdvd
  have hdiv := Nat.div_add_mod o (superBlockSize fs.super)
  have hlt : o / superBlockSize fs.super < m := Nat.div_lt_of_lt_mul (hm ▸ ho)
  have hnext : superBlockSize fs.super * (o / superBlockSize fs.super + 1) ≤ 2 ^ 32 :=
    hm ▸ Nat.mul_le_mul_left _ hlt
  rw [Nat.mul_add] at hnext
  omega

lemma dentryLoop_reached (hlog : fs.super.sLogBlockSize ≤ 20)
    (h : Tiles (EntryAt fs fuel inode) Ext4DirEntry2.recLen (inodeGetSize inode) o es)
    (hreached : Reached name o es) (hctx : ctx.Holds fs fuel inode) (hn : es.length < n) :
    dentryLoop fs fuel inode name n o ctx =
      .ok ((findEntry es name).map Ext4DirEntry2.inode) := by
  obtain ⟨n, rfl⟩ := Nat.exists_eq_add_one.mpr (Nat.zero_lt_of_lt hn)
  induction es generalizing o ctx n with
  | nil =>
    obtain rfl : o = inodeGetSize inode := h
    exact dentryLoop_end name n ctx
  | cons e es ih =>
    obtain ⟨hentry, hrest⟩ := h
    have hsize : o < inodeGetSize inode := by
      have := hrest.le
      have := hentry.recLen_pos
      omega
    obtain ⟨hyes, hno⟩ := dentryLoop_turn hlog hctx hentry hsize name n
    by_cases his : e.Is name
    · rw [hyes his, findEntry, List.find?_cons_of_pos (by simpa using his), Option.map_some]
    · obtain ⟨ctx', hctx', hrun⟩ := hno his
      have hreached := hreached.2.resolve_left his
      rw [List.length_cons] at hn
      obtain ⟨m, rfl⟩ : ∃ m, n = m + 1 := Nat.exists_eq_add_one.mpr (by omega)
      rw [hrun, Nat.mod_eq_of_lt hreached.lt, ih hrest hreached hctx' m (by omega), findEntry,
        findEntry, List.find?_cons_of_neg (by simpa using his)]

/-- A scan that would come behind 32 bits begins again and never ends. -/
lemma dentryLoop_hangs (hlog : fs.super.sLogBlockSize ≤ 20) {all : List Ext4DirEntry2}
    (hall : Tiles (EntryAt fs fuel inode) Ext4DirEntry2.recLen (inodeGetSize inode) 0 all)
    (hnot : ¬Reached name 0 all) (hctx : ctx.Holds fs fuel inode) (n : ℕ) :
    dentryLoop fs fuel inode name n 0 ctx = .error .fuel := by
  suffices hgen : ∀ es o ctx, Tiles (EntryAt fs fuel inode) Ext4DirEntry2.recLen
      (inodeGetSize inode) o es → o < 2 ^ 32 → ¬Reached name o es →
      InodeDirCtx.Holds fs fuel inode ctx →
      dentryLoop fs fuel inode name n o ctx = .error .fuel from
    hgen all 0 ctx hall (by decide) hnot hctx
  induction n with
  | zero =>
    intro es o ctx _ _ _ _
    rfl
  | succ n ih =>
    intro es o ctx htiles ho hnot' hctx
    cases es with
    | nil => exact absurd ho hnot'
    | cons e es =>
      obtain ⟨hentry, hrest⟩ := htiles
      have hsize : o < inodeGetSize inode := by
        have := hrest.le
        have := hentry.recLen_pos
        omega
      have his : ¬e.Is name := fun his => hnot' ⟨ho, .inl his⟩
      obtain ⟨ctx', hctx', hrun⟩ := (dentryLoop_turn hlog hctx hentry hsize name n).2 his
      rw [hrun]
      rcases (hentry.next_le hlog ho).lt_or_eq with hlt | heq
      · rw [Nat.mod_eq_of_lt hlt]
        exact ih es _ ctx' hrest hlt (fun hreached => hnot' ⟨ho, .inr hreached⟩) hctx'
      · rw [heq, Nat.mod_self]
        exact ih all 0 ctx' hall (by decide) hnot hctx'

lemma extentGetPblock_mono {fuel' : ℕ} (hle : fuel ≤ fuel') {extents : List UInt8}
    {v : ℕ × Option ℕ} (h : extentGetPblock fs fuel extents l = .ok v) :
    extentGetPblock fs fuel' extents l = .ok v := by
  induction fuel generalizing fuel' extents with
  | zero => cases h
  | succ fuel ih =>
    obtain ⟨fuel', rfl⟩ := Nat.exists_eq_add_one.mpr (Nat.zero_lt_of_lt hle)
    rw [extentGetPblock] at h ⊢
    obtain ⟨eh, heh, h⟩ := Outcome.bind_eq_ok.mp h
    obtain ⟨u, hmagic, h⟩ := Outcome.bind_eq_ok.mp h
    rw [heh, Outcome.ok_bind, hmagic, Outcome.ok_bind]
    split_ifs at h ⊢ with hdepth
    · exact h
    · obtain ⟨ei, hei, h⟩ := Outcome.bind_eq_ok.mp h
      rw [hei, Outcome.ok_bind]
      cases ei with
      | none => cases h
      | some ei =>
        obtain ⟨leaf, hleaf, h⟩ := Outcome.bind_eq_ok.mp h
        dsimp only
        rw [hleaf, Outcome.ok_bind]
        exact ih (Nat.le_of_succ_le_succ hle) h

lemma inodeGetDataPblock_mono {fuel' : ℕ} (hle : fuel ≤ fuel')
    (h : inodeGetDataPblock fs fuel inode l = .ok (p, r)) :
    inodeGetDataPblock fs fuel' inode l = .ok (p, r) := by
  rw [inodeGetDataPblock] at h ⊢
  split_ifs at h ⊢ with hflag
  · obtain ⟨v, hv, h⟩ := Outcome.bind_eq_ok.mp h
    rw [extentGetPblock_mono hle hv]
    exact h
  all_goals exact h

lemma Directory.mono {fuel' : ℕ} (hle : fuel ≤ fuel') (h : Directory fs fuel inode blocks) :
    Directory fs fuel' inode blocks := by
  refine ⟨h.size, h.count, fun l hl => ?_, fun l es hl => ?_⟩
  · obtain ⟨p, r, hp⟩ := h.mapped l hl
    exact ⟨p, r, inodeGetDataPblock_mono hle hp⟩
  · have hin : l < blocks.length := (List.getElem?_eq_some_iff.mp hl).1
    obtain ⟨p, r, hp⟩ := h.mapped l (.inr hin)
    have hsame : readAt (fileByte fs fuel' inode) (l * superBlockSize fs.super)
        (superBlockSize fs.super) = readAt (fileByte fs fuel inode) (l * superBlockSize fs.super)
          (superBlockSize fs.super) := by
      apply readAt_congr
      intro i hi
      simp only [fileByte, (offset_div_mod l hi).1, pblockOf_eq hp,
        pblockOf_eq (inodeGetDataPblock_mono hle hp)]
    rw [hsame]
    exact h.tiles l es hl

lemma dirCtxUpdate_mono {fuel' : ℕ} (hle : fuel ≤ fuel')
    (h : dirCtxUpdate fs fuel inode l = .ok ctx) : dirCtxUpdate fs fuel' inode l = .ok ctx := by
  rw [dirCtxUpdate] at h ⊢
  obtain ⟨⟨p, r⟩, hp, hrest⟩ := Outcome.bind_eq_ok.mp h
  rw [inodeGetDataPblock_mono hle hp, Outcome.ok_bind]
  exact hrest

lemma inodeDentryGet_mono {fuel' : ℕ} (hle : fuel ≤ fuel') {v : InodeDirCtx × Option ℕ}
    (h : inodeDentryGet fs fuel inode o ctx = .ok v) :
    inodeDentryGet fs fuel' inode o ctx = .ok v := by
  rw [inodeDentryGet] at h ⊢
  obtain ⟨u, hassert, h⟩ := Outcome.bind_eq_ok.mp h
  rw [hassert, Outcome.ok_bind]
  split_ifs at h ⊢ with hend hsame
  · exact h
  · exact h
  · obtain ⟨ctx', hupdate, h⟩ := Outcome.bind_eq_ok.mp h
    rw [dirCtxUpdate_mono hle hupdate]
    exact h

lemma dentryLoop_mono {fuel' n' : ℕ} (hle : fuel ≤ fuel') (hn : n ≤ n') {v : Option ℕ}
    (h : dentryLoop fs fuel inode name n o ctx = .ok v) :
    dentryLoop fs fuel' inode name n' o ctx = .ok v := by
  induction n generalizing n' o ctx with
  | zero => cases h
  | succ n ih =>
    obtain ⟨n', rfl⟩ := Nat.exists_eq_add_one.mpr (Nat.zero_lt_of_lt hn)
    have hn := Nat.le_of_succ_le_succ hn
    rw [dentryLoop] at h ⊢
    obtain ⟨⟨ctx', dentry⟩, hget, h⟩ := Outcome.bind_eq_ok.mp h
    rw [inodeDentryGet_mono hle hget, Outcome.ok_bind]
    cases dentry with
    | none => exact h
    | some k =>
      dsimp only at h ⊢
      obtain ⟨recLen, hrecLen, h⟩ := Outcome.bind_eq_ok.mp h
      obtain ⟨number, hnumber, h⟩ := Outcome.bind_eq_ok.mp h
      rw [hrecLen, Outcome.ok_bind, hnumber, Outcome.ok_bind]
      split_ifs at h ⊢ with hzero
      · exact ih hn h
      · obtain ⟨nameLen, hnameLen, h⟩ := Outcome.bind_eq_ok.mp h
        rw [hnameLen, Outcome.ok_bind]
        split_ifs at h ⊢ with hlen
        · exact ih hn h
        · obtain ⟨stored, hstored, h⟩ := Outcome.bind_eq_ok.mp h
          rw [hstored, Outcome.ok_bind]
          split_ifs at h ⊢ with hname
          · exact ih hn h
          · exact h

lemma lookupName_mono {fuel' idx : ℕ} (hle : fuel ≤ fuel') {v : Ext4Inode × Option ℕ}
    (h : lookupName fs fuel idx name = .ok v) : lookupName fs fuel' idx name = .ok v := by
  obtain ⟨found, hnumber, h⟩ := Outcome.bind_eq_ok.mp h
  obtain ⟨inode, hinode, h⟩ := Outcome.bind_eq_ok.mp h
  obtain ⟨dctx, hdctx, h⟩ := Outcome.bind_eq_ok.mp h
  obtain ⟨number, hloop, h⟩ := Outcome.bind_eq_ok.mp h
  rw [inodeDirCtxReset] at hdctx
  rw [lookupName, hnumber, Outcome.ok_bind, hinode, Outcome.ok_bind, inodeDirCtxReset,
    dirCtxUpdate_mono hle hdctx, Outcome.ok_bind, dentryLoop_mono hle hle hloop]
  exact h

end Spotlight.Ext4
