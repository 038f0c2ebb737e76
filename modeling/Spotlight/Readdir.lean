import Spotlight.OpRead
import Spotlight.PathResolve

/-! Listing a directory (`op_readdir.c`): what a filler is given, and listing in pages. -/
namespace Spotlight.Ext4
open Bytes Records

def ext4NameLen : ℕ := 255

/-- `inode_get_by_path`; without an inode it returns `-ENOENT`. -/
def inodeGetByPath (fs : Mount) (fuel : ℕ) (d : Dcache) (path : List UInt8) :
    Outcome (Dcache × Option Ext4Inode) := do
  let (d, n) ← inodeGetIdxByPath fs fuel d path
  return (d, ← inodeGetByNumber fs n)

/-- `get_printable_name`: the string in `name_buf`, which has `EXT4_NAME_LEN` bytes. -/
def getPrintableName (buf : List UInt8) (dentry : ℕ) : Outcome (List UInt8) := do
  let nameLen := ((← bytesAt buf (dentry + 6) 1).getD 0 0).toNat
  let name ← bytesAt buf (dentry + 8) nameLen
  -- the terminating NUL is stored behind the name
  if nameLen < ext4NameLen then return cString name else .error .bounds

variable {σ : Type}

/-- The loop of `op_readdir` with at most `n` entries. A filler has a state; it tells whether it
returns another value than 0. `offset` is an `off_t`. -/
def opReaddirLoop (fs : Mount) (fuel : ℕ) (inode : Ext4Inode)
    (filler : σ → List UInt8 → ℕ → σ × Bool) : ℕ → ℕ → InodeDirCtx → σ → Outcome σ
  | 0, _, _, _ => .error .fuel
  | n + 1, offset, ctx, s => do
    match ← inodeDentryGet fs fuel inode offset ctx with
    | (_, none) => return s
    | (ctx, some dentry) => do
      let recLen := u16At (← bytesAt ctx.buf (dentry + 4) 2) 0
      let offset := offset + recLen
      if 2 ^ 63 ≤ offset then .error .bounds
      else do
        let dentryInode := u32At (← bytesAt ctx.buf dentry 4) 0
        if dentryInode = 0 then opReaddirLoop fs fuel inode filler n offset ctx s
        else do
          let name ← getPrintableName ctx.buf dentry
          if name = [] then opReaddirLoop fs fuel inode filler n offset ctx s
          else do
            let (s, full) := filler s name offset
            if full then return s else opReaddirLoop fs fuel inode filler n offset ctx s

def opReaddir (fs : Mount) (fuel : ℕ) (filler : σ → List UInt8 → ℕ → σ × Bool) (d : Dcache)
    (path : List UInt8) (s : σ) (offset : ℕ) : Outcome (Dcache × ℤ × σ) := do
  match ← inodeGetByPath fs fuel d path with
  | (d, none) => return (d, -enoent, s)
  | (d, some inode) => do
    let dctx ← inodeDirCtxReset fs fuel inode
    let s ← opReaddirLoop fs fuel inode filler fuel offset dctx s
    return (d, 0, s)

/-- An entry that is shown: it is in use and its name is not the empty string. -/
def Ext4DirEntry2.Shown (e : Ext4DirEntry2) : Prop := e.inode ≠ 0 ∧ cString e.name ≠ []

instance (e : Ext4DirEntry2) : Decidable e.Shown := inferInstanceAs (Decidable (_ ∧ _))

/-- The names of the entries from offset `o` on that are shown, each with the offset of what is
behind the entry. -/
def listing : ℕ → List Ext4DirEntry2 → List (List UInt8 × ℕ)
  | _, [] => []
  | o, e :: es =>
    if e.Shown then (cString e.name, o + e.recLen) :: listing (o + e.recLen) es
    else listing (o + e.recLen) es

/-- A filler is given one name after another until it returns another value than 0. -/
def feed (filler : σ → List UInt8 → ℕ → σ × Bool) : σ → List (List UInt8 × ℕ) → σ
  | s, [] => s
  | s, (name, o) :: names =>
    if (filler s name o).2 then (filler s name o).1 else feed filler (filler s name o).1 names

/-- The name of an entry in use fits `name_buf` with a NUL behind it. -/
def FitsNameBuf (es : List Ext4DirEntry2) : Prop :=
  ∀ e ∈ es, e.inode ≠ 0 → e.name.length < ext4NameLen

instance (es : List Ext4DirEntry2) : Decidable (FitsNameBuf es) :=
  inferInstanceAs (Decidable (∀ e ∈ es, _))

variable {fs : Mount} {fuel depth : ℕ} {inode : Ext4Inode} {o n p r : ℕ} {e : Ext4DirEntry2}
  {es : List Ext4DirEntry2} {blocks : List (List Ext4DirEntry2)} {ctx : InodeDirCtx}
  {filler : σ → List UInt8 → ℕ → σ × Bool} {block path : List UInt8} {d : Dcache}

/-- What a listing does with an entry ends in the block, in `name_buf` and in an `off_t`. -/
def RawDentry.Listable (e : RawDentry) (bs o : ℕ) : Prop :=
  e.Inside bs (o % bs) True ∧ o + e.recLen < 2 ^ 63 ∧ (e.inode ≠ 0 → e.nameLen < ext4NameLen)

instance (e : RawDentry) (bs o : ℕ) : Decidable (e.Listable bs o) :=
  inferInstanceAs (Decidable (_ ∧ _))

lemma opReaddirLoop_raw (filler : σ → List UInt8 → ℕ → σ × Bool)
    (hlog : fs.super.sLogBlockSize ≤ 20) (hctx : ctx.Holds fs fuel inode)
    (hsize : o < inodeGetSize inode)
    (hp : inodeGetDataPblock fs fuel inode (o / superBlockSize fs.super % 2 ^ 32) = .ok (p, r))
    (n : ℕ) (s : σ) : ∃ ctx', ctx'.Holds fs fuel inode ∧
    opReaddirLoop fs fuel inode filler (n + 1) o ctx s =
      let e := rawDentry fs fuel inode o
      if e.Listable (superBlockSize fs.super) o then
        if e.inode = 0 then opReaddirLoop fs fuel inode filler n (o + e.recLen) ctx' s
        else if cString e.name = [] then
          opReaddirLoop fs fuel inode filler n (o + e.recLen) ctx' s
        else if (filler s (cString e.name) (o + e.recLen)).2 then
          .ok (filler s (cString e.name) (o + e.recLen)).1
        else opReaddirLoop fs fuel inode filler n (o + e.recLen) ctx'
          (filler s (cString e.name) (o + e.recLen)).1
      else .error .bounds := by
  obtain ⟨ctx', hctx', hbuf, hget⟩ := inodeDentryGet_raw hlog hctx hsize hp
  refine ⟨ctx', hctx', ?_⟩
  have hlen : ctx'.buf.length = superBlockSize fs.super := by rw [hbuf, length_dataBlock]
  obtain ⟨hinode, hrecLen, hnameLen, hname⟩ := rawDentry_fields hbuf
  generalize rawDentry fs fuel inode o = e at hinode hrecLen hnameLen hname ⊢
  dsimp only
  rw [opReaddirLoop, hget, Outcome.ok_bind]
  dsimp only
  by_cases hhead : o % superBlockSize fs.super + 6 ≤ superBlockSize fs.super
  · rw [bytesAt_ok (by omega), Outcome.ok_bind, u16At_slice _ le_rfl, Nat.add_zero, hrecLen]
    by_cases hnext : 2 ^ 63 ≤ o + e.recLen
    · rw [if_pos hnext, if_neg (show ¬e.Listable _ o from fun h => not_lt.mpr hnext h.2.1)]
    rw [if_neg hnext, bytesAt_ok (by omega), Outcome.ok_bind, u32At_slice _ le_rfl, Nat.add_zero,
      hinode]
    have hlt := not_le.mp hnext
    by_cases hzero : e.inode = 0
    · rw [if_pos hzero, if_pos (show e.Listable _ o from
        ⟨⟨hhead, fun h => absurd hzero h⟩, hlt, fun h => absurd hzero h⟩), if_pos hzero]
    rw [if_neg hzero, getPrintableName]
    by_cases hfits : o % superBlockSize fs.super + 8 + e.nameLen ≤ superBlockSize fs.super
    · rw [bytesAt_ok (by omega), Outcome.ok_bind, getD_slice _ Nat.one_pos, Nat.add_zero, hnameLen]
      dsimp only
      rw [bytesAt_ok (by omega), Outcome.ok_bind, hname]
      by_cases hroom : e.nameLen < ext4NameLen
      · rw [if_pos hroom, Outcome.pure_eq, Outcome.ok_bind, if_pos (show e.Listable _ o from
          ⟨⟨hhead, fun _ => ⟨by omega, fun _ => hfits⟩⟩, hlt, fun _ => hroom⟩), if_neg hzero]
        rfl
      · rw [if_neg hroom, if_neg (show ¬e.Listable _ o from fun h => hroom (h.2.2 hzero))]
        rfl
    · rw [if_neg (show ¬e.Listable _ o from fun h => hfits ((h.1.2 hzero).2 trivial))]
      by_cases hseven : o % superBlockSize fs.super + 7 ≤ superBlockSize fs.super
      · rw [bytesAt_ok (by omega), Outcome.ok_bind, getD_slice _ Nat.one_pos, Nat.add_zero,
          hnameLen]
        dsimp only
        rw [bytesAt, if_neg (by omega)]
        rfl
      · rw [bytesAt, if_neg (by omega)]
        rfl
  · rw [if_neg (show ¬e.Listable _ o from fun h => hhead h.1.1), bytesAt, if_neg (by omega)]
    rfl

lemma opReaddirLoop_turn (filler : σ → List UInt8 → ℕ → σ × Bool)
    (hlog : fs.super.sLogBlockSize ≤ 20) (hctx : ctx.Holds fs fuel inode)
    (h : EntryAt fs fuel inode o e) (hsize : o < inodeGetSize inode)
    (hnext : o + e.recLen < 2 ^ 63) (n : ℕ) (s : σ) : ∃ ctx', ctx'.Holds fs fuel inode ∧
    opReaddirLoop fs fuel inode filler (n + 1) o ctx s =
      if e.inode ≠ 0 → e.name.length < ext4NameLen then
        if e.inode = 0 then opReaddirLoop fs fuel inode filler n (o + e.recLen) ctx' s
        else if cString e.name = [] then
          opReaddirLoop fs fuel inode filler n (o + e.recLen) ctx' s
        else if (filler s (cString e.name) (o + e.recLen)).2 then
          .ok (filler s (cString e.name) (o + e.recLen)).1
        else opReaddirLoop fs fuel inode filler n (o + e.recLen) ctx'
          (filler s (cString e.name) (o + e.recLen)).1
      else .error .bounds := by
  obtain ⟨⟨p, r, hp⟩, hraw, hinside⟩ := h.raw
  obtain ⟨ctx', hctx', hrun⟩ := opReaddirLoop_raw filler hlog hctx hsize hp n s
  refine ⟨ctx', hctx', ?_⟩
  have hlist : (rawDentry fs fuel inode o).Listable (superBlockSize fs.super) o ↔
      (e.inode ≠ 0 → e.name.length < ext4NameLen) := by
    rw [RawDentry.Listable, and_iff_right (hinside True), hraw]
    exact and_iff_right hnext
  rw [hrun]
  dsimp only
  rw [hraw] at hlist ⊢
  by_cases hroom : e.inode ≠ 0 → e.name.length < ext4NameLen
  · rw [if_pos (hlist.mpr hroom), if_pos hroom]
  · rw [if_neg (mt hlist.mp hroom), if_neg hroom]

lemma opReaddirLoop_feed (hlog : fs.super.sLogBlockSize ≤ 20)
    (h : Tiles (EntryAt fs fuel inode) Ext4DirEntry2.recLen (inodeGetSize inode) o es)
    (hsize : inodeGetSize inode < 2 ^ 63) (hfits : FitsNameBuf es)
    (hctx : ctx.Holds fs fuel inode) (hn : es.length < n) (s : σ) :
    opReaddirLoop fs fuel inode filler n o ctx s = .ok (feed filler s (listing o es)) := by
  obtain ⟨n, rfl⟩ := Nat.exists_eq_add_one.mpr (Nat.zero_lt_of_lt hn)
  induction es generalizing o ctx n s with
  | nil =>
    obtain rfl : o = inodeGetSize inode := h
    rw [opReaddirLoop, inodeDentryGet_end]
    rfl
  | cons e es ih =>
    obtain ⟨hentry, hrest⟩ := h
    obtain ⟨hname, hnames⟩ := List.forall_mem_cons.mp hfits
    have hend := hrest.le
    have hpos := hentry.recLen_pos
    rw [List.length_cons] at hn
    obtain ⟨m, rfl⟩ : ∃ m, n = m + 1 := Nat.exists_eq_add_one.mpr (by omega)
    obtain ⟨ctx', hctx', hrun⟩ := opReaddirLoop_turn filler hlog hctx hentry (by omega)
      (by omega) (m + 1) s
    have hgo := fun s => ih hrest hnames hctx' s m (by omega)
    rw [hrun, listing, if_pos hname]
    by_cases hinode : e.inode = 0
    · rw [if_pos hinode, if_neg (fun hshown => hshown.1 hinode)]
      exact hgo s
    rw [if_neg hinode]
    by_cases hstring : cString e.name = []
    · rw [if_pos hstring, if_neg (fun hshown => hshown.2 hstring)]
      exact hgo s
    rw [if_neg hstring, if_pos (show e.Shown from ⟨hinode, hstring⟩), feed]
    split_ifs
    · rfl
    · exact hgo _

def Accepts (filler : σ → List UInt8 → ℕ → σ × Bool) : σ → List (List UInt8 × ℕ) → Prop
  | _, [] => True
  | s, (name, o) :: names =>
    (filler s name o).2 = false ∧ Accepts filler (filler s name o).1 names

/-- A name that does not fit is copied, unless the filler has stopped the listing before. -/
lemma opReaddirLoop_long (hlog : fs.super.sLogBlockSize ≤ 20)
    (h : Tiles (EntryAt fs fuel inode) Ext4DirEntry2.recLen (inodeGetSize inode) o es)
    (hsize : inodeGetSize inode < 2 ^ 63) (hlong : ¬FitsNameBuf es)
    (hctx : ctx.Holds fs fuel inode) (hn : es.length < n) {s : σ}
    (haccepts : Accepts filler s (listing o es)) :
    opReaddirLoop fs fuel inode filler n o ctx s = .error .bounds := by
  induction es generalizing o ctx n s with
  | nil => exact absurd (by simp [FitsNameBuf]) hlong
  | cons e es ih =>
    obtain ⟨hentry, hrest⟩ := h
    have hend := hrest.le
    have hpos := hentry.recLen_pos
    rw [List.length_cons] at hn
    obtain ⟨m, rfl⟩ : ∃ m, n = m + 1 := Nat.exists_eq_add_one.mpr (by omega)
    obtain ⟨ctx', hctx', hrun⟩ := opReaddirLoop_turn filler hlog hctx hentry (by omega)
      (by omega) m s
    have hgo := fun (hfits : e.inode ≠ 0 → e.name.length < ext4NameLen) {s : σ}
      (haccepts : Accepts filler s (listing (o + e.recLen) es)) =>
      ih hrest (fun hrest => hlong (List.forall_mem_cons.mpr ⟨hfits, hrest⟩)) hctx'
        (show es.length < m by omega) haccepts
    rw [listing] at haccepts
    rw [hrun]
    by_cases hroom : e.inode ≠ 0 → e.name.length < ext4NameLen
    · rw [if_pos hroom]
      by_cases hinode : e.inode = 0
      · rw [if_neg (fun hshown => hshown.1 hinode)] at haccepts
        rw [if_pos hinode]
        exact hgo hroom haccepts
      rw [if_neg hinode]
      by_cases hstring : cString e.name = []
      · rw [if_neg (fun hshown => hshown.2 hstring)] at haccepts
        rw [if_pos hstring]
        exact hgo hroom haccepts
      · rw [if_pos (show e.Shown from ⟨hinode, hstring⟩)] at haccepts
        rw [if_neg hstring, haccepts.1, if_neg Bool.false_ne_true]
        exact hgo hroom haccepts.2
    · exact if_neg hroom

/-- A filler that stores up to `cap` names with their offsets, and one that stores all. -/
def keepUpTo (cap : ℕ) (names : List (List UInt8 × ℕ)) (name : List UInt8) (o : ℕ) :
    List (List UInt8 × ℕ) × Bool :=
  if names.length < cap then (names ++ [(name, o)], false) else (names, true)

def keepAll (names : List (List UInt8 × ℕ)) (name : List UInt8) (o : ℕ) :
    List (List UInt8 × ℕ) × Bool :=
  (names ++ [(name, o)], false)

variable {cap : ℕ} {names kept : List (List UInt8 × ℕ)}

lemma feed_keepUpTo (h : kept.length ≤ cap) :
    feed (keepUpTo cap) kept names = kept ++ names.take (cap - kept.length) := by
  induction names generalizing kept with
  | nil => simp [feed]
  | cons name names ih =>
    rw [feed, keepUpTo]
    by_cases hroom : kept.length < cap
    · have hroom' : cap - kept.length = cap - (kept.length + 1) + 1 := by omega
      rw [if_pos hroom, if_neg Bool.false_ne_true, ih (by simpa using hroom), hroom',
        List.take_succ_cons]
      simp
    · rw [if_neg hroom, if_pos rfl, Nat.sub_eq_zero_of_le (not_lt.mp hroom), List.take_zero,
        List.append_nil]

lemma feed_keepAll (names kept : List (List UInt8 × ℕ)) :
    feed keepAll kept names = kept ++ names := by
  induction names generalizing kept with
  | nil => simp [feed]
  | cons name names ih =>
    rw [feed, keepAll, if_neg Bool.false_ne_true, ih, List.append_assoc]
    rfl

lemma accepts_keepAll (names kept : List (List UInt8 × ℕ)) : Accepts keepAll kept names := by
  induction names generalizing kept with
  | nil => trivial
  | cons name names ih => exact ⟨rfl, ih _⟩

lemma accepts_keepUpTo (h : kept.length + names.length ≤ cap) :
    Accepts (keepUpTo cap) kept names := by
  induction names generalizing kept with
  | nil => trivial
  | cons name names ih =>
    rw [List.length_cons] at h
    have hroom : kept.length < cap := by omega
    rw [Accepts, keepUpTo, if_pos hroom]
    refine ⟨rfl, ih ?_⟩
    rw [List.length_append, List.length_singleton]
    omega

lemma listing_resume {At : ℕ → Ext4DirEntry2 → Prop} {stop k o' : ℕ} {name : List UInt8}
    (h : Tiles At Ext4DirEntry2.recLen stop o es) (hk : (listing o es)[k]? = some (name, o')) :
    ∃ es', es' <:+ es ∧ Tiles At Ext4DirEntry2.recLen stop o' es' ∧
      listing o' es' = (listing o es).drop (k + 1) := by
  induction es generalizing o k with
  | nil => simp [listing] at hk
  | cons e es ih =>
    obtain ⟨-, hrest⟩ := h
    rw [listing] at hk ⊢
    split_ifs at hk ⊢ with hshown
    · cases k with
      | zero =>
        obtain ⟨-, rfl⟩ : cString e.name = name ∧ o + e.recLen = o' := by simpa using hk
        exact ⟨es, List.suffix_cons e es, hrest, rfl⟩
      | succ k =>
        obtain ⟨es', hsuffix, htiles, hlisting⟩ := ih hrest hk
        exact ⟨es', hsuffix.trans (List.suffix_cons e es), htiles, hlisting⟩
    · obtain ⟨es', hsuffix, htiles, hlisting⟩ := ih hrest hk
      exact ⟨es', hsuffix.trans (List.suffix_cons e es), htiles, hlisting⟩

/-- The path leads to the inode, in this state of the cache. -/
def Opens (fs : Mount) (fuel : ℕ) (d : Dcache) (path : List UInt8) (inode : Ext4Inode) : Prop :=
  ∃ d', inodeGetByPath fs fuel d path = .ok (d', some inode)

/-- Calls of `op_readdir`, each with the cache it meets and the number of names it may store, and
each from the offset given with the last name that was stored. -/
def readPages (fs : Mount) (fuel : ℕ) (path : List UInt8) :
    List (Dcache × ℕ) → ℕ → Outcome (List (List UInt8 × ℕ))
  | [], _ => .ok []
  | (d, cap) :: pages, offset => do
    let (_, _, page) ← opReaddir fs fuel (keepUpTo cap) d path [] offset
    let rest ← readPages fs fuel path pages ((page.getLast?.map Prod.snd).getD offset)
    return page ++ rest

/-- Pages of any capacities, with the caches that the other calls have left between them, give what
is listed in the directory, without a gap and without repetition. -/
def ListedInPages (fs : Mount) (depth : ℕ) (path : List UInt8) (inode : Ext4Inode)
    (es : List Ext4DirEntry2) : Prop :=
  ∀ pages : List (Dcache × ℕ), (∀ page ∈ pages, Opens fs depth page.1 path inode ∧ 1 ≤ page.2) →
    ∃ fuel₀, ∀ fuel ≥ fuel₀, readPages fs fuel path pages 0 =
      .ok ((listing 0 es).take (pages.map Prod.snd).sum)

lemma inodeGetIdxByPathLoop_mono {fuel' idx : ℕ} {entry : Option ℕ} (hle : fuel ≤ fuel')
    {v : Dcache × ℕ} (h : inodeGetIdxByPathLoop fs fuel n d path entry idx = .ok v) :
    inodeGetIdxByPathLoop fs fuel' n d path entry idx = .ok v := by
  induction n generalizing d path entry idx with
  | zero => cases h
  | succ n ih =>
    rw [inodeGetIdxByPathLoop] at h ⊢
    obtain ⟨len, hlen, h⟩ := Outcome.bind_eq_ok.mp h
    rw [hlen, Outcome.ok_bind]
    split_ifs at h ⊢ with hzero
    · exact h
    · obtain ⟨⟨inode, found⟩, hlookup, h⟩ := Outcome.bind_eq_ok.mp h
      rw [lookupName_mono hle hlookup, Outcome.ok_bind]
      cases found with
      | none => exact h
      | some number =>
        dsimp only at h ⊢
        split_ifs at h ⊢ with hdir
        · obtain ⟨⟨d', entry'⟩, hinsert, h⟩ := Outcome.bind_eq_ok.mp h
          rw [hinsert, Outcome.ok_bind]
          dsimp only at h ⊢
          split at h
          · exact h
          · exact ih h
        · rw [Outcome.pure_eq, Outcome.ok_bind] at h ⊢
          dsimp only at h ⊢
          split at h
          · exact h
          · exact ih h

lemma Opens.mono {fuel' : ℕ} (hle : fuel ≤ fuel') (h : Opens fs fuel d path inode) :
    Opens fs fuel' d path inode := by
  obtain ⟨d', h⟩ := h
  obtain ⟨⟨d₁, number⟩, hidx, hnumber⟩ := Outcome.bind_eq_ok.mp h
  obtain ⟨u, hassert, hidx⟩ := Outcome.bind_eq_ok.mp hidx
  obtain ⟨⟨d₂, rest, entry⟩, hcached, hidx⟩ := Outcome.bind_eq_ok.mp hidx
  obtain ⟨idx, hinode, hidx⟩ := Outcome.bind_eq_ok.mp hidx
  refine ⟨d', ?_⟩
  rw [inodeGetByPath, inodeGetIdxByPath, hassert, Outcome.ok_bind, hcached, Outcome.ok_bind]
  dsimp only
  rw [hinode, Outcome.ok_bind, inodeGetIdxByPathLoop_mono hle hidx]
  exact hnumber

lemma inodeGetByPath_of_number (hnumber : Prod.snd <$> inodeGetIdxByPath fs fuel d path = .ok n)
    {found : Option Ext4Inode} (hinode : inodeGetByNumber fs n = .ok found) :
    ∃ d', inodeGetByPath fs fuel d path = .ok (d', found) := by
  cases hrun : inodeGetIdxByPath fs fuel d path with
  | error e =>
    rw [hrun] at hnumber
    cases hnumber
  | ok r =>
    rw [hrun] at hnumber
    obtain rfl : r.2 = n := Except.ok.inj hnumber
    refine ⟨r.1, ?_⟩
    rw [inodeGetByPath, hrun, Outcome.ok_bind]
    dsimp only
    rw [hinode]
    rfl

lemma Directory.size_lt (hlog : fs.super.sLogBlockSize ≤ 20)
    (h : Directory fs fuel inode blocks) : inodeGetSize inode < 2 ^ 63 := by
  have hmul := Nat.mul_le_mul h.count (superBlockSize_le hlog)
  rw [← h.size] at hmul
  omega

lemma opReaddir_opens (hlog : fs.super.sLogBlockSize ≤ 20) (h : Directory fs fuel inode blocks)
    (hopen : Opens fs fuel d path inode) (filler : σ → List UInt8 → ℕ → σ × Bool) (s : σ) :
    ∃ d' ctx, InodeDirCtx.Holds fs fuel inode ctx ∧ ∀ offset,
      opReaddir fs fuel filler d path s offset =
        (d', 0, ·) <$> opReaddirLoop fs fuel inode filler fuel offset ctx s := by
  obtain ⟨p, r, hp⟩ := h.mapped 0 (.inl rfl)
  have hupdate := dirCtxUpdate_ok hlog hp
  obtain ⟨d', hopen⟩ := hopen
  refine ⟨d', _, (holds_of_dirCtxUpdate hupdate).1, fun offset => ?_⟩
  rw [opReaddir, hopen, Outcome.ok_bind]
  dsimp only
  rw [inodeDirCtxReset, hupdate, Outcome.ok_bind]
  rfl

lemma length_listing_le (es : List Ext4DirEntry2) (o : ℕ) : (listing o es).length ≤ es.length := by
  induction es generalizing o with
  | nil => rfl
  | cons e es ih =>
    have := ih (o + e.recLen)
    rw [listing]
    split_ifs <;> simp only [List.length_cons] <;> omega

lemma readPages_from (hlog : fs.super.sLogBlockSize ≤ 20) (h : Directory fs fuel inode blocks)
    (htiles : Tiles (EntryAt fs fuel inode) Ext4DirEntry2.recLen (inodeGetSize inode) o es)
    (hfits : FitsNameBuf es) (hfuel : es.length < fuel) {pages : List (Dcache × ℕ)}
    (hopen : ∀ page ∈ pages, Opens fs fuel page.1 path inode) :
    readPages fs fuel path pages o = .ok ((listing o es).take (pages.map Prod.snd).sum) := by
  induction pages generalizing o es with
  | nil => rfl
  | cons page pages ih =>
    obtain ⟨d, cap⟩ := page
    obtain ⟨hpage, hpages⟩ := List.forall_mem_cons.mp hopen
    obtain ⟨d', ctx, hctx, hrun⟩ := opReaddir_opens hlog h hpage (keepUpTo cap) []
    rw [readPages, hrun, opReaddirLoop_feed hlog htiles (h.size_lt hlog) hfits hctx hfuel,
      feed_keepUpTo (Nat.zero_le _), List.nil_append, List.length_nil, Nat.sub_zero, Outcome.map_ok,
      Outcome.ok_bind]
    dsimp only
    rw [List.map_cons, List.sum_cons, List.take_add]
    cases hlast : ((listing o es).take cap).getLast? with
    | none =>
      -- nothing is left, or nothing may be stored: the next call is the same again
      have hnone : (listing o es).take cap = [] := List.getLast?_eq_none_iff.mp hlast
      have hdrop : (listing o es).drop cap = listing o es := by
        rcases List.take_eq_nil_iff.mp hnone with hcap | hall
        · rw [hcap, List.drop_zero]
        · rw [hall, List.drop_nil]
      rw [Option.map_none, Option.getD_none, ih htiles hfits hfuel hpages, hdrop]
      rfl
    | some last =>
      obtain ⟨name, o'⟩ := last
      rw [List.getLast?_eq_getElem?, List.getElem?_take] at hlast
      split_ifs at hlast with hlt
      obtain ⟨es', hsuffix, htiles', hlisting⟩ := listing_resume htiles hlast
      have hlen := hsuffix.length_le
      have hdrop : (listing o es).drop (((listing o es).take cap).length - 1 + 1) =
          (listing o es).drop cap := by
        have hin := (List.getElem?_eq_some_iff.mp hlast).1
        rw [List.length_take] at hlt hin ⊢
        rcases le_total cap (listing o es).length with hle | hle
        · rw [Nat.min_eq_left hle] at hlt ⊢
          rw [Nat.sub_add_cancel (by omega)]
        · rw [Nat.min_eq_right hle] at hin ⊢
          rw [Nat.sub_add_cancel (by omega), List.drop_length, List.drop_eq_nil_of_le hle]
      rw [Option.map_some, Option.getD_some, ih htiles' (fun e he => hfits e (hsuffix.subset he))
        (by omega) hpages, hlisting, hdrop]
      rfl

lemma readPages_long (hlog : fs.super.sLogBlockSize ≤ 20) (h : Directory fs fuel inode blocks)
    (hopen : Opens fs fuel d path inode) (hlong : ¬FitsNameBuf blocks.flatten)
    (hfuel : blocks.flatten.length < fuel) {cap : ℕ} (hcap : blocks.flatten.length ≤ cap) :
    readPages fs fuel path [(d, cap)] 0 = .error .bounds := by
  obtain ⟨d', ctx, hctx, hrun⟩ := opReaddir_opens hlog h hopen (keepUpTo cap) []
  have hroom := length_listing_le blocks.flatten 0
  rw [readPages, hrun, opReaddirLoop_long hlog h.entries (h.size_lt hlog) hlong hctx hfuel
    (accepts_keepUpTo (by rw [List.length_nil]; omega))]
  rfl

/-- Listing a directory in pages loses and repeats nothing exactly when every name in use has room
for its NUL in `name_buf`. -/
theorem opReaddir_pages (hlog : fs.super.sLogBlockSize ≤ 20) (h : Directory fs depth inode blocks)
    (hopen : Opens fs depth d path inode) :
    ListedInPages fs depth path inode blocks.flatten ↔ FitsNameBuf blocks.flatten := by
  constructor
  · intro hlisted
    by_contra hlong
    obtain ⟨fuel₀, hfuel₀⟩ := hlisted [(d, blocks.flatten.length + 1)] (by simp [hopen])
    obtain ⟨fuel, hge, hle, hlen⟩ :
        ∃ fuel, fuel₀ ≤ fuel ∧ depth ≤ fuel ∧ blocks.flatten.length < fuel :=
      ⟨max fuel₀ (max depth (blocks.flatten.length + 1)), by omega, by omega, by omega⟩
    have hpages := hfuel₀ fuel hge
    rw [readPages_long hlog (h.mono hle) (hopen.mono hle) hlong hlen (Nat.le_succ _)] at hpages
    cases hpages
  · intro hfits pages hpages
    refine ⟨max depth (blocks.flatten.length + 1), fun fuel hfuel => ?_⟩
    have hdir := h.mono (show depth ≤ fuel by omega)
    exact readPages_from hlog hdir hdir.entries hfits (by omega) fun page hpage =>
      (hpages page hpage).1.mono (by omega)

lemma opens_root (h : inodeGetByNumber fs rootInodeN = .ok (some inode)) :
    Opens fs fuel freshDcache [slash] inode := by
  refine ⟨freshDcache, ?_⟩
  rw [inodeGetByPath, show inodeGetIdxByPath fs fuel freshDcache [slash] =
    .ok (freshDcache, rootInodeN) from rfl, Outcome.ok_bind]
  dsimp only
  rw [h]
  rfl

/-- The root directory with the long name, in pages of one name and of two. -/
theorem opReaddir_pages_longName : ∃ fuel₀, ∀ fuel ≥ fuel₀,
    readPages longNameMount fuel [slash] [(freshDcache, 1), (freshDcache, 2), (freshDcache, 2)] 0 =
      .ok [([46], 12), ([46, 46], 24), (List.replicate 40 97, 72), ([98], 1024)] := by
  obtain ⟨hnumber, hdir⟩ := longName_root
  have hopen : Opens longNameMount 0 freshDcache [slash] (longNameDir 9) := opens_root hnumber
  exact (opReaddir_pages (by decide) hdir hopen).mpr (by decide) _ (by simp [hopen])

/-- The root directory with the long name, where a name of 255 bytes has come in the place of the
last two entries. -/
def fullNameEntry : List UInt8 := [11, 0, 0, 0, 0xE8, 3, 255, 2] ++ List.replicate 255 97

def fullNameDisk : Disk := fun i =>
  if 9240 ≤ i ∧ i < 9503 then fullNameEntry.getD (i - 9240) 0 else longNameDisk i

def fullNameMount : Mount where
  disk := fullNameDisk
  super := longNameMount.super
  gdescTable := longNameMount.gdescTable

def fullNameRoot : List Ext4DirEntry2 :=
  [⟨2, 12, [46]⟩, ⟨2, 12, [46, 46]⟩, ⟨11, 1000, List.replicate 255 97⟩]

set_option maxRecDepth 100000 in
lemma fullName_root : inodeGetByNumber fullNameMount rootInodeN = .ok (some (longNameDir 9)) ∧
    Directory fullNameMount 0 (longNameDir 9) [fullNameRoot] := by
  have hsuper : fullNameMount.super = longNameMount.super := rfl
  exact ⟨by decide, directory_longName hsuper (by decide)⟩

set_option maxRecDepth 100000 in
/-- The NUL behind a name of 255 bytes is stored outside of `name_buf`. -/
theorem opReaddir_pages_counterexample :
    superFill fullNameDisk = .ok fullNameMount.super ∧
    superGroupFill fullNameDisk fullNameMount.super = .ok fullNameMount.gdescTable ∧
    Directory fullNameMount 0 (longNameDir 9) [fullNameRoot] ∧
    Opens fullNameMount 0 freshDcache [slash] (longNameDir 9) ∧
    (∀ fuel ≥ 4, readPages fullNameMount fuel [slash] [(freshDcache, 3)] 0 = .error .bounds) ∧
    ¬ListedInPages fullNameMount 0 [slash] (longNameDir 9) fullNameRoot := by
  obtain ⟨hnumber, hdir⟩ := fullName_root
  have hopen : ∀ fuel, Opens fullNameMount fuel freshDcache [slash] (longNameDir 9) :=
    fun fuel => opens_root hnumber
  have hrun : ∀ fuel ≥ 4,
      readPages fullNameMount fuel [slash] [(freshDcache, 3)] 0 = .error .bounds :=
    fun fuel hfuel => readPages_long (by decide) (hdir.mono (Nat.zero_le fuel)) (hopen fuel)
      (by decide) hfuel le_rfl
  refine ⟨by decide, by decide, hdir, hopen 0, hrun, fun hlisted => ?_⟩
  obtain ⟨fuel₀, hfuel₀⟩ := hlisted [(freshDcache, 3)] (by simp [hopen])
  have hok := hfuel₀ (max fuel₀ 4) (Nat.le_max_left _ _)
  rw [hrun _ (Nat.le_max_right _ _)] at hok
  cases hok

end Spotlight.Ext4
