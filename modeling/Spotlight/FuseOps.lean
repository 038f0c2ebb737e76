import Spotlight.DiskImages

/-! The operations that FUSE calls, and sessions of them (`op_getattr.c`, `op_open.c`, `op_init.c`
and `fuse-main.c`). Through the directory cache a session gives the replies that it gives without
the cache. -/
namespace Spotlight.Ext4
open Bytes Outcome Programs Programs.Prog

def eacces : ℤ := 13

/-- The fields of `struct stat` that are set. -/
structure Stat where
  stMode : ℕ
  stNlink : ℕ
  stSize : ℤ
  stBlocks : ℕ
  stUid : ℕ
  stGid : ℕ
  stAtime : ℕ
  stMtime : ℕ
  stCtime : ℕ
  deriving DecidableEq, Repr

def Stat.zero : Stat := ⟨0, 0, 0, 0, 0, 0, 0, 0, 0⟩

/-- The attributes of an inode record. The mask of the mode is `~0222`, and the size goes through
an `off_t`. -/
def statOf (record : List UInt8) : Stat where
  stMode := u16At record 0x00 &&& 0xFFFFFF6D
  stNlink := u16At record 0x1A
  stSize := Int.bmod (inodeGetSize (parseInode record)) (2 ^ 64)
  stBlocks := u32At record 0x1C
  stUid := u16At record 0x02
  stGid := u16At record 0x18
  stAtime := u32At record 0x08
  stMtime := u32At record 0x10
  stCtime := u32At record 0x0C

namespace DiskProg
variable (v : Volume) (fuel : ℕ)

def opGetattr (d : Dcache) (path : List UInt8) : DiskProg (Dcache × ℤ × Stat) := do
  let (d, n) ← inodeGetIdxByPath v fuel d path
  match ← inodeRecord v n with
  | none => return (d, -enoent, Stat.zero)
  | some record => return (d, 0, statOf record)

/-- `op_open`: the value returned and `fi->fh`. -/
def opOpen (d : Dcache) (path : List UInt8) (flags fh : ℕ) : DiskProg (Dcache × ℤ × ℕ) :=
  if flags &&& 3 ≠ 0 then return (d, -eacces, fh)
  else do
    let (d, n) ← inodeGetIdxByPath v fuel d path
    return (d, 0, n)

/-- `op_init`. It aborts when the root of the cache has been set before. -/
def opInit : DiskProg (Volume × Dcache) := do
  let super ← superFill
  let gdescTable ← superGroupFill super
  let (d, ret) := dcacheInitRoot ⟨0, none, Heap.empty⟩ rootInodeN
  assertThat (ret = 0)
  return (⟨super, gdescTable⟩, d)

end DiskProg

/-- A call of FUSE. Of a page of a directory it takes up to `room` names. -/
inductive Request
  | getattr (path : List UInt8)
  | opened (path : List UInt8) (flags fh : ℕ)
  | read (fh size offset : ℕ)
  | readdir (path : List UInt8) (offset room : ℕ)
  | readlink (path buf : List UInt8) (bufsize : ℕ)

inductive Reply
  | stat (ret : ℤ) (stbuf : Stat)
  | handle (ret : ℤ) (fh : ℕ)
  | data (ret : ℤ) (buf : List UInt8)
  | names (ret : ℤ) (names : List (List UInt8 × ℕ))
  deriving DecidableEq

namespace DiskProg
variable (v : Volume) (fuel : ℕ)

def reply (d : Dcache) : Request → DiskProg (Dcache × Reply)
  | .getattr path => do
    let (d, ret, stbuf) ← opGetattr v fuel d path
    return (d, .stat ret stbuf)
  | .opened path flags fh => do
    let (d, ret, fh) ← opOpen v fuel d path flags fh
    return (d, .handle ret fh)
  | .read fh size offset => do
    let (ret, buf) ← opRead v fuel fh size offset
    return (d, .data ret buf)
  | .readdir path offset room => do
    let (d, ret, names) ← opReaddir v fuel (keepUpTo room) d path [] offset
    return (d, .names ret names)
  | .readlink path buf bufsize => do
    let (d, ret, buf) ← opReadlink v fuel d path buf bufsize
    return (d, .data ret buf)

/-- The requests one after the other, with the cache that they share. -/
def session : Dcache → List Request → DiskProg (List Reply)
  | _, [] => return []
  | d, request :: requests => do
    let (d, a) ← reply v fuel d request
    let rest ← session d requests
    return a :: rest

def mounted (requests : List Request) : DiskProg (List Reply) := do
  let (v, d) ← opInit
  session v fuel d requests

end DiskProg

def Request.path? : Request → Option (List UInt8)
  | .getattr path => some path
  | .opened path flags _ => if flags &&& 3 ≠ 0 then none else some path
  | .read _ _ _ => none
  | .readdir path _ _ => some path
  | .readlink path _ _ => some path

/-- The path is one that the cache is made for, and none of its names is entered in a wrong
directory. -/
def Request.Calm (fs : Mount) (fuel : ℕ) (request : Request) : Prop :=
  ∀ path ∈ request.path?, Admissible fs fuel path ∧
    Unshadowed fs fuel rootInodeN rootInodeN (components path)

section
open DiskProg
variable {v : Volume} {fuel : ℕ} {disk : Disk} {d : Dcache} {kids : Option ℕ → List ℕ}

lemma reply_of_path (v : Volume) (fuel : ℕ) (disk : Disk) {request : Request} {path : List UInt8}
    (h : request.path? = some path) : ∃ answer : ℕ → Outcome Reply,
    ∀ d, (reply v fuel d request).on disk = do
      let (d, n) ← Ext4.inodeGetIdxByPath (v.mount disk) fuel d path
      let a ← answer n
      return (d, a) := by
  cases request with
  | getattr path' =>
    cases h
    refine ⟨fun n => do
      let found ← (inodeRecord v n).on disk
      return found.elim (.stat (-enoent) Stat.zero) fun record => .stat 0 (statOf record),
      fun d => ?_⟩
    simp only [reply, opGetattr, on_bind, on_inodeGetIdxByPath, bind_assoc]
    refine bind_congr fun r => bind_congr fun found => ?_
    cases found <;> rfl
  | opened path' flags fh =>
    rw [Request.path?, Option.ite_none_left_eq_some] at h
    obtain ⟨hflags, heq⟩ := h
    cases heq
    refine ⟨fun n => .ok (.handle 0 n), fun d => ?_⟩
    simp [reply, opOpen, hflags]
  | read fh size offset => cases h
  | readdir path' offset room =>
    cases h
    refine ⟨fun n => do
      let found ← Ext4.inodeGetByNumber (v.mount disk) n
      found.elim (pure (.names (-enoent) [])) fun inode => do
        let dctx ← Ext4.inodeDirCtxReset (v.mount disk) fuel inode
        let s ← Ext4.opReaddirLoop (v.mount disk) fuel inode (keepUpTo room) fuel offset dctx []
        return .names 0 s, fun d => ?_⟩
    simp only [reply, on_bind, on_opReaddir, Ext4.opReaddir, Ext4.inodeGetByPath, bind_assoc]
    refine bind_congr fun r => bind_congr fun found => ?_
    cases found <;> simp
  | readlink path' buf bufsize =>
    cases h
    refine ⟨fun n => do
      let inode ← deref (← Ext4.inodeGetByNumber (v.mount disk) n)
      if ¬sIsLnk inode.iMode then return .data (-einval) buf
      else do
        let (_, buf) ← Ext4.getLinkDest strncpy (v.mount disk) fuel inode buf bufsize
        return .data 0 buf, fun d => ?_⟩
    simp only [reply, on_bind, on_opReadlink, Ext4.opReadlink, opReadlinkBy, Ext4.inodeGetByPath,
      bind_assoc]
    refine bind_congr fun r => bind_congr fun found => ?_
    obtain - | inode := found
    · rfl
    · simp only [Outcome.pure_eq, ok_bind, deref_some]
      split_ifs
      · simp only [bind_assoc, ok_bind]
        rfl
      · rfl

lemma reply_of_none (v : Volume) (fuel : ℕ) (disk : Disk) {request : Request}
    (h : request.path? = none) : ∃ answer : Outcome Reply,
    ∀ d, (reply v fuel d request).on disk = (fun a => (d, a)) <$> answer := by
  cases request with
  | getattr path => cases h
  | opened path flags fh =>
    by_cases hflags : flags &&& 3 ≠ 0
    · exact ⟨.ok (.handle (-eacces) fh), fun d => by simp [reply, opOpen, hflags]⟩
    · simp [Request.path?, hflags] at h
  | read fh size offset =>
    refine ⟨(fun r => .data r.1 r.2) <$> Ext4.opRead (v.mount disk) fuel fh size offset,
      fun d => ?_⟩
    simp only [reply, on_bind, on_opRead]
    cases Ext4.opRead (v.mount disk) fuel fh size offset <;> rfl
  | readdir path offset room => cases h
  | readlink path buf bufsize => cases h

lemma snd_map_answer (x : Outcome (Dcache × ℕ)) (answer : ℕ → Outcome Reply) :
    Prod.snd <$> (x >>= fun r => answer r.2 >>= fun a => pure (r.1, a)) =
      (Prod.snd <$> x) >>= answer := by
  obtain e | r := x
  · rfl
  · simp only [ok_bind, map_ok]
    cases answer r.2 <;> rfl

lemma reply_calm (htree : Tree d kids) (hsound : Sound (v.mount disk) fuel d kids)
    {request : Request} (hcalm : request.Calm (v.mount disk) fuel) :
    Prod.snd <$> (reply v fuel d request).on disk =
        Prod.snd <$> (reply v fuel freshDcache request).on disk ∧
      ∀ d' a, (reply v fuel d request).on disk = .ok (d', a) →
        ∃ kids', Tree d' kids' ∧ Sound (v.mount disk) fuel d' kids' := by
  cases hpath : request.path? with
  | none =>
    obtain ⟨answer, hanswer⟩ := reply_of_none v fuel disk hpath
    refine ⟨?_, fun d' a hrun => ?_⟩
    · cases answer <;> simp [hanswer]
    · rw [hanswer] at hrun
      obtain e | a := answer
      · cases hrun
      · cases hrun
        exact ⟨kids, htree, hsound⟩
  | some path =>
    obtain ⟨answer, hanswer⟩ := reply_of_path v fuel disk hpath
    obtain ⟨hadmissible, hun⟩ := hcalm path hpath
    have hnumber := (inodeGetIdxByPath_number (v.mount disk) fuel htree hsound
      hadmissible.absolute hadmissible.fits.noNul).trans
      (inodeGetIdxByPath_number (v.mount disk) fuel tree_freshDcache (sound_nil freshDcache)
        hadmissible.absolute hadmissible.fits.noNul).symm
    refine ⟨?_, fun d' a hrun => ?_⟩
    · rw [hanswer, hanswer, snd_map_answer, snd_map_answer, hnumber]
    · rw [hanswer] at hrun
      obtain ⟨⟨d₁, n⟩, hlookup, hrun⟩ := bind_eq_ok.mp hrun
      obtain ⟨a', -, hrun⟩ := bind_eq_ok.mp hrun
      cases hrun
      obtain ⟨kids', htree', hkeep, -⟩ :=
        inodeGetIdxByPath_sound htree hsound hadmissible hlookup
      exact ⟨kids', htree', hkeep hun⟩

lemma session_sound (htree : Tree d kids) (hsound : Sound (v.mount disk) fuel d kids)
    {requests : List Request} (hcalm : ∀ r ∈ requests, r.Calm (v.mount disk) fuel) :
    (session v fuel d requests).on disk =
      requests.mapM fun r => Prod.snd <$> (reply v fuel freshDcache r).on disk := by
  induction requests generalizing d kids with
  | nil => rfl
  | cons request requests ih =>
    obtain ⟨hfirst, hrest⟩ := List.forall_mem_cons.mp hcalm
    obtain ⟨heq, hkeep⟩ := reply_calm htree hsound hfirst
    rw [List.mapM_cons, ← heq, session, on_bind]
    rcases hrun : (reply v fuel d request).on disk with e | ⟨d', a⟩
    · rfl
    · obtain ⟨kids', htree', hsound'⟩ := hkeep d' a hrun
      simp only [ok_bind, map_ok, on_bind, ih htree' hsound' hrest]
      rfl

lemma on_opInit (disk : Disk) : opInit.on disk = do
    let super ← Ext4.superFill disk
    let gdescTable ← Ext4.superGroupFill disk super
    return (⟨super, gdescTable⟩, freshDcache) := by
  simp only [opInit, on_bind, on_superFill, on_superGroupFill]
  rfl

lemma opInit_fresh (hinit : opInit.on disk = .ok (v, d)) : d = freshDcache := by
  rw [on_opInit] at hinit
  obtain ⟨super, -, hinit⟩ := bind_eq_ok.mp hinit
  obtain ⟨table, -, hinit⟩ := bind_eq_ok.mp hinit
  cases hinit
  rfl

/-- A mounted filesystem whose requests are calm gives each of them the reply that it has when it
comes first, whatever came before. -/
theorem session_calm {requests : List Request} (hinit : opInit.on disk = .ok (v, d))
    (hcalm : ∀ r ∈ requests, r.Calm (v.mount disk) fuel) :
    (mounted fuel requests).on disk =
      requests.mapM fun r => Prod.snd <$> (reply v fuel d r).on disk := by
  obtain rfl := opInit_fresh hinit
  rw [mounted, on_bind, hinit]
  exact session_sound tree_freshDcache (sound_nil freshDcache) hcalm

set_option maxRecDepth 100000 in
/-- The attributes of the directory with the long name, the file in the root, and its content. -/
theorem session_calm_long : ∃ v d,
    opInit.on longNameDisk = .ok (v, d) ∧
      (mounted 8 [.getattr longPath, .opened rootFilePath 0 0, .read 12 10 0]).on longNameDisk =
        [.getattr longPath, .opened rootFilePath 0 0, .read 12 10 0].mapM fun r =>
          Prod.snd <$> (reply v 8 d r).on longNameDisk := by
  have hsuper : Ext4.superFill longNameDisk = .ok longNameMount.super := by decide
  have htable : Ext4.superGroupFill longNameDisk longNameMount.super =
      .ok longNameMount.gdescTable := by decide
  have hinit : opInit.on longNameDisk =
      .ok (⟨longNameMount.super, longNameMount.gdescTable⟩, freshDcache) := by
    rw [on_opInit, hsuper, ok_bind, htable]
    rfl
  have hlong : Request.Calm longNameMount 8 (.getattr longPath) := by
    rintro path hpath
    cases hpath
    refine ⟨admissible_long, ?_⟩
    rw [show components longPath = [List.replicate 40 97] by decide, Unshadowed, lookupName_long]
    trivial
  have hroot : Request.Calm longNameMount 8 (.opened rootFilePath 0 0) := by
    rintro path hpath
    cases hpath
    refine ⟨admissible_rootFile, ?_⟩
    rw [show components rootFilePath = [[98]] by decide, Unshadowed, lookupName_rootFile]
    exact ⟨finds_iff.mpr ⟨_, lookupName_rootFile⟩, trivial⟩
  have hread : Request.Calm longNameMount 8 (.read 12 10 0) := by
    rintro path hpath
    cases hpath
  exact ⟨_, _, hinit, session_calm hinit
    (List.forall_mem_cons.mpr ⟨hlong, List.forall_mem_cons.mpr ⟨hroot,
      List.forall_mem_singleton.mpr hread⟩⟩)⟩

end

end Spotlight.Ext4
