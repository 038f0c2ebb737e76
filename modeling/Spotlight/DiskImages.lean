import Spotlight.DiskPrograms

/-! What the programs of the filesystem come to: over a disk that always answers they are the
functions of the same names, and over an image they are the same as long as they read inside it. -/
namespace Spotlight.Ext4
open Bytes Programs Programs.Prog

/-- A program over a disk that always answers, but never with more bytes than an `int` can count. -/
def DiskProg.on {α : Type} (disk : Disk) : DiskProg α → Outcome α
  | .done a => .ok a
  | .fail e => .error e
  | .ask q k =>
    if q.size < 2 ^ 31 then DiskProg.on disk (k (q.size, readAt disk q.pos q.size))
    else .error .assertion

namespace DiskProg
variable {α β : Type} (disk : Disk)

@[simp] lemma on_done (a : α) : on disk (done a : DiskProg α) = .ok a := rfl

@[simp] lemma on_fail (e : Fault) : on disk (fail e : DiskProg α) = .error e := rfl

@[simp] lemma on_lift (x : Outcome α) : on disk (liftM x : DiskProg α) = x := by
  cases x <;> rfl

@[simp] lemma on_bind (p : DiskProg α) (f : α → DiskProg β) :
    on disk (p >>= f) = on disk p >>= fun a => on disk (f a) := by
  induction p with
  | done a => rfl
  | fail e => rfl
  | ask q k ih =>
    rw [ask_bind, on, on]
    split_ifs
    · exact ih _
    · rfl

@[simp] lemma on_ite {c : Prop} [Decidable c] (p q : DiskProg α) :
    on disk (if c then p else q) = if c then on disk p else on disk q := apply_ite _ _ _ _

@[simp] lemma on_diskRead (pos size : ℕ) :
    on disk (diskRead pos size) = Ext4.diskRead disk pos size := by
  rw [diskRead, question, ask_bind, on]
  dsimp only
  split_ifs with hsize
  · have hint : Int.bmod (size : ℤ) (2 ^ 32) = size :=
      Int.bmod_eq_of_le_mul_two (by omega) (by omega)
    have hmod : (size : ℤ) % 2 ^ 64 = size := Int.emod_eq_of_lt (by omega) (by omega)
    rw [diskRead_eq hsize, done_bind, hint, hmod, Outcome.assertThat_true rfl]
    rfl
  · rw [Ext4.diskRead, Outcome.assertThat_false hsize]
    rfl

@[simp] lemma on_superFill : on disk superFill = Ext4.superFill disk := by
  simp [superFill, Ext4.superFill]

@[simp] lemma on_superGroupRead (super : Ext4SuperBlock) (i : ℕ) :
    on disk (superGroupRead super i) = Ext4.superGroupRead disk super i := by
  simp [superGroupRead, Ext4.superGroupRead]

@[simp] lemma on_superGroupFillLoop (super : Ext4SuperBlock) (n i : ℕ) :
    on disk (superGroupFillLoop super n i) = Ext4.superGroupFillLoop disk super n i := by
  induction n generalizing i with
  | zero => rfl
  | succ n ih => simp [superGroupFillLoop, Ext4.superGroupFillLoop, ih]

@[simp] lemma on_superGroupFill (super : Ext4SuperBlock) :
    on disk (superGroupFill super) = Ext4.superGroupFill disk super :=
  on_superGroupFillLoop disk super _ 0

variable (v : Volume) (fuel : ℕ)

@[simp] lemma disk_mount : (v.mount disk).disk = disk := rfl
@[simp] lemma super_mount : (v.mount disk).super = v.super := rfl
@[simp] lemma gdescTable_mount : (v.mount disk).gdescTable = v.gdescTable := rfl

@[simp] lemma on_inodeGetByNumber (n : ℕ) :
    on disk (inodeGetByNumber v n) = Ext4.inodeGetByNumber (v.mount disk) n := by
  by_cases hn : n = 0 <;> simp [inodeGetByNumber, inodeRecord, Ext4.inodeGetByNumber, hn]

@[simp] lemma on_extentGetExtentsInBlock (block : ℕ) : on disk (extentGetExtentsInBlock v block) =
    Ext4.extentGetExtentsInBlock (v.mount disk) block := by
  simp [extentGetExtentsInBlock, Ext4.extentGetExtentsInBlock]

@[simp] lemma on_extentGetPblock (extents : List UInt8) (lblock : ℕ) :
    on disk (extentGetPblock v fuel extents lblock) =
      Ext4.extentGetPblock (v.mount disk) fuel extents lblock := by
  induction fuel generalizing extents with
  | zero => rfl
  | succ fuel ih =>
    simp only [extentGetPblock, Ext4.extentGetPblock, on_bind, on_lift, on_ite]
    refine bind_congr fun eh => bind_congr fun _ => ?_
    congr 1
    refine bind_congr fun found => ?_
    cases found with
    | none => rfl
    | some recurseEi => simp [ih]

@[simp] lemma on_diskReadU32 (pos : ℕ) : on disk (diskReadU32 pos) = Ext4.diskReadU32 disk pos := by
  simp [diskReadU32, Ext4.diskReadU32]

@[simp] lemma on_inodeGetDataPblockInd (lblock indexBlock : ℕ) :
    on disk (inodeGetDataPblockInd v lblock indexBlock) =
      Ext4.inodeGetDataPblockInd (v.mount disk) lblock indexBlock := by
  simp only [inodeGetDataPblockInd, Ext4.inodeGetDataPblockInd, on_bind, on_lift, on_diskReadU32]
  rfl

@[simp] lemma on_inodeGetDataPblockDind (lblock dindexBlock : ℕ) :
    on disk (inodeGetDataPblockDind v lblock dindexBlock) =
      Ext4.inodeGetDataPblockDind (v.mount disk) lblock dindexBlock := by
  simp only [inodeGetDataPblockDind, Ext4.inodeGetDataPblockDind, on_bind, on_lift, on_diskReadU32,
    on_inodeGetDataPblockInd]
  rfl

@[simp] lemma on_inodeGetDataPblockTind (lblock tindexBlock : ℕ) :
    on disk (inodeGetDataPblockTind v lblock tindexBlock) =
      Ext4.inodeGetDataPblockTind (v.mount disk) lblock tindexBlock := by
  simp only [inodeGetDataPblockTind, Ext4.inodeGetDataPblockTind, on_bind, on_lift, on_diskReadU32,
    on_inodeGetDataPblockDind]
  rfl

@[simp] lemma on_inodeGetDataPblock (inode : Ext4Inode) (lblock : ℕ) :
    on disk (inodeGetDataPblock v fuel inode lblock) =
      Ext4.inodeGetDataPblock (v.mount disk) fuel inode lblock := by
  simp only [inodeGetDataPblock, Ext4.inodeGetDataPblock, on_ite, on_bind, on_lift, pure_eq,
    on_done, on_fail, on_extentGetPblock, on_inodeGetDataPblockInd, on_inodeGetDataPblockDind,
    on_inodeGetDataPblockTind]
  rfl

@[simp] lemma on_diskCtxRead (ctx : DiskCtx) (size : ℕ) :
    on disk (diskCtxRead ctx size) = Ext4.diskCtxRead disk ctx size := by
  simp [diskCtxRead, Ext4.diskCtxRead]

@[simp] lemma on_firstRead (inode : Ext4Inode) (size offset : ℕ) :
    on disk (firstRead v fuel inode size offset) =
      Ext4.firstRead (v.mount disk) fuel inode size offset := by
  simp [firstRead, Ext4.firstRead]

@[simp] lemma on_opReadLoop (inode : Ext4Inode) (size n lblock : ℕ) (buf : List UInt8) :
    on disk (opReadLoop v fuel inode size n lblock buf) =
      Ext4.opReadLoop (v.mount disk) fuel inode size n lblock buf := by
  induction n generalizing lblock buf with
  | zero =>
    rw [opReadLoop, Ext4.opReadLoop]
    simp
  | succ n ih =>
    rw [opReadLoop, Ext4.opReadLoop]
    simp [ih]

@[simp] lemma on_opRead (fh size offset : ℕ) : on disk (opRead v fuel fh size offset) =
    Ext4.opRead (v.mount disk) fuel fh size offset := by
  simp only [opRead, Ext4.opRead, on_bind, on_inodeGetByNumber]
  refine bind_congr fun found => ?_
  cases found with
  | none => rfl
  | some inode =>
    simp only [on_bind, on_firstRead, on_opReadLoop, on_lift, pure_eq, on_done, super_mount,
      Outcome.pure_eq]

@[simp] lemma on_dirCtxUpdate (inode : Ext4Inode) (lblock : ℕ) :
    on disk (dirCtxUpdate v fuel inode lblock) =
      Ext4.dirCtxUpdate (v.mount disk) fuel inode lblock := by
  simp [dirCtxUpdate, Ext4.dirCtxUpdate]

@[simp] lemma on_inodeDirCtxReset (inode : Ext4Inode) : on disk (inodeDirCtxReset v fuel inode) =
    Ext4.inodeDirCtxReset (v.mount disk) fuel inode := on_dirCtxUpdate disk v fuel inode 0

@[simp] lemma on_inodeDentryGet (inode : Ext4Inode) (offset : ℕ) (ctx : InodeDirCtx) :
    on disk (inodeDentryGet v fuel inode offset ctx) =
      Ext4.inodeDentryGet (v.mount disk) fuel inode offset ctx := by
  simp only [inodeDentryGet, Ext4.inodeDentryGet, on_ite, on_bind, on_lift, pure_eq, on_done,
    on_dirCtxUpdate]
  rfl

@[simp] lemma on_dentryLoop (inode : Ext4Inode) (name : List UInt8) (n offset : ℕ)
    (ctx : InodeDirCtx) : on disk (dentryLoop v fuel inode name n offset ctx) =
      Ext4.dentryLoop (v.mount disk) fuel inode name n offset ctx := by
  induction n generalizing offset ctx with
  | zero => rfl
  | succ n ih =>
    simp only [dentryLoop, Ext4.dentryLoop, on_bind, on_inodeDentryGet]
    refine bind_congr fun r => ?_
    obtain ⟨ctx, _ | dentry⟩ := r
    · rfl
    · simp [ih]

@[simp] lemma on_lookupName (inodeIdx : ℕ) (name : List UInt8) :
    on disk (lookupName v fuel inodeIdx name) =
      Ext4.lookupName (v.mount disk) fuel inodeIdx name := by
  simp [lookupName, Ext4.lookupName]

@[simp] lemma on_inodeGetIdxByPathLoop (n : ℕ) (d : Dcache) (path : List UInt8)
    (dcEntry : Option ℕ) (inodeIdx : ℕ) :
    on disk (inodeGetIdxByPathLoop v fuel n d path dcEntry inodeIdx) =
      Ext4.inodeGetIdxByPathLoop (v.mount disk) fuel n d path dcEntry inodeIdx := by
  induction n generalizing d path dcEntry inodeIdx with
  | zero => rfl
  | succ n ih =>
    simp only [inodeGetIdxByPathLoop, Ext4.inodeGetIdxByPathLoop, on_bind, on_lift, on_ite,
      on_lookupName, pure_eq, on_done]
    refine bind_congr fun pathLen => ?_
    split_ifs
    · rfl
    refine bind_congr fun r => ?_
    obtain ⟨inode, _ | inodeIdx⟩ := r
    · rfl
    · simp only [on_bind, on_lift, on_ite, on_done]
      split_ifs
      all_goals
        refine bind_congr fun r => ?_
        cases List.dropWhile (· ≠ slash) (List.dropWhile (· = slash) path) with
        | nil => rfl
        | cons c path => exact ih _ _ _ _

@[simp] lemma on_inodeGetIdxByPath (d : Dcache) (path : List UInt8) :
    on disk (inodeGetIdxByPath v fuel d path) =
      Ext4.inodeGetIdxByPath (v.mount disk) fuel d path := by
  simp [inodeGetIdxByPath, Ext4.inodeGetIdxByPath]

@[simp] lemma on_inodeGetByPath (d : Dcache) (path : List UInt8) :
    on disk (inodeGetByPath v fuel d path) = Ext4.inodeGetByPath (v.mount disk) fuel d path := by
  simp [inodeGetByPath, Ext4.inodeGetByPath]

variable {σ : Type}

@[simp] lemma on_opReaddirLoop (inode : Ext4Inode) (filler : σ → List UInt8 → ℕ → σ × Bool)
    (n offset : ℕ) (ctx : InodeDirCtx) (s : σ) :
    on disk (opReaddirLoop v fuel inode filler n offset ctx s) =
      Ext4.opReaddirLoop (v.mount disk) fuel inode filler n offset ctx s := by
  induction n generalizing offset ctx s with
  | zero => rfl
  | succ n ih =>
    simp only [opReaddirLoop, Ext4.opReaddirLoop, on_bind, on_inodeDentryGet]
    refine bind_congr fun r => ?_
    obtain ⟨ctx, _ | dentry⟩ := r
    · rfl
    · simp [ih]

@[simp] lemma on_opReaddir (filler : σ → List UInt8 → ℕ → σ × Bool) (d : Dcache)
    (path : List UInt8) (s : σ) (offset : ℕ) : on disk (opReaddir v fuel filler d path s offset) =
      Ext4.opReaddir (v.mount disk) fuel filler d path s offset := by
  simp only [opReaddir, Ext4.opReaddir, on_bind, on_inodeGetByPath]
  refine bind_congr fun r => ?_
  obtain ⟨d, _ | inode⟩ := r
  · rfl
  · simp only [on_bind, on_inodeDirCtxReset, on_opReaddirLoop, pure_eq, on_done, Outcome.pure_eq]

@[simp] lemma on_getLinkDest (inode : Ext4Inode) (buf : List UInt8) (bufsize : ℕ) :
    on disk (getLinkDest v fuel inode buf bufsize) =
      Ext4.getLinkDest strncpy (v.mount disk) fuel inode buf bufsize := by
  simp only [getLinkDest, Ext4.getLinkDest, on_ite, on_bind, on_lift, on_inodeGetDataPblock,
    on_diskRead, pure_eq, on_done, Outcome.pure_eq, super_mount, disk_mount]

@[simp] lemma on_opReadlink (d : Dcache) (path buf : List UInt8) (bufsize : ℕ) :
    on disk (opReadlink v fuel d path buf bufsize) =
      Ext4.opReadlink (v.mount disk) fuel d path buf bufsize := by
  simp only [opReadlink, Ext4.opReadlink, opReadlinkBy, on_ite, on_bind, on_lift, on_inodeGetByPath,
    on_getLinkDest, pure_eq, on_done, Outcome.pure_eq]

end DiskProg

/-- The answers that are known of a read layer over an image: a read of some bytes inside it
returns their number, and stores them. -/
def imageAnswer (image : List UInt8) (q : DiskCall) : Option (ℤ × List UInt8) :=
  if 0 < q.size ∧ q.size < 2 ^ 31 ∧ q.pos + q.size ≤ image.length then
    some (q.size, slice image q.pos q.size)
  else none

/-- Every read of the program is one of some bytes inside the image. -/
def DiskProg.Inside {α : Type} (image : List UInt8) (p : DiskProg α) : Prop :=
  (p.eval (imageAnswer image)).isSome

instance {α : Type} (image : List UInt8) (p : DiskProg α) : Decidable (p.Inside image) :=
  inferInstanceAs (Decidable (_ = true))

lemma imageAnswer_eq_some {image : List UInt8} {q : DiskCall} {a : ℤ × List UInt8} :
    imageAnswer image q = some a ↔ (0 < q.size ∧ q.size < 2 ^ 31 ∧
      q.pos + q.size ≤ image.length) ∧ ((q.size : ℤ), slice image q.pos q.size) = a := by
  rw [imageAnswer, Option.ite_none_right_eq_some, Option.some_inj]

end Spotlight.Ext4
