import Spotlight.Readdir
import Spotlight.Loops

/-! The two scans of a directory of any content, without the buffer: where they come to in it and
what they return. -/
namespace Spotlight.Ext4
open Bytes Records Loops

def lookupAt (fs : Mount) (fuel : ℕ) (inode : Ext4Inode) (o : ℕ) : Outcome (ℕ × ℕ) :=
  inodeGetDataPblock fs fuel inode (o / superBlockSize fs.super % 2 ^ 32)

/-- A scan without its buffer: the offset of a state, what is returned at the end of the directory,
and what happens with an entry. -/
structure Scan (S β : Type) where
  offset : S → ℕ
  done : S → β
  entry : S → RawDentry → Outcome β ⊕ S

variable {S β σ : Type}

def Scan.turn (fs : Mount) (fuel : ℕ) (inode : Ext4Inode) (scan : Scan S β) (s : S) :
    Outcome β ⊕ S :=
  if inodeGetSize inode < scan.offset s then .inl (.error .assertion)
  else if inodeGetSize inode = scan.offset s then .inl (.ok (scan.done s))
  else match lookupAt fs fuel inode (scan.offset s) with
    | .error e => .inl (.error e)
    | .ok _ => scan.entry s (rawDentry fs fuel inode (scan.offset s))

def Scan.result (fs : Mount) (fuel : ℕ) (inode : Ext4Inode) (scan : Scan S β) (n : ℕ) (s : S) :
    Outcome β :=
  (run (scan.turn fs fuel inode) n s).getD (.error .fuel)

/-- The scan that begins at `start` comes to an entry, in a block that is found. -/
def Scan.Meets (fs : Mount) (fuel : ℕ) (inode : Ext4Inode) (scan : Scan S β) (start s : S) :
    Prop :=
  Comes (scan.turn fs fuel inode) start s ∧ scan.offset s < inodeGetSize inode ∧
    ∃ v, lookupAt fs fuel inode (scan.offset s) = .ok v

def Scan.Passes (fs : Mount) (fuel : ℕ) (inode : Ext4Inode) (scan : Scan S β) (start s s' : S) :
    Prop :=
  scan.Meets fs fuel inode start s ∧
    scan.entry s (rawDentry fs fuel inode (scan.offset s)) = .inr s'

/-- No block that the scan comes to is looked up with this fault. -/
def Scan.FindsWithout (fs : Mount) (fuel : ℕ) (inode : Ext4Inode) (scan : Scan S β) (e : Fault)
    (start : S) : Prop :=
  ∀ s, Comes (scan.turn fs fuel inode) start s → scan.offset s < inodeGetSize inode →
    lookupAt fs fuel inode (scan.offset s) ≠ .error e

def dentryEntry (fs : Mount) (name : List UInt8) (o : ℕ) (e : RawDentry) :
    Outcome (Option ℕ) ⊕ ℕ :=
  if e.Inside (superBlockSize fs.super) (o % superBlockSize fs.super)
      (name.length = e.nameLen) then
    if e.Is name then .inl (.ok (some e.inode)) else .inr ((o + e.recLen) % 2 ^ 32)
  else .inl (.error .bounds)

def dentryScan (fs : Mount) (name : List UInt8) : Scan ℕ (Option ℕ) where
  offset o := o
  done _ := none
  entry := dentryEntry fs name

def readdirEntry (fs : Mount) (filler : σ → List UInt8 → ℕ → σ × Bool) (p : ℕ × σ)
    (e : RawDentry) : Outcome σ ⊕ ℕ × σ :=
  if e.Listable (superBlockSize fs.super) p.1 then
    if e.inode = 0 ∨ cString e.name = [] then .inr (p.1 + e.recLen, p.2)
    else if (filler p.2 (cString e.name) (p.1 + e.recLen)).2 then
      .inl (.ok (filler p.2 (cString e.name) (p.1 + e.recLen)).1)
    else .inr (p.1 + e.recLen, (filler p.2 (cString e.name) (p.1 + e.recLen)).1)
  else .inl (.error .bounds)

/-- The scan of `op_readdir`, with the state of the filler. -/
def readdirScan (fs : Mount) (filler : σ → List UInt8 → ℕ → σ × Bool) : Scan (ℕ × σ) σ where
  offset p := p.1
  done p := p.2
  entry := readdirEntry fs filler

variable {fs : Mount} {fuel : ℕ} {inode : Ext4Inode} {o o' n p r offset : ℕ} {scan : Scan S β}
  {start s s' : S} {e : Fault} {name : List UInt8} {ctx : InodeDirCtx} {es : List Ext4DirEntry2}
  {filler : σ → List UInt8 → ℕ → σ × Bool}

lemma Scan.turn_beyond (h : inodeGetSize inode < scan.offset s) :
    scan.turn fs fuel inode s = .inl (.error .assertion) := if_pos h

lemma Scan.turn_end (h : inodeGetSize inode = scan.offset s) :
    scan.turn fs fuel inode s = .inl (.ok (scan.done s)) := by
  rw [turn, if_neg h.not_lt, if_pos h]

lemma Scan.turn_lost (h : scan.offset s < inodeGetSize inode)
    (hp : lookupAt fs fuel inode (scan.offset s) = .error e) :
    scan.turn fs fuel inode s = .inl (.error e) := by
  rw [turn, if_neg h.not_gt, if_neg h.ne', hp]

lemma Scan.turn_entry (h : scan.offset s < inodeGetSize inode)
    {v : ℕ × ℕ} (hp : lookupAt fs fuel inode (scan.offset s) = .ok v) :
    scan.turn fs fuel inode s = scan.entry s (rawDentry fs fuel inode (scan.offset s)) := by
  rw [turn, if_neg h.not_gt, if_neg h.ne', hp]

lemma Scan.turn_eq_inr : scan.turn fs fuel inode s = .inr s' ↔
    scan.offset s < inodeGetSize inode ∧ (∃ v, lookupAt fs fuel inode (scan.offset s) = .ok v) ∧
      scan.entry s (rawDentry fs fuel inode (scan.offset s)) = .inr s' := by
  rcases lt_trichotomy (inodeGetSize inode) (scan.offset s) with hbeyond | hend | hsize
  · rw [turn_beyond hbeyond]
    exact iff_of_false (by simp) fun h => absurd h.1 hbeyond.not_gt
  · rw [turn_end hend]
    exact iff_of_false (by simp) fun h => absurd hend h.1.ne'
  · cases hp : lookupAt fs fuel inode (scan.offset s) with
    | error e =>
      rw [turn_lost hsize hp]
      simp
    | ok v =>
      rw [turn_entry hsize hp]
      simp [hsize]

lemma Scan.turn_eq_error (he : e ≠ .assertion)
    (hp : scan.offset s < inodeGetSize inode → lookupAt fs fuel inode (scan.offset s) ≠ .error e) :
    scan.turn fs fuel inode s = .inl (.error e) ↔
      scan.offset s < inodeGetSize inode ∧
        (∃ v, lookupAt fs fuel inode (scan.offset s) = .ok v) ∧
        scan.entry s (rawDentry fs fuel inode (scan.offset s)) = .inl (.error e) := by
  rcases lt_trichotomy (inodeGetSize inode) (scan.offset s) with hbeyond | hend | hsize
  · rw [turn_beyond hbeyond]
    exact iff_of_false (by simpa using he.symm) fun h => absurd h.1 hbeyond.not_gt
  · rw [turn_end hend]
    exact iff_of_false (by simp) fun h => absurd hend h.1.ne'
  · have hp := hp hsize
    cases hlookup : lookupAt fs fuel inode (scan.offset s) with
    | error e' =>
      rw [hlookup] at hp
      rw [turn_lost hsize hlookup]
      simpa using hp
    | ok v =>
      rw [turn_entry hsize hlookup]
      simp [hsize]

lemma Scan.result_inl {v : Outcome β} (h : scan.turn fs fuel inode s = .inl v) (n : ℕ) :
    scan.result fs fuel inode (n + 1) s = v := by
  rw [result, run_inl h]
  rfl

lemma Scan.result_inr (h : scan.turn fs fuel inode s = .inr s') (n : ℕ) :
    scan.result fs fuel inode (n + 1) s = scan.result fs fuel inode n s' := by
  rw [result, run_inr h]
  rfl

lemma Scan.result_eq_error (he : e ≠ .assertion) (hfuel : e ≠ .fuel)
    (hp : scan.FindsWithout fs fuel inode e start) :
    (∃ n, scan.result fs fuel inode n start = .error e) ↔
      ∃ s, scan.Meets fs fuel inode start s ∧
        scan.entry s (rawDentry fs fuel inode (scan.offset s)) = .inl (.error e) := by
  have hresult : ∀ n, scan.result fs fuel inode n start = .error e ↔
      run (scan.turn fs fuel inode) n start = some (.error e) := by
    intro n
    rw [result]
    cases run (scan.turn fs fuel inode) n start with
    | none => simpa using hfuel.symm
    | some r => simp
  rw [exists_congr hresult, run_eq_some]
  refine exists_congr fun s => ?_
  constructor
  · rintro ⟨hcomes, hturn⟩
    obtain ⟨hsize, hfound, hentry⟩ := (turn_eq_error he (hp s hcomes)).mp hturn
    exact ⟨⟨hcomes, hsize, hfound⟩, hentry⟩
  · rintro ⟨⟨hcomes, hsize, hfound⟩, hentry⟩
    exact ⟨hcomes, (turn_eq_error he (hp s hcomes)).mpr ⟨hsize, hfound, hentry⟩⟩

@[simp] lemma dentryScan_offset (fs : Mount) (name : List UInt8) (o : ℕ) :
    (dentryScan fs name).offset o = o := rfl

@[simp] lemma dentryScan_entry (fs : Mount) (name : List UInt8) :
    (dentryScan fs name).entry = dentryEntry fs name := by rw [dentryScan]

@[simp] lemma readdirScan_offset (fs : Mount) (filler : σ → List UInt8 → ℕ → σ × Bool)
    (q : ℕ × σ) : (readdirScan fs filler).offset q = q.1 := rfl

@[simp] lemma readdirScan_entry (fs : Mount) (filler : σ → List UInt8 → ℕ → σ × Bool) :
    (readdirScan fs filler).entry = readdirEntry fs filler := by rw [readdirScan]

lemma inodeDentryGet_beyond (h : inodeGetSize inode < o) (ctx : InodeDirCtx) :
    inodeDentryGet fs fuel inode o ctx = .error .assertion := by
  rw [inodeDentryGet, Outcome.assertThat_false h.not_ge]
  rfl

lemma inodeDentryGet_lost (hctx : ctx.Holds fs fuel inode) (hsize : o < inodeGetSize inode)
    (hp : lookupAt fs fuel inode o = .error e) :
    inodeDentryGet fs fuel inode o ctx = .error e := by
  have hupdate : dirCtxUpdate fs fuel inode (o / superBlockSize fs.super % 2 ^ 32) = .error e := by
    rw [dirCtxUpdate, show inodeGetDataPblock _ _ _ _ = _ from hp]
    rfl
  rw [inodeDentryGet, Outcome.assertThat_true hsize.le, Outcome.ok_bind, if_neg hsize.ne',
    if_neg, hupdate]
  · rfl
  · intro hsame
    rw [InodeDirCtx.Holds, ← hsame, hupdate] at hctx
    cases hctx

/-- The loop of `inode_get_idx_by_path` is this scan, whatever block is in the buffer. -/
theorem dentryLoop_scan (hlog : fs.super.sLogBlockSize ≤ 20) (hctx : ctx.Holds fs fuel inode)
    (name : List UInt8) (n : ℕ) : dentryLoop fs fuel inode name n o ctx =
      (dentryScan fs name).result fs fuel inode n o := by
  induction n generalizing o ctx with
  | zero => rfl
  | succ n ih =>
    rcases lt_trichotomy (inodeGetSize inode) o with hbeyond | rfl | hsize
    · rw [dentryLoop, inodeDentryGet_beyond hbeyond, Scan.result_inl (Scan.turn_beyond hbeyond)]
      rfl
    · rw [dentryLoop_end, Scan.result_inl (Scan.turn_end rfl)]
      rfl
    cases hp : lookupAt fs fuel inode o with
    | error e =>
      rw [dentryLoop, inodeDentryGet_lost hctx hsize hp, Scan.result_inl (Scan.turn_lost hsize hp)]
      rfl
    | ok v =>
      obtain ⟨p, r⟩ := v
      have hturn : (dentryScan fs name).turn fs fuel inode o =
          dentryEntry fs name o (rawDentry fs fuel inode o) := by
        rw [Scan.turn_entry hsize hp, dentryScan_entry, dentryScan_offset]
      rw [lookupAt] at hp
      obtain ⟨ctx', hctx', hrun⟩ := dentryLoop_raw hlog hctx hsize hp name n
      rw [dentryEntry] at hturn
      rw [hrun]
      split_ifs at hturn ⊢ with hinside his
      · exact (Scan.result_inl hturn n).symm
      · rw [ih hctx', Scan.result_inr hturn]
      · exact (Scan.result_inl hturn n).symm

theorem opReaddirLoop_scan (hlog : fs.super.sLogBlockSize ≤ 20) (hctx : ctx.Holds fs fuel inode)
    (filler : σ → List UInt8 → ℕ → σ × Bool) (n : ℕ) (t : σ) :
    opReaddirLoop fs fuel inode filler n o ctx t =
      (readdirScan fs filler).result fs fuel inode n (o, t) := by
  induction n generalizing o ctx t with
  | zero => rfl
  | succ n ih =>
    rcases lt_trichotomy (inodeGetSize inode) o with hbeyond | rfl | hsize
    · rw [opReaddirLoop, inodeDentryGet_beyond hbeyond,
        Scan.result_inl (Scan.turn_beyond hbeyond)]
      rfl
    · rw [opReaddirLoop, inodeDentryGet_end, Scan.result_inl (Scan.turn_end rfl)]
      rfl
    cases hp : lookupAt fs fuel inode o with
    | error e =>
      rw [opReaddirLoop, inodeDentryGet_lost hctx hsize hp,
        Scan.result_inl (Scan.turn_lost hsize hp)]
      rfl
    | ok v =>
      obtain ⟨p, r⟩ := v
      have hturn : (readdirScan fs filler).turn fs fuel inode (o, t) =
          readdirEntry fs filler (o, t) (rawDentry fs fuel inode o) := by
        rw [Scan.turn_entry hsize hp, readdirScan_entry, readdirScan_offset]
      rw [lookupAt] at hp
      obtain ⟨ctx', hctx', hrun⟩ := opReaddirLoop_raw filler hlog hctx hsize hp n t
      rw [readdirEntry] at hturn
      rw [hrun]
      dsimp only at hturn ⊢
      generalize rawDentry fs fuel inode o = e at hturn ⊢
      by_cases hlist : e.Listable (superBlockSize fs.super) o
      · rw [if_pos hlist] at hturn ⊢
        by_cases hinode : e.inode = 0
        · rw [if_pos (.inl hinode)] at hturn
          rw [if_pos hinode, ih hctx', Scan.result_inr hturn]
        by_cases hstring : cString e.name = []
        · rw [if_pos (.inr hstring)] at hturn
          rw [if_neg hinode, if_pos hstring, ih hctx', Scan.result_inr hturn]
        rw [if_neg (not_or.mpr ⟨hinode, hstring⟩)] at hturn
        rw [if_neg hinode, if_neg hstring]
        split_ifs at hturn ⊢
        · exact (Scan.result_inl hturn n).symm
        · rw [ih hctx', Scan.result_inr hturn]
      · rw [if_neg hlist] at hturn ⊢
        exact (Scan.result_inl hturn n).symm

lemma dentryEntry_inr {e : RawDentry} (h : dentryEntry fs name o e = .inr o') :
    ¬e.Is name ∧ o' = (o + e.recLen) % 2 ^ 32 := by
  rw [dentryEntry] at h
  split_ifs at h with hinside his
  exact ⟨his, (Sum.inr.inj h).symm⟩

lemma dentryEntry_bounds {e : RawDentry} : dentryEntry fs name o e = .inl (.error .bounds) ↔
    ¬e.Inside (superBlockSize fs.super) (o % superBlockSize fs.super)
      (name.length = e.nameLen) := by
  rw [dentryEntry]
  split_ifs with hinside <;> simp [hinside]

lemma readdirEntry_inr {q q' : ℕ × σ} {e : RawDentry} (h : readdirEntry fs filler q e = .inr q') :
    q'.1 = q.1 + e.recLen := by
  rw [readdirEntry] at h
  split_ifs at h <;> rw [← Sum.inr.inj h]

lemma readdirEntry_bounds {q : ℕ × σ} {e : RawDentry} :
    readdirEntry fs filler q e = .inl (.error .bounds) ↔
      ¬e.Listable (superBlockSize fs.super) q.1 := by
  rw [readdirEntry]
  split_ifs with hlist <;> simp [hlist]

end Spotlight.Ext4
