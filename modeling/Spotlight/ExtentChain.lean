import Spotlight.ExtentLookup
import Spotlight.Loops

/-! How far `extent_get_pblock` goes down: the chain of nodes that it follows from the root, on a
disk of any content. -/
namespace Spotlight.Ext4
open Bytes ExtTree Loops

def nodeIn (fs : Mount) (block : ℕ) : List UInt8 :=
  readAt fs.disk (blocks2bytes fs.super block)
    (u16At (readAt fs.disk (blocks2bytes fs.super block) sizeofExtentHeader) 2 * sizeofExtent +
      sizeofExtentHeader)

/-- One level of `extent_get_pblock`: what it answers, or the node that it goes on in. -/
def extentTurn (fs : Mount) (lblock : ℕ) (extents : List UInt8) :
    Outcome (ℕ × Option ℕ) ⊕ List UInt8 :=
  match headerAt extents with
  | .error e => .inl (.error e)
  | .ok eh =>
    if eh.ehMagic ≠ ext4ExtMagic then .inl (.error .assertion)
    else if eh.ehDepth = 0 then .inl (extentGetBlockFromEes extents eh.ehEntries lblock)
    else
      match extentIndexLoop extents lblock eh.ehEntries 0 none with
      | .error e => .inl (.error e)
      | .ok none => .inl (.error .assertion)
      | .ok (some recurseEi) => .inr (nodeIn fs recurseEi.eiLeafLo)

variable {fs : Mount} {fuel lblock block : ℕ} {extents node : List UInt8}

/-- The header and the entries of a node are never as long as the reads that fail. -/
lemma extentGetExtentsInBlock_eq (fs : Mount) (block : ℕ) :
    extentGetExtentsInBlock fs block = .ok (nodeIn fs block) := by
  have hheader : sizeofExtentHeader < 2 ^ 31 := by norm_num [sizeofExtentHeader]
  have hentries := u16At_lt
    (readAt fs.disk (blocks2bytes fs.super block) sizeofExtentHeader) 2
  have hsize : u16At (readAt fs.disk (blocks2bytes fs.super block) sizeofExtentHeader) 2 *
      sizeofExtent + sizeofExtentHeader < 2 ^ 31 := by
    unfold sizeofExtent sizeofExtentHeader at *
    omega
  rw [extentGetExtentsInBlock, diskRead_eq hheader, Outcome.ok_bind, diskRead_eq hsize, nodeIn]

lemma extentGetPblock_succ : extentGetPblock fs (fuel + 1) extents lblock =
    (extentTurn fs lblock extents).elim id fun node => extentGetPblock fs fuel node lblock := by
  unfold extentTurn
  rw [extentGetPblock]
  cases headerAt extents with
  | error e => rfl
  | ok eh =>
    by_cases hmagic : eh.ehMagic = ext4ExtMagic
    swap
    · rw [Outcome.ok_bind, Outcome.assertThat_false hmagic]
      dsimp only
      rw [if_pos hmagic]
      rfl
    by_cases hdepth : eh.ehDepth = 0
    · simp only [Outcome.ok_bind, Outcome.assertThat_true, hmagic, hdepth, if_true]
      rfl
    simp only [Outcome.ok_bind, Outcome.assertThat_true, hmagic, hdepth, if_false]
    cases extentIndexLoop extents lblock eh.ehEntries 0 none with
    | error e => rfl
    | ok recurseEi =>
      cases recurseEi with
      | none => rfl
      | some ei =>
        simp only [Outcome.ok_bind, extentGetExtentsInBlock_eq]
        rfl

lemma extentGetPblock_eq_run : extentGetPblock fs fuel extents lblock =
    (run (extentTurn fs lblock) fuel extents).getD (.error .fuel) := by
  induction fuel generalizing extents with
  | zero => rfl
  | succ fuel ih =>
    rw [extentGetPblock_succ, run]
    cases extentTurn fs lblock extents with
    | inl r => rfl
    | inr node => exact ih

def ScanFault (e : Fault) : Prop := e = .assertion ∨ e = .bounds

lemma scanFault_of_assert {p : Prop} [Decidable p] {e : Fault} (h : assertThat p = .error e) :
    ScanFault e := by
  unfold assertThat at h
  split_ifs at h
  cases h
  exact Or.inl rfl

lemma extentGetBlockFromEesLoop_error {n i : ℕ} {e : Fault}
    (h : extentGetBlockFromEesLoop extents lblock n i = .error e) : ScanFault e := by
  induction n generalizing i with
  | zero => cases h
  | succ n ih =>
    rw [extentGetBlockFromEesLoop, Outcome.bind_eq_error] at h
    rcases h with h | ⟨ee, -, h⟩
    · unfold extentAt at h
      split_ifs at h
      cases h
      exact Or.inr rfl
    · rcases Outcome.bind_eq_error.mp h with h | ⟨-, -, h⟩
      · exact scanFault_of_assert h
      · split_ifs at h
        · cases h
        · exact ih h

lemma extentIndexLoop_error {n i : ℕ} {recurseEi : Option Ext4ExtentIdx} {e : Fault}
    (h : extentIndexLoop extents lblock n i recurseEi = .error e) : ScanFault e := by
  induction n generalizing i recurseEi with
  | zero => cases h
  | succ n ih =>
    rw [extentIndexLoop, Outcome.bind_eq_error] at h
    rcases h with h | ⟨ei, -, h⟩
    · unfold extentIdxAt at h
      split_ifs at h
      cases h
      exact Or.inr rfl
    · rcases Outcome.bind_eq_error.mp h with h | ⟨-, -, h⟩
      · exact scanFault_of_assert h
      · split_ifs at h
        · cases h
        · exact ih h

lemma extentIndexLoop_leafLo {n i : ℕ} {recurseEi : Option Ext4ExtentIdx} {ei : Ext4ExtentIdx}
    (h : extentIndexLoop extents lblock n i recurseEi = .ok (some ei))
    (hlast : ∀ ei ∈ recurseEi, ei.eiLeafLo < 2 ^ 32) : ei.eiLeafLo < 2 ^ 32 := by
  induction n generalizing i recurseEi with
  | zero => exact hlast ei (Except.ok.inj h)
  | succ n ih =>
    rw [extentIndexLoop] at h
    obtain ⟨entry, hentry, h⟩ := Outcome.bind_eq_ok.mp h
    obtain ⟨-, -, h⟩ := Outcome.bind_eq_ok.mp h
    split_ifs at h
    · exact hlast ei (Except.ok.inj h)
    · refine ih h fun ei hei => ?_
      unfold extentIdxAt at hentry
      split_ifs at hentry
      rw [← Option.some.inj hei, ← Except.ok.inj hentry]
      exact u32At_lt _ _

lemma extentTurn_cases (fs : Mount) (lblock : ℕ) (extents : List UInt8) :
    (∃ e, ScanFault e ∧ extentTurn fs lblock extents = .inl (.error e)) ∨
    (∃ r, extentTurn fs lblock extents = .inl (.ok r)) ∨
    ∃ block, block < 2 ^ 32 ∧ extentTurn fs lblock extents = .inr (nodeIn fs block) := by
  unfold extentTurn headerAt
  split_ifs
  swap
  · exact Or.inl ⟨_, Or.inr rfl, rfl⟩
  dsimp only
  split_ifs
  · exact Or.inl ⟨_, Or.inl rfl, rfl⟩
  · cases hleaf : extentGetBlockFromEes extents (u16At extents 2) lblock with
    | error e => exact Or.inl ⟨e, extentGetBlockFromEesLoop_error hleaf, rfl⟩
    | ok r => exact Or.inr (Or.inl ⟨r, rfl⟩)
  · cases hindex : extentIndexLoop extents lblock (u16At extents 2) 0 none with
    | error e => exact Or.inl ⟨e, extentIndexLoop_error hindex, rfl⟩
    | ok recurseEi =>
      cases recurseEi with
      | none => exact Or.inl ⟨_, Or.inl rfl, rfl⟩
      | some ei =>
        have hleafLo := extentIndexLoop_leafLo hindex fun _ h => nomatch h
        exact Or.inr (Or.inr ⟨_, hleafLo, rfl⟩)

lemma extentTurn_finite (fs : Mount) (lblock : ℕ) (extents : List UInt8) :
    {node | Comes (extentTurn fs lblock) extents node}.Finite := by
  refine ((Set.finite_lt_nat (2 ^ 32)).image (nodeIn fs)).insert extents |>.subset ?_
  intro node hnode
  rcases Relation.ReflTransGen.cases_tail hnode with rfl | ⟨parent, -, hturn⟩
  · exact Set.mem_insert _ _
  · rcases extentTurn_cases fs lblock parent with ⟨e, -, h⟩ | ⟨r, h⟩ | ⟨block, hblock, h⟩
    · rw [h] at hturn
      cases hturn
    · rw [h] at hturn
      cases hturn
    · rw [h] at hturn
      exact Or.inr ⟨block, hblock, Sum.inr.inj hturn⟩

lemma extentGetPblock_ends_run : (∃ fuel, extentGetPblock fs fuel extents lblock ≠ .error .fuel) ↔
    ∃ n r, run (extentTurn fs lblock) n extents = some r := by
  simp only [extentGetPblock_eq_run]
  constructor
  · rintro ⟨n, hne⟩
    cases hrun : run (extentTurn fs lblock) n extents with
    | none =>
      rw [hrun] at hne
      exact absurd rfl hne
    | some r => exact ⟨n, r, hrun⟩
  · rintro ⟨n, r, hrun⟩
    refine ⟨n, ?_⟩
    rw [hrun, Option.getD_some]
    rintro rfl
    obtain ⟨node, -, hreturn⟩ := run_eq_some.mp ⟨n, hrun⟩
    rcases extentTurn_cases fs lblock node with ⟨e, he, h⟩ | ⟨r, h⟩ | ⟨block, -, h⟩
    · rw [hreturn] at h
      cases h
      rcases he with he | he <;> cases he
    · rw [hreturn] at h
      cases h
    · rw [hreturn] at h
      cases h

/-- `extent_get_pblock` ends, on every disk, exactly when the chain of nodes that it follows does
not come back to one of them. -/
theorem extentGetPblock_ends_iff (fs : Mount) (extents : List UInt8) (lblock : ℕ) :
    (∃ fuel, extentGetPblock fs fuel extents lblock ≠ .error .fuel) ↔
      ∀ node, Comes (extentTurn fs lblock) extents node →
        ¬ComesBack (extentTurn fs lblock) node := by
  rw [extentGetPblock_ends_run, run_returns_iff (extentTurn_finite fs lblock extents)]

theorem extentGetPblock_ends_of_depths
    (h : ∀ node child, Comes (extentTurn fs lblock) extents node →
      extentTurn fs lblock node = .inr child → u16At child 6 < u16At node 6) :
    ∃ fuel, extentGetPblock fs fuel extents lblock ≠ .error .fuel := by
  obtain ⟨r, hrun⟩ := run_returns (fun node => u16At node 6) h (Nat.lt_succ_self _)
  exact extentGetPblock_ends_run.mpr ⟨_, r, hrun⟩

/-- A disk whose block 3 holds an index node that names block 3. -/
def selfIndexMount : Mount := ⟨fun a => indexBlock.getD (a - 3072) 0, partialLastGroup, []⟩

/-- From an `i_block` that names the block, the lookup goes from the block to itself for ever. -/
theorem extentGetPblock_ends_counterexample :
    ¬∃ fuel, extentGetPblock selfIndexMount fuel indexBlock 5 ≠ .error .fuel := by
  have hroot : extentTurn selfIndexMount 5 indexBlock = .inr (nodeIn selfIndexMount 3) := rfl
  have hself : extentTurn selfIndexMount 5 (nodeIn selfIndexMount 3) =
      .inr (nodeIn selfIndexMount 3) := rfl
  rintro ⟨fuel, hends⟩
  refine hends ?_
  cases fuel with
  | zero => rfl
  | succ n => rw [extentGetPblock_eq_run, run_inr hroot, run_stuck hself, Option.getD_none]

end Spotlight.Ext4
