import Spotlight.Extents

/-! Mapping logical blocks through a stored extent tree: blocks that an extent covers, and
holes. -/
namespace Spotlight.Ext4
open Bytes SortedSearch ExtTree

/-- Blocks of the file that the extent maps; lengths above 32768 mark unwritten blocks. -/
def Ext4Extent.length (ee : Ext4Extent) : ℕ :=
  if ee.eeLen ≤ 32768 then ee.eeLen else ee.eeLen - 32768

def Ext4Extent.Initialised (ee : Ext4Extent) : Prop := ee.eeLen ≤ 32768

def Ext4Extent.Covers (ee : Ext4Extent) (lblock : ℕ) : Prop :=
  ee.eeBlock ≤ lblock ∧ lblock < ee.eeBlock + ee.length

namespace ExtTree

/-- Sorted, non-overlapping entries; a child's extents lie between its index entry and the
next one; logical and physical block numbers are below 2^32. -/
def WellFormed : (d : ℕ) → ExtTree d → Prop
  | 0, es =>
    es.Pairwise (fun a b => a.eeBlock + a.length ≤ b.eeBlock) ∧
    ∀ e ∈ es, e.eeBlock + e.length ≤ 2 ^ 32 ∧ e.eeStartLo + e.length ≤ 2 ^ 32
  | d + 1, cs =>
    cs.Pairwise (fun a b => a.1.eiBlock < b.1.eiBlock ∧
      ∀ e ∈ extents d a.2, e.eeBlock + e.length ≤ b.1.eiBlock) ∧
    ∀ c ∈ cs, WellFormed d c.2 ∧ ∀ e ∈ extents d c.2, c.1.eiBlock ≤ e.eeBlock

theorem leafFor_stored {fs : Mount} {d : ℕ} {t : ExtTree d} {mem : List UInt8}
    (h : Stored fs d t mem) {lblock : ℕ} {es : List Ext4Extent}
    (hl : leafFor d t lblock = some es) : ∃ leaf, Stored fs 0 es leaf := by
  induction d generalizing mem with
  | zero =>
    cases hl
    exact ⟨mem, h⟩
  | succ d ih =>
    obtain ⟨c, hc, hleaf⟩ := Option.bind_eq_some_iff.mp hl
    obtain ⟨-, child, -, hstored⟩ := h.2.2 c (lastWhile_mem hc).1
    exact ih hstored hleaf

theorem stored_eeBlock_lt {fs : Mount} {es : List Ext4Extent} {leaf : List UInt8}
    (h : Stored fs 0 es leaf) {e : Ext4Extent} (he : e ∈ es) : e.eeBlock < 2 ^ 32 := by
  obtain ⟨i, hi⟩ := List.mem_iff_getElem?.mp he
  have hread := h.2.1 i e hi
  unfold extentAt at hread
  split_ifs at hread
  cases hread
  exact u32At_lt _ _

theorem locate_fst_eq_zero_iff {e : Ext4Extent} (he : e.eeBlock < 2 ^ 32) (lblock : ℕ) :
    (e.locate lblock).1 = 0 ↔ e.eeStartLo + lblock ≡ e.eeBlock [MOD 2 ^ 32] := by
  unfold Ext4Extent.locate Nat.ModEq
  dsimp only
  omega

/-- No extent of the leaf ends behind the block, or the first that does places the block at
physical block 0. -/
def ReadsAsHole (es : List Ext4Extent) (lblock : ℕ) : Prop :=
  (∀ e ∈ es, e.end32 ≤ lblock) ∨
  ∃ pre e post, es = pre ++ e :: post ∧ (∀ a ∈ pre, a.end32 ≤ lblock) ∧
    lblock < e.end32 ∧ e.eeStartLo + lblock ≡ e.eeBlock [MOD 2 ^ 32]

theorem leafLookup_zero_iff {es : List Ext4Extent} (hes : ∀ e ∈ es, e.eeBlock < 2 ^ 32)
    (lblock : ℕ) : (leafLookup es lblock).1 = 0 ↔ ReadsAsHole es lblock := by
  unfold leafLookup
  cases hfind : es.find? fun ee => decide (lblock < ee.end32) with
  | none =>
    have hall : ∀ e ∈ es, e.end32 ≤ lblock := by simpa using hfind
    exact iff_of_true rfl (Or.inl hall)
  | some e =>
    obtain ⟨he, pre, post, rfl, hpre⟩ := List.find?_eq_some_iff_append.mp hfind
    have hend : lblock < e.end32 := by simpa using he
    have hbefore : ∀ a ∈ pre, a.end32 ≤ lblock := by simpa using hpre
    rw [Option.elim_some, locate_fst_eq_zero_iff (hes e (by simp))]
    constructor
    · intro hz
      exact Or.inr ⟨pre, e, post, rfl, hbefore, hend, hz⟩
    · rintro (hall | ⟨pre', e', post', hsplit, hbefore', hend', hz⟩)
      · exact absurd (hall e (by simp)) (by omega)
      · -- both splits stop at the first extent that ends behind the block
        have hfind' : (pre ++ e :: post).find? (fun ee => decide (lblock < ee.end32)) =
            some e' := by
          rw [hsplit]
          exact find?_split (by simpa using hbefore') (by simpa using hend')
        rw [hfind] at hfind'
        cases hfind'
        exact hz

/-- The lookup of any block of a stored tree answers 0, with every assertion holding,
exactly when the index entries lead to a leaf that reads the block as a hole. -/
theorem extentGetPblock_zero_iff {fs : Mount} {d : ℕ} {t : ExtTree d} {mem : List UInt8}
    (h : Stored fs d t mem) {fuel : ℕ} (hf : d < fuel) (lblock : ℕ) :
    (∃ len, extentGetPblock fs fuel mem lblock = .ok (0, len)) ↔
      ∃ es, leafFor d t lblock = some es ∧ ReadsAsHole es lblock := by
  rw [extentGetPblock_eq h hf]
  cases hl : leafFor d t lblock with
  | none => simp
  | some es =>
    obtain ⟨leaf, hleaf⟩ := leafFor_stored h hl
    have hz := leafLookup_zero_iff (fun e he => stored_eeBlock_lt hleaf he) lblock
    simp only [Except.ok.injEq, Option.some.injEq, exists_eq_left', ← hz]
    exact ⟨fun ⟨len, he⟩ => by rw [he], fun he => ⟨(leafLookup es lblock).2, Prod.ext he rfl⟩⟩

/-- The 60 bytes of an `i_block` whose only extent maps logical block 5 to block 100. -/
def lateExtentBlock : List UInt8 :=
  [0x0a, 0xf3, 1, 0, 4, 0, 0, 0, 0, 0, 0, 0,
   5, 0, 0, 0, 1, 0, 0, 0, 100, 0, 0, 0] ++ List.replicate 36 0

def zeroMount : Mount := ⟨fun _ => 0, partialLastGroup, []⟩

theorem lateExtent_stored : Stored zeroMount 0 [⟨5, 1, 0, 100⟩] lateExtentBlock := by
  refine ⟨rfl, entries_cons.mpr ⟨rfl, fun j x hx => ?_⟩, by decide⟩
  simp at hx

/-- Logical block 0 lies before the only extent and is read from block 95. -/
theorem extentGetPblock_hole_counterexample :
    Stored zeroMount 0 [⟨5, 1, 0, 100⟩] lateExtentBlock ∧
    WellFormed 0 [⟨5, 1, 0, 100⟩] ∧
    (∀ e ∈ extents 0 [⟨5, 1, 0, 100⟩], e.Initialised → ¬e.Covers 0) ∧
    extentGetPblock zeroMount 1 lateExtentBlock 0 = .ok (95, some 6) := by
  refine ⟨lateExtent_stored, ⟨by simp, by decide⟩, ?_, by decide⟩
  rintro e he - hc
  simp only [extents, List.mem_singleton] at he
  subst he
  exact absurd hc.1 (by decide)

/-- Behind the same extent the hole reads as zeros. -/
theorem extentGetPblock_zero_iff_behind :
    ∃ len, extentGetPblock zeroMount 1 lateExtentBlock 6 = .ok (0, len) :=
  (extentGetPblock_zero_iff lateExtent_stored Nat.one_pos 6).mpr
    ⟨_, rfl, Or.inl (by decide)⟩

theorem leafFor_covered {d : ℕ} {t : ExtTree d} (hw : WellFormed d t) {e : Ext4Extent}
    (he : e ∈ extents d t) {lblock : ℕ} (hc : e.Covers lblock) :
    ∃ es, leafFor d t lblock = some es ∧ WellFormed 0 es ∧ e ∈ es ∧
      ∀ a ∈ es, a ∈ extents d t := by
  induction d with
  | zero => exact ⟨t, rfl, hw, he, fun _ h => h⟩
  | succ d ih =>
    obtain ⟨c, hct, hec⟩ := List.mem_flatMap.mp he
    obtain ⟨hsorted, hchild⟩ := hw
    obtain ⟨pre, post, hsplit⟩ := List.append_of_mem hct
    have hlast : lastWhile (fun c => decide (c.1.eiBlock ≤ lblock)) t = some c := by
      rw [hsplit] at hsorted ⊢
      obtain ⟨-, hcpost, hpre⟩ := List.pairwise_append.mp hsorted
      have hstart := (hchild c hct).2 e hec
      apply lastWhile_split
      · intro b hb
        have hlt := (hpre b hb c (by simp)).1
        simpa using hlt.le.trans (hstart.trans hc.1)
      · simpa using hstart.trans hc.1
      · intro b hb
        have hend := ((List.pairwise_cons.mp hcpost).1 b hb).2 e hec
        simpa using hc.2.trans_le hend
    obtain ⟨es, hleaf, hwes, hees, hsub⟩ := ih (hchild c hct).1 hec
    refine ⟨es, ?_, hwes, hees, fun a ha => List.mem_flatMap.mpr ⟨c, hct, hsub a ha⟩⟩
    rw [leafFor, hlast]
    exact hleaf

theorem leafLookup_covered {es : List Ext4Extent} (hw : WellFormed 0 es)
    (hinit : ∀ a ∈ es, a.Initialised) {e : Ext4Extent} (he : e ∈ es) {lblock : ℕ}
    (hc : e.Covers lblock) (hend : e.eeBlock + e.eeLen < 2 ^ 32) :
    leafLookup es lblock =
      (e.eeStartLo + (lblock - e.eeBlock), some (e.eeBlock + e.eeLen - lblock)) := by
  have hlen : ∀ a ∈ es, a.length = a.eeLen := fun a ha => if_pos (hinit a ha)
  obtain ⟨hsorted, hbounds⟩ := hw
  obtain ⟨pre, post, rfl⟩ := List.append_of_mem he
  have hbefore : ∀ a ∈ pre, a.eeBlock + a.eeLen ≤ e.eeBlock := by
    intro a ha
    have h := (List.pairwise_append.mp hsorted).2.2 a ha e (by simp)
    rwa [hlen a (by simp [ha])] at h
  have hstart := (hbounds e he).2
  obtain ⟨hlo, hhi⟩ := hc
  rw [hlen e he] at hstart hhi
  have hfind : (pre ++ e :: post).find? (fun ee => decide (lblock < ee.end32)) = some e := by
    apply find?_split
    · intro a ha
      have h := hbefore a ha
      have hbehind : a.end32 ≤ lblock := by
        unfold Ext4Extent.end32
        omega
      simpa using hbehind
    · have hends : lblock < e.end32 := by
        unfold Ext4Extent.end32
        omega
      simpa using hends
  rw [leafLookup, hfind, Option.elim_some]
  unfold Ext4Extent.locate Ext4Extent.end32
  dsimp only
  congr 2 <;> omega

theorem extentGetPblock_of_covers {fs : Mount} {d : ℕ} {t : ExtTree d} {mem : List UInt8}
    (h : Stored fs d t mem) (hw : WellFormed d t) (hinit : ∀ a ∈ extents d t, a.Initialised)
    {e : Ext4Extent} (he : e ∈ extents d t) (hend : e.eeBlock + e.eeLen < 2 ^ 32)
    {lblock : ℕ} (hc : e.Covers lblock) {fuel : ℕ} (hf : d < fuel) :
    extentGetPblock fs fuel mem lblock =
      .ok (e.eeStartLo + (lblock - e.eeBlock), some (e.eeBlock + e.eeLen - lblock)) := by
  obtain ⟨es, hleaf, hwes, hees, hsub⟩ := leafFor_covered hw he hc
  rw [extentGetPblock_eq h hf, hleaf]
  dsimp only
  rw [leafLookup_covered hwes (fun a ha => hinit a (hsub a ha)) hees hc hend]

theorem extentGetPblock_behind {fs : Mount} {d : ℕ} {t : ExtTree d} {mem : List UInt8}
    (h : Stored fs d t mem) {lblock : ℕ} {es : List Ext4Extent}
    (hleaf : leafFor d t lblock = some es) (hbehind : ∀ e ∈ es, e.end32 ≤ lblock) {fuel : ℕ}
    (hf : d < fuel) : extentGetPblock fs fuel mem lblock = .ok (0, none) := by
  have hfind : es.find? (fun ee => decide (lblock < ee.end32)) = none := by
    simpa using hbehind
  rw [extentGetPblock_eq h hf, hleaf]
  simp only [leafLookup, hfind, Option.elim_none]

/-- A block that an extent ending below block 2^32 covers is mapped by that extent, and so is
the rest of the run that the lookup reports. -/
theorem extentGetPblock_covered {fs : Mount} {d : ℕ} {t : ExtTree d} {mem : List UInt8}
    (h : Stored fs d t mem) (hw : WellFormed d t) (hinit : ∀ a ∈ extents d t, a.Initialised)
    {e : Ext4Extent} (he : e ∈ extents d t) (hend : e.eeBlock + e.eeLen < 2 ^ 32)
    {lblock : ℕ} (hlo : e.eeBlock ≤ lblock) (hhi : lblock < e.eeBlock + e.eeLen)
    {fuel : ℕ} (hf : d < fuel) :
    extentGetPblock fs fuel mem lblock =
      .ok (e.eeStartLo + (lblock - e.eeBlock), some (e.eeBlock + e.eeLen - lblock)) ∧
    ∀ j < e.eeBlock + e.eeLen - lblock, ∃ len,
      extentGetPblock fs fuel mem (lblock + j) =
        .ok (e.eeStartLo + (lblock - e.eeBlock) + j, some len) := by
  have hcovers : ∀ j < e.eeBlock + e.eeLen - lblock, e.Covers (lblock + j) := by
    intro j hj
    have hlen : e.length = e.eeLen := if_pos (hinit e he)
    exact ⟨by omega, by omega⟩
  refine ⟨?_, fun j hj => ⟨e.eeBlock + e.eeLen - (lblock + j), ?_⟩⟩
  · exact extentGetPblock_of_covers h hw hinit he hend (hcovers 0 (by omega)) hf
  · rw [extentGetPblock_of_covers h hw hinit he hend (hcovers j hj) hf, Nat.sub_add_comm hlo,
      Nat.add_assoc]

/-- The 60 bytes of an `i_block` that maps the last logical block, 2^32 - 1, to block 100. -/
def lastBlockExtent : List UInt8 :=
  [0x0a, 0xf3, 1, 0, 4, 0, 0, 0, 0, 0, 0, 0,
   0xff, 0xff, 0xff, 0xff, 1, 0, 0, 0, 100, 0, 0, 0] ++ List.replicate 36 0

/-- The end of this extent is 0 in 32 bits, and its block is taken for a hole. -/
theorem extentGetPblock_covered_counterexample :
    Stored zeroMount 0 [⟨2 ^ 32 - 1, 1, 0, 100⟩] lastBlockExtent ∧
    WellFormed 0 [⟨2 ^ 32 - 1, 1, 0, 100⟩] ∧
    (⟨2 ^ 32 - 1, 1, 0, 100⟩ : Ext4Extent).Initialised ∧
    (⟨2 ^ 32 - 1, 1, 0, 100⟩ : Ext4Extent).Covers (2 ^ 32 - 1) ∧
    extentGetPblock zeroMount 1 lastBlockExtent (2 ^ 32 - 1) = .ok (0, none) := by
  refine ⟨⟨rfl, entries_cons.mpr ⟨rfl, fun j x hx => ?_⟩, by decide⟩, ⟨by simp, by decide⟩,
    ?_, ?_, by decide⟩
  · simp at hx
  · unfold Ext4Extent.Initialised
    decide
  · unfold Ext4Extent.Covers
    decide

/-- A disk whose block 3 holds a leaf with the extents [5, 6) ↦ 100 and [8, 12) ↦ 40. -/
def leafBlockMount : Mount :=
  ⟨fun a => ([0x0a, 0xf3, 2, 0, 84, 0, 0, 0, 0, 0, 0, 0,
      5, 0, 0, 0, 1, 0, 0, 0, 100, 0, 0, 0,
      8, 0, 0, 0, 4, 0, 0, 0, 40, 0, 0, 0] : List UInt8).getD (a - 3072) 0,
    partialLastGroup, []⟩

def indexBlock : List UInt8 :=
  [0x0a, 0xf3, 1, 0, 4, 0, 1, 0, 0, 0, 0, 0,
   5, 0, 0, 0, 3, 0, 0, 0, 0, 0, 0, 0] ++ List.replicate 36 0

def twoLevelTree : ExtTree 1 := [(⟨5, 3, 0⟩, [⟨5, 1, 0, 100⟩, ⟨8, 4, 0, 40⟩])]

theorem twoLevelTree_stored : Stored leafBlockMount 1 twoLevelTree indexBlock := by
  refine ⟨rfl, entries_cons.mpr ⟨rfl, fun j x hx => by simp at hx⟩, ?_⟩
  intro c hc
  obtain rfl := List.mem_singleton.mp hc
  refine ⟨rfl, readAt leafBlockMount.disk 3072 36, rfl, rfl, ?_, by decide⟩
  exact entries_cons.mpr ⟨rfl, entries_cons.mpr ⟨rfl, fun j x hx => by simp at hx⟩⟩

theorem twoLevelTree_wellFormed : WellFormed 1 twoLevelTree := by
  refine ⟨by simp [twoLevelTree], ?_⟩
  intro c hc
  obtain rfl := List.mem_singleton.mp hc
  exact ⟨⟨by decide, by decide⟩, by decide⟩

theorem extentGetPblock_covered_twoLevel :
    extentGetPblock leafBlockMount 2 indexBlock 9 = .ok (41, some 3) ∧
    ∀ j < 3, ∃ len, extentGetPblock leafBlockMount 2 indexBlock (9 + j) =
      .ok (41 + j, some len) :=
  extentGetPblock_covered twoLevelTree_stored twoLevelTree_wellFormed
    (by unfold Ext4Extent.Initialised; decide) (e := ⟨8, 4, 0, 40⟩) (by decide) (by decide)
    (by decide) (by decide) (by decide)

end ExtTree
end Spotlight.Ext4
