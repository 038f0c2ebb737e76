import Spotlight.ExtentChain

/-! Which entries `extent_get_pblock` reads: the root is the 60 bytes of `i_block`, whatever count
its header has, and a copy of a block is as long as its header says. -/
namespace Spotlight.Ext4
open Bytes ExtTree Loops

/-- The entries that the memory of a node has room for. -/
def entryCapacity (extents : List UInt8) : ℕ :=
  (extents.length - sizeofExtentHeader) / sizeofExtent

/-- A scan of a leaf stops at the entry, where it is right or fails the assertion. -/
def LeafStops (extents : List UInt8) (lblock i : ℕ) : Prop :=
  ∃ ee, extentAt extents i = .ok ee ∧ (ee.eeStartHi ≠ 0 ∨ lblock < ee.end32)

/-- A scan of an index node stops at the entry. -/
def IndexStops (extents : List UInt8) (lblock i : ℕ) : Prop :=
  ∃ ei, extentIdxAt extents i = .ok ei ∧ (ei.eiLeafHi ≠ 0 ∨ lblock < ei.eiBlock)

/-- The scan of a node does not go on behind the entries that there is room for. -/
def ScanFits (extents : List UInt8) (lblock : ℕ) : Prop :=
  u16At extents 2 ≤ entryCapacity extents ∨ ∃ i < entryCapacity extents,
    if u16At extents 6 = 0 then LeafStops extents lblock i else IndexStops extents lblock i

/-- A scan over entries of which `capacity` lie inside the memory; `n` are left from entry `i`
on. -/
structure BoundedScan {α β : Type} (capacity : ℕ) (stops : ℕ → Prop)
    (scan : ℕ → ℕ → α → Outcome β) : Prop where
  done : ∀ i a, scan 0 i a ≠ .error .bounds
  outside : ∀ n i a, capacity ≤ i → scan (n + 1) i a = .error .bounds
  stop : ∀ n i a, i < capacity → stops i → scan (n + 1) i a ≠ .error .bounds
  on : ∀ n i a, i < capacity → ¬stops i → ∃ a', scan (n + 1) i a = scan n (i + 1) a'

lemma BoundedScan.bounds_iff {α β : Type} {capacity : ℕ} {stops : ℕ → Prop}
    {scan : ℕ → ℕ → α → Outcome β} (h : BoundedScan capacity stops scan) {n i : ℕ}
    (hi : i ≤ capacity) (a : α) : scan n i a = .error .bounds ↔
      capacity < i + n ∧ ∀ j, i ≤ j → j < capacity → ¬stops j := by
  induction n generalizing i a with
  | zero =>
    refine iff_of_false (h.done i a) ?_
    rintro ⟨hlt, -⟩
    omega
  | succ n ih =>
    rcases hi.lt_or_eq with hlt | rfl
    · by_cases hs : stops i
      · refine iff_of_false (h.stop n i a hlt hs) ?_
        rintro ⟨-, hnone⟩
        exact hnone i le_rfl hlt hs
      · obtain ⟨a', hstep⟩ := h.on n i a hlt hs
        rw [hstep, ih hlt, Nat.succ_add_eq_add_succ]
        refine and_congr_right fun _ =>
          ⟨fun hnone j hij hj => ?_, fun hnone j hij => hnone j (by omega)⟩
        rcases hij.eq_or_lt with rfl | hij
        · exact hs
        · exact hnone j hij hj
    · refine iff_of_true (h.outside n i a le_rfl) ⟨by omega, fun j hij hj => ?_⟩
      omega

variable {fs : Mount} {fuel lblock block i : ℕ} {extents node : List UInt8}

lemma entryOffset_le_iff : entryOffset (i + 1) ≤ extents.length ↔ i < entryCapacity extents := by
  unfold entryOffset entryCapacity sizeofExtentHeader sizeofExtent
  omega

lemma extentAt_cases (extents : List UInt8) (i : ℕ) :
    (i < entryCapacity extents ∧ ∃ ee, extentAt extents i = .ok ee) ∨
      entryCapacity extents ≤ i ∧ extentAt extents i = .error .bounds := by
  rcases Nat.lt_or_ge i (entryCapacity extents) with hi | hi
  · exact Or.inl ⟨hi, _, if_pos (entryOffset_le_iff.mpr hi)⟩
  · exact Or.inr ⟨hi, if_neg fun h => Nat.not_lt.mpr hi (entryOffset_le_iff.mp h)⟩

lemma extentIdxAt_cases (extents : List UInt8) (i : ℕ) :
    (i < entryCapacity extents ∧ ∃ ei, extentIdxAt extents i = .ok ei) ∨
      entryCapacity extents ≤ i ∧ extentIdxAt extents i = .error .bounds := by
  rcases Nat.lt_or_ge i (entryCapacity extents) with hi | hi
  · exact Or.inl ⟨hi, _, if_pos (entryOffset_le_iff.mpr hi)⟩
  · exact Or.inr ⟨hi, if_neg fun h => Nat.not_lt.mpr hi (entryOffset_le_iff.mp h)⟩

lemma leafScan (extents : List UInt8) (lblock : ℕ) :
    BoundedScan (entryCapacity extents) (LeafStops extents lblock)
      fun n i (_ : Unit) => extentGetBlockFromEesLoop extents lblock n i := by
  constructor
  · intro i a h
    cases h
  · intro n i a hi
    rcases extentAt_cases extents i with ⟨hlt, -⟩ | ⟨-, hread⟩
    · omega
    · simp only [extentGetBlockFromEesLoop, hread, Outcome.error_bind]
  · rintro n i a - ⟨ee, hread, hstop⟩ h
    by_cases hhi : ee.eeStartHi = 0
    · have hlt := hstop.resolve_left (not_not.mpr hhi)
      simp only [extentGetBlockFromEesLoop, hread, Outcome.ok_bind, Outcome.assertThat_true hhi,
        if_pos hlt] at h
      cases h
    · simp only [extentGetBlockFromEesLoop, hread, Outcome.ok_bind,
        Outcome.assertThat_false hhi] at h
      cases h
  · intro n i a hi hon
    obtain ⟨ee, hread⟩ := ((extentAt_cases extents i).resolve_right fun h => by omega).2
    have hhi : ee.eeStartHi = 0 := by
      by_contra hhi
      exact hon ⟨ee, hread, Or.inl hhi⟩
    have hge : ¬lblock < ee.end32 := fun hlt => hon ⟨ee, hread, Or.inr hlt⟩
    refine ⟨(), ?_⟩
    simp only [extentGetBlockFromEesLoop, hread, Outcome.ok_bind, Outcome.assertThat_true hhi,
      if_neg hge]

lemma indexScan (extents : List UInt8) (lblock : ℕ) :
    BoundedScan (entryCapacity extents) (IndexStops extents lblock)
      (extentIndexLoop extents lblock) := by
  constructor
  · intro i recurseEi h
    cases h
  · intro n i recurseEi hi
    rcases extentIdxAt_cases extents i with ⟨hlt, -⟩ | ⟨-, hread⟩
    · omega
    · simp only [extentIndexLoop, hread, Outcome.error_bind]
  · rintro n i recurseEi - ⟨ei, hread, hstop⟩ h
    by_cases hhi : ei.eiLeafHi = 0
    · have hlt := hstop.resolve_left (not_not.mpr hhi)
      simp only [extentIndexLoop, hread, Outcome.ok_bind, Outcome.assertThat_true hhi,
        if_pos hlt] at h
      cases h
    · simp only [extentIndexLoop, hread, Outcome.ok_bind, Outcome.assertThat_false hhi] at h
      cases h
  · intro n i recurseEi hi hon
    obtain ⟨ei, hread⟩ := ((extentIdxAt_cases extents i).resolve_right fun h => by omega).2
    have hhi : ei.eiLeafHi = 0 := by
      by_contra hhi
      exact hon ⟨ei, hread, Or.inl hhi⟩
    have hge : ¬lblock < ei.eiBlock := fun hlt => hon ⟨ei, hread, Or.inr hlt⟩
    refine ⟨some ei, ?_⟩
    simp only [extentIndexLoop, hread, Outcome.ok_bind, Outcome.assertThat_true hhi, if_neg hge]

lemma BoundedScan.bounds_iff_zero {α β : Type} {capacity n : ℕ} {stops : ℕ → Prop}
    {scan : ℕ → ℕ → α → Outcome β} (h : BoundedScan capacity stops scan) (a : α) :
    scan n 0 a = .error .bounds ↔ ¬(n ≤ capacity ∨ ∃ i < capacity, stops i) := by
  rw [h.bounds_iff (Nat.zero_le _), Nat.zero_add, not_or, not_le, not_exists]
  refine and_congr_right fun _ => ⟨fun hnone i hi => ?_, fun hnone i _ hlt hs => ?_⟩
  · exact hnone i (Nat.zero_le i) hi.1 hi.2
  · exact hnone i ⟨hlt, hs⟩

/-- A turn reads outside of the node exactly when its scan does not fit. -/
lemma extentTurn_bounds_iff (hlen : sizeofExtentHeader ≤ extents.length)
    (hmagic : u16At extents 0 = ext4ExtMagic) :
    extentTurn fs lblock extents = .inl (.error .bounds) ↔ ¬ScanFits extents lblock := by
  unfold extentTurn headerAt ScanFits
  rw [if_pos hlen]
  dsimp only
  rw [if_neg (not_not.mpr hmagic)]
  by_cases hdepth : u16At extents 6 = 0
  · simp only [hdepth, if_true]
    rw [← (leafScan extents lblock).bounds_iff_zero (), Sum.inl.injEq]
    rfl
  · simp only [hdepth, if_false]
    rw [← (indexScan extents lblock).bounds_iff_zero none]
    cases extentIndexLoop extents lblock (u16At extents 2) 0 none with
    | error e => rw [Sum.inl.injEq, Except.error.injEq, Except.error.injEq]
    | ok recurseEi => cases recurseEi <;> simp

lemma extentTurn_badMagic (hlen : sizeofExtentHeader ≤ extents.length)
    (hmagic : u16At extents 0 ≠ ext4ExtMagic) :
    extentTurn fs lblock extents = .inl (.error .assertion) := by
  unfold extentTurn headerAt
  rw [if_pos hlen]
  dsimp only
  rw [if_pos hmagic]

/-- A node is read inside when its magic is wrong or its scan fits. -/
def NodeInside (extents : List UInt8) (lblock : ℕ) : Prop :=
  u16At extents 0 = ext4ExtMagic → ScanFits extents lblock

lemma extentTurn_inside_iff (hlen : sizeofExtentHeader ≤ extents.length) :
    extentTurn fs lblock extents ≠ .inl (.error .bounds) ↔ NodeInside extents lblock := by
  unfold NodeInside
  by_cases hmagic : u16At extents 0 = ext4ExtMagic
  · rw [ne_eq, extentTurn_bounds_iff hlen hmagic, not_not]
    exact ⟨fun h _ => h, fun h => h hmagic⟩
  · rw [extentTurn_badMagic hlen hmagic]
    exact iff_of_true (fun h => nomatch h) fun h => absurd h hmagic

lemma length_nodeIn (fs : Mount) (block : ℕ) :
    (nodeIn fs block).length = u16At (nodeIn fs block) 2 * sizeofExtent + sizeofExtentHeader := by
  have hcount : u16At (readAt fs.disk (blocks2bytes fs.super block) sizeofExtentHeader) 2 =
      u16At (nodeIn fs block) 2 := by
    have hslice : slice (nodeIn fs block) 0 sizeofExtentHeader =
        readAt fs.disk (blocks2bytes fs.super block) sizeofExtentHeader := by
      rw [nodeIn, slice_readAt _ _ (by omega), Nat.add_zero]
    rw [← hslice, u16At_slice _ (by decide), Nat.zero_add]
  rw [← hcount, nodeIn, length_readAt]

lemma scanFits_nodeIn (fs : Mount) (block lblock : ℕ) : ScanFits (nodeIn fs block) lblock := by
  refine Or.inl ?_
  rw [entryCapacity, length_nodeIn]
  unfold sizeofExtent sizeofExtentHeader
  omega

/-- The root decides: the nodes below it are always read inside. -/
lemma extentGetPblock_inside (hlen : sizeofExtentHeader ≤ extents.length)
    (hinside : NodeInside extents lblock) :
    extentGetPblock fs fuel extents lblock ≠ .error .bounds := by
  induction fuel generalizing extents with
  | zero => exact fun h => nomatch h
  | succ fuel ih =>
    rw [extentGetPblock_succ]
    rcases extentTurn_cases fs lblock extents with ⟨e, -, hturn⟩ | ⟨r, hturn⟩ | ⟨block, -, hturn⟩
    · rintro hbounds
      rw [hturn] at hbounds
      rw [← extentTurn_inside_iff hlen, hturn] at hinside
      exact hinside (congrArg Sum.inl hbounds)
    · rw [hturn]
      exact fun h => nomatch h
    · rw [hturn]
      refine ih ?_ fun _ => scanFits_nodeIn fs block lblock
      rw [length_nodeIn]
      exact Nat.le_add_left _ _

lemma extentGetPblock_ne_null : extentGetPblock fs fuel extents lblock ≠ .error .null := by
  induction fuel generalizing extents with
  | zero => exact fun h => nomatch h
  | succ fuel ih =>
    rw [extentGetPblock_succ]
    rcases extentTurn_cases fs lblock extents with ⟨e, he, hturn⟩ | ⟨r, hturn⟩ | ⟨block, -, hturn⟩
    · rw [hturn]
      rintro h
      rcases he with rfl | rfl <;> cases h
    · rw [hturn]
      exact fun h => nomatch h
    · rw [hturn]
      exact ih

lemma length_parseInode (buf : List UInt8) : (parseInode buf).iBlock.length = 60 := by
  rw [parseInode, List.length_map, List.length_range]

/-- The root is read inside of `i_block`: the assertion on its magic fails, it has at most four
entries, or its scan stops in one of the first four. -/
def RootInside (iBlock : List UInt8) (lblock : ℕ) : Prop :=
  u16At iBlock 0 ≠ ext4ExtMagic ∨ u16At iBlock 2 ≤ 4 ∨ ∃ i < 4,
    if u16At iBlock 6 = 0 then LeafStops iBlock lblock i else IndexStops iBlock lblock i

lemma nodeInside_iBlock_iff (buf : List UInt8) (lblock : ℕ) :
    NodeInside (parseInode buf).iBlock lblock ↔ RootInside (parseInode buf).iBlock lblock := by
  have hcapacity : entryCapacity (parseInode buf).iBlock = 4 := by
    rw [entryCapacity, length_parseInode, sizeofExtentHeader, sizeofExtent]
  rw [NodeInside, imp_iff_not_or, ScanFits, hcapacity, RootInside]

/-- For every inode and every disk, all entries are read inside of `i_block` and of the copies of
blocks, and no missing entry is followed, exactly when the root is read inside. -/
theorem extentGetPblock_inside_iff (fs : Mount) (buf : List UInt8) (lblock : ℕ) :
    (∀ fuel, extentGetPblock fs fuel (parseInode buf).iBlock lblock ≠ .error .bounds ∧
      extentGetPblock fs fuel (parseInode buf).iBlock lblock ≠ .error .null) ↔
      RootInside (parseInode buf).iBlock lblock := by
  have hlen : sizeofExtentHeader ≤ (parseInode buf).iBlock.length := by
    rw [length_parseInode, sizeofExtentHeader]
    norm_num
  rw [← nodeInside_iBlock_iff]
  constructor
  · intro h
    refine (extentTurn_inside_iff hlen).mp fun (hturn : extentTurn fs lblock _ = _) => ?_
    have hrun := (h 1).1
    rw [extentGetPblock_succ, hturn] at hrun
    exact hrun rfl
  · exact fun h fuel => ⟨extentGetPblock_inside hlen h, extentGetPblock_ne_null⟩

/-- An inode whose `i_block` counts five extents, each of them ahead of logical block 9. -/
def fiveExtents : List UInt8 :=
  List.replicate 40 0 ++ [0x0a, 0xf3, 5, 0, 4, 0, 0, 0, 0, 0, 0, 0] ++
    (List.replicate 4 [0, 0, 0, 0, 1, 0, 0, 0, 7, 0, 0, 0]).flatten

/-- The fifth of them is read behind `i_block`. -/
theorem extentGetPblock_inside_counterexample :
    (parseInode fiveExtents).iBlock.length = 60 ∧
      extentGetPblock zeroMount 1 (parseInode fiveExtents).iBlock 9 = .error .bounds := by
  constructor <;> rfl

end Spotlight.Ext4
