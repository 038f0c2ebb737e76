import Spotlight.Super
import Spotlight.SortedSearch

/-! Extent trees (`extents.c`). A node is the memory that holds it: the 60 bytes of
`i_block` for the root and a fetched copy below. -/
namespace Spotlight.Ext4
open Bytes SortedSearch

def ext4ExtMagic : ℕ := 0xf30a
def sizeofExtentHeader : ℕ := 12
def sizeofExtent : ℕ := 12

structure Ext4Extent where
  eeBlock : ℕ
  eeLen : ℕ
  eeStartHi : ℕ
  eeStartLo : ℕ
  deriving DecidableEq, Repr

structure Ext4ExtentIdx where
  eiBlock : ℕ
  eiLeafLo : ℕ
  eiLeafHi : ℕ
  deriving DecidableEq, Repr

structure Ext4ExtentHeader where
  ehMagic : ℕ
  ehEntries : ℕ
  ehDepth : ℕ
  deriving DecidableEq, Repr

def headerAt (mem : List UInt8) : Outcome Ext4ExtentHeader :=
  if sizeofExtentHeader ≤ mem.length then
    .ok { ehMagic := u16At mem 0, ehEntries := u16At mem 2, ehDepth := u16At mem 6 }
  else .error .bounds

def entryOffset (i : ℕ) : ℕ := sizeofExtentHeader + sizeofExtent * i

def extentAt (mem : List UInt8) (i : ℕ) : Outcome Ext4Extent :=
  if entryOffset (i + 1) ≤ mem.length then
    let o := entryOffset i
    .ok { eeBlock := u32At mem o, eeLen := u16At mem (o + 4),
          eeStartHi := u16At mem (o + 6), eeStartLo := u32At mem (o + 8) }
  else .error .bounds

def extentIdxAt (mem : List UInt8) (i : ℕ) : Outcome Ext4ExtentIdx :=
  if entryOffset (i + 1) ≤ mem.length then
    let o := entryOffset i
    .ok { eiBlock := u32At mem o, eiLeafLo := u32At mem (o + 4),
          eiLeafHi := u16At mem (o + 8) }
  else .error .bounds

/-- `ee_block + ee_len` in the 32 bits of the C expression. -/
def Ext4Extent.end32 (ee : Ext4Extent) : ℕ := (ee.eeBlock + ee.eeLen) % 2 ^ 32

/-- The block that a scan which stopped at `ee` computes, and the value left in `*len`. -/
def Ext4Extent.locate (ee : Ext4Extent) (lblock : ℕ) : ℕ × Option ℕ :=
  let blockExtOffset := (lblock + 2 ^ 32 - ee.eeBlock) % 2 ^ 32
  ((ee.eeStartLo + blockExtOffset) % 2 ^ 32, some (ee.end32 - lblock))

/-- The scan of `extent_get_block_from_ees` from entry `i` on, with `n` entries left. The
second component is the value stored through `len`, if any. -/
def extentGetBlockFromEesLoop (mem : List UInt8) (lblock : ℕ) :
    ℕ → ℕ → Outcome (ℕ × Option ℕ)
  | 0, _ => .ok (0, none)
  | n + 1, i => do
    let ee ← extentAt mem i
    assertThat (ee.eeStartHi = 0)
    if lblock < ee.end32 then return ee.locate lblock
    else extentGetBlockFromEesLoop mem lblock n (i + 1)

def extentGetBlockFromEes (mem : List UInt8) (nEe lblock : ℕ) : Outcome (ℕ × Option ℕ) :=
  extentGetBlockFromEesLoop mem lblock nEe 0

def extentGetExtentsInBlock (fs : Mount) (block : ℕ) : Outcome (List UInt8) := do
  let eh ← diskRead fs.disk (blocks2bytes fs.super block) sizeofExtentHeader
  let extentsLen := u16At eh 2 * sizeofExtent + sizeofExtentHeader
  diskRead fs.disk (blocks2bytes fs.super block) extentsLen

/-- The index scan of `extent_get_pblock`; `recurseEi` is the entry chosen so far. -/
def extentIndexLoop (mem : List UInt8) (lblock : ℕ) :
    ℕ → ℕ → Option Ext4ExtentIdx → Outcome (Option Ext4ExtentIdx)
  | 0, _, recurseEi => .ok recurseEi
  | n + 1, i, recurseEi => do
    let ei ← extentIdxAt mem i
    assertThat (ei.eiLeafHi = 0)
    if lblock < ei.eiBlock then return recurseEi
    else extentIndexLoop mem lblock n (i + 1) (some ei)

/-- `extent_get_pblock`. The source recurses without a bound; `fuel` bounds the depth. -/
def extentGetPblock (fs : Mount) : ℕ → List UInt8 → ℕ → Outcome (ℕ × Option ℕ)
  | 0, _, _ => .error .fuel
  | fuel + 1, extents, lblock => do
    let eh ← headerAt extents
    assertThat (eh.ehMagic = ext4ExtMagic)
    if eh.ehDepth = 0 then
      extentGetBlockFromEes extents eh.ehEntries lblock
    else do
      match ← extentIndexLoop extents lblock eh.ehEntries 0 none with
      | none => .error .assertion
      | some recurseEi => do
        let leafExtents ← extentGetExtentsInBlock fs recurseEi.eiLeafLo
        extentGetPblock fs fuel leafExtents lblock

/-- Extent trees of a given depth: a child is one level less deep than its parent. -/
@[reducible] def ExtTree : ℕ → Type
  | 0 => List Ext4Extent
  | d + 1 => List (Ext4ExtentIdx × ExtTree d)

namespace ExtTree

def extents : (d : ℕ) → ExtTree d → List Ext4Extent
  | 0, es => es
  | d + 1, cs => List.flatMap (fun c => extents d c.2) cs

/-- The leaf that the index entries assign to a logical block. -/
def leafFor : (d : ℕ) → ExtTree d → ℕ → Option (List Ext4Extent)
  | 0, es, _ => some es
  | d + 1, cs, lblock =>
    (lastWhile (fun c => c.1.eiBlock ≤ lblock) cs).bind fun c => leafFor d c.2 lblock

/-- `read` yields the elements of `xs` from entry `i` on. -/
def Entries {α : Type} (read : ℕ → Outcome α) (i : ℕ) (xs : List α) : Prop :=
  ∀ j x, xs[j]? = some x → read (i + j) = .ok x

/-- The node memory `mem` holds the tree, and the blocks its entries name hold the
subtrees. -/
def Stored (fs : Mount) : (d : ℕ) → ExtTree d → List UInt8 → Prop
  | 0, es, mem =>
    headerAt mem = .ok ⟨ext4ExtMagic, es.length, 0⟩ ∧
    Entries (extentAt mem) 0 es ∧ ∀ e ∈ es, e.eeStartHi = 0
  | d + 1, cs, mem =>
    headerAt mem = .ok ⟨ext4ExtMagic, cs.length, d + 1⟩ ∧
    Entries (extentIdxAt mem) 0 (cs.map Prod.fst) ∧
    ∀ c ∈ cs, c.1.eiLeafHi = 0 ∧
      ∃ child, extentGetExtentsInBlock fs c.1.eiLeafLo = .ok child ∧ Stored fs d c.2 child

theorem entries_cons {α : Type} {read : ℕ → Outcome α} {i : ℕ} {x : α} {xs : List α} :
    Entries read i (x :: xs) ↔ read i = .ok x ∧ Entries read (i + 1) xs := by
  constructor
  · intro h
    refine ⟨h 0 x rfl, fun j y hy => ?_⟩
    have hj := h (j + 1) y hy
    rwa [← Nat.add_assoc, Nat.add_right_comm] at hj
  · rintro ⟨h₀, h₁⟩ j y hy
    cases j with
    | zero =>
      cases hy
      exact h₀
    | succ j =>
      rw [← Nat.add_assoc, Nat.add_right_comm]
      exact h₁ j y hy

def leafLookup (es : List Ext4Extent) (lblock : ℕ) : ℕ × Option ℕ :=
  (es.find? fun ee => lblock < ee.end32).elim (0, none) fun ee => ee.locate lblock

theorem extentGetBlockFromEesLoop_eq {mem : List UInt8} (lblock : ℕ) {es : List Ext4Extent}
    {i : ℕ} (hread : Entries (extentAt mem) i es) (hhi : ∀ e ∈ es, e.eeStartHi = 0) :
    extentGetBlockFromEesLoop mem lblock es.length i = .ok (leafLookup es lblock) := by
  induction es generalizing i with
  | nil => rfl
  | cons e es ih =>
    obtain ⟨h₀, h₁⟩ := entries_cons.mp hread
    have hrest := ih h₁ fun e' he' => hhi e' (by simp [he'])
    simp only [List.length_cons, extentGetBlockFromEesLoop, h₀, Outcome.ok_bind,
      Outcome.assertThat_true (hhi e (by simp))]
    by_cases hl : lblock < e.end32
    · simp [hl, leafLookup]
    · simp [hl, leafLookup, hrest]

theorem extentIndexLoop_eq {mem : List UInt8} (lblock : ℕ) {eis : List Ext4ExtentIdx} {i : ℕ}
    (recurseEi : Option Ext4ExtentIdx) (hread : Entries (extentIdxAt mem) i eis)
    (hhi : ∀ ei ∈ eis, ei.eiLeafHi = 0) :
    extentIndexLoop mem lblock eis.length i recurseEi =
      .ok ((lastWhile (fun ei => ei.eiBlock ≤ lblock) eis).or recurseEi) := by
  induction eis generalizing i recurseEi with
  | nil => rfl
  | cons ei eis ih =>
    obtain ⟨h₀, h₁⟩ := entries_cons.mp hread
    have hrest := ih (some ei) h₁ fun ei' he' => hhi ei' (by simp [he'])
    simp only [List.length_cons, extentIndexLoop, h₀, Outcome.ok_bind,
      Outcome.assertThat_true (hhi ei (by simp))]
    by_cases hl : lblock < ei.eiBlock
    · rw [if_pos hl, lastWhile_cons_of_neg (by simpa using hl)]
      rfl
    · rw [if_neg hl, hrest, lastWhile_cons_of_pos (by simpa using hl)]
      cases lastWhile (fun ei => decide (ei.eiBlock ≤ lblock)) eis <;> rfl

/-- The code on the bytes of a stored tree is the search of the tree itself: any fuel above
the depth suffices. -/
theorem extentGetPblock_eq {fs : Mount} {d : ℕ} {t : ExtTree d} {mem : List UInt8}
    (h : Stored fs d t mem) {fuel : ℕ} (hf : d < fuel) (lblock : ℕ) :
    extentGetPblock fs fuel mem lblock =
      match leafFor d t lblock with
      | none => .error .assertion
      | some es => .ok (leafLookup es lblock) := by
  induction d generalizing mem fuel with
  | zero =>
    obtain ⟨fuel, rfl⟩ := Nat.exists_eq_add_of_lt hf
    obtain ⟨hh, hread, hhi⟩ := h
    simp [extentGetPblock, hh, extentGetBlockFromEes,
      extentGetBlockFromEesLoop_eq lblock hread hhi, leafFor]
  | succ d ih =>
    obtain ⟨fuel, rfl⟩ := Nat.exists_eq_succ_of_ne_zero (Nat.ne_zero_of_lt hf)
    obtain ⟨hh, hread, hchild⟩ := h
    have hloop := extentIndexLoop_eq lblock none hread (by
      intro ei hei
      obtain ⟨c, hc, rfl⟩ := List.mem_map.mp hei
      exact (hchild c hc).1)
    rw [List.length_map, lastWhile_map] at hloop
    simp only [extentGetPblock, hh, Outcome.ok_bind, Outcome.assertThat_true, Nat.succ_ne_zero,
      if_false, hloop, Option.or_none, leafFor]
    change (match (lastWhile (fun c => decide (c.1.eiBlock ≤ lblock)) t).map Prod.fst with
      | none => _
      | some recurseEi => _) = _
    cases hl : lastWhile (fun c : Ext4ExtentIdx × ExtTree d => decide (c.1.eiBlock ≤ lblock)) t with
    | none => rfl
    | some c =>
      obtain ⟨child, hfetch, hstored⟩ := (hchild c (lastWhile_mem hl).1).2
      simp only [Option.map_some, Option.bind_some, hfetch, Outcome.ok_bind]
      exact ih hstored (Nat.lt_of_succ_lt_succ hf)

end ExtTree
end Spotlight.Ext4
