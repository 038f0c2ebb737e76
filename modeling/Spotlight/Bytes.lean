import Mathlib

/-! Byte strings: reads from an address space, slices of a buffer, and little-endian
fields at an offset of a buffer. -/
namespace Spotlight.Bytes

/-- The `n` bytes from address `a` on. -/
def readAt (m : ℕ → UInt8) (a n : ℕ) : List UInt8 := (List.range n).map fun i => m (a + i)

@[simp] theorem length_readAt (m : ℕ → UInt8) (a n : ℕ) : (readAt m a n).length = n := by
  simp [readAt]

@[simp] theorem readAt_zero (m : ℕ → UInt8) (a : ℕ) : readAt m a 0 = [] := rfl

theorem getElem?_readAt (m : ℕ → UInt8) (a n i : ℕ) :
    (readAt m a n)[i]? = if i < n then some (m (a + i)) else none := by
  split_ifs with h
  · simp [readAt, h]
  · simp [readAt, Nat.not_lt.mp h]

theorem readAt_add (m : ℕ → UInt8) (a n k : ℕ) :
    readAt m a (n + k) = readAt m a n ++ readAt m (a + n) k := by
  simp only [readAt, List.range_add, List.map_append, List.map_map]
  congr 1
  simp [Function.comp_def, Nat.add_assoc]

theorem readAt_congr {m m' : ℕ → UInt8} {a a' n : ℕ}
    (h : ∀ i < n, m (a + i) = m' (a' + i)) : readAt m a n = readAt m' a' n := by
  apply List.map_congr_left
  intro i hi
  exact h i (List.mem_range.mp hi)

theorem readAt_eq_iff {m m' : ℕ → UInt8} {a a' n : ℕ} :
    readAt m a n = readAt m' a' n ↔ ∀ i < n, m (a + i) = m' (a' + i) := by
  refine ⟨fun h i hi => ?_, readAt_congr⟩
  have hh : (readAt m a n)[i]? = (readAt m' a' n)[i]? := by rw [h]
  simpa only [getElem?_readAt, hi, if_true, Option.some.injEq] using hh

/-- The `n` bytes of `b` from offset `o` on, fewer when `b` ends before. -/
def slice (b : List UInt8) (o n : ℕ) : List UInt8 := (b.drop o).take n

theorem length_slice (b : List UInt8) (o n : ℕ) :
    (slice b o n).length = min n (b.length - o) := by
  simp [slice]

theorem length_slice_of_le {b : List UInt8} {o n : ℕ} (h : o + n ≤ b.length) :
    (slice b o n).length = n := by
  rw [length_slice]
  omega

@[simp] theorem slice_zero (b : List UInt8) (o : ℕ) : slice b o 0 = [] := by simp [slice]

theorem slice_self (b : List UInt8) : slice b 0 b.length = b := by simp [slice]

theorem slice_append (b : List UInt8) (o n k : ℕ) :
    slice b o n ++ slice b (o + n) k = slice b o (n + k) := by
  simp only [slice, ← List.drop_drop, List.take_add]

theorem take_slice (b : List UInt8) (o n k : ℕ) :
    (slice b o n).take k = slice b o (min k n) := by
  simp [slice, List.take_take]

theorem drop_slice (b : List UInt8) (o n k : ℕ) :
    (slice b o n).drop k = slice b (o + k) (n - k) := by
  simp [slice, List.drop_take, List.drop_drop]

theorem slice_slice (b : List UInt8) (o n i k : ℕ) (h : i + k ≤ n) :
    slice (slice b o n) i k = slice b (o + i) k := by
  rw [slice, drop_slice, take_slice, Nat.min_eq_left (by omega)]

theorem getElem?_slice (b : List UInt8) (o n i : ℕ) :
    (slice b o n)[i]? = if i < n then b[o + i]? else none := by
  simp [slice, List.getElem?_take, List.getElem?_drop]

theorem slice_readAt (m : ℕ → UInt8) (a : ℕ) {n o k : ℕ} (h : o + k ≤ n) :
    slice (readAt m a n) o k = readAt m (a + o) k := by
  apply List.ext_getElem?
  intro i
  rw [getElem?_slice, getElem?_readAt, getElem?_readAt]
  split_ifs with hi hn
  · rw [Nat.add_assoc]
  · omega
  · rfl

theorem getD_slice (b : List UInt8) {o n i : ℕ} (hi : i < n) :
    (slice b o n).getD i 0 = b.getD (o + i) 0 := by
  rw [List.getD_eq_getElem?_getD, getElem?_slice, if_pos hi, List.getD_eq_getElem?_getD]

theorem getD_readAt (m : ℕ → UInt8) (a : ℕ) {n i : ℕ} (hi : i < n) :
    (readAt m a n).getD i 0 = m (a + i) := by
  rw [List.getD_eq_getElem?_getD, getElem?_readAt, if_pos hi, Option.getD_some]

theorem readAt_getD {b : List UInt8} {o n : ℕ} (h : o + n ≤ b.length) :
    readAt (fun a => b.getD a 0) o n = slice b o n := by
  apply List.ext_getElem?
  intro i
  rw [getElem?_readAt, getElem?_slice]
  split_ifs with hi
  · rw [List.getElem?_eq_getElem (by omega), List.getD_eq_getElem _ _ (by omega)]
  · rfl

/-- The little-endian 16-bit field at offset `a`; absent bytes count as zero. -/
def u16At (b : List UInt8) (a : ℕ) : ℕ :=
  (b.getD a 0).toNat + 256 * (b.getD (a + 1) 0).toNat

/-- The little-endian 32-bit field at offset `a`; absent bytes count as zero. -/
def u32At (b : List UInt8) (a : ℕ) : ℕ := u16At b a + 65536 * u16At b (a + 2)

theorem u16At_lt (b : List UInt8) (a : ℕ) : u16At b a < 2 ^ 16 := by
  have h₀ := (b.getD a 0).toNat_lt
  have h₁ := (b.getD (a + 1) 0).toNat_lt
  unfold u16At
  omega

theorem u16At_slice (b : List UInt8) {o n a : ℕ} (h : a + 2 ≤ n) :
    u16At (slice b o n) a = u16At b (o + a) := by
  rw [u16At, u16At, getD_slice b (by omega), getD_slice b (by omega), Nat.add_assoc]

theorem u32At_slice (b : List UInt8) {o n a : ℕ} (h : a + 4 ≤ n) :
    u32At (slice b o n) a = u32At b (o + a) := by
  rw [u32At, u32At, u16At_slice b (by omega), u16At_slice b (by omega), Nat.add_assoc]

theorem u32At_lt (b : List UInt8) (a : ℕ) : u32At b a < 2 ^ 32 := by
  have h₀ := u16At_lt b a
  have h₁ := u16At_lt b (a + 2)
  unfold u32At
  omega

end Spotlight.Bytes
