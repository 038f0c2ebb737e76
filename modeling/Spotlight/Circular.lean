import Mathlib

/-! Circular buffers: a window written from the front again whenever it is full. -/
namespace Spotlight.Circular

variable {α : Type}

/-- The buffer after `bs` was stored from position `pos` on. -/
def write (buf : List α) (pos : ℕ) (bs : List α) : List α :=
  buf.take pos ++ bs ++ buf.drop (pos + bs.length)

/-- The buffer in the order of writing, when `pos` is the position behind the last write. -/
def unwrap (buf : List α) (pos : ℕ) : List α := buf.drop pos ++ buf.take pos

/-- The last one to go to position `j`, of `n` writes from the front of a buffer of `size`. -/
def lastAt (size n j : ℕ) : ℕ := j + size * ((n - 1 - j) / size)

theorem length_write {buf bs : List α} {pos : ℕ} (h : pos + bs.length ≤ buf.length) :
    (write buf pos bs).length = buf.length := by
  simp only [write, List.length_append, List.length_take, List.length_drop]
  omega

theorem write_write {buf as bs : List α} {pos : ℕ} (h : pos + as.length ≤ buf.length) :
    write (write buf pos as) (pos + as.length) bs = write buf pos (as ++ bs) := by
  have hhead : (buf.take pos ++ as).length = pos + as.length := by
    rw [List.length_append, List.length_take]
    omega
  rw [write, write, List.take_left' hhead, List.drop_append, hhead,
    List.drop_eq_nil_of_le (by omega), List.drop_drop, write, List.length_append]
  simp only [List.nil_append, List.append_assoc]
  congr 4
  omega

theorem write_zero_of_length {buf bs : List α} (h : bs.length = buf.length) :
    write buf 0 bs = bs := by
  rw [write, Nat.zero_add, h, List.drop_length, List.take_zero, List.nil_append, List.append_nil]

@[simp] theorem unwrap_zero (buf : List α) : unwrap buf 0 = buf := by simp [unwrap]

@[simp] theorem unwrap_length (buf : List α) : unwrap buf buf.length = buf := by simp [unwrap]

theorem unwrap_write {buf bs : List α} {pos : ℕ} (h : pos + bs.length ≤ buf.length) :
    unwrap (write buf pos bs) (pos + bs.length) = (unwrap buf pos ++ bs).drop bs.length := by
  have hpos : (buf.take pos).length = pos := by
    rw [List.length_take]
    omega
  have hhead : (buf.take pos ++ bs).length = pos + bs.length := by
    rw [List.length_append, hpos]
  have hdrop : bs.length ≤ (buf.drop pos).length := by
    rw [List.length_drop]
    omega
  rw [unwrap, write, List.drop_left' hhead, List.take_left' hhead, unwrap, List.append_assoc,
    List.drop_append_of_le_length hdrop, List.drop_drop]

theorem unwrap_write_history {buf bs old out : List α} {pos : ℕ}
    (h : pos + bs.length ≤ buf.length) (hbuf : unwrap buf pos = (old ++ out).drop out.length) :
    unwrap (write buf pos bs) (pos + bs.length) =
      (old ++ (out ++ bs)).drop (out ++ bs).length := by
  rw [unwrap_write h, hbuf, ← List.drop_append_of_le_length (by simp), List.drop_drop,
    List.append_assoc, List.length_append]

theorem lastAt_eq {size n j q : ℕ} (hlo : size * q + j < n) (hhi : n ≤ size * q + size + j) :
    lastAt size n j = size * q + j := by
  have hdiv : (n - 1 - j) / size = q := by
    apply Nat.div_eq_of_lt_le
    · rw [Nat.mul_comm]
      omega
    · rw [Nat.add_mul, Nat.one_mul, Nat.mul_comm]
      omega
  rw [lastAt, hdiv, Nat.add_comm]

theorem lastAt_lt (size : ℕ) {n j : ℕ} (h : j < n) : lastAt size n j < n := by
  have hle := Nat.mul_div_le (n - 1 - j) size
  rw [lastAt]
  omega

theorem getElem?_unwrap {buf : List α} {pos j : ℕ} (hj : j < buf.length) (hpos : pos ≤ buf.length) :
    buf[j]? = (unwrap buf pos)[if j < pos then buf.length - pos + j else j - pos]? := by
  have hdrop : (buf.drop pos).length = buf.length - pos := List.length_drop
  rw [unwrap]
  split_ifs with h
  · rw [List.getElem?_append_right (by omega), hdrop, Nat.add_sub_cancel_left,
      List.getElem?_take, if_pos h]
  · rw [List.getElem?_append_left (by omega), List.getElem?_drop, Nat.add_sub_cancel' (by omega)]

/-- What stands where in a buffer after `out` was written from the front of `old` on. -/
theorem getElem?_of_history {buf old out : List α} {pos j : ℕ} (hj : j < buf.length)
    (hpos : pos ≤ buf.length) (hplace : pos % buf.length = out.length % buf.length)
    (hlen : old.length = buf.length) (hbuf : unwrap buf pos = (old ++ out).drop out.length) :
    buf[j]? = if j < out.length then out[lastAt buf.length out.length j]? else old[j]? := by
  obtain ⟨i, hi⟩ : ∃ i, i = if j < pos then buf.length - pos + j else j - pos := ⟨_, rfl⟩
  have hilt : i < buf.length := by split_ifs at hi <;> omega
  have hmod : (out.length + i) % buf.length = j := by
    rw [Nat.add_mod, ← hplace, ← Nat.add_mod]
    split_ifs at hi
    · rw [hi, ← Nat.add_assoc, Nat.add_sub_cancel' hpos, Nat.add_mod_left, Nat.mod_eq_of_lt hj]
    · rw [hi, Nat.add_sub_cancel' (by omega), Nat.mod_eq_of_lt hj]
  obtain ⟨q, hq⟩ : ∃ q, out.length + i = buf.length * q + j :=
    ⟨_, by rw [← hmod, Nat.div_add_mod]⟩
  rw [getElem?_unwrap hj hpos, hbuf, ← hi, List.getElem?_drop, hq]
  -- the buffer holds the last `buf.length` entries, which begin behind `out.length`
  rcases q with _ | q
  · rw [List.getElem?_append_left (by omega), if_neg (by omega), Nat.mul_zero, Nat.zero_add]
  · have hmul : buf.length * (q + 1) = buf.length * q + buf.length := Nat.mul_succ _ _
    rw [List.getElem?_append_right (by omega), if_pos (by omega),
      lastAt_eq (q := q) (by omega) (by omega)]
    congr 1
    omega

end Spotlight.Circular
