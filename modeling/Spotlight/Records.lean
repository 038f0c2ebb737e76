import Mathlib

/-! Records of different lengths that stand one behind the other. -/
namespace Spotlight.Records

variable {α : Type} {At At' : ℕ → α → Prop} {len : α → ℕ} {o mid stop : ℕ} {r : α}
  {rs rs' : List α}

/-- From `o` to `stop` there are the records `rs` and nothing between them. -/
def Tiles (At : ℕ → α → Prop) (len : α → ℕ) (stop : ℕ) : ℕ → List α → Prop
  | o, [] => o = stop
  | o, r :: rs => At o r ∧ Tiles At len stop (o + len r) rs

instance decidableTiles [∀ o r, Decidable (At o r)] (stop : ℕ) :
    (o : ℕ) → (rs : List α) → Decidable (Tiles At len stop o rs)
  | o, [] => inferInstanceAs (Decidable (o = stop))
  | o, r :: rs =>
    have := decidableTiles stop (o + len r) rs
    inferInstanceAs (Decidable (At o r ∧ Tiles At len stop (o + len r) rs))

lemma tiles_append : Tiles At len stop o (rs ++ rs') ↔
    ∃ mid, Tiles At len mid o rs ∧ Tiles At len stop mid rs' := by
  induction rs generalizing o with
  | nil => simp [Tiles]
  | cons r rs ih => simp only [List.cons_append, Tiles, ih, and_assoc, exists_and_left]

lemma Tiles.shift {k : ℕ} (h : Tiles At len stop o rs)
    (hAt : ∀ o r, At o r → At' (k + o) r) : Tiles At' len (k + stop) (k + o) rs := by
  induction rs generalizing o with
  | nil => exact congrArg (k + ·) h
  | cons r rs ih =>
    obtain ⟨hr, hrs⟩ := h
    refine ⟨hAt o r hr, ?_⟩
    rw [Nat.add_assoc]
    exact ih hrs

lemma Tiles.le (h : Tiles At len stop o rs) : o ≤ stop := by
  induction rs generalizing o with
  | nil => exact h.le
  | cons r rs ih => exact (Nat.le_add_right o (len r)).trans (ih h.2)

lemma Tiles.exists_cons (h : Tiles At len stop o rs) (ho : o < stop) :
    ∃ r rs', rs = r :: rs' ∧ At o r ∧ Tiles At len stop (o + len r) rs' := by
  cases rs with
  | nil => exact absurd h ho.ne
  | cons r rs => exact ⟨r, rs, rfl, h⟩

lemma tiles_flatten {size k : ℕ} {segments : List (List α)}
    (h : ∀ i rs, segments[i]? = some rs →
      Tiles At len ((k + i) * size + size) ((k + i) * size) rs) :
    Tiles At len ((k + segments.length) * size) (k * size) segments.flatten := by
  induction segments generalizing k with
  | nil => rfl
  | cons rs segments ih =>
    rw [List.flatten_cons, tiles_append]
    refine ⟨k * size + size, h 0 rs rfl, ?_⟩
    have hrest := ih (k := k + 1) fun i rs hi => by
      have hrs := h (i + 1) rs hi
      rwa [← Nat.add_assoc, Nat.add_right_comm] at hrs
    rw [Nat.succ_mul] at hrest
    rwa [List.length_cons, ← Nat.add_assoc, Nat.add_right_comm]

end Spotlight.Records
