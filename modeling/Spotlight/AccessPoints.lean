import Spotlight.Gzip

/-! The access points that one pass over the boundaries of a member selects. -/
namespace Spotlight.Gzip
open Zlib

/-- A boundary becomes an access point at output position 0, and more than `span` bytes behind
the last access point. -/
def Due (last : Option ℕ) (b : Boundary) : Prop :=
  b.raw = 0 ∨ ∃ l ∈ last, (l : ℤ) + span < b.raw

instance (last : Option ℕ) (b : Boundary) : Decidable (Due last b) := by
  unfold Due
  infer_instance

/-- The access points among the boundaries, after one at output position `last`. -/
def selectPoints : Option ℕ → List Boundary → List Boundary
  | _, [] => []
  | last, b :: bs =>
    if Due last b then b :: selectPoints (some b.raw) bs else selectPoints last bs

/-- The access points among the first `k` boundaries that are not the end of the last block. -/
def pointsUpTo (m : Member) (k : ℕ) : List Boundary := selectPoints none (m.bounds.dropLast.take k)

/-- The list that one uninterrupted pass over the file produces. -/
def canonicalPoints (m : Member) : List Boundary := selectPoints none m.bounds.dropLast

variable {m : Member}

theorem selectPoints_append (last : Option ℕ) (bs cs : List Boundary) :
    selectPoints last (bs ++ cs) = selectPoints last bs ++
      selectPoints (((selectPoints last bs).getLast?.map Boundary.raw).or last) cs := by
  induction bs generalizing last with
  | nil => simp [selectPoints]
  | cons b bs ih =>
    rw [List.cons_append, selectPoints, selectPoints]
    split_ifs with h
    · rw [ih, List.cons_append, List.getLast?_cons]
      cases (selectPoints (some b.raw) bs).getLast? <;> rfl
    · exact ih last

theorem selectPoints_subset (last : Option ℕ) (bs : List Boundary) :
    ∀ b ∈ selectPoints last bs, b ∈ bs := by
  induction bs generalizing last with
  | nil => simp [selectPoints]
  | cons c bs ih =>
    intro b hb
    rw [selectPoints] at hb
    split_ifs at hb with h
    · rcases List.mem_cons.mp hb with rfl | hb
      · exact List.mem_cons_self
      · exact List.mem_cons_of_mem _ (ih _ b hb)
    · exact List.mem_cons_of_mem _ (ih _ b hb)

theorem dropLast_getElem? {k : ℕ} {b : Boundary} (hb : m.bounds[k]? = some b)
    (hk : k + 1 < m.bounds.length) : m.bounds.dropLast[k]? = some b := by
  rw [List.getElem?_dropLast, if_pos (by omega), hb]

theorem pointsUpTo_succ {k : ℕ} {b : Boundary} (hb : m.bounds[k]? = some b)
    (hk : k + 1 < m.bounds.length) : pointsUpTo m (k + 1) =
      if Due ((pointsUpTo m k).getLast?.map Boundary.raw) b then pointsUpTo m k ++ [b]
      else pointsUpTo m k := by
  have hsplit : pointsUpTo m (k + 1) = pointsUpTo m k ++
      selectPoints ((pointsUpTo m k).getLast?.map Boundary.raw) [b] := by
    rw [pointsUpTo, List.take_add_one, dropLast_getElem? hb hk, Option.toList_some,
      selectPoints_append, Option.or_none]
    rfl
  rw [hsplit, selectPoints, selectPoints, selectPoints]
  split_ifs <;> simp

theorem pointsUpTo_last {k : ℕ} (hk : m.bounds.length ≤ k + 1) :
    pointsUpTo m k = canonicalPoints m := by
  rw [pointsUpTo, List.take_of_length_le, canonicalPoints]
  rw [List.length_dropLast]
  omega

theorem canonicalPoints_split (m : Member) (k : ℕ) : ∃ rest,
    canonicalPoints m = pointsUpTo m k ++ rest ∧ ∀ b ∈ rest, b ∈ m.bounds.drop k := by
  refine ⟨selectPoints (((pointsUpTo m k).getLast?.map Boundary.raw).or none)
    (m.bounds.dropLast.drop k), ?_, fun b hb => ?_⟩
  · rw [pointsUpTo, ← selectPoints_append, List.take_append_drop, canonicalPoints]
  · have hmem := selectPoints_subset _ _ b hb
    rw [List.dropLast_eq_take, List.drop_take] at hmem
    exact List.mem_of_mem_take hmem

theorem dropLast_take_cons {k : ℕ} (hk : 0 < k) :
    ∃ b rest, m.bounds.dropLast.take k = b :: rest ∧ b.raw = 0 := by
  have htwo := m.two_le
  obtain ⟨b, hb⟩ : ∃ b, m.bounds[0]? = some b := ⟨_, List.getElem?_eq_getElem (by omega)⟩
  have h₀ := dropLast_getElem? hb (by omega)
  obtain ⟨k, rfl⟩ := Nat.exists_eq_succ_of_ne_zero hk.ne'
  cases hd : m.bounds.dropLast with
  | nil => simp [hd] at h₀
  | cons c cs =>
    rw [hd] at h₀
    cases h₀
    exact ⟨b, cs.take k, rfl, m.first_raw b hb⟩

theorem canonicalPoints_cons (m : Member) : ∃ b rest, m.bounds.dropLast = b :: rest ∧
    b.raw = 0 ∧ canonicalPoints m = b :: selectPoints (some 0) rest := by
  have htwo := m.two_le
  obtain ⟨b, rest, hcons, hraw⟩ := dropLast_take_cons (m := m) (by omega : 0 < m.bounds.length)
  rw [List.take_of_length_le (by rw [List.length_dropLast]; omega)] at hcons
  have hdue : Due none b := Or.inl hraw
  refine ⟨b, rest, hcons, hraw, ?_⟩
  rw [canonicalPoints, hcons, selectPoints, if_pos hdue, hraw]

theorem exists_point_zero {k : ℕ} (hk : 0 < k) : ∃ b ∈ pointsUpTo m k, b.raw = 0 := by
  obtain ⟨b, rest, hcons, hraw⟩ := dropLast_take_cons (m := m) hk
  refine ⟨b, ?_, hraw⟩
  have hdue : Due none b := Or.inl hraw
  rw [pointsUpTo, hcons, selectPoints, if_pos hdue]
  exact List.mem_cons_self

theorem pointsUpTo_one {k : ℕ} (hk : 0 < k) : pointsUpTo m k ≠ [] := by
  obtain ⟨b, hb, -⟩ := exists_point_zero (m := m) hk
  exact List.ne_nil_of_mem hb

end Spotlight.Gzip
