import Mathlib

/-! Linear scans of a sorted list: the first element that satisfies a predicate and the
last element before the first that fails one. -/
namespace Spotlight.SortedSearch
variable {α : Type*}

theorem find?_split {p : α → Bool} {pre post : List α} {a : α}
    (hpre : ∀ b ∈ pre, p b = false) (ha : p a = true) :
    (pre ++ a :: post).find? p = some a := by
  rw [List.find?_append, List.find?_eq_none.mpr (by simpa using hpre)]
  simp [ha]

/-- The last element that a scan accepts before it meets a failing one. -/
def lastWhile (p : α → Bool) (xs : List α) : Option α := (xs.takeWhile p).getLast?

@[simp] theorem lastWhile_nil (p : α → Bool) : lastWhile p [] = none := rfl

theorem lastWhile_cons_of_neg {p : α → Bool} {a : α} {xs : List α} (h : p a = false) :
    lastWhile p (a :: xs) = none := by
  simp [lastWhile, h]

theorem lastWhile_cons_of_pos {p : α → Bool} {a : α} {xs : List α} (h : p a = true) :
    lastWhile p (a :: xs) = some ((lastWhile p xs).getD a) := by
  simp [lastWhile, h, List.getLast?_cons]

theorem lastWhile_split {p : α → Bool} {pre post : List α} {a : α}
    (hpre : ∀ b ∈ pre, p b = true) (ha : p a = true) (hpost : ∀ b ∈ post, p b = false) :
    lastWhile p (pre ++ a :: post) = some a := by
  have htail : post.takeWhile p = [] := by
    cases post with
    | nil => rfl
    | cons b bs => simp [hpost b (by simp)]
  rw [lastWhile, List.takeWhile_append_of_pos hpre, List.takeWhile_cons_of_pos ha, htail]
  simp

theorem lastWhile_map {β : Type*} (f : α → β) (p : β → Bool) (xs : List α) :
    lastWhile p (xs.map f) = (lastWhile (p ∘ f) xs).map f := by
  simp [lastWhile, List.takeWhile_map, List.getLast?_map]

theorem lastWhile_mem {p : α → Bool} {xs : List α} {a : α} (h : lastWhile p xs = some a) :
    a ∈ xs ∧ p a = true := by
  have hm := List.mem_of_getLast? h
  exact ⟨List.takeWhile_subset p hm, List.mem_takeWhile_imp hm⟩

end Spotlight.SortedSearch
