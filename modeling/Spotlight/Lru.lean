import Mathlib

/-! Lists of recently used items with a bounded length. -/
namespace Spotlight

/-- The items of a cache, the most recently used first. -/
structure Lru (α : Type) (cap : ℕ) where
  items : List α
  nodup : items.Nodup
  length_le : items.length ≤ cap

namespace Lru
variable {α : Type} {cap : ℕ}

def empty : Lru α cap := ⟨[], List.nodup_nil, Nat.zero_le _⟩

def touch [DecidableEq α] (l : Lru α cap) (a : α) (h : a ∈ l.items) : Lru α cap where
  items := a :: l.items.erase a
  nodup := ((List.perm_cons_erase h).nodup_iff).mp l.nodup
  length_le := (List.perm_cons_erase h).length_eq ▸ l.length_le

/-- A miss puts the item in front; when the cache is full, the last item goes. -/
def insert (l : Lru α cap) (a : α) (h : a ∉ l.items) (hcap : 0 < cap) : Lru α cap where
  items := a :: l.items.take (cap - 1)
  nodup := List.nodup_cons.mpr
    ⟨fun hm => h (List.mem_of_mem_take hm), l.nodup.sublist (List.take_sublist _ _)⟩
  length_le := by
    rw [List.length_cons, List.length_take]
    omega

theorem mem_touch [DecidableEq α] {l : Lru α cap} {a b : α} (h : a ∈ l.items) :
    b ∈ (l.touch a h).items ↔ b ∈ l.items := (List.perm_cons_erase h).mem_iff.symm

theorem touch_items [DecidableEq α] {l : Lru α cap} {a : α} {pre post : List α}
    (hl : l.items = pre ++ a :: post) (h : a ∈ l.items) :
    (l.touch a h).items = a :: (pre ++ post) := by
  have hpre : a ∉ pre := by
    have hnd := l.nodup
    rw [hl] at hnd
    exact fun hm => (List.nodup_append.mp hnd).2.2 a hm a List.mem_cons_self rfl
  simp [touch, hl, List.erase_append_right _ hpre]

theorem insert_items (l : Lru α cap) {a : α} (h : a ∉ l.items) (hcap : 0 < cap) :
    (l.insert a h hcap).items = a :: l.items.take (cap - 1) := rfl

theorem mem_insert {l : Lru α cap} {a b : α} {h : a ∉ l.items} {hcap : 0 < cap}
    (hb : b ∈ (l.insert a h hcap).items) : b = a ∨ b ∈ l.items :=
  (List.mem_cons.mp hb).imp_right List.mem_of_mem_take

/-! The order of the items is that of their latest use. -/

section Uses
variable [DecidableEq α]

lemma eraseDups_filter (p : α → Bool) (l : List α) :
    (l.filter p).eraseDups = l.eraseDups.filter p := by
  induction hn : l.length using Nat.strong_induction_on generalizing l with
  | _ n ih =>
    cases l with
    | nil => rfl
    | cons b l =>
      have hlt : (l.filter fun c => !c == b).length < n := by
        have := List.length_filter_le (fun c => !c == b) l
        rw [List.length_cons] at hn
        omega
      have hih := ih _ hlt _ rfl
      rw [List.eraseDups_cons]
      by_cases hp : p b
      · rw [List.filter_cons_of_pos hp, List.eraseDups_cons, List.filter_cons_of_pos hp, ← hih,
          List.filter_comm]
      · rw [List.filter_cons_of_neg hp, List.filter_cons_of_neg hp, ← hih, List.filter_filter]
        congr 1
        apply List.filter_congr
        intro c _
        by_cases hc : c = b
        · simp [hc, hp]
        · simp [hc]

lemma nodup_eraseDups (l : List α) : l.eraseDups.Nodup := by
  induction l with
  | nil => exact List.nodup_nil
  | cons b l ih =>
    rw [List.eraseDups_cons, eraseDups_filter]
    exact List.nodup_cons.mpr ⟨by simp, ih.filter _⟩

lemma eraseDups_cons_erase (a : α) (l : List α) :
    (a :: l).eraseDups = a :: l.eraseDups.erase a := by
  rw [List.eraseDups_cons, eraseDups_filter, (nodup_eraseDups l).erase_eq_filter]
  rfl

lemma take_erase {a : α} {l : List α} {n : ℕ} (h : a ∈ l.take (n + 1)) :
    (l.erase a).take n = (l.take (n + 1)).erase a := by
  induction l generalizing n with
  | nil => simp
  | cons b l ih =>
    by_cases hb : b = a
    · simp [hb]
    cases n with
    | zero =>
      rw [List.take_succ_cons, List.take_zero, List.mem_singleton] at h
      exact absurd h.symm hb
    | succ n =>
      have hl : a ∈ l.take (n + 1) := by simpa [Ne.symm hb] using h
      simp [List.erase_cons_tail, hb, ih hl]

/-- The cache after the given uses, the latest use first. -/
def ofUses (cap : ℕ) (uses : List α) : Lru α cap where
  items := uses.eraseDups.take cap
  nodup := (nodup_eraseDups uses).sublist (List.take_sublist _ _)
  length_le := List.length_take_le _ _

lemma mem_of_mem_ofUses {uses : List α} {a : α} (h : a ∈ (ofUses cap uses).items) : a ∈ uses :=
  List.mem_eraseDups.mp (List.mem_of_mem_take h)

theorem ofUses_hit {uses : List α} {a : α} (h : a ∈ (ofUses cap uses).items) :
    (ofUses cap (a :: uses)).items = ((ofUses cap uses).touch a h).items := by
  cases cap with
  | zero => simp [ofUses] at h
  | succ n =>
    have htake := take_erase (n := n) h
    simp [ofUses, touch, eraseDups_cons_erase, htake]

theorem ofUses_miss {uses : List α} {a : α} (hcap : 0 < cap) (h : a ∉ uses)
    (h' : a ∉ (ofUses cap uses).items) :
    (ofUses cap (a :: uses)).items = ((ofUses cap uses).insert a h' hcap).items := by
  obtain ⟨n, rfl⟩ : ∃ n, cap = n + 1 := ⟨cap - 1, by omega⟩
  have hnew : a ∉ uses.eraseDups := fun hm => h (List.mem_eraseDups.mp hm)
  have hfirst : n ≤ n + 1 := Nat.le_succ n
  simp [ofUses, insert, eraseDups_cons_erase, List.erase_of_not_mem hnew, List.take_take, hfirst]

lemma take_erase_of_notMem {a : α} {l : List α} {n : ℕ} (h : a ∉ l.take (n + 1)) :
    (l.erase a).take n = l.take n := by
  induction l generalizing n with
  | nil => simp
  | cons b l ih =>
    rw [List.take_succ_cons, List.mem_cons, not_or] at h
    cases n with
    | zero => rfl
    | succ n =>
      rw [List.erase_cons_tail (by simpa using Ne.symm h.1), List.take_succ_cons,
        List.take_succ_cons, ih h.2]

theorem ofUses_load {uses : List α} {a : α} (hcap : 0 < cap) (h : a ∉ (ofUses cap uses).items) :
    (ofUses cap (a :: uses)).items = ((ofUses cap uses).insert a h hcap).items := by
  obtain ⟨n, rfl⟩ : ∃ n, cap = n + 1 := ⟨cap - 1, by omega⟩
  have hfirst : n ≤ n + 1 := Nat.le_succ n
  have htake := take_erase_of_notMem h
  simp [ofUses, insert, eraseDups_cons_erase, htake, List.take_take, hfirst]

/-- How many of the uses, the latest one first, find their item outside of the cache. -/
def misses (cap : ℕ) : List α → ℕ
  | [] => 0
  | a :: uses => misses cap uses + if a ∈ (ofUses cap uses).items then 0 else 1

lemma mem_ofUses_append {recent older : List α} {a : α} (ha : a ∈ recent)
    (hfew : recent.eraseDups.length ≤ cap) : a ∈ (ofUses cap (recent ++ older)).items := by
  change a ∈ (recent ++ older).eraseDups.take cap
  rw [List.eraseDups_append, List.take_append, List.take_of_length_le hfew]
  exact List.mem_append_left _ (List.mem_eraseDups.mpr ha)

/-- In a stretch of uses with no more items than the cache holds each item misses at most once. -/
theorem misses_append_le {recent older : List α} (hfew : recent.eraseDups.length ≤ cap) :
    misses cap (recent ++ older) ≤ misses cap older + recent.eraseDups.length := by
  induction recent with
  | nil => simp
  | cons a recent ih =>
    rw [eraseDups_cons_erase, List.length_cons] at hfew ⊢
    rw [List.cons_append, misses]
    by_cases ha : a ∈ recent
    · have hlen := List.length_erase_of_mem (List.mem_eraseDups.mpr ha)
      have hpos := List.length_pos_of_mem (List.mem_eraseDups.mpr ha)
      have hrecent : recent.eraseDups.length ≤ cap := by omega
      rw [if_pos (mem_ofUses_append ha hrecent)]
      have hle := ih hrecent
      omega
    · rw [List.erase_of_not_mem (mt List.mem_eraseDups.mp ha)] at hfew ⊢
      have hle := ih (by omega)
      split_ifs <;> omega

end Uses

end Lru
end Spotlight
