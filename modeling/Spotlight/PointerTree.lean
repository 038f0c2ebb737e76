import Mathlib

/-! Trees of pointers in tables of one size, as block maps and page tables are made of. Entry `i`
of the table in block `b` is `table b i`, and a null pointer stands for a subtree that is not
there. -/
namespace Spotlight.PointerTree

section
variable (arity : ℕ) (table : ℕ → ℕ → ℕ)

/-- The leaves below a pointer in order, null ones for a subtree that is not there. -/
def leaves : ℕ → ℕ → List ℕ
  | 0, b => [b]
  | d + 1, b =>
    if b = 0 then List.replicate (arity ^ (d + 1)) 0
    else (List.range arity).flatMap fun i => leaves d (table b i)

/-- The pointers on the way down to leaf `l`, up to the first null pointer. -/
def path : ℕ → ℕ → ℕ → List ℕ
  | 0, b, _ => [b]
  | d + 1, b, l =>
    if b = 0 then [0] else b :: path d (table b (l / arity ^ d)) (l % arity ^ d)

/-- The walk that takes null pointers for pointers to block 0. -/
def follow : ℕ → ℕ → ℕ → ℕ
  | 0, b, _ => b
  | d + 1, b, l => follow d (table b (l / arity ^ d)) (l % arity ^ d)

end

variable {arity : ℕ} {table table' : ℕ → ℕ → ℕ}

lemma div_mod_lt {d l : ℕ} (hl : l < arity ^ (d + 1)) :
    l / arity ^ d < arity ∧ l % arity ^ d < arity ^ d := by
  have hpos : 0 < arity ^ d :=
    Nat.pos_of_ne_zero fun h => by simp [Nat.pow_succ, h] at hl
  exact ⟨Nat.div_lt_of_lt_mul (by rwa [← Nat.pow_succ]), Nat.mod_lt l hpos⟩

@[simp] lemma length_leaves (d b : ℕ) : (leaves arity table d b).length = arity ^ d := by
  induction d generalizing b with
  | zero => rfl
  | succ d ih =>
    by_cases hb : b = 0
    · simp [leaves, hb]
    · simp [leaves, hb, List.length_flatMap, ih, Nat.pow_succ']

lemma getElem?_flatMap_range {f : ℕ → List ℕ} {m : ℕ} (hf : ∀ i, (f i).length = m) {n q r : ℕ}
    (hq : q < n) (hr : r < m) : ((List.range n).flatMap f)[q * m + r]? = (f q)[r]? := by
  have hlen : ∀ k, ((List.range k).flatMap f).length = k * m := by
    intro k
    simp [List.length_flatMap, hf]
  induction n with
  | zero => omega
  | succ n ih =>
    rw [List.range_succ, List.flatMap_append, List.flatMap_singleton]
    rcases Nat.lt_or_eq_of_le (Nat.le_of_lt_succ hq) with hlt | rfl
    · have hin : q * m + r < n * m := by
        calc q * m + r < q * m + m := by omega
          _ = (q + 1) * m := by rw [Nat.succ_mul]
          _ ≤ n * m := Nat.mul_le_mul_right m hlt
      rw [List.getElem?_append_left (by rw [hlen]; exact hin), ih hlt]
    · rw [List.getElem?_append_right (by rw [hlen]; omega), hlen, Nat.add_sub_cancel_left]

lemma path_ne_nil (d b l : ℕ) : path arity table d b l ≠ [] := by
  cases d with
  | zero => exact List.cons_ne_nil _ _
  | succ d =>
    unfold path
    split_ifs <;> exact List.cons_ne_nil _ _

lemma getElem?_leaves {d l : ℕ} (hl : l < arity ^ d) (b : ℕ) :
    (leaves arity table d b)[l]? = (path arity table d b l).getLast? := by
  induction d generalizing b l with
  | zero =>
    obtain rfl : l = 0 := by simpa using hl
    rfl
  | succ d ih =>
    by_cases hb : b = 0
    · simp [leaves, path, hb, hl]
    · obtain ⟨hq, hr⟩ := div_mod_lt hl
      have hpart := getElem?_flatMap_range (f := fun i => leaves arity table d (table b i))
        (fun i => length_leaves d _) hq hr
      rw [Nat.div_add_mod' l (arity ^ d)] at hpart
      rw [leaves, if_neg hb, path, if_neg hb, hpart, ih hr,
        List.getLast?_cons_of_ne_nil (path_ne_nil _ _ _)]

lemma getLast?_path {d b l : ℕ} (h : 0 ∉ (path arity table d b l).take d) :
    (path arity table d b l).getLast? = some (follow arity table d b l) := by
  induction d generalizing b l with
  | zero => rfl
  | succ d ih =>
    by_cases hb : b = 0
    · simp [path, hb] at h
    · rw [path, if_neg hb, List.take_succ_cons] at h
      rw [path, if_neg hb, List.getLast?_cons_of_ne_nil (path_ne_nil _ _ _),
        ih fun hm => h (List.mem_cons_of_mem _ hm), follow]

lemma getLast?_of_null {d b l : ℕ} (h : 0 ∈ path arity table d b l) :
    (path arity table d b l).getLast? = some 0 := by
  induction d generalizing b l with
  | zero =>
    obtain rfl : 0 = b := List.mem_singleton.mp h
    rfl
  | succ d ih =>
    by_cases hb : b = 0
    · simp [path, hb]
    · rw [path, if_neg hb] at h ⊢
      rw [List.getLast?_cons_of_ne_nil (path_ne_nil _ _ _)]
      exact ih ((List.mem_cons.mp h).resolve_left (Ne.symm hb))

lemma length_path_le (d b l : ℕ) : ((path arity table d b l).take d).length ≤ d :=
  List.length_take_le _ _

lemma follow_congr {d b l : ℕ} (hl : l < arity ^ d) (h : 0 ∉ (path arity table d b l).take d)
    (htable : ∀ t ∈ (path arity table d b l).take d, ∀ i < arity, table' t i = table t i) :
    follow arity table' d b l = follow arity table d b l := by
  induction d generalizing b l with
  | zero => rfl
  | succ d ih =>
    by_cases hb : b = 0
    · simp [path, hb] at h
    · rw [path, if_neg hb, List.take_succ_cons] at h htable
      obtain ⟨hq, hr⟩ := div_mod_lt hl
      rw [follow, follow, htable b List.mem_cons_self _ hq]
      exact ih hr (fun hm => h (List.mem_cons_of_mem _ hm))
        fun t ht => htable t (List.mem_cons_of_mem _ ht)

lemma follow_fixed {x : ℕ} (hx : ∀ i < arity, table x i = x) {d l : ℕ} (hl : l < arity ^ d) :
    follow arity table d x l = x := by
  induction d generalizing l with
  | zero => rfl
  | succ d ih =>
    obtain ⟨hq, hr⟩ := div_mod_lt hl
    rw [follow, hx _ hq, ih hr]

/-- Past a null pointer to a table the walk is at the mercy of what block 0 holds. -/
lemma follow_null {d b l x : ℕ} (hl : l < arity ^ d) (h : 0 ∈ (path arity table d b l).take d)
    (htable : ∀ t ∈ (path arity table d b l).take d, t ≠ 0 → ∀ i < arity, table' t i = table t i)
    (hnull : ∀ i < arity, table' 0 i = x) (hx : ∀ i < arity, table' x i = x) :
    follow arity table' d b l = x := by
  induction d generalizing b l with
  | zero => simp at h
  | succ d ih =>
    obtain ⟨hq, hr⟩ := div_mod_lt hl
    rw [follow]
    by_cases hb : b = 0
    · rw [hb, hnull _ hq, follow_fixed hx hr]
    · rw [path, if_neg hb, List.take_succ_cons] at h htable
      rw [htable b List.mem_cons_self hb _ hq]
      exact ih hr ((List.mem_cons.mp h).resolve_left (Ne.symm hb))
        fun t ht => htable t (List.mem_cons_of_mem _ ht)

end Spotlight.PointerTree
