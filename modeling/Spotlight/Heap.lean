import Spotlight.Outcome

/-! Heaps of equal cells: allocation, access through a pointer, and release. -/
namespace Spotlight

/-- Cells by address. Addresses from `next` on have never been handed out. -/
structure Heap (α : Type) where
  cells : ℕ → Option α
  next : ℕ
  fresh : ∀ p, next ≤ p → cells p = none

namespace Heap
variable {α : Type}

def empty : Heap α := ⟨fun _ => none, 0, fun _ _ => rfl⟩

/-- The cell a valid pointer leads to; a dangling one is a fault like `NULL`. -/
def read (h : Heap α) (p : ℕ) : Outcome α := deref (h.cells p)

def alloc (h : Heap α) (a : α) : ℕ × Heap α :=
  (h.next, {
    cells := Function.update h.cells h.next (some a)
    next := h.next + 1
    fresh := by
      intro p hp
      rw [Function.update_of_ne (by omega)]
      exact h.fresh p (by omega) })

def modifyCell (h : Heap α) (p : ℕ) (f : α → α) : Heap α where
  cells := Function.update h.cells p ((h.cells p).map f)
  next := h.next
  fresh := by
    intro q hq
    by_cases hqp : q = p
    · subst hqp
      rw [Function.update_self, h.fresh q hq, Option.map_none]
    · rw [Function.update_of_ne hqp]
      exact h.fresh q hq

def modify (h : Heap α) (p : ℕ) (f : α → α) : Outcome (Heap α) := do
  let _ ← h.read p
  return h.modifyCell p f

def release (h : Heap α) (p : ℕ) : Heap α where
  cells := Function.update h.cells p none
  next := h.next
  fresh := by
    intro q hq
    by_cases hqp : q = p
    · rw [hqp, Function.update_self]
    · rw [Function.update_of_ne hqp]
      exact h.fresh q hq

def free (h : Heap α) (p : ℕ) : Outcome (Heap α) := do
  let _ ← h.read p
  return h.release p

theorem ext {h h' : Heap α} (hcells : h.cells = h'.cells) (hnext : h.next = h'.next) :
    h = h' := by
  cases h
  cases h'
  cases hcells
  cases hnext
  rfl

theorem lt_next {h : Heap α} {p : ℕ} {a : α} (hp : h.cells p = some a) : p < h.next := by
  by_contra hge
  rw [h.fresh p (Nat.not_lt.mp hge)] at hp
  cases hp

theorem read_eq_ok {h : Heap α} {p : ℕ} {a : α} : h.read p = .ok a ↔ h.cells p = some a :=
  Outcome.deref_eq_ok

theorem read_of_cell {h : Heap α} {p : ℕ} {a : α} (hp : h.cells p = some a) :
    h.read p = .ok a := read_eq_ok.mpr hp

theorem modify_of_cell {h : Heap α} {p : ℕ} {a : α} (hp : h.cells p = some a) (f : α → α) :
    h.modify p f = .ok (h.modifyCell p f) := by
  simp [modify, read_of_cell hp]

theorem free_of_cell {h : Heap α} {p : ℕ} {a : α} (hp : h.cells p = some a) :
    h.free p = .ok (h.release p) := by
  simp [free, read_of_cell hp]

@[simp] theorem alloc_fst (h : Heap α) (a : α) : (h.alloc a).1 = h.next := rfl

@[simp] theorem cells_alloc_self (h : Heap α) (a : α) :
    (h.alloc a).2.cells h.next = some a := Function.update_self ..

theorem cells_alloc {h : Heap α} {a : α} {p : ℕ} {b : α} (hp : h.cells p = some b) :
    (h.alloc a).2.cells p = some b := by
  have hne : p ≠ h.next := (lt_next hp).ne
  rw [← hp]
  exact Function.update_of_ne hne _ _

theorem cells_modifyCell_self {h : Heap α} {p : ℕ} {a : α} (hp : h.cells p = some a)
    (f : α → α) : (h.modifyCell p f).cells p = some (f a) := by
  simp [modifyCell, hp]

theorem cells_modifyCell_ne {h : Heap α} {p q : ℕ} (hq : q ≠ p) (f : α → α) :
    (h.modifyCell p f).cells q = h.cells q := Function.update_of_ne hq _ _

theorem cells_release (h : Heap α) (p q : ℕ) :
    (h.release p).cells q = if q = p then none else h.cells q := by
  by_cases hq : q = p
  · simp [release, hq]
  · simp [release, hq]

theorem cells_release_ne {h : Heap α} {p q : ℕ} (hq : q ≠ p) :
    (h.release p).cells q = h.cells q := Function.update_of_ne hq _ _

@[simp] theorem cells_release_self (h : Heap α) (p : ℕ) : (h.release p).cells p = none :=
  Function.update_self ..

theorem cells_release_alloc (h : Heap α) (a : α) :
    ((h.alloc a).2.release h.next).cells = h.cells := by
  funext p
  by_cases hp : p = h.next
  · rw [hp, cells_release_self, h.fresh h.next le_rfl]
  · rw [cells_release_ne hp]
    exact Function.update_of_ne hp _ _

@[simp] theorem isSome_modifyCell (h : Heap α) (p q : ℕ) (f : α → α) :
    ((h.modifyCell p f).cells q).isSome = (h.cells q).isSome := by
  by_cases hq : q = p
  · simp [hq, modifyCell]
  · rw [cells_modifyCell_ne hq]

theorem modify_of_isSome {h : Heap α} {p : ℕ} (hp : (h.cells p).isSome) (f : α → α) :
    h.modify p f = .ok (h.modifyCell p f) := by
  obtain ⟨a, ha⟩ := Option.isSome_iff_exists.mp hp
  exact modify_of_cell ha f

theorem modify_eq_ok {h h' : Heap α} {p : ℕ} {f : α → α} (hp : h.modify p f = .ok h') :
    h' = h.modifyCell p f := by
  obtain ⟨a, -, hp⟩ := Outcome.bind_eq_ok.mp hp
  exact (Except.ok.inj hp).symm

theorem free_eq_ok {h h' : Heap α} {p : ℕ} (hp : h.free p = .ok h') : h' = h.release p := by
  obtain ⟨a, -, hp⟩ := Outcome.bind_eq_ok.mp hp
  exact (Except.ok.inj hp).symm

theorem free_of_dead {h : Heap α} {p : ℕ} (hp : h.cells p = none) : h.free p = .error .null := by
  simp [free, read, deref, hp]

theorem isSome_alloc (h : Heap α) (a : α) (p : ℕ) :
    ((h.alloc a).2.cells p).isSome ↔ (h.cells p).isSome ∨ p = h.next := by
  by_cases hp : p = h.next
  · subst hp
    simp
  · have hcells : (h.alloc a).2.cells p = h.cells p := Function.update_of_ne hp _ _
    rw [hcells, or_iff_left hp]

theorem isSome_release (h : Heap α) (p q : ℕ) :
    ((h.release p).cells q).isSome ↔ (h.cells q).isSome ∧ q ≠ p := by
  by_cases hq : q = p
  · simp [hq]
  · simp [cells_release_ne hq, hq]

/-- What is visible of the cells through some of their fields. -/
def view {β : Type} (g : α → β) (h : Heap α) (p : ℕ) : Option β := (h.cells p).map g

variable {β : Type} {g : α → β}

theorem isSome_of_view {h : Heap α} {p : ℕ} {b : β} (hp : view g h p = some b) :
    (h.cells p).isSome := by
  rw [← Option.isSome_map (f := g)]
  exact Option.isSome_of_eq_some hp

theorem view_modifyCell {f : α → α} {k : β → β} (hf : ∀ a, g (f a) = k (g a)) (h : Heap α)
    (p : ℕ) : view g (h.modifyCell p f) =
      Function.update (view g h) p ((view g h p).map k) := by
  funext q
  by_cases hq : q = p
  · subst hq
    simp [view, modifyCell, Function.comp_def, hf]
  · rw [Function.update_of_ne hq, view, cells_modifyCell_ne hq, view]

theorem view_modifyCell_same {f : α → α} (hf : ∀ a, g (f a) = g a) (h : Heap α) (p : ℕ) :
    view g (h.modifyCell p f) = view g h := by
  rw [view_modifyCell (k := id) hf, Option.map_id, id, Function.update_eq_self]

theorem view_release_ne {h : Heap α} {p q : ℕ} (hq : q ≠ p) :
    view g (h.release p) q = view g h q := by
  rw [view, cells_release_ne hq, view]

theorem view_alloc (h : Heap α) (a : α) :
    view g (h.alloc a).2 = Function.update (view g h) h.next (some (g a)) := by
  funext q
  by_cases hq : q = h.next
  · subst hq
    simp [view]
  · simp only [view, alloc, Function.update_of_ne hq]

end Heap
end Spotlight
