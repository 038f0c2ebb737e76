import Mathlib

/-! Outcomes of modelled C functions. A run either returns a value or stops at the
first operation that the language leaves without meaning or that an assertion refuses. -/
namespace Spotlight

inductive Fault
  | assertion
  | bounds
  | null
  | fuel
  deriving DecidableEq, Repr

abbrev Outcome := Except Fault

/-- `assert` and `ASSERT` of a build without `NDEBUG`. -/
def assertThat (p : Prop) [Decidable p] : Outcome Unit :=
  if p then .ok () else .error .assertion

def deref {α : Type} : Option α → Outcome α
  | none => .error .null
  | some a => .ok a

namespace Outcome
variable {α β : Type}

@[simp] theorem ok_bind (a : α) (f : α → Outcome β) : (Except.ok a >>= f) = f a := rfl

@[simp] theorem error_bind (e : Fault) (f : α → Outcome β) :
    ((Except.error e : Outcome α) >>= f) = .error e := rfl

@[simp] theorem pure_eq (a : α) : (pure a : Outcome α) = .ok a := rfl

@[simp] theorem map_ok (f : α → β) (a : α) : (f <$> (Except.ok a : Outcome α)) = .ok (f a) := rfl

@[simp] theorem map_error (f : α → β) (e : Fault) :
    (f <$> (Except.error e : Outcome α)) = .error e := rfl

theorem bind_eq_ok {x : Outcome α} {f : α → Outcome β} {r : β} :
    (x >>= f) = .ok r ↔ ∃ a, x = .ok a ∧ f a = .ok r := by
  cases x <;> simp

theorem bind_eq_error {x : Outcome α} {f : α → Outcome β} {e : Fault} :
    (x >>= f) = .error e ↔ x = .error e ∨ ∃ a, x = .ok a ∧ f a = .error e := by
  cases x <;> simp

@[simp] theorem assertThat_true {p : Prop} [Decidable p] (h : p) : assertThat p = .ok () :=
  if_pos h

@[simp] theorem assertThat_eq_ok {p : Prop} [Decidable p] {u : Unit} :
    assertThat p = .ok u ↔ p := by
  unfold assertThat
  split_ifs with h <;> simp [h]

theorem assertThat_false {p : Prop} [Decidable p] (h : ¬p) :
    assertThat p = .error .assertion := if_neg h

@[simp] theorem deref_some (a : α) : deref (some a) = .ok a := rfl

@[simp] theorem deref_eq_ok {o : Option α} {a : α} : deref o = .ok a ↔ o = some a := by
  cases o <;> simp [deref]

/-- From some amount of fuel on, a function returns `r`. -/
def Settles (f : ℕ → Outcome α) (r : α) : Prop := ∃ n, ∀ fuel, n ≤ fuel → f fuel = .ok r

lemma Settles.unique {f : ℕ → Outcome α} {r r' : α} (h : Settles f r) (h' : Settles f r') :
    r = r' := by
  obtain ⟨n, hn⟩ := h
  obtain ⟨m, hm⟩ := h'
  exact Except.ok.inj ((hn _ (le_max_left n m)).symm.trans (hm _ (le_max_right n m)))

end Outcome
end Spotlight
