import Mathlib

/-! Loops that take turns until one of them returns a value. -/
namespace Spotlight.Loops
open Relation

variable {S β : Type} {turn : S → β ⊕ S} {s s' : S} {r : β} {n : ℕ}

/-- What a loop returns within `n` turns. A turn returns a value or goes on from another state. -/
def run (turn : S → β ⊕ S) : ℕ → S → Option β
  | 0, _ => none
  | n + 1, s =>
    match turn s with
    | .inl r => some r
    | .inr s' => run turn n s'

/-- A loop that begins at one state comes to the other. -/
def Comes (turn : S → β ⊕ S) : S → S → Prop := ReflTransGen fun s s' => turn s = .inr s'

lemma run_inl (h : turn s = .inl r) (n : ℕ) : run turn (n + 1) s = some r := by
  rw [run, h]

lemma run_inr (h : turn s = .inr s') (n : ℕ) : run turn (n + 1) s = run turn n s' := by
  rw [run, h]

lemma run_comes (h : Comes turn s s') : ∃ k, ∀ n, run turn (n + k) s = run turn n s' := by
  induction h using ReflTransGen.head_induction_on with
  | refl => exact ⟨0, fun n => rfl⟩
  | head hturn _ ih =>
    obtain ⟨k, hk⟩ := ih
    exact ⟨k + 1, fun n => (run_inr hturn (n + k)).trans (hk n)⟩

theorem run_eq_some : (∃ n, run turn n s = some r) ↔ ∃ s', Comes turn s s' ∧ turn s' = .inl r := by
  constructor
  · rintro ⟨n, hrun⟩
    induction n generalizing s with
    | zero => cases hrun
    | succ n ih =>
      cases hturn : turn s with
      | inl r' =>
        rw [run_inl hturn] at hrun
        exact ⟨s, .refl, by rw [hturn, Option.some.inj hrun]⟩
      | inr s₁ =>
        rw [run_inr hturn] at hrun
        obtain ⟨s', hcomes, hreturn⟩ := ih hrun
        exact ⟨s', .head hturn hcomes, hreturn⟩
  · rintro ⟨s', hcomes, hreturn⟩
    obtain ⟨k, hk⟩ := run_comes hcomes
    exact ⟨1 + k, (hk 1).trans (run_inl hreturn 0)⟩

/-- A loop returns when every turn that it goes on from brings a measure down. -/
theorem run_returns (measure : S → ℕ)
    (h : ∀ s₁ s₂, Comes turn s s₁ → turn s₁ = .inr s₂ → measure s₂ < measure s₁)
    (hn : measure s < n) : ∃ r, run turn n s = some r := by
  induction n generalizing s with
  | zero => exact absurd hn (Nat.not_lt_zero _)
  | succ n ih =>
    cases hturn : turn s with
    | inl r => exact ⟨r, run_inl hturn n⟩
    | inr s' =>
      have hdown := h s s' .refl hturn
      rw [run_inr hturn]
      exact ih (fun s₁ s₂ hcomes => h s₁ s₂ (.head hturn hcomes)) (by omega)

/-- A turn that goes on from the state that it began with is taken forever. -/
lemma run_stuck (h : turn s = .inr s) (n : ℕ) : run turn n s = none := by
  induction n with
  | zero => rfl
  | succ n ih => rw [run_inr h, ih]

/-- The loop takes turns from this state that bring it back. -/
def ComesBack (turn : S → β ⊕ S) (s : S) : Prop := TransGen (fun s s' => turn s = .inr s') s s

lemma not_comesBack (h : Comes turn s s') (hreturn : turn s' = .inl r) : ¬ComesBack turn s := by
  induction h using ReflTransGen.head_induction_on with
  | refl =>
    intro hback
    obtain ⟨s₁, hturn, -⟩ := TransGen.head'_iff.mp hback
    rw [hreturn] at hturn
    cases hturn
  | @head s₀ s₁ hturn _ ih =>
    intro hback
    obtain ⟨s₂, hturn', hrest⟩ := TransGen.head'_iff.mp hback
    have heq : s₁ = s₂ := Sum.inr.inj (hturn.symm.trans hturn')
    rw [← heq] at hrest
    exact ih (TransGen.tail' hrest hturn)

/-- A loop through finitely many states returns when it comes back to none of them: the states
ahead of it become fewer. -/
theorem run_returns_iff (hfinite : {s' | Comes turn s s'}.Finite) :
    (∃ n r, run turn n s = some r) ↔ ∀ s', Comes turn s s' → ¬ComesBack turn s' := by
  constructor
  · rintro ⟨n, r, hrun⟩ s' hcomes hback
    obtain ⟨s₁, hcomes₁, hreturn⟩ := run_eq_some.mp ⟨n, hrun⟩
    have hunique : Relator.RightUnique fun s s' => turn s = .inr s' := by
      intro a b c hb hc
      exact Sum.inr.inj (hb.symm.trans hc)
    rcases ReflTransGen.total_of_right_unique hunique hcomes hcomes₁ with hon | hon
    · exact not_comesBack hon hreturn hback
    · -- behind the last turn there is only the state itself
      rcases ReflTransGen.cases_head hon with heq | ⟨s₂, hturn, -⟩
      · rw [← heq] at hback
        exact not_comesBack .refl hreturn hback
      · rw [hreturn] at hturn
        cases hturn
  · intro h
    obtain ⟨r, hrun⟩ := run_returns
      (fun s₁ => {s' | TransGen (fun s s' => turn s = .inr s') s₁ s'}.ncard)
      (fun s₁ s₂ hcomes hturn => Set.ncard_lt_ncard ⟨fun s' hs' => hs'.head hturn,
        fun hsub => h s₂ (hcomes.tail hturn) (hsub (.single hturn))⟩
        (hfinite.subset fun s' hs' => hcomes.trans hs'.to_reflTransGen))
      (Nat.lt_succ_self _)
    exact ⟨_, r, hrun⟩

end Spotlight.Loops
