import Mathlib

/-! Circular singly linked lists, as lists of the places that a map of successors visits. -/
namespace Spotlight.Rings
open Relation

variable {α : Type} {next : α → Option α} {p q : α} {rest : List α}

def Follows (next : α → Option α) (p q : α) : Prop := next p = some q

/-- From `p` the successors visit `rest`, each place once, and come back to `p`. -/
structure IsRing (next : α → Option α) (p : α) (rest : List α) : Prop where
  nodup : (p :: rest).Nodup
  chain : (p :: (rest ++ [p])).IsChain (Follows next)

lemma reaches_of_isChain {l : List α} (h : (p :: l).IsChain (Follows next)) (hq : q ∈ l) :
    ReflTransGen (Follows next) p q := by
  induction l generalizing p with
  | nil => simp at hq
  | cons a l ih =>
    obtain ⟨hstep, hrest⟩ := List.isChain_cons_cons.mp h
    rcases List.mem_cons.mp hq with rfl | hq
    · exact .single hstep
    · exact .head hstep (ih hrest hq)

lemma IsRing.follows_mem (h : IsRing next p rest) {a b : α} (ha : a ∈ p :: rest)
    (hab : Follows next a b) : b ∈ p :: rest := by
  obtain ⟨xs, ys, hsplit⟩ := List.append_of_mem ha
  have hchain := h.chain
  rw [← List.cons_append, hsplit, List.append_assoc, List.cons_append,
    List.isChain_append] at hchain
  obtain ⟨-, htail, -⟩ := hchain
  cases ys with
  | nil =>
    have hap : Follows next a p := (List.isChain_cons_cons.mp htail).1
    obtain rfl := Option.some.inj (hab.symm.trans hap)
    exact List.mem_cons_self
  | cons c ys =>
    have hac : Follows next a c := (List.isChain_cons_cons.mp htail).1
    obtain rfl := Option.some.inj (hab.symm.trans hac)
    rw [hsplit]
    simp

lemma IsRing.exists_follows (h : IsRing next p rest) : ∃ a ∈ p :: rest, Follows next a p := by
  obtain ⟨xs, a, hsplit⟩ : ∃ xs a, p :: rest = xs ++ [a] :=
    ⟨_, _, (List.dropLast_append_getLast (List.cons_ne_nil p rest)).symm⟩
  have hchain := h.chain
  rw [← List.cons_append, hsplit, List.append_assoc, List.isChain_append] at hchain
  exact ⟨a, by simp [hsplit], (List.isChain_cons_cons.mp hchain.2.1).1⟩

theorem IsRing.reaches_iff (h : IsRing next p rest) :
    ReflTransGen (Follows next) p q ↔ q ∈ p :: rest := by
  constructor
  · intro hpq
    induction hpq with
    | refl => exact List.mem_cons_self
    | tail _ hstep ih => exact h.follows_mem ih hstep
  · intro hq
    rcases List.mem_cons.mp hq with rfl | hq
    · exact .refl
    · exact reaches_of_isChain h.chain (List.mem_append_left _ hq)

def Closed (next : α → Option α) (s : Finset α) : Prop := ∀ p ∈ s, ∃ q ∈ s, next p = some q

/-- No two places of a set have the same successor. -/
def Separate (next : α → Option α) (s : Finset α) : Prop :=
  ∀ p ∈ s, ∀ q ∈ s, next p = next q → p = q

theorem exists_isRing {s : Finset α} (hclosed : Closed next s) (hseparate : Separate next s)
    (hp : p ∈ s) : ∃ rest, IsRing next p rest ∧ ∀ q ∈ rest, q ∈ s := by
  choose g hg hnext using hclosed
  let f : s → s := fun a => ⟨g a a.2, hg a a.2⟩
  have hf : ∀ a : s, next a = some (f a : α) := fun a => hnext a a.2
  have hinj : Function.Injective f := by
    intro a b hab
    apply Subtype.ext
    apply hseparate a a.2 b b.2
    rw [hf, hf, hab]
  let x : s := ⟨p, hp⟩
  obtain ⟨m, hm⟩ : ∃ m, Function.minimalPeriod f x = m + 1 :=
    Nat.exists_eq_add_one.mpr (Function.minimalPeriod_pos_of_mem_periodicPts
      (hinj.mem_periodicPts x))
  have hlist : (List.range (m + 1)).map (fun i => ((f^[i] x : s) : α)) =
      p :: (List.range m).map fun i => ((f^[i + 1] x : s) : α) := by
    rw [List.range_succ_eq_map, List.map_cons, List.map_map]
    rfl
  refine ⟨(List.range m).map fun i => ((f^[i + 1] x : s) : α), ⟨?_, ?_⟩, ?_⟩
  · rw [← hlist]
    refine List.Nodup.map_on ?_ List.nodup_range
    intro i hi j hj hij
    have hlt : ∀ k, k ∈ List.range (m + 1) → k < Function.minimalPeriod f x := by
      intro k hk
      rw [hm]
      exact List.mem_range.mp hk
    exact (Function.iterate_eq_iterate_iff_of_lt_minimalPeriod (hlt i hi) (hlt j hj)).mp
      (Subtype.ext hij)
  · have hback : ((f^[m + 1] x : s) : α) = p := by
      rw [← hm, Function.iterate_minimalPeriod]
    have hall : (List.range (m + 2)).map (fun i => ((f^[i] x : s) : α)) =
        p :: ((List.range m).map (fun i => ((f^[i + 1] x : s) : α)) ++ [p]) := by
      rw [List.range_succ, List.map_append, hlist, List.map_singleton, hback, List.cons_append]
    rw [← hall, List.isChain_map]
    refine (List.isChain_range_succ _ (m + 1)).mpr fun i _ => ?_
    rw [Follows, hf, Function.iterate_succ_apply']
  · intro q hq
    obtain ⟨i, -, rfl⟩ := List.mem_map.mp hq
    exact (f^[i + 1] x).2

lemma IsRing.mem_of_closed {s : Finset α} (h : IsRing next p rest) (hclosed : Closed next s)
    (hp : p ∈ s) (hq : q ∈ p :: rest) : q ∈ s := by
  have hreach := h.reaches_iff.mpr hq
  clear hq
  induction hreach with
  | refl => exact hp
  | tail _ hstep ih =>
    obtain ⟨r, hr, hnext⟩ := hclosed _ ih
    exact Option.some.inj (hnext.symm.trans hstep) ▸ hr

lemma Closed.congr {next' : α → Option α} {s : Finset α} (hclosed : Closed next s)
    (heq : ∀ p ∈ s, next' p = next p) : Closed next' s := by
  intro p hp
  rw [heq p hp]
  exact hclosed p hp

lemma Separate.congr {next' : α → Option α} {s : Finset α} (hseparate : Separate next s)
    (heq : ∀ p ∈ s, next' p = next p) : Separate next' s := by
  intro p hp q hq hpq
  rw [heq p hp, heq q hq] at hpq
  exact hseparate p hp q hq hpq

section
variable [DecidableEq α] {s : Finset α} {h new : α}

lemma Closed.alone (hclosed : Closed next s) (hnew : new ∉ s) :
    Closed (Function.update next new (some new)) (insert new s) := by
  intro p hp
  rcases Finset.mem_insert.mp hp with rfl | hp
  · exact ⟨p, Finset.mem_insert_self _ _, Function.update_self ..⟩
  · obtain ⟨q, hq, hpq⟩ := hclosed p hp
    refine ⟨q, Finset.mem_insert_of_mem hq, ?_⟩
    rw [Function.update_of_ne (ne_of_mem_of_not_mem hp hnew), hpq]

lemma Separate.alone (hclosed : Closed next s) (hseparate : Separate next s) (hnew : new ∉ s) :
    Separate (Function.update next new (some new)) (insert new s) := by
  have hout : ∀ p ∈ s, Function.update next new (some new) p = next p ∧ next p ≠ some new := by
    intro p hp
    obtain ⟨q, hq, hpq⟩ := hclosed p hp
    refine ⟨Function.update_of_ne (ne_of_mem_of_not_mem hp hnew) _ _, ?_⟩
    rw [hpq]
    exact fun heq => ne_of_mem_of_not_mem hq hnew (Option.some.inj heq)
  intro p hp q hq hpq
  rcases Finset.mem_insert.mp hp with hpn | hps <;> rcases Finset.mem_insert.mp hq with hqn | hqs
  · rw [hpn, hqn]
  · rw [hpn, Function.update_self, (hout q hqs).1] at hpq
    exact absurd hpq.symm (hout q hqs).2
  · rw [hqn, Function.update_self, (hout p hps).1] at hpq
    exact absurd hpq (hout p hps).2
  · rw [(hout p hps).1, (hout q hqs).1] at hpq
    exact hseparate p hps q hqs hpq

lemma Closed.link (hclosed : Closed next s) (h : α) {q : α} (hq : q ∈ s)
    (hcopy : next new = some q) :
    Closed (Function.update next h (some new)) (insert new s) := by
  intro p hp
  by_cases hph : p = h
  · exact ⟨new, Finset.mem_insert_self _ _, by rw [hph, Function.update_self]⟩
  · obtain ⟨r, hr, hpr⟩ : ∃ r ∈ s, next p = some r := by
      rcases Finset.mem_insert.mp hp with rfl | hp
      · exact ⟨q, hq, hcopy⟩
      · exact hclosed p hp
    exact ⟨r, Finset.mem_insert_of_mem hr, by rw [Function.update_of_ne hph, hpr]⟩

lemma Separate.link (hclosed : Closed next s) (hseparate : Separate next s) (hh : h ∈ s)
    (hnew : new ∉ s) (hsame : next h = next new) :
    Separate (Function.update next h (some new)) (insert new s) := by
  have hold : ∀ p ∈ insert new s, p ≠ h →
      Function.update next h (some new) p = next p ∧ next p ≠ some new := by
    intro p hp hph
    refine ⟨Function.update_of_ne hph _ _, fun heq => ?_⟩
    obtain ⟨q, hq, hpq⟩ : ∃ q ∈ s, next p = some q := by
      rcases Finset.mem_insert.mp hp with rfl | hp
      · rw [← hsame]
        exact hclosed h hh
      · exact hclosed p hp
    rw [hpq] at heq
    exact ne_of_mem_of_not_mem hq hnew (Option.some.inj heq)
  have hback : ∀ p ∈ s, next p = next new → p = h := fun p hp heq =>
    hseparate p hp h hh (heq.trans hsame.symm)
  intro p hp q hq hpq
  by_cases hph : p = h
  · by_cases hqh : q = h
    · rw [hph, hqh]
    · rw [hph, Function.update_self, (hold q hq hqh).1] at hpq
      exact absurd hpq.symm (hold q hq hqh).2
  · by_cases hqh : q = h
    · rw [hqh, Function.update_self, (hold p hp hph).1] at hpq
      exact absurd hpq (hold p hp hph).2
    · rw [(hold p hp hph).1, (hold q hq hqh).1] at hpq
      rcases Finset.mem_insert.mp hp with hpn | hps <;>
        rcases Finset.mem_insert.mp hq with hqn | hqs
      · rw [hpn, hqn]
      · exact absurd (hback q hqs (hpn ▸ hpq.symm)) hqh
      · exact absurd (hback p hps (hqn ▸ hpq)) hph
      · exact hseparate p hps q hqs hpq

/-- If `new` brings another successor than that of `h`, the old successor of `h` is on no ring any
more. -/
theorem link_isRing_iff (hclosed : Closed next s) (hseparate : Separate next s) (hh : h ∈ s)
    (hnew : new ∉ s) {q : α} (hq : q ∈ s) (hcopy : next new = some q) :
    (∀ p ∈ insert new s, ∃ rest, IsRing (Function.update next h (some new)) p rest) ↔
      next h = next new := by
  constructor
  · intro hall
    by_contra hne
    obtain ⟨r, hr, hhr⟩ := hclosed h hh
    have hnh : new ≠ h := fun heq => hnew (heq ▸ hh)
    obtain ⟨rest, hring⟩ := hall r (Finset.mem_insert_of_mem hr)
    obtain ⟨a, ha, har⟩ := hring.exists_follows
    have hin : a ∈ insert new s :=
      hring.mem_of_closed (hclosed.link h hq hcopy) (Finset.mem_insert_of_mem hr) ha
    by_cases hah : a = h
    · rw [Follows, hah, Function.update_self] at har
      exact hnew (Option.some.inj har ▸ hr)
    · rw [Follows, Function.update_of_ne hah] at har
      rcases Finset.mem_insert.mp hin with rfl | has
      · exact hne (hhr.trans har.symm)
      · exact hah (hseparate a has h hh (har.trans hhr.symm))
  · intro hsame p hp
    obtain ⟨rest, hrest, -⟩ := exists_isRing (hclosed.link h hq hcopy)
      (hseparate.link hclosed hh hnew hsame) hp
    exact ⟨rest, hrest⟩

end

section
variable {next' : α → Option α} {new : α} {xs ys : List α}

lemma isChain_congr {l : List α} (h : ∀ a ∈ l.dropLast, next' a = next a)
    (hl : l.IsChain (Follows next)) : l.IsChain (Follows next') := by
  induction l with
  | nil => exact .nil
  | cons a l ih =>
    cases l with
    | nil => exact .singleton a
    | cons b l =>
      obtain ⟨hab, hl⟩ := List.isChain_cons_cons.mp hl
      rw [List.dropLast_cons_cons] at h
      refine List.isChain_cons_cons.mpr ⟨(h a List.mem_cons_self).trans hab, ?_⟩
      exact ih (fun c hc => h c (List.mem_cons_of_mem _ hc)) hl

lemma IsRing.congr (h : IsRing next p rest) (heq : ∀ a ∈ p :: rest, next' a = next a) :
    IsRing next' p rest := by
  refine ⟨h.nodup, isChain_congr ?_ h.chain⟩
  rw [← List.cons_append, List.dropLast_concat]
  exact heq

lemma IsRing.single (h : next p = some p) : IsRing next p [] :=
  ⟨List.nodup_singleton p, List.isChain_cons_cons.mpr ⟨h, .singleton p⟩⟩

lemma IsRing.rotate (h : IsRing next p (xs ++ q :: ys)) : IsRing next q (ys ++ p :: xs) := by
  have hperm : (q :: ys ++ p :: xs).Perm (p :: xs ++ q :: ys) := List.perm_append_comm
  refine ⟨hperm.nodup_iff.mpr h.nodup, ?_⟩
  have hchain := h.chain
  rw [List.append_assoc, List.cons_append, List.isChain_cons_split] at hchain
  rw [List.append_assoc, List.cons_append, List.isChain_cons_split]
  exact ⟨hchain.2, hchain.1⟩

lemma IsRing.insert [DecidableEq α] (h : IsRing next p rest) (hnew : new ∉ p :: rest) :
    IsRing (Function.update (Function.update next new (next p)) p (some new)) new
      (rest ++ [p]) := by
  have hperm : (new :: (rest ++ [p])).Perm (new :: p :: rest) :=
    (List.perm_append_singleton p rest).cons new
  refine ⟨hperm.nodup_iff.mpr (List.nodup_cons.mpr ⟨hnew, h.nodup⟩), ?_⟩
  have hne : new ≠ p := fun heq => hnew (heq ▸ List.mem_cons_self)
  have hrest : ∀ a ∈ rest, Function.update (Function.update next new (next p)) p (some new) a =
      next a := by
    intro a ha
    have hap : a ≠ p := fun heq => (List.nodup_cons.mp h.nodup).1 (heq ▸ ha)
    have han : a ≠ new := fun heq => hnew (heq ▸ List.mem_cons_of_mem _ ha)
    rw [Function.update_of_ne hap, Function.update_of_ne han]
  have htail : (rest ++ [p]).IsChain
      (Follows (Function.update (Function.update next new (next p)) p (some new))) := by
    refine isChain_congr ?_ (List.IsChain.tail h.chain)
    rw [List.dropLast_concat]
    exact hrest
  have hfirst : (new :: (rest ++ [p])).IsChain
      (Follows (Function.update (Function.update next new (next p)) p (some new))) := by
    have hcopy : Function.update (Function.update next new (next p)) p (some new) new = next p := by
      rw [Function.update_of_ne hne, Function.update_self]
    have hchain := h.chain
    cases rest with
    | nil =>
      exact List.isChain_cons_cons.mpr ⟨hcopy.trans (List.isChain_cons_cons.mp hchain).1, htail⟩
    | cons a rest =>
      exact List.isChain_cons_cons.mpr ⟨hcopy.trans (List.isChain_cons_cons.mp hchain).1, htail⟩
  rw [← List.cons_append, List.isChain_append]
  refine ⟨hfirst, .singleton new, fun a ha b hb => ?_⟩
  rw [← List.cons_append, List.getLast?_concat] at ha
  obtain rfl := Option.some.inj ha
  obtain rfl := Option.some.inj hb
  exact Function.update_self ..

end

end Spotlight.Rings
