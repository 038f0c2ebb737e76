import Mathlib

/-! Doubly linked lists: which pointers a chain of cells visits, and what assignments to the
links of single cells do to it. -/
namespace Spotlight.DoublyLinked

@[ext] structure Links where
  prev : Option ℕ
  next : Option ℕ

/-- The cells `ps` are chained in this order, the first one back to `before` and the last one
on to `after`. -/
def Linked (links : ℕ → Option Links) : Option ℕ → List ℕ → Option ℕ → Prop
  | _, [], _ => True
  | before, p :: ps, after =>
    links p = some ⟨before, ps.head?.or after⟩ ∧ Linked links (some p) ps after

def setPrev (links : ℕ → Option Links) (p : ℕ) (v : Option ℕ) : ℕ → Option Links :=
  Function.update links p ((links p).map fun l => { l with prev := v })

def setNext (links : ℕ → Option Links) (p : ℕ) (v : Option ℕ) : ℕ → Option Links :=
  Function.update links p ((links p).map fun l => { l with next := v })

variable {links links' : ℕ → Option Links} {before after : Option ℕ} {p q : ℕ} {ps qs : List ℕ}

theorem setPrev_of_ne (h : q ≠ p) (v : Option ℕ) : setPrev links p v q = links q :=
  Function.update_of_ne h _ _

theorem setNext_of_ne (h : q ≠ p) (v : Option ℕ) : setNext links p v q = links q :=
  Function.update_of_ne h _ _

theorem Linked.congr (h : Linked links before ps after) (heq : ∀ p ∈ ps, links' p = links p) :
    Linked links' before ps after := by
  induction ps generalizing before with
  | nil => trivial
  | cons p ps ih =>
    obtain ⟨hp, hps⟩ := h
    refine ⟨?_, ih hps fun q hq => heq q (List.mem_cons_of_mem _ hq)⟩
    rw [heq p List.mem_cons_self, hp]

theorem linked_append : Linked links before (ps ++ qs) after ↔
    Linked links before ps (qs.head?.or after) ∧ Linked links (ps.getLast?.or before) qs after := by
  induction ps generalizing before with
  | nil => simp [Linked]
  | cons p ps ih =>
    have hlast : (p :: ps).getLast?.or before = ps.getLast?.or (some p) := by
      rw [List.getLast?_cons]
      cases ps.getLast? <;> rfl
    rw [List.cons_append, Linked, Linked, ih, hlast, List.head?_append, Option.or_assoc, and_assoc]

theorem Linked.setPrev (h : Linked links before (p :: ps) after) (hp : p ∉ ps) (v : Option ℕ) :
    Linked (setPrev links p v) v (p :: ps) after := by
  obtain ⟨hcell, hrest⟩ := h
  refine ⟨by simp [DoublyLinked.setPrev, hcell], hrest.congr fun q hq => ?_⟩
  exact setPrev_of_ne (ne_of_mem_of_not_mem hq hp) v

theorem Linked.setNext (h : Linked links before (ps ++ [p]) after) (hp : p ∉ ps) (v : Option ℕ) :
    Linked (setNext links p v) before (ps ++ [p]) v := by
  rw [linked_append] at h ⊢
  obtain ⟨hrest, hcell, -⟩ := h
  refine ⟨hrest.congr fun q hq => setNext_of_ne (ne_of_mem_of_not_mem hq hp) v, ?_, trivial⟩
  simp [DoublyLinked.setNext, hcell]

theorem Linked.pushFront (h : Linked links none ps after) (hp : p ∉ ps) (hnd : ps.Nodup)
    (hcell : links p = some ⟨none, ps.head?.or after⟩) :
    Linked (ps.head?.elim links fun f => DoublyLinked.setPrev links f (some p)) none (p :: ps)
      after := by
  cases ps with
  | nil => exact ⟨hcell, trivial⟩
  | cons f rest =>
    refine ⟨?_, h.setPrev (List.nodup_cons.mp hnd).1 (some p)⟩
    rw [← hcell]
    exact setPrev_of_ne (fun heq => hp (by simp [heq])) _

theorem Linked.pushBack (h : Linked links none ps none) (hp : p ∉ ps) (hnd : ps.Nodup)
    (hcell : links p = some ⟨ps.getLast?, none⟩) :
    Linked (ps.getLast?.elim links fun l => DoublyLinked.setNext links l (some p)) none (ps ++ [p])
      none := by
  rcases List.eq_nil_or_concat ps with rfl | ⟨qs, l, rfl⟩
  · exact ⟨hcell, trivial⟩
  rw [List.concat_eq_append] at *
  have hl : l ∉ qs := fun hm => (List.nodup_append.mp hnd).2.2 l hm l (by simp) rfl
  have hne : p ≠ l := fun heq => hp (by simp [heq])
  rw [List.getLast?_concat] at hcell ⊢
  refine linked_append.mpr ⟨h.setNext hl (some p), ?_, trivial⟩
  rw [Option.elim_some, setNext_of_ne hne, hcell, List.getLast?_concat]
  rfl

theorem Linked.putFront (h : Linked links none ps none) (hp : p ∉ ps) (hnd : ps.Nodup) {f : ℕ}
    (hf : ps.head? = some f) {l : Links} (hcell : links p = some l) :
    Linked (DoublyLinked.setPrev (DoublyLinked.setNext (DoublyLinked.setPrev links p none) p
      (some f)) f (some p)) none (p :: ps) none := by
  have hput : Linked (DoublyLinked.setNext (DoublyLinked.setPrev links p none) p (some f)) none
      ps none := by
    apply h.congr
    intro q hq
    have hne := ne_of_mem_of_not_mem hq hp
    rw [setNext_of_ne hne, setPrev_of_ne hne]
  have hfront := hput.pushFront hp hnd (by
    simp [DoublyLinked.setNext, DoublyLinked.setPrev, hcell, hf])
  rwa [hf] at hfront

theorem Linked.unlink (h : Linked links before (ps ++ q :: p :: qs) after)
    (hnd : (ps ++ q :: p :: qs).Nodup) :
    Linked (DoublyLinked.setNext
      (qs.head?.elim links fun r => DoublyLinked.setPrev links r (some q)) q (qs.head?.or after))
      before (ps ++ q :: qs) after := by
  have hsplit : ps ++ q :: p :: qs = (ps ++ [q]) ++ p :: qs := by simp
  have hsplit' : ps ++ q :: qs = (ps ++ [q]) ++ qs := by simp
  rw [hsplit] at h hnd
  rw [hsplit']
  obtain ⟨hleft, -, hright⟩ := linked_append.mp h
  obtain ⟨hndl, hndr, hdisj⟩ := List.nodup_append.mp hnd
  have hq : q ∉ ps := by
    have := (List.nodup_append.mp hndl).2.2
    exact fun hmem => this q hmem q (by simp) rfl
  -- the links of the cells behind `p`, after the first of them was linked back to `q`
  have hback : Linked (qs.head?.elim links fun r => DoublyLinked.setPrev links r (some q)) (some q)
      qs after := by
    cases qs with
    | nil => trivial
    | cons r rest =>
      exact hright.setPrev (List.nodup_cons.mp (List.nodup_cons.mp hndr).2).1 (some q)
  have hfront : Linked (qs.head?.elim links fun r => DoublyLinked.setPrev links r (some q)) before
      (ps ++ [q]) (some p) := by
    apply hleft.congr
    intro s hs
    cases qs with
    | nil => rfl
    | cons r rest => exact setPrev_of_ne (hdisj s hs r (by simp)) _
  refine linked_append.mpr ⟨hfront.setNext hq _, ?_⟩
  rw [List.getLast?_append, List.getLast?_singleton, Option.some_or, Option.some_or]
  apply hback.congr
  intro s hs
  exact setNext_of_ne (hdisj q (by simp) s (by simp [hs])).symm _

/-- The cells met by following `step` from a pointer on, until it is null. -/
inductive Visits (step : ℕ → Option (Option ℕ)) : Option ℕ → List ℕ → Prop
  | null : Visits step none []
  | cell {p : ℕ} {after : Option ℕ} {ps : List ℕ} : step p = some after → Visits step after ps →
      Visits step (some p) (p :: ps)

lemma Linked.visits_next (h : Linked links before ps none) :
    Visits (fun p => (links p).map Links.next) ps.head? ps := by
  induction ps generalizing before with
  | nil => exact .null
  | cons p ps ih =>
    obtain ⟨hp, hps⟩ := h
    exact .cell (by simp [hp]) (ih hps)

lemma Linked.visits_prev (h : Linked links none ps after) :
    Visits (fun p => (links p).map Links.prev) ps.getLast? ps.reverse := by
  induction ps using List.reverseRecOn generalizing after with
  | nil => exact .null
  | append_singleton ps p ih =>
    obtain ⟨hps, hp, -⟩ := linked_append.mp h
    rw [List.getLast?_concat, List.reverse_concat]
    exact .cell (by simp [hp]) (ih hps)

end Spotlight.DoublyLinked
