import Mathlib

/-! Programs that put questions to a server, alone or many of them at once under a lock. -/
namespace Spotlight.Programs
open Relation

/-- A program ends with a value, fails, or asks and goes on with the answer. -/
inductive Prog (ε Q A α : Type)
  | done (a : α)
  | fail (e : ε)
  | ask (q : Q) (k : A → Prog ε Q A α)

variable {ε Q A α β σ : Type}

namespace Prog

def bind (f : α → Prog ε Q A β) : Prog ε Q A α → Prog ε Q A β
  | done a => f a
  | fail e => fail e
  | ask q k => ask q fun a => bind f (k a)

instance : Monad (Prog ε Q A) where
  pure := done
  bind p f := bind f p

def lift : Except ε α → Prog ε Q A α
  | .ok a => done a
  | .error e => fail e

instance : MonadLift (Except ε) (Prog ε Q A) where
  monadLift := lift

def question (q : Q) : Prog ε Q A A := ask q done

/-- What the program does on a server with a state. -/
def run (serve : σ → Q → Except ε (σ × A)) : σ → Prog ε Q A α → Except ε (σ × α)
  | s, done a => .ok (s, a)
  | _, fail e => .error e
  | s, ask q k => do
    let (s, a) ← serve s q
    run serve s (k a)

/-- What the program comes to when the answer to each of its questions is known. -/
def eval (answer : Q → Option A) : Prog ε Q A α → Option (Except ε α)
  | done a => some (.ok a)
  | fail e => some (.error e)
  | ask q k => (answer q).bind fun a => eval answer (k a)

/-- Its questions, up to the first one without a known answer. -/
def asked (answer : Q → Option A) : Prog ε Q A α → List Q
  | done _ => []
  | fail _ => []
  | ask q k => q :: ((answer q).map fun a => asked answer (k a)).getD []

variable {answer : Q → Option A} {serve : σ → Q → Except ε (σ × A)} {s : σ} {I : σ → Prop}

@[simp] lemma pure_eq (a : α) : (pure a : Prog ε Q A α) = done a := rfl

@[simp] lemma done_bind (a : α) (f : α → Prog ε Q A β) : (done a >>= f) = f a := rfl

@[simp] lemma ask_bind (q : Q) (k : A → Prog ε Q A α) (f : α → Prog ε Q A β) :
    (ask q k >>= f) = ask q fun a => k a >>= f := rfl

lemma asked_ask {q : Q} {a : A} (h : answer q = some a) (k : A → Prog ε Q A α) :
    (ask q k).asked answer = q :: (k a).asked answer := by
  rw [asked, h]
  rfl

lemma answer_of_eval {q : Q} {k : A → Prog ε Q A α} {r : Except ε α}
    (h : (ask q k).eval answer = some r) :
    ∃ a, answer q = some a ∧ (k a).eval answer = some r := Option.bind_eq_some_iff.mp h

end Prog

open Prog

/-- As long as the invariant holds the server gives the known answers, and it keeps the
invariant. -/
def Serves (I : σ → Prop) (serve : σ → Q → Except ε (σ × A)) (answer : Q → Option A) : Prop :=
  ∀ s q a, I s → answer q = some a → ∃ s', serve s q = .ok (s', a) ∧ I s'

section
variable {answer : Q → Option A} {serve : σ → Q → Except ε (σ × A)} {s : σ} {I : σ → Prop}

/-- On a server that gives the known answers a program does what it comes to with these. -/
theorem Serves.run (h : Serves I serve answer) (hs : I s) {p : Prog ε Q A α} {a : α}
    (hp : p.eval answer = some (.ok a)) : ∃ s', p.run serve s = .ok (s', a) ∧ I s' := by
  induction p generalizing s with
  | done b =>
    cases hp
    exact ⟨s, rfl, hs⟩
  | fail e => cases hp
  | ask q k ih =>
    obtain ⟨b, hq, hk⟩ := answer_of_eval hp
    obtain ⟨s', hserve, hs'⟩ := h s q b hs hq
    obtain ⟨s'', hrun, hs''⟩ := ih b hs' hk
    exact ⟨s'', by rw [Prog.run, hserve]; exact hrun, hs''⟩

end

/-! Threads take a lock for every question. -/

/-- A thread outside of the lock, or inside of it ahead of its question or behind the answer. -/
inductive Thread (ε Q A α : Type)
  | outside (p : Prog ε Q A α)
  | asking (q : Q) (k : A → Prog ε Q A α)
  | leaving (a : A) (k : A → Prog ε Q A α)

def Thread.program : Thread ε Q A α → Prog ε Q A α
  | .outside p => p
  | .asking q k => .ask q k
  | .leaving a k => k a

def Thread.Inside : Thread ε Q A α → Prop
  | .outside _ => False
  | _ => True

/-- The steps that a thread has yet to take: three for each question. -/
def Thread.steps (answer : Q → Option A) : Thread ε Q A α → ℕ
  | .outside p => 3 * (p.asked answer).length
  | .asking q k => 3 * ((Prog.ask q k).asked answer).length - 1
  | .leaving a k => 3 * ((k a).asked answer).length + 1

/-- The server, the thread that has the lock, and the threads. -/
structure Locked (σ ι ε Q A α : Type) where
  server : σ
  owner : Option ι
  threads : ι → Thread ε Q A α

variable {ι : Type}

/-- A step of one thread: it takes the lock when nobody has it, asks, or gives the lock back. -/
inductive Step [DecidableEq ι] (serve : σ → Q → Except ε (σ × A)) (s : Locked σ ι ε Q A α) :
    Locked σ ι ε Q A α → Prop
  | lock (i : ι) {q : Q} {k : A → Prog ε Q A α} (hi : s.threads i = .outside (.ask q k))
      (hfree : s.owner = none) :
      Step serve s ⟨s.server, some i, Function.update s.threads i (.asking q k)⟩
  | serve (i : ι) {q : Q} {k : A → Prog ε Q A α} (hi : s.threads i = .asking q k)
      {server : σ} {a : A} (hserve : serve s.server q = .ok (server, a)) :
      Step serve s ⟨server, s.owner, Function.update s.threads i (.leaving a k)⟩
  | unlock (i : ι) {a : A} {k : A → Prog ε Q A α} (hi : s.threads i = .leaving a k) :
      Step serve s ⟨s.server, none, Function.update s.threads i (.outside (k a))⟩

/-- A number of steps. -/
inductive Steps [DecidableEq ι] (serve : σ → Q → Except ε (σ × A)) (s : Locked σ ι ε Q A α) :
    ℕ → Locked σ ι ε Q A α → Prop
  | refl : Steps serve s 0 s
  | tail {n : ℕ} {s' s'' : Locked σ ι ε Q A α} (h : Steps serve s n s')
      (hstep : Step serve s' s'') : Steps serve s (n + 1) s''

def Locked.start (server : σ) (programs : ι → Prog ε Q A α) : Locked σ ι ε Q A α :=
  ⟨server, none, fun i => .outside (programs i)⟩

/-- The lock is with the one thread inside, if any, and every thread is on its way to its value. -/
structure Orderly (I : σ → Prop) (answer : Q → Option A) (values : ι → α)
    (s : Locked σ ι ε Q A α) : Prop where
  server : I s.server
  owner : ∀ i, (s.threads i).Inside ↔ s.owner = some i
  program : ∀ i, (s.threads i).program.eval answer = some (.ok (values i))

section
variable {answer : Q → Option A} {serve : σ → Q → Except ε (σ × A)} {I : σ → Prop}
  {values : ι → α} {s s' : Locked σ ι ε Q A α} {n : ℕ}

lemma Orderly.value (h : Orderly I answer values s) {i : ι} {a : α}
    (hi : s.threads i = .outside (.done a)) : a = values i := by
  have hprogram := h.program i
  rw [hi] at hprogram
  exact Except.ok.inj (Option.some.inj hprogram)

variable [DecidableEq ι]

lemma Orderly.update (h : Orderly I answer values s) {server : σ} (hserver : I server) (i : ι)
    {t : Thread ε Q A α} {owner : Option ι} (howner : ∀ j, owner = some j ↔ j = i ∧ t.Inside)
    (hi : s.owner = none ∨ s.owner = some i)
    (ht : t.program.eval answer = some (.ok (values i))) :
    Orderly I answer values ⟨server, owner, Function.update s.threads i t⟩ := by
  refine ⟨hserver, fun j => ?_, fun j => ?_⟩
  · by_cases hj : j = i
    · simp [howner, hj]
    · have hout := h.owner j
      rcases hi with hi | hi <;> simp [howner, hj, hout, hi, Ne.symm hj]
  · by_cases hj : j = i
    · simpa [hj] using ht
    · simpa [hj] using h.program j

theorem Orderly.step (hserves : Serves I serve answer) (h : Orderly I answer values s)
    (hstep : Step serve s s') : Orderly I answer values s' := by
  cases hstep with
  | lock i hi hfree =>
    refine h.update h.server i (by simp [Thread.Inside, eq_comm]) (.inl hfree) ?_
    simpa [hi, Thread.program] using h.program i
  | serve i hi hserve =>
    have howner : s.owner = some i := (h.owner i).mp (by simp [hi, Thread.Inside])
    have hprogram := h.program i
    rw [hi] at hprogram
    obtain ⟨a, hq, hk⟩ := answer_of_eval hprogram
    obtain ⟨server, hserve', hserver⟩ := hserves s.server _ a h.server hq
    rw [hserve] at hserve'
    cases hserve'
    exact h.update hserver i (by simp [howner, Thread.Inside, eq_comm]) (.inr howner) hk
  | unlock i hi =>
    have howner : s.owner = some i := (h.owner i).mp (by simp [hi, Thread.Inside])
    refine h.update h.server i (by simp [Thread.Inside]) (.inr howner) ?_
    simpa [hi, Thread.program] using h.program i

theorem Orderly.progress (hserves : Serves I serve answer) (h : Orderly I answer values s) :
    (∃ s', Step serve s s') ∨ ∀ i, s.threads i = .outside (.done (values i)) := by
  cases howner : s.owner with
  | some i =>
    have hinside := (h.owner i).mpr howner
    have hprogram := h.program i
    cases hi : s.threads i with
    | outside p => simp [hi, Thread.Inside] at hinside
    | asking q k =>
      rw [hi] at hprogram
      obtain ⟨a, hq, -⟩ := answer_of_eval hprogram
      obtain ⟨server, hserve, -⟩ := hserves s.server q a h.server hq
      exact .inl ⟨_, .serve i hi hserve⟩
    | leaving a k => exact .inl ⟨_, .unlock i hi⟩
  | none =>
    by_cases hall : ∀ i, s.threads i = .outside (.done (values i))
    · exact .inr hall
    obtain ⟨i, hi⟩ := not_forall.mp hall
    have hprogram := h.program i
    have hinside := h.owner i
    cases hthread : s.threads i with
    | asking q k => simp [hthread, howner, Thread.Inside] at hinside
    | leaving a k => simp [hthread, howner, Thread.Inside] at hinside
    | outside p =>
      rw [hthread] at hprogram
      cases p with
      | done a => exact absurd (h.value hthread ▸ hthread) hi
      | fail e => cases hprogram
      | ask q k => exact .inl ⟨_, .lock i hthread howner⟩

variable [Fintype ι]

def Locked.steps (answer : Q → Option A) (s : Locked σ ι ε Q A α) : ℕ :=
  ∑ i, (s.threads i).steps answer

lemma steps_update (i : ι) {t : Thread ε Q A α} {server : σ} {owner : Option ι}
    (h : t.steps answer + 1 = (s.threads i).steps answer) :
    (⟨server, owner, Function.update s.threads i t⟩ : Locked σ ι ε Q A α).steps answer + 1 =
      s.steps answer := by
  dsimp only [Locked.steps]
  have hi : i ∈ Finset.univ := Finset.mem_univ i
  rw [← Finset.add_sum_erase _ _ hi, ← Finset.add_sum_erase _ _ hi, ← h, Function.update_self]
  have hrest : ∑ j ∈ Finset.univ.erase i, (Function.update s.threads i t j).steps answer =
      ∑ j ∈ Finset.univ.erase i, (s.threads j).steps answer := by
    refine Finset.sum_congr rfl fun j hj => ?_
    rw [Function.update_of_ne (Finset.ne_of_mem_erase hj)]
  simp only [hrest]
  omega

theorem Orderly.steps (hserves : Serves I serve answer) (h : Orderly I answer values s)
    (hstep : Step serve s s') : s'.steps answer + 1 = s.steps answer := by
  cases hstep with
  | @lock i q k hi hfree =>
    refine steps_update i ?_
    have hprogram := h.program i
    rw [hi] at hprogram ⊢
    obtain ⟨a, hq, -⟩ := answer_of_eval hprogram
    simp only [Thread.steps, asked_ask hq, List.length_cons]
    omega
  | @serve i q k hi server b hserve =>
    refine steps_update i ?_
    have hprogram := h.program i
    rw [hi] at hprogram ⊢
    obtain ⟨a, hq, -⟩ := answer_of_eval hprogram
    obtain ⟨server', hserve', -⟩ := hserves s.server q a h.server hq
    rw [hserve] at hserve'
    cases hserve'
    simp only [Thread.steps, asked_ask hq, List.length_cons]
    omega
  | unlock i hi =>
    refine steps_update i ?_
    rw [hi]
    rfl

theorem Orderly.run (hserves : Serves I serve answer) (h : Orderly I answer values s)
    (hsteps : Steps serve s n s') :
    Orderly I answer values s' ∧ s'.steps answer + n = s.steps answer := by
  induction hsteps with
  | refl => exact ⟨h, rfl⟩
  | tail _ hstep ih =>
    obtain ⟨h', hleft⟩ := ih
    have hone := h'.steps hserves hstep
    exact ⟨h'.step hserves hstep, by omega⟩

theorem Orderly.done (hserves : Serves I serve answer) (h : Orderly I answer values s)
    (hleft : s.steps answer = 0) (i : ι) : s.threads i = .outside (.done (values i)) := by
  rcases h.progress hserves with ⟨s', hstep⟩ | hall
  · have hone := h.steps hserves hstep
    omega
  · exact hall i

end
end Spotlight.Programs
