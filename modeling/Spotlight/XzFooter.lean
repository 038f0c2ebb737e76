import Spotlight.Bytes
import Spotlight.Outcome
import Spotlight.Lzma

/-! The search for a stream footer in `parse_block_indexes` (`xz_reader.c`). -/
namespace Spotlight.Xz
open Bytes Relation

/-- The variable `position`, with all its values so far and the places where `pread` started. -/
structure Cursor where
  position : ℤ
  positions : List ℤ
  preads : List ℤ

def Cursor.atEnd (n : ℕ) : Cursor := ⟨n, [(n : ℤ)], []⟩

def Cursor.move (c : Cursor) (d : ℤ) : Cursor :=
  { c with position := c.position + d, positions := (c.position + d) :: c.positions }

/-- `pread` of `n` bytes at `position`; a negative offset is an error. -/
def Cursor.pread (file : List UInt8) (c : Cursor) (n : ℕ) : Cursor × List UInt8 :=
  ({ c with preads := c.position :: c.preads },
    if 0 ≤ c.position then slice file c.position.toNat n else [])

/-- The inner `do` loop of the search, with `i` as it is at the top of the body. -/
def skipPadding (buffer : List UInt8) : ℕ → Cursor → ℕ → Cursor × ℕ
  | 0, c, streamPadding => (c.move (-4), streamPadding + 4)
  | i + 1, c, streamPadding =>
    if buffer.getD i 0 = 0 then skipPadding buffer i (c.move (-4)) (streamPadding + 4)
    else (c.move (-4), streamPadding + 4)

/-- The outer loop of the search: `stream_padding`, and the window or the error code. -/
def footerLoop (file : List UInt8) :
    ℕ → Cursor → ℕ → Outcome (Cursor × ℕ × Except LzmaRet (List UInt8))
  | 0, _, _ => .error .fuel
  | n + 1, c, streamPadding =>
    if c.position < lzmaStreamHeaderSize then .ok (c, streamPadding, .error .dataError)
    else
      let (c, buffer) := c.pread file lzmaStreamHeaderSize
      if buffer.length ≠ lzmaStreamHeaderSize then .ok (c, streamPadding, .error .progError)
      else if buffer.getD 2 0 ≠ 0 then .ok (c, streamPadding, .ok buffer)
      else
        let (c, streamPadding) := skipPadding buffer 2 c streamPadding
        footerLoop file n c streamPadding

/-- The search for the footer of the stream that ends at `position`. Every turn of the loop goes
back at least four bytes. -/
def footerSearch (file : List UInt8) (c : Cursor) :
    Outcome (Cursor × ℕ × Except LzmaRet (List UInt8)) :=
  if c.position < 2 * lzmaStreamHeaderSize then .ok (c, 0, .error .dataError)
  else footerLoop file c.position.toNat (c.move (-lzmaStreamHeaderSize)) 0

def byteAt (file : List UInt8) (p : ℤ) : UInt8 := file.getD p.toNat 0

/-- The words that the inner loop skips from a window at `p` on. -/
def skipCount (file : List UInt8) (p : ℤ) : ℕ :=
  if byteAt file (p + 1) = 0 then if byteAt file p = 0 then 3 else 2 else 1

def Skip (file : List UInt8) (p q : ℤ) : Prop :=
  12 ≤ p ∧ byteAt file (p + 2) = 0 ∧ q = p - 4 * skipCount file p

def Stops (file : List UInt8) (p : ℤ) : Prop := 12 ≤ p ∧ byteAt file (p + 2) ≠ 0

variable {file : List UInt8} {p q : ℤ} {c : Cursor}

lemma skipCount_pos (file : List UInt8) (p : ℤ) : 1 ≤ skipCount file p ∧ skipCount file p ≤ 3 := by
  unfold skipCount
  split_ifs <;> simp

lemma skip_rightUnique (file : List UInt8) : Relator.RightUnique (Skip file) := by
  rintro p q q' ⟨-, -, rfl⟩ ⟨-, -, rfl⟩
  rfl

lemma Skip.lt (h : Skip file p q) : q + 4 ≤ p ∧ 0 ≤ q := by
  obtain ⟨hp, -, rfl⟩ := h
  have := skipCount_pos file p
  omega

lemma skips_le (h : ReflTransGen (Skip file) p q) : q ≤ p := by
  induction h with
  | refl => exact le_rfl
  | tail _ hstep ih =>
    have := hstep.lt
    omega

lemma skips_of_end {r : ℤ} (hp : ¬(12 ≤ p ∧ byteAt file (p + 2) = 0))
    (h : ReflTransGen (Skip file) p r) : r = p := by
  rcases ReflTransGen.cases_head h with rfl | ⟨q, hstep, -⟩
  · rfl
  · exact absurd ⟨hstep.1, hstep.2.1⟩ hp

lemma end_unique {r r' : ℤ} (h : ReflTransGen (Skip file) p r)
    (h' : ReflTransGen (Skip file) p r') (hr : ¬(12 ≤ r ∧ byteAt file (r + 2) = 0))
    (hr' : ¬(12 ≤ r' ∧ byteAt file (r' + 2) = 0)) : r = r' := by
  rcases ReflTransGen.total_of_right_unique (skip_rightUnique file) h h' with hrr | hrr
  · exact (skips_of_end hr hrr).symm
  · exact skips_of_end hr' hrr

lemma Stops.not_skip (h : Stops file p) : ¬(12 ≤ p ∧ byteAt file (p + 2) = 0) :=
  fun hs => h.2 hs.2

/-- No position was negative, and every `pread` started inside the file. -/
structure Cursor.Inside (file : List UInt8) (c : Cursor) : Prop where
  position : 0 ≤ c.position
  positions : ∀ p ∈ c.positions, 0 ≤ p
  preads : ∀ p ∈ c.preads, 0 ≤ p ∧ p < file.length

lemma Cursor.Inside.move (h : c.Inside file) {d : ℤ} (hd : 0 ≤ c.position + d) :
    (c.move d).Inside file := by
  refine ⟨hd, ?_, h.preads⟩
  rintro p (_ | ⟨_, hp⟩)
  · exact hd
  · exact h.positions p hp

lemma Cursor.Inside.pread (h : c.Inside file) (hin : c.position < file.length) (n : ℕ) :
    (c.pread file n).1.Inside file ∧ (c.pread file n).1.position = c.position ∧
      (c.pread file n).2 = slice file c.position.toNat n := by
  refine ⟨⟨h.position, h.positions, ?_⟩, rfl, if_pos h.position⟩
  rintro p (_ | ⟨_, hp⟩)
  · exact ⟨h.position, hin⟩
  · exact h.preads p hp

/-- What the inner loop skips depends on the first two bytes of the window. -/
lemma skipPadding_spec (h : c.Inside file) (h12 : 12 ≤ c.position) {buffer : List UInt8}
    (hbuffer : buffer = slice file c.position.toNat 12) (streamPadding : ℕ) : ∃ c',
    skipPadding buffer 2 c streamPadding =
        (c', streamPadding + 4 * skipCount file c.position) ∧
      c'.position = c.position - 4 * skipCount file c.position ∧ c'.Inside file := by
  have hbyte : ∀ i : ℕ, i < 12 → buffer.getD i 0 = byteAt file (c.position + i) := by
    intro i hi
    rw [hbuffer, getD_slice file hi, byteAt]
    congr 1
    omega
  have hone : byteAt file (c.position + 1) = buffer.getD 1 0 := (hbyte 1 (by decide)).symm
  have hzero : byteAt file c.position = buffer.getD 0 0 := by simpa using (hbyte 0 (by decide)).symm
  have hfirst := h.move (d := -4) (by omega)
  have hsecond := hfirst.move (d := -4) (by simp only [Cursor.move]; omega)
  have hthird := hsecond.move (d := -4) (by simp only [Cursor.move]; omega)
  unfold skipCount
  rw [hone, hzero]
  simp only [skipPadding]
  split_ifs
  · exact ⟨_, rfl, by simp only [Cursor.move]; omega, hthird⟩
  · exact ⟨_, rfl, by simp only [Cursor.move]; omega, hsecond⟩
  · exact ⟨_, rfl, by simp only [Cursor.move]; omega, hfirst⟩

lemma footerLoop_spec {fuel : ℕ} (h : c.Inside file) (hfuel : c.position < fuel)
    (hin : c.position + 12 ≤ file.length) (streamPadding : ℕ) : ∃ c' k res,
    footerLoop file fuel c streamPadding = .ok (c', streamPadding + 4 * k, res) ∧
      c'.position + 4 * (k : ℤ) = c.position ∧ c'.Inside file ∧
      ReflTransGen (Skip file) c.position c'.position ∧
      ((c'.position < 12 ∧ res = .error .dataError) ∨
        (Stops file c'.position ∧ res = .ok (slice file c'.position.toNat 12))) := by
  induction fuel generalizing c streamPadding with
  | zero =>
    have := h.position
    omega
  | succ fuel ih =>
    by_cases h12 : c.position < 12
    · exact ⟨c, 0, _, by simp [footerLoop, lzmaStreamHeaderSize, h12], by simp, h, .refl,
        .inl ⟨h12, rfl⟩⟩
    obtain ⟨hread, hpos, hbytes⟩ := h.pread (show c.position < file.length by omega) 12
    have hlen : (slice file c.position.toNat 12).length = 12 := length_slice_of_le (by omega)
    have htwo : (slice file c.position.toNat 12).getD 2 0 = byteAt file (c.position + 2) := by
      rw [getD_slice file (by decide), byteAt]
      congr 1
      omega
    have hunfold : footerLoop file (fuel + 1) c streamPadding =
        if byteAt file (c.position + 2) ≠ 0 then
          .ok ((c.pread file 12).1, streamPadding, .ok (slice file c.position.toNat 12))
        else footerLoop file fuel
          (skipPadding (slice file c.position.toNat 12) 2 (c.pread file 12).1 streamPadding).1
          (skipPadding (slice file c.position.toNat 12) 2 (c.pread file 12).1 streamPadding).2 := by
      rw [footerLoop, if_neg (show ¬c.position < (lzmaStreamHeaderSize : ℤ) from h12)]
      simp only [lzmaStreamHeaderSize, hbytes, hlen, htwo, ne_eq, not_true_eq_false, if_false]
    rw [hunfold]
    by_cases hb : byteAt file (c.position + 2) = 0
    · rw [if_neg (not_not_intro hb)]
      obtain ⟨c₁, hskip, hpos₁, h₁⟩ :=
        skipPadding_spec hread (by rw [hpos]; omega) (by rw [hpos]) streamPadding
      rw [hpos] at hskip hpos₁
      have hcount := skipCount_pos file c.position
      obtain ⟨c', k, res, hloop, hk, h', hsteps, hres⟩ :=
        ih h₁ (by omega) (by omega) (streamPadding + 4 * skipCount file c.position)
      rw [hskip]
      refine ⟨c', skipCount file c.position + k, res, ?_, by push_cast; omega, h', ?_, hres⟩
      · rw [hloop, Nat.mul_add, Nat.add_assoc]
      · exact .head ⟨by omega, hb, hpos₁⟩ hsteps
    · rw [if_pos hb]
      exact ⟨_, 0, _, rfl, by rw [hpos]; simp, hread, by rw [hpos],
        .inr ⟨by rw [hpos]; exact ⟨by omega, hb⟩, by rw [hpos]⟩⟩

/-- The search ends: with a window, or with an error in front of the first one that is met. -/
lemma footerSearch_spec (h : c.Inside file) (hin : c.position ≤ file.length) : ∃ c' k res,
    footerSearch file c = .ok (c', 4 * k, res) ∧ c'.Inside file ∧
      ((res = .error .dataError ∧ (24 ≤ c.position →
          ReflTransGen (Skip file) (c.position - 12) c'.position ∧ c'.position < 12)) ∨
        (24 ≤ c.position ∧ c'.position + 4 * (k : ℤ) = c.position - 12 ∧
          ReflTransGen (Skip file) (c.position - 12) c'.position ∧ Stops file c'.position ∧
          res = .ok (slice file c'.position.toNat 12))) := by
  by_cases h24 : c.position < 24
  · exact ⟨c, 0, _, if_pos h24, h, .inl ⟨rfl, fun hge => absurd h24 (by omega)⟩⟩
  have hmove : (c.move (-lzmaStreamHeaderSize)).position = c.position - 12 := Int.sub_eq_add_neg.symm
  have hmoved : (c.move (-lzmaStreamHeaderSize)).Inside file := h.move (by
    rw [show c.position + -(lzmaStreamHeaderSize : ℤ) = c.position - 12 from rfl]
    omega)
  have hfuel : (c.move (-lzmaStreamHeaderSize)).position < c.position.toNat := by omega
  obtain ⟨c', k, res, hloop, hk, h', hsteps, hres⟩ :=
    footerLoop_spec hmoved hfuel (by omega) 0
  rw [hmove] at hk hsteps
  refine ⟨c', k, res, ?_, h', ?_⟩
  · rw [footerSearch, if_neg (show ¬c.position < 2 * (lzmaStreamHeaderSize : ℤ) from h24), hloop,
      Nat.zero_add]
  · rcases hres with ⟨hlt, hres⟩ | ⟨hstop, hres⟩
    · exact .inl ⟨hres, fun _ => ⟨hsteps, hlt⟩⟩
    · exact .inr ⟨by omega, hk, hsteps, hstop, hres⟩

/-- Behind the window at `p` there are `z` words of padding up to `n`, and its last word is not
all zero. -/
structure FooterAt (file : List UInt8) (n z : ℕ) (p : ℤ) : Prop where
  place : p + 12 + 4 * (z : ℤ) = n
  room : 12 ≤ p
  last : ∃ i : ℤ, 8 ≤ i ∧ i < 12 ∧ byteAt file (p + i) ≠ 0
  padding : ∀ q : ℤ, p + 12 ≤ q → q < n → byteAt file q = 0

/-- What the bytes of the footer at `p` must be for the search to find it behind `z` words of
padding. -/
def Readable (file : List UInt8) (z : ℕ) (p : ℤ) : Prop :=
  byteAt file (p + 2) ≠ 0 ∧
    (z % 3 = 0 ∨
      (z % 3 = 1 ∧ byteAt file (p + 6) = 0 ∧ byteAt file (p + 5) ≠ 0) ∨
      (z % 3 = 2 ∧ byteAt file (p + 10) = 0 ∧
        (byteAt file (p + 9) = 0 ∧ byteAt file (p + 8) ≠ 0 ∨
          byteAt file (p + 9) ≠ 0 ∧ byteAt file (p + 6) = 0 ∧ byteAt file (p + 5) ≠ 0)))

lemma FooterAt.skips {n z : ℕ} (h : FooterAt file n z p) :
    ReflTransGen (Skip file) (n - 12) (p + 4 * (z % 3 : ℕ)) := by
  have hroom := h.room
  have hplace := h.place
  have hrun : ∀ m : ℕ, 3 * m ≤ z →
      ReflTransGen (Skip file) (n - 12) (p + 4 * ((z - 3 * m : ℕ) : ℤ)) := by
    intro m
    induction m with
    | zero =>
      intro _
      rw [show (n : ℤ) - 12 = p + 4 * ((z - 3 * 0 : ℕ) : ℤ) by omega]
    | succ m ih =>
      intro hm
      have hzero : ∀ i : ℤ, 0 ≤ i → i < 12 →
          byteAt file (p + 4 * ((z - 3 * m : ℕ) : ℤ) + i) = 0 := fun i h₀ h₁ =>
        h.padding _ (by omega) (by omega)
      have hfirst := hzero 0 le_rfl (by decide)
      rw [Int.add_zero] at hfirst
      refine (ih (by omega)).tail ⟨by omega, hzero 2 (by decide) (by decide), ?_⟩
      rw [skipCount, if_pos (hzero 1 (by decide) (by decide)), if_pos hfirst]
      omega
  have hmod := hrun (z / 3) (by omega)
  rwa [show z - 3 * (z / 3) = z % 3 by omega] at hmod

lemma skips_iff_step (hp : 12 ≤ p) (hlt : p < q) : ReflTransGen (Skip file) q p ↔
    byteAt file (q + 2) = 0 ∧ ReflTransGen (Skip file) (q - 4 * skipCount file q) p := by
  constructor
  · intro h
    rcases ReflTransGen.cases_head h with rfl | ⟨r, ⟨-, hb, rfl⟩, hrest⟩
    · exact absurd hlt (lt_irrefl _)
    · exact ⟨hb, hrest⟩
  · rintro ⟨hb, hrest⟩
    exact .head ⟨by omega, hb, rfl⟩ hrest

lemma skips_behind (hlt : q < p) : ¬ReflTransGen (Skip file) q p :=
  fun h => absurd (skips_le h) (by omega)

lemma skips_one_iff (hp : 12 ≤ p) : ReflTransGen (Skip file) (p + 4) p ↔
    byteAt file (p + 6) = 0 ∧ byteAt file (p + 5) ≠ 0 := by
  rw [skips_iff_step hp (by omega), show p + 4 + 2 = p + 6 by ring, skipCount,
    show p + 4 + 1 = p + 5 by ring]
  by_cases h₅ : byteAt file (p + 5) = 0
  · have hback : ¬ReflTransGen (Skip file)
        (p + 4 - 4 * ((if byteAt file (p + 4) = 0 then 3 else 2 : ℕ) : ℤ)) p := by
      apply skips_behind
      split_ifs <;> push_cast <;> omega
    rw [if_pos h₅]
    exact iff_of_false (fun h => hback h.2) fun h => h.2 h₅
  · rw [if_neg h₅, show p + 4 - 4 * ((1 : ℕ) : ℤ) = p by push_cast; ring]
    exact and_congr_right fun _ => iff_of_true .refl h₅

lemma skips_two_iff (hp : 12 ≤ p) : ReflTransGen (Skip file) (p + 8) p ↔
    byteAt file (p + 10) = 0 ∧ (byteAt file (p + 9) = 0 ∧ byteAt file (p + 8) ≠ 0 ∨
      byteAt file (p + 9) ≠ 0 ∧ byteAt file (p + 6) = 0 ∧ byteAt file (p + 5) ≠ 0) := by
  rw [skips_iff_step hp (by omega), show p + 8 + 2 = p + 10 by ring, skipCount,
    show p + 8 + 1 = p + 9 by ring]
  apply and_congr_right
  intro _
  by_cases h₉ : byteAt file (p + 9) = 0
  · by_cases h₈ : byteAt file (p + 8) = 0
    · have hback : ¬ReflTransGen (Skip file) (p + 8 - 4 * ((3 : ℕ) : ℤ)) p :=
        skips_behind (by push_cast; omega)
      rw [if_pos h₉, if_pos h₈]
      exact iff_of_false hback (by simp [h₉, h₈])
    · have hthere : p + 8 - 4 * ((2 : ℕ) : ℤ) = p := by push_cast; ring
      rw [if_pos h₉, if_neg h₈, hthere]
      exact iff_of_true .refl (.inl ⟨h₉, h₈⟩)
  · rw [if_neg h₉, show p + 8 - 4 * ((1 : ℕ) : ℤ) = p + 4 by push_cast; ring, skips_one_iff hp]
    simp [h₉]

lemma FooterAt.reached_iff {n z : ℕ} (h : FooterAt file n z p) :
    ReflTransGen (Skip file) (n - 12) p ∧ Stops file p ↔ Readable file z p := by
  have hroom := h.room
  have hskips := h.skips
  have hfrom : Stops file p → (ReflTransGen (Skip file) (n - 12) p ↔
      ReflTransGen (Skip file) (p + 4 * (z % 3 : ℕ)) p) := fun hstop => by
    refine ⟨fun hreach => ?_, hskips.trans⟩
    rcases ReflTransGen.total_of_right_unique (skip_rightUnique file) hskips hreach with hh | hh
    · exact hh
    · rw [skips_of_end hstop.not_skip hh]
  rw [Readable, and_comm]
  have hstops : Stops file p ↔ byteAt file (p + 2) ≠ 0 := and_iff_right hroom
  rw [hstops]
  apply and_congr_right
  intro hb
  rw [hfrom (hstops.mpr hb)]
  have hmod : z % 3 = 0 ∨ z % 3 = 1 ∨ z % 3 = 2 := by omega
  rcases hmod with hz | hz | hz <;> rw [hz]
  · simp [ReflTransGen.refl]
  · simpa using skips_one_iff hroom
  · simpa using skips_two_iff hroom

/-- No window with a third byte that is not zero is met from `p` on. -/
def Lost (file : List UInt8) (p : ℤ) : Prop :=
  ∀ q, ReflTransGen (Skip file) p q → ¬Stops file q

/-- The search from the end of a stream and its padding fails, or it stops at a window whose last
word is not all zero, having counted the bytes behind it, which are all zero. -/
def SkipsPaddingOnly (file : List UInt8) (n : ℕ) : Prop :=
  ∃ c padding res, footerSearch file (.atEnd n) = .ok (c, padding, res) ∧
    ∀ buffer, res = .ok buffer → ∃ z, padding = 4 * z ∧ FooterAt file n z c.position ∧
      buffer = slice file c.position.toNat 12

/-- The search finds the footer in front of `z` words of padding. -/
def FindsFooter (file : List UInt8) (n z : ℕ) (p : ℤ) : Prop :=
  ∃ c, footerSearch file (.atEnd n) = .ok (c, 4 * z, .ok (slice file p.toNat 12)) ∧
    c.position = p

lemma inside_atEnd (file : List UInt8) (n : ℕ) : (Cursor.atEnd n).Inside file := by
  refine ⟨Int.natCast_nonneg n, ?_, by simp [Cursor.atEnd]⟩
  simp [Cursor.atEnd]

lemma findsFooter_iff {n z : ℕ} (hn : n ≤ file.length) (h : FooterAt file n z p) :
    FindsFooter file n z p ↔ Readable file z p := by
  obtain ⟨c, k, res, hsearch, -, hcases⟩ := footerSearch_spec (inside_atEnd file n) (by
    simpa [Cursor.atEnd] using hn)
  have hroom := h.room
  have hplace := h.place
  have hn24 : (24 : ℤ) ≤ (Cursor.atEnd n).position := by
    simp only [Cursor.atEnd]
    omega
  have hpos : (Cursor.atEnd n).position = n := rfl
  rw [hpos] at hcases
  rw [← h.reached_iff]
  constructor
  · rintro ⟨c', hfound, rfl⟩
    rw [hsearch] at hfound
    simp only [Except.ok.injEq, Prod.mk.injEq] at hfound
    obtain ⟨rfl, -, rfl⟩ := hfound
    rcases hcases with ⟨hres, -⟩ | ⟨-, -, hsteps, hstop, -⟩
    · cases hres
    · exact ⟨hsteps, hstop⟩
  · rintro ⟨hreach, hstop⟩
    rcases hcases with ⟨-, hlost⟩ | ⟨-, hk, hsteps, hstop', rfl⟩
    · obtain ⟨hsteps, hlt⟩ := hlost hn24
      have heq := end_unique hsteps hreach (fun hh => by omega) hstop.not_skip
      omega
    · obtain rfl := end_unique hsteps hreach hstop'.not_skip hstop.not_skip
      exact ⟨c, by rw [hsearch]; congr 3; omega, rfl⟩

/-- For every file: the search is right exactly when it meets no window at all, or the footer is
one that it can read; and it finds a footer behind padding exactly when it can read it. -/
theorem footerSearch_right {n : ℕ} (hn : n ≤ file.length) :
    (SkipsPaddingOnly file n ↔
      (∃ z p, FooterAt file n z p ∧ Readable file z p) ∨ Lost file (n - 12)) ∧
      ∀ z p, FooterAt file n z p → (FindsFooter file n z p ↔ Readable file z p) := by
  refine ⟨?_, fun z p h => findsFooter_iff hn h⟩
  have hpos : (Cursor.atEnd n).position = n := rfl
  obtain ⟨c, k, res, hsearch, -, hcases⟩ := footerSearch_spec (inside_atEnd file n) (by
    rw [hpos]
    exact_mod_cast hn)
  rw [hpos] at hcases
  constructor
  · rintro ⟨c', padding, res', hsearch', hright⟩
    rw [hsearch] at hsearch'
    simp only [Except.ok.injEq, Prod.mk.injEq] at hsearch'
    obtain ⟨rfl, rfl, rfl⟩ := hsearch'
    rcases hcases with ⟨-, hlost⟩ | ⟨-, hk, hsteps, hstop, rfl⟩
    · right
      intro q hq hstop
      by_cases h24 : (24 : ℤ) ≤ n
      · obtain ⟨hsteps, hlt⟩ := hlost h24
        have heq := end_unique hsteps hq (fun hh => by omega) hstop.not_skip
        have := hstop.1
        omega
      · have hle := skips_le hq
        have := hstop.1
        omega
    · obtain ⟨z, hz, hfooter, -⟩ := hright _ rfl
      exact .inl ⟨z, c.position, hfooter, hfooter.reached_iff.mp ⟨hsteps, hstop⟩⟩
  · rintro (⟨z, p, hfooter, hread⟩ | hlost)
    · obtain ⟨c', hfound, rfl⟩ := (findsFooter_iff hn hfooter).mpr hread
      refine ⟨c', 4 * z, _, hfound, fun buffer hbuffer => ⟨z, rfl, hfooter, ?_⟩⟩
      exact (Except.ok.inj hbuffer).symm
    · rcases hcases with ⟨rfl, -⟩ | ⟨-, -, hsteps, hstop, -⟩
      · exact ⟨c, 4 * k, _, hsearch, fun buffer hbuffer => nomatch hbuffer⟩
      · exact absurd hstop (hlost _ hsteps)

/-- The stream of an empty file, followed by padding. -/
def emptyStream (padding : ℕ) : List UInt8 :=
  [0xfd, 0x37, 0x7a, 0x58, 0x5a, 0x00, 0x00, 0x04, 0xe6, 0xd6, 0xb4, 0x46,
    0x00, 0x00, 0x00, 0x00, 0x1c, 0xdf, 0x44, 0x21,
    0x1f, 0xb6, 0xf3, 0x7d, 0x01, 0x00, 0x00, 0x00, 0x00, 0x04, 0x59, 0x5a] ++
    List.replicate padding 0

theorem footerSearch_right_emptyStream :
    (SkipsPaddingOnly (emptyStream 12) 44 ↔
      (∃ z p, FooterAt (emptyStream 12) 44 z p ∧ Readable (emptyStream 12) z p) ∨
        Lost (emptyStream 12) (44 - 12)) ∧
      ∀ z p, FooterAt (emptyStream 12) 44 z p →
        (FindsFooter (emptyStream 12) 44 z p ↔ Readable (emptyStream 12) z p) :=
  footerSearch_right (by decide)

/-- With four bytes of padding the footer at 20 is skipped, and a window in the index is taken
for it. -/
theorem footerSearch_right_counterexample :
    FooterAt (emptyStream 4) 36 1 20 ∧ ¬FindsFooter (emptyStream 4) 36 1 20 ∧
      ¬SkipsPaddingOnly (emptyStream 4) 36 ∧
      ∃ c, c.position = 16 ∧ footerSearch (emptyStream 4) (.atEnd 36) =
        .ok (c, 8, .ok (slice (emptyStream 4) 16 12)) := by
  have hrun : ∃ c, c.position = 16 ∧ footerSearch (emptyStream 4) (.atEnd 36) =
      .ok (c, 8, .ok (slice (emptyStream 4) 16 12)) := ⟨_, rfl, rfl⟩
  obtain ⟨c, hpos, hsearch⟩ := hrun
  refine ⟨⟨rfl, by decide, ⟨9, by decide, by decide, by decide⟩, fun q hlo hhi => ?_⟩, ?_, ?_, c,
    hpos, hsearch⟩
  · obtain rfl | rfl | rfl | rfl : q = 32 ∨ q = 33 ∨ q = 34 ∨ q = 35 := by omega
    all_goals rfl
  · rintro ⟨c', hfound, hpos'⟩
    rw [hsearch] at hfound
    simp only [Except.ok.injEq, Prod.mk.injEq] at hfound
    obtain ⟨rfl, -, -⟩ := hfound
    omega
  · rintro ⟨c', padding, res, hfound, hright⟩
    rw [hsearch] at hfound
    simp only [Except.ok.injEq, Prod.mk.injEq] at hfound
    obtain ⟨rfl, rfl, rfl⟩ := hfound
    obtain ⟨z, -, hfooter, -⟩ := hright _ rfl
    have hnext := hfooter.padding 29 (by omega) (by decide)
    exact absurd hnext (by decide)

end Spotlight.Xz
