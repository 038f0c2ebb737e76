import Spotlight.GzipIndex

/-! Building the index of a gzip file: from chunk to chunk, from where an earlier request
stopped, up to the byte asked for. -/
namespace Spotlight.Gzip
open Bytes Zlib

variable {z : Library} {m : Member} {σ : Type}

/-- A state between two chunks of input. -/
structure IndexedAt (m : Member) (s : IndexState σ) (p : Pos) : Prop where
  raw : s.rawByteCounter = p.raw
  file : s.reader.gzipFile = m.file
  length : s.context.length = windowSize
  indexed : IndexedTo m s.reader.list p.next
  ahead : ∀ b ∈ m.bounds.drop p.next, p.raw ≤ b.raw

/-- The list is that of `s₀` with entries recorded since, up to address `last` of the file. -/
def Added (m : Member) (s₀ : IndexState σ) (exact : Prop) (last : ℕ)
    (list : List GzipAccessPointEntry) : Prop :=
  ∃ new, list = s₀.reader.list ++ new ∧ ∀ entry ∈ new, entry.compressedByteAddress ≤ last ∧
    Recorded m s₀ exact entry.rawByteAddress entry.context

/-- The window behind a chunk: what the chunk has put out stands in it from the front on, round and
round. -/
def Wound (content : List UInt8) (s s' : IndexState σ) : Prop :=
  ∀ j < windowSize, s'.context.getD j 0 =
    if j < s'.rawByteCounter - s.rawByteCounter then
      content.getD (s.rawByteCounter +
        Circular.lastAt windowSize (s'.rawByteCounter - s.rawByteCounter) j) 0
    else s.context.getD j 0

section
variable {h : Decompresses z m} {s : IndexState z.State} {exact : Prop} {input : List UInt8}
  {p : Pos}

theorem LoopInv.wound {s₀ : IndexState z.State} {availOut : ℕ}
    (hinv : LoopInv h s₀ s exact input availOut p) (hlen : s₀.context.length = windowSize)
    (he : exact) : Wound m.content s₀ s := by
  intro j hj
  obtain ⟨out, hraw, hwindow, hcont⟩ := hinv.window
  have hplace : (windowSize - availOut) % windowSize = out.length % windowSize := by
    have hmod := hinv.place
    rw [hraw] at hmod
    exact Nat.ModEq.add_left_cancel' s₀.rawByteCounter hmod
  have hn : s.rawByteCounter - s₀.rawByteCounter = out.length := by omega
  have hbyte := Circular.getElem?_of_history (hinv.length ▸ hj) (by rw [hinv.length]; omega)
    (hinv.length.symm ▸ hplace) (hlen.trans hinv.length.symm) hwindow
  rw [List.getD_eq_getElem?_getD, hbyte, hn, hinv.length]
  split_ifs with hlt
  · rw [← getD_slice m.content (Circular.lastAt_lt windowSize hlt), List.getD_eq_getElem?_getD]
    exact congrArg (fun bytes : List UInt8 => (bytes[_]?).getD 0) (hcont he)
  · rw [List.getD_eq_getElem?_getD]

theorem Stage.ahead (hs : Stage h s input exact p) : ∀ b ∈ m.bounds.drop p.next, p.raw ≤ b.raw := by
  intro b hb
  obtain ⟨i, hi⟩ := List.mem_iff_getElem?.mp hb
  rw [List.getElem?_drop] at hi
  obtain ⟨hlt, rfl⟩ := List.getElem?_eq_some_iff.mp hi
  cases hs with
  | running _ within _ _ _ =>
    have hnext : p.next < m.bounds.length := by omega
    have hle := (within.ahead _ (List.getElem?_eq_getElem hnext)).1
    rcases Nat.eq_zero_or_pos i with rfl | hpos
    · exact hle
    · exact hle.trans (List.pairwise_iff_getElem.mp m.sorted p.next (p.next + i) hnext hlt
        (by omega)).1
  | finished _ next _ => omega

theorem Stage.at_end (hs : Stage h s [] exact p) (hpos : m.file.length ≤ s.reader.pos) :
    p.next = m.bounds.length := by
  cases hs with
  | running _ within _ _ pos =>
    rw [List.length_nil, Nat.add_zero] at pos
    by_contra hne
    have hlt : p.next < m.bounds.length := lt_of_le_of_ne within.next_le hne
    obtain ⟨-, hle⟩ := within.ahead _ (List.getElem?_eq_getElem hlt)
    have hlast := (bound_le_last (List.getElem_mem hlt)).2
    omega
  | finished _ next _ => exact next

/-- The state in which the loop over the next chunk begins. -/
def IndexState.fill (s : IndexState σ) (input : List UInt8) : IndexState σ :=
  { s with reader := { s.reader with pos := s.reader.pos + input.length } }

theorem Recorded.of_fill {s : IndexState σ} {raw : ℕ} {window : List UInt8}
    (hr : Recorded m (s.fill input) exact raw window) : Recorded m s exact raw window := ⟨hr.out⟩

theorem loopInv_fill (hs : Stage h s [] exact p) (hi : IndexedAt m s p) {n : ℕ}
    (hin : input = slice s.reader.gzipFile s.reader.pos n) :
    LoopInv h (s.fill input) (s.fill input) exact input 0 p := by
  refine ⟨?_, hi.raw, hi.file, rfl, hi.length, Nat.zero_le _, ⟨[], rfl, ?_, ?_⟩,
    Nat.add_mod_right _ _, ⟨[], (List.append_nil _).symm, by simp⟩⟩
  · cases hs with
    | running at_pos within comp _ pos =>
      rw [List.length_nil, Nat.add_zero] at pos
      refine .running at_pos within comp ?_ (by rw [pos]; rfl)
      rw [hin, hi.file, ← pos]
      exact List.take_prefix _ _
    | finished done next raw => exact .finished done next raw
  · change Circular.unwrap s.context (windowSize - 0) = (s.context ++ []).drop 0
    rw [Nat.sub_zero, ← hi.length, Circular.unwrap_length, List.append_nil, List.drop_zero]
  · intro _
    rw [Continues, List.length_nil, slice_zero]

/-- A chunk keeps the index that of the boundaries passed; it ends far enough, between two
chunks, or with the file used up. -/
theorem indexNextChunk_ok (hs : Stage h s [] exact p) (hi : IndexedAt m s p) (max : ℤ)
    {fuel : ℕ} (hf : remaining m p < fuel) :
    ∃ ret s', indexNextChunk z max fuel s = .ok (ret, s') ∧
      Added m s exact (s.reader.pos + chunk) s'.reader.list ∧
      (exact → Wound m.content s s') ∧ ∃ p', IndexedAt m s' p' ∧
      (max < s'.rawByteCounter + span ∨
        ret = .ok ∧ Stage h s' [] exact p' ∧ s.reader.pos < s'.reader.pos ∧
          s.reader.pos < m.file.length ∨
        ret = .dataError ∧ s' = s ∧ m.file.length ≤ s.reader.pos) := by
  obtain ⟨input, hin⟩ : ∃ input, input = slice s.reader.gzipFile s.reader.pos chunk := ⟨_, rfl⟩
  have hlen : input.length = min chunk (m.file.length - s.reader.pos) := by
    rw [hin, length_slice, hi.file]
  have hrun : indexNextChunk z max fuel s = if input = [] then .ok (.dataError, s.fill input)
      else indexNextChunkLoop z max fuel (s.fill input) input 0 := by
    rw [hin]
    rfl
  have hchunk : 0 < chunk := Nat.succ_pos 16383
  rw [hrun]
  by_cases hempty : input = []
  · rw [if_pos hempty]
    subst hempty
    refine ⟨_, s, rfl, ⟨[], (List.append_nil _).symm, by simp⟩, fun _ j _ => ?_, p, hi,
      Or.inr (Or.inr ⟨rfl, rfl, ?_⟩)⟩
    · rw [if_neg (by omega)]
    rw [List.length_nil] at hlen
    omega
  · rw [if_neg hempty]
    have hpos : 0 < input.length := List.length_pos_iff.mpr hempty
    have hinv := loopInv_fill hs hi hin
    obtain ⟨s', hloop, input', availOut', p', hinv', hlist', hend⟩ :=
      indexNextChunkLoop_ok max hinv hi.indexed hempty hf
    have hpos' : s'.reader.pos = s.reader.pos + input.length := hinv'.pos
    refine ⟨_, s', hloop, ?_, hinv'.wound hi.length, p', ⟨hinv'.raw, hinv'.file, hinv'.length, hlist',
      hinv'.stage.ahead⟩, ?_⟩
    · obtain ⟨new, hnew, hentries⟩ := hinv'.entries
      refine ⟨new, hnew, fun entry he => ⟨?_, (hentries entry he).2.of_fill⟩⟩
      have := (hentries entry he).1
      omega
    · rcases hend with hmax | hstage
      · exact Or.inl hmax
      · exact Or.inr (Or.inl ⟨rfl, hstage, by omega, by omega⟩)

/-- The states before each chunk that the loop of `build_index` takes. -/
def buildChunks (z : Library) (maxByteAddress : ℤ) :
    ℕ → IndexState z.State → List (IndexState z.State)
  | 0, _ => []
  | fuel + 1, s => s :: match indexNextChunk z maxByteAddress fuel s with
    | .ok (.ok, s') =>
      if maxByteAddress < s'.rawByteCounter + span then []
      else buildChunks z maxByteAddress fuel s'
    | _ => []

/-- What every chunk preserves, the loop of `build_index` preserves. It ends for enough fuel,
either far enough or behind the last boundary. -/
theorem buildIndexLoop_ok (max : ℤ) {P : List GzipAccessPointEntry → Prop} {fuel : ℕ}
    (hs : Stage h s [] exact p) (hi : IndexedAt m s p)
    (hf : m.file.length - s.reader.pos + m.bounds.length + m.content.length + 1 < fuel)
    (hP : ∀ c ∈ buildChunks z max fuel s, ∀ q list k, IndexedAt m c q → IndexedTo m list k →
      Added m c exact (c.reader.pos + chunk) list → P c.reader.list → P list)
    (h₀ : P s.reader.list) :
    ∃ ret s' p', buildIndexLoop z max fuel s = .ok (ret, s') ∧ IndexedAt m s' p' ∧
      (max < s'.rawByteCounter + span ∨ p'.next = m.bounds.length) ∧ P s'.reader.list := by
  induction fuel generalizing s p with
  | zero => omega
  | succ fuel ih =>
    have hrem : remaining m p < fuel := by
      unfold remaining
      omega
    obtain ⟨ret, s', hchunk, hadded, -, p', hi', hend⟩ := indexNextChunk_ok hs hi max hrem
    have hs' : P s'.reader.list :=
      hP s List.mem_cons_self p _ _ hi hi'.indexed hadded h₀
    rw [buildIndexLoop, hchunk, Outcome.ok_bind]
    dsimp only
    by_cases hmax : max < s'.rawByteCounter + span
    · rw [if_pos hmax]
      exact ⟨ret, s', p', rfl, hi', Or.inl hmax, hs'⟩
    rw [if_neg hmax]
    rcases hend.resolve_left hmax with ⟨rfl, hstage, hpos, hless⟩ | ⟨rfl, rfl, hpos⟩
    · rw [if_pos rfl]
      refine ih hstage hi' (by omega) (fun c hc => hP c ?_) hs'
      refine List.mem_cons_of_mem _ ?_
      simp only [hchunk, if_neg hmax]
      exact hc
    · rw [if_neg (by simp)]
      exact ⟨_, s', p, rfl, hi, Or.inr (hs.at_end hpos), h₀⟩

/-- What every request leaves of a reader: the list holds the access points up to its last one,
each with a window of full length. -/
structure ReaderInv (m : Member) (reader : GzipReader) : Prop where
  file : reader.gzipFile = m.file
  indexed : Indexed m reader.list
  contexts : ∀ entry ∈ reader.list, entry.context.length = windowSize

theorem resumeAt_ok (h : Decompresses z m) {reader : GzipReader} (hfile : reader.gzipFile = m.file)
    {entry : GzipAccessPointEntry} {i : ℕ} (hb : m.bounds[i]? = some entry.point)
    (hi : i + 1 < m.bounds.length) (hlen : entry.context.length = windowSize) :
    ∃ st, resumeAt z reader entry =
        (some st, { reader with pos := entry.compressedByteAddress }) ∧
      h.At st ⟨entry.compressedByteAddress, entry.rawByteAddress, i + 1⟩
        (Precedes m.content entry.rawByteAddress entry.context) ∧ h.Raw st := by
  have hmem := List.mem_of_getElem? hb
  have hpos : 0 < entry.compressedByteAddress := m.comp_pos _ hmem
  have hle : entry.compressedByteAddress + 8 ≤ m.file.length := (bound_le_last hmem).2
  obtain ⟨byte, hbyte⟩ : ∃ byte, m.file[entry.compressedByteAddress - 1]? = some byte :=
    ⟨_, List.getElem?_eq_getElem (by omega)⟩
  have hat := h.resume i entry.point entry.context byte hb hi hlen hbyte
  refine ⟨_, ?_, hat, h.raw_resume _ _ _⟩
  rw [resumeAt, hfile]
  by_cases hbits : entry.bits = 0
  · simp only [hbits, ne_eq, not_true_eq_false, if_false, Library.primed,
      GzipAccessPointEntry.point, if_true]
  · simp only [hbits, ne_eq, not_false_eq_true, if_true, hbyte, Library.primed,
      GzipAccessPointEntry.point, if_false]

theorem buildStart_ok (h : Decompresses z m) {reader : GzipReader} (hr : ReaderInv m reader)
    (hstart : reader.list ≠ [] ∨ reader.pos = 0) {stack : List UInt8}
    (hstack : stack.length = windowSize) :
    ∃ s reader' p exact, buildStart z reader stack = (some s, reader') ∧
      Stage h s [] exact p ∧ IndexedAt m s p ∧ s.reader.list = reader.list ∧
      ((∀ entry ∈ reader.list, Precedes m.content entry.rawByteAddress entry.context) →
        exact) := by
  cases hlast : reader.list.getLast? with
  | none =>
    have hnil : reader.list = [] := List.getLast?_eq_none_iff.mp hlast
    have hpos : reader.pos = 0 := hstart.resolve_left (not_not_intro hnil)
    have hwithin : Within m ⟨0, 0, 0⟩ := by
      refine ⟨Nat.zero_le _, fun _ _ => ⟨Nat.zero_le _, Nat.zero_le _⟩, fun heq => ?_⟩
      have htwo := m.two_le
      simp only at heq
      omega
    refine ⟨⟨reader, z.inflateInit2 gzipWindowBits, stack, 0, 0⟩, reader, ⟨0, 0, 0⟩, True, ?_,
      .running h.start hwithin rfl (List.nil_prefix) hpos.symm,
      ⟨rfl, hr.file, hstack, ⟨?_, hr.indexed⟩, fun _ _ => Nat.zero_le _⟩, rfl, fun _ => trivial⟩
    · rw [buildStart, hlast]
    · rw [hnil]
      rfl
  | some entry =>
    have hmem := List.mem_of_getLast? hlast
    obtain ⟨i, hi, hb, hpoints⟩ := hr.indexed entry hlast
    obtain ⟨st, hresume, hat, -⟩ := resumeAt_ok h hr.file hb hi (hr.contexts entry hmem)
    have hstage : Stage h (⟨{ reader with pos := entry.compressedByteAddress }, st, stack,
        entry.rawByteAddress, entry.compressedByteAddress⟩ : IndexState z.State) []
        (Precedes m.content entry.rawByteAddress entry.context)
        ⟨entry.compressedByteAddress, entry.rawByteAddress, i + 1⟩ :=
      .running hat (within_next hb) rfl List.nil_prefix rfl
    refine ⟨_, { reader with pos := entry.compressedByteAddress }, _, _, ?_, hstage,
      ⟨rfl, hr.file, hstack, ⟨hpoints, hr.indexed⟩, hstage.ahead⟩, rfl,
      fun hall => hall entry hmem⟩
    rw [buildStart, hlast]
    simp only [hresume, Option.map_some]

/-- The states before each chunk that a request takes. -/
def requestChunks (z : Library) (fuel : ℕ) (reader : GzipReader) (stack : List UInt8)
    (maxByteAddress : ℤ) : List (IndexState z.State) :=
  if ∃ last ∈ reader.list.getLast?, (last.rawByteAddress : ℤ) + span > maxByteAddress then []
  else
    match buildStart z reader stack with
    | (some s, _) => buildChunks z maxByteAddress fuel s
    | (none, _) => []

/-- Enough for every loop over the member. -/
def enoughFuel (m : Member) : ℕ := m.file.length + m.bounds.length + m.content.length + 1

/-- Every access point at least `span` bytes before `max` is in the list, and every one at all
when `max` is that far behind the content. -/
structure Served (m : Member) (list : List GzipAccessPointEntry) (max : ℤ) : Prop where
  near : ∀ b ∈ canonicalPoints m, (b.raw : ℤ) + span ≤ max →
    b ∈ list.map GzipAccessPointEntry.point
  all : m.content.length + span ≤ max → list.map GzipAccessPointEntry.point = canonicalPoints m

theorem served_of_lt {list : List GzipAccessPointEntry} {k raw : ℕ} (hi : IndexedTo m list k)
    (hahead : ∀ b ∈ m.bounds.drop k, raw ≤ b.raw) (hraw : raw ≤ m.content.length) {max : ℤ}
    (hmax : max < raw + span) : Served m list max := by
  constructor
  · intro b hb hle
    obtain ⟨rest, hsplit, hrest⟩ := canonicalPoints_split m k
    rw [hsplit] at hb
    rw [hi.points]
    refine (List.mem_append.mp hb).resolve_right fun hmem => ?_
    have := hahead b (hrest b hmem)
    omega
  · intro hfar
    omega

theorem served_of_end {list : List GzipAccessPointEntry} {k : ℕ} (hi : IndexedTo m list k)
    (hk : m.bounds.length ≤ k) (max : ℤ) : Served m list max := by
  have hall : list.map GzipAccessPointEntry.point = canonicalPoints m := by
    rw [hi.points, pointsUpTo_last (by omega)]
  exact ⟨fun b hb _ => hall ▸ hb, fun _ => hall⟩

theorem served_last {list : List GzipAccessPointEntry} (hi : Indexed m list)
    {entry : GzipAccessPointEntry} (hlast : list.getLast? = some entry) {max : ℤ}
    (hmax : max < entry.rawByteAddress + span) : Served m list max := by
  obtain ⟨i, hlt, hb, hpoints⟩ := hi entry hlast
  have hahead : ∀ b ∈ m.bounds.drop (i + 1), entry.rawByteAddress ≤ b.raw := by
    intro b hmem
    obtain ⟨j, hj⟩ := List.mem_iff_getElem?.mp hmem
    rw [List.getElem?_drop] at hj
    obtain ⟨hilt, hieq⟩ := List.getElem?_eq_some_iff.mp hb
    obtain ⟨hjlt, rfl⟩ := List.getElem?_eq_some_iff.mp hj
    have hle := List.pairwise_iff_getElem.mp m.sorted i (i + 1 + j) hilt hjlt (by omega)
    rw [hieq] at hle
    exact hle.1
  exact served_of_lt ⟨hpoints, hi⟩ hahead (bound_le_last (List.mem_of_getElem? hb)).1 hmax

theorem buildIndex_ok (h : Decompresses z m) {reader : GzipReader} (hr : ReaderInv m reader)
    (hstart : reader.list ≠ [] ∨ reader.pos = 0) {stack : List UInt8}
    (hstack : stack.length = windowSize) (max : ℤ) {fuel : ℕ} (hf : enoughFuel m < fuel)
    {P : List GzipAccessPointEntry → Prop}
    (hP : ∀ s reader', buildStart z reader stack = (some s, reader') → ∀ exact : Prop,
      ((∀ entry ∈ reader.list, Precedes m.content entry.rawByteAddress entry.context) → exact) →
      ∀ c ∈ buildChunks z max fuel s, ∀ q list k, IndexedAt m c q → IndexedTo m list k →
        Added m c exact (c.reader.pos + chunk) list → P c.reader.list → P list)
    (h₀ : P reader.list) :
    ∃ ret reader', buildIndex z fuel reader stack max = .ok (ret, reader') ∧
      ReaderInv m reader' ∧ P reader'.list ∧ Served m reader'.list max := by
  obtain ⟨s, reader', p, exact, hs, hstage, hi, hlist, hexact⟩ :=
    buildStart_ok h hr hstart hstack
  have hfuel : m.file.length - s.reader.pos + m.bounds.length + m.content.length + 1 < fuel := by
    unfold enoughFuel at hf
    omega
  have hboth := buildIndexLoop_ok max (P := fun list => P list ∧
    ∀ entry ∈ list, entry.context.length = windowSize) hstage hi hfuel
    (fun c hc q list k hq hk hadded hc₀ => ⟨hP s reader' hs exact hexact c hc q list k hq hk hadded
      hc₀.1, ?_⟩) (by rw [hlist]; exact ⟨h₀, hr.contexts⟩)
  · obtain ⟨ret, s', p', hloop, hi', hend, hP', hcontexts⟩ := hboth
    refine ⟨ret, s'.reader, ?_, ⟨hi'.file, hi'.indexed.indexed, hcontexts⟩, hP', ?_⟩
    · rw [buildIndex, hs]
      simp only [hloop, Outcome.ok_bind, Outcome.pure_eq]
    · by_cases hnext : p'.next < m.bounds.length
      · have hmem : m.bounds[p'.next] ∈ m.bounds.drop p'.next := by
          rw [List.drop_eq_getElem_cons hnext]
          exact List.mem_cons_self
        have hle := (hi'.ahead _ hmem).trans (bound_le_last (List.getElem_mem hnext)).1
        rw [hi'.raw] at hend
        exact served_of_lt hi'.indexed hi'.ahead hle
          (hend.resolve_right hnext.ne)
      · exact served_of_end hi'.indexed (by omega) max
  · obtain ⟨new, rfl, hnew⟩ := hadded
    intro entry he
    rcases List.mem_append.mp he with he | he
    · exact hc₀.2 entry he
    · obtain ⟨out, -, hctx, -⟩ := (hnew entry he).2
      rw [hctx, List.length_drop, List.length_append, hq.length]
      omega

/-- A request ends for enough fuel, preserves what its chunks preserve, and brings the list as
far as was asked. -/
theorem checkAndBuildIndex_ok (h : Decompresses z m) {reader : GzipReader}
    (hr : ReaderInv m reader) (hstart : reader.list ≠ [] ∨ reader.pos = 0) {stack : List UInt8}
    (hstack : stack.length = windowSize) (max : ℤ) {fuel : ℕ} (hf : enoughFuel m < fuel)
    {P : List GzipAccessPointEntry → Prop}
    (hP : ∀ exact : Prop,
      ((∀ entry ∈ reader.list, Precedes m.content entry.rawByteAddress entry.context) → exact) →
      ∀ c ∈ requestChunks z fuel reader stack max, ∀ q list k, IndexedAt m c q →
        IndexedTo m list k → Added m c exact (c.reader.pos + chunk) list →
        P c.reader.list → P list)
    (h₀ : P reader.list) :
    ∃ ret reader', checkAndBuildIndex z fuel reader stack max = .ok (ret, reader') ∧
      ReaderInv m reader' ∧ P reader'.list ∧ Served m reader'.list max := by
  by_cases hserved : ∃ last ∈ reader.list.getLast?, (last.rawByteAddress : ℤ) + span > max
  · obtain ⟨last, hlast, hmax⟩ := hserved
    rw [Option.mem_def] at hlast
    refine ⟨.ok, reader, ?_, hr, h₀, served_last hr.indexed hlast hmax⟩
    rw [checkAndBuildIndex, hlast]
    exact if_pos hmax
  · have hbuild : checkAndBuildIndex z fuel reader stack max =
        buildIndex z fuel reader stack max := by
      rw [checkAndBuildIndex]
      cases hlast : reader.list.getLast? with
      | none => rfl
      | some last => exact if_neg fun hmax => hserved ⟨last, hlast, hmax⟩
    rw [hbuild]
    refine buildIndex_ok h hr hstart hstack max hf (fun s reader' hs exact hexact c hc => ?_) h₀
    apply hP exact hexact c
    rw [requestChunks, if_neg hserved, hs]
    exact hc

end
end Spotlight.Gzip
