import Spotlight.GzipExact
import Spotlight.GzipFree

/-! Whole lives of a gzip reader in a build with `NDEBUG`: reads of a file of any content, then
`gzip_reader_free`, and when they follow the first entry of an empty list. -/
namespace Spotlight.Gzip
open Bytes Zlib

variable {z : Library} {file : List UInt8} {max : ℤ} {s : IndexState z.State} {reader : GzipReader}
  {stack : List UInt8}

/-- A call of `inflate` on the chunk at `pos`, with a whole window of room. -/
def headerCall (z : Library) (file : List UInt8) (st : z.State) (pos : ℕ) : Inflated z.State :=
  z.inflate st .block (slice file pos chunk) windowSize

/-- The calls on the chunks from `pos` on come to a block boundary. Ahead of it each of them takes
its whole chunk, and there is a next one only if `max` is at least `span`. -/
inductive Opens (z : Library) (file : List UInt8) (max : ℤ) : z.State → ℕ → Prop
  | boundary {st : z.State} {pos : ℕ} (hread : slice file pos chunk ≠ [])
      (hret : (headerCall z file st pos).ret = .ok)
      (hstop : (headerCall z file st pos).dataType &&& 128 ≠ 0) : Opens z file max st pos
  | next {st : z.State} {pos : ℕ} (hread : slice file pos chunk ≠ [])
      (hret : (headerCall z file st pos).ret = .ok)
      (hstop : (headerCall z file st pos).dataType &&& 128 = 0) (hmax : span ≤ max)
      (hrest : Opens z file max (headerCall z file st pos).state
        (pos + (slice file pos chunk).length)) : Opens z file max st pos

/-- A run that follows no null pointer and leaves access points in the list if it returns. -/
structure Opened (run : Outcome (Ret × IndexState z.State)) : Prop where
  follows : run ≠ .error .null
  list : ∀ ret s, run = .ok (ret, s) → s.reader.list ≠ []

lemma opened_ok {ret : Ret} (h : s.reader.list ≠ []) : Opened (.ok (ret, s)) := by
  refine ⟨by simp, fun ret' s' hrun => ?_⟩
  obtain ⟨-, rfl⟩ := Prod.mk.inj (Except.ok.inj hrun)
  exact h

lemma opened_fuel : Opened (.error .fuel : Outcome (Ret × IndexState z.State)) :=
  ⟨by simp, fun _ _ hrun => by cases hrun⟩

lemma ne_nil_of_grows {old new : List GzipAccessPointEntry} (h : old <+: new) (hne : old ≠ []) :
    new ≠ [] := by
  rintro rfl
  exact hne (List.prefix_nil.mp h)

lemma pointDue_opened {list : List GzipAccessPointEntry} (h : list ≠ []) (raw dataType : ℕ) :
    ∃ due, pointDue list raw dataType = .ok due := by
  unfold pointDue
  rw [List.getLast?_eq_some_getLast h]
  split_ifs
  · exact ⟨_, rfl⟩
  · exact ⟨_, rfl⟩
  · exact ⟨_, rfl⟩

lemma bind_follows {α β : Type} {x : Outcome α} {f : α → Outcome β} (hx : x ≠ .error .null)
    (hf : ∀ a, x = .ok a → f a ≠ .error .null) : (x >>= f) ≠ .error .null := by
  intro hnull
  rcases Outcome.bind_eq_error.mp hnull with herror | ⟨a, hok, herror⟩
  · exact hx herror
  · exact hf a hok herror

lemma indexNextChunkLoop_opened (h : s.reader.list ≠ []) (max : ℤ) (fuel : ℕ) (input : List UInt8)
    (availOut : ℕ) : Opened (indexNextChunkLoop z max fuel s input availOut) := by
  refine ⟨?_, fun ret s' hrun => ne_nil_of_grows (indexNextChunkLoop_grows hrun) h⟩
  induction fuel generalizing s input availOut with
  | zero => simp [indexNextChunkLoop]
  | succ fuel ih =>
    obtain ⟨room, hroom⟩ : ∃ room, room = if availOut = 0 then windowSize else availOut := ⟨_, rfl⟩
    obtain ⟨r, hr⟩ : ∃ r, r = z.inflate s.stream .block input room := ⟨_, rfl⟩
    have hlist : (s.advance r room).reader.list ≠ [] := h
    have happend : ∀ entry, ((s.advance r room).append entry).reader.list ≠ [] := fun entry =>
      List.append_ne_nil_of_left_ne_nil hlist _
    obtain ⟨due, hdue⟩ := pointDue_opened hlist (s.advance r room).rawByteCounter r.dataType
    rw [indexNextChunkLoop]
    simp only [← hroom, ← hr, hdue, Outcome.ok_bind]
    split_ifs
    all_goals first
      | exact ih hlist _ _
      | exact ih (happend _) _ _
      | simp

lemma indexNextChunk_opened (h : s.reader.list ≠ []) (max : ℤ) (fuel : ℕ) :
    Opened (indexNextChunk z max fuel s) := by
  refine ⟨?_, fun ret s' hrun => ne_nil_of_grows (indexNextChunk_grows hrun) h⟩
  unfold indexNextChunk
  dsimp only
  split_ifs
  · simp
  · apply (indexNextChunkLoop_opened ?_ _ _ _ _).follows
    exact h

lemma buildIndexLoop_opened (h : s.reader.list ≠ []) (max : ℤ) (fuel : ℕ) :
    Opened (buildIndexLoop z max fuel s) := by
  refine ⟨?_, fun ret s' hrun => ne_nil_of_grows (buildIndexLoop_grows hrun) h⟩
  induction fuel generalizing s with
  | zero => simp [buildIndexLoop]
  | succ fuel ih =>
    have hchunk := indexNextChunk_opened h max fuel
    refine bind_follows hchunk.follows fun a ha => ?_
    dsimp only
    split_ifs
    · simp
    · exact ih (hchunk.list a.1 a.2 ha)
    · simp

lemma buildIndexLoop_of_chunk {fuel : ℕ} (h : Opened (indexNextChunk z max fuel s)) :
    Opened (buildIndexLoop z max (fuel + 1) s) := by
  constructor
  · refine bind_follows h.follows fun a ha => ?_
    dsimp only
    split_ifs
    · simp
    · exact (buildIndexLoop_opened (h.list a.1 a.2 ha) max fuel).follows
    · simp
  · intro ret s' hrun
    obtain ⟨⟨ret₁, s₁⟩, hchunk, hrun⟩ := Outcome.bind_eq_ok.mp hrun
    have hlist := h.list ret₁ s₁ hchunk
    dsimp only at hrun
    split_ifs at hrun
    · exact (opened_ok hlist).list ret s' hrun
    · exact (buildIndexLoop_opened hlist max fuel).list ret s' hrun
    · exact (opened_ok hlist).list ret s' hrun

/-- A build that has come to no block boundary yet. -/
structure Unopened (h : Headers z) (file : List UInt8) (s : IndexState z.State) : Prop where
  file : s.reader.gzipFile = file
  list : s.reader.list = []
  raw : s.rawByteCounter = 0
  ahead : h.Ahead s.stream

lemma not_opens {st : z.State} {pos : ℕ}
    (hfail : slice file pos chunk ≠ [] → (headerCall z file st pos).ret ≠ .ok) :
    ¬Opens z file max st pos := by
  rintro (⟨hread, hret, -⟩ | ⟨hread, hret, -⟩)
  · exact hfail hread hret
  · exact hfail hread hret

lemma opens_next_iff {st : z.State} {pos : ℕ} (hread : slice file pos chunk ≠ [])
    (hret : (headerCall z file st pos).ret = .ok)
    (hstop : (headerCall z file st pos).dataType &&& 128 = 0) : Opens z file max st pos ↔
      span ≤ max ∧ Opens z file max (headerCall z file st pos).state
        (pos + (slice file pos chunk).length) := by
  constructor
  · rintro (⟨-, -, hboundary⟩ | ⟨-, -, -, hmax, hrest⟩)
    · exact absurd hstop hboundary
    · exact ⟨hmax, hrest⟩
  · rintro ⟨hmax, hrest⟩
    exact .next hread hret hstop hmax hrest

section

variable {h : Headers z} {fuel : ℕ}

/-- The state behind the first call of `inflate` on the next chunk. -/
def afterCall (file : List UInt8) (s : IndexState z.State) : IndexState z.State :=
  (s.fill (slice file s.reader.pos chunk)).advance (headerCall z file s.stream s.reader.pos)
    windowSize

lemma Unopened.headerStep (hs : Unopened h file s) (hread : slice file s.reader.pos chunk ≠ []) :
    HeaderStep h.Ahead (slice file s.reader.pos chunk)
      (headerCall z file s.stream s.reader.pos) :=
  h.header s.stream _ windowSize hs.ahead hread (by decide)

lemma Unopened.raw_afterCall (hs : Unopened h file s)
    (hout : (headerCall z file s.stream s.reader.pos).output = []) :
    (afterCall file s).rawByteCounter = 0 := by
  simp [afterCall, IndexState.advance, IndexState.fill, hout, hs.raw]

lemma Unopened.list_afterCall (hs : Unopened h file s) : (afterCall file s).reader.list = [] :=
  hs.list

lemma Unopened.empty (hs : Unopened h file s) (hread : slice file s.reader.pos chunk = []) :
    indexNextChunk z max fuel s = .ok (.dataError, s.fill (slice file s.reader.pos chunk)) := by
  rw [indexNextChunk, hs.file]
  exact if_pos hread

lemma Unopened.turn (hs : Unopened h file s) (hread : slice file s.reader.pos chunk ≠ []) :
    indexNextChunk z max fuel s = indexNextChunkLoop z max fuel
      (s.fill (slice file s.reader.pos chunk)) (slice file s.reader.pos chunk) 0 := by
  rw [indexNextChunk, hs.file]
  exact if_neg hread

lemma Unopened.failed (hs : Unopened h file s) (hread : slice file s.reader.pos chunk ≠ [])
    (hret : (headerCall z file s.stream s.reader.pos).ret = .memError ∨
      (headerCall z file s.stream s.reader.pos).ret = .dataError ∨
      (headerCall z file s.stream s.reader.pos).ret = .needDict) :
    indexNextChunk z max (fuel + 1) s =
      .ok ((headerCall z file s.stream s.reader.pos).ret, afterCall file s) := by
  rw [hs.turn hread, indexNextChunkLoop]
  exact if_pos hret

lemma Unopened.boundary (hs : Unopened h file s) (hread : slice file s.reader.pos chunk ≠ [])
    (hret : (headerCall z file s.stream s.reader.pos).ret = .ok)
    (hout : (headerCall z file s.stream s.reader.pos).output = [])
    (htype : (headerCall z file s.stream s.reader.pos).dataType &&& 128 ≠ 0 ∧
      (headerCall z file s.stream s.reader.pos).dataType &&& 64 = 0) :
    Opened (indexNextChunk z max fuel s) := by
  rw [hs.turn hread]
  cases fuel with
  | zero => exact opened_fuel
  | succ fuel =>
    have hdue : pointDue [] 0 (headerCall z file s.stream s.reader.pos).dataType = .ok true := by
      rw [pointDue, if_pos htype, if_pos rfl]
    have happend : ∀ entry, ((afterCall file s).append entry).reader.list ≠ [] := fun entry =>
      List.append_ne_nil_of_right_ne_nil _ (List.cons_ne_nil _ _)
    have hraw := hs.raw_afterCall hout
    have hlist := hs.list_afterCall
    rw [← hlist, ← hraw] at hdue
    rw [indexNextChunkLoop_succ (s := s.fill _) (if_pos rfl).symm rfl hret hdue, if_pos rfl]
    unfold continueChunk
    dsimp only
    split_ifs
    · exact opened_ok (happend _)
    · exact indexNextChunkLoop_opened (happend _) _ _ _ _
    · exact opened_ok (happend _)

lemma Unopened.more (hs : Unopened h file s) (hread : slice file s.reader.pos chunk ≠ [])
    (hret : (headerCall z file s.stream s.reader.pos).ret = .ok)
    (hout : (headerCall z file s.stream s.reader.pos).output = [])
    (htype : (headerCall z file s.stream s.reader.pos).dataType &&& 128 = 0)
    (hall : (headerCall z file s.stream s.reader.pos).consumed =
      (slice file s.reader.pos chunk).length) :
    indexNextChunk z max (fuel + 1) s = .ok (.ok, afterCall file s) := by
  have hdue : pointDue [] 0 (headerCall z file s.stream s.reader.pos).dataType = .ok false :=
    pointDue_none (.inl htype)
  have hdrop : (slice file s.reader.pos chunk).drop
      (headerCall z file s.stream s.reader.pos).consumed = [] := by rw [hall, List.drop_length]
  rw [← hs.list_afterCall, ← hs.raw_afterCall hout] at hdue
  rw [hs.turn hread, indexNextChunkLoop_succ (s := s.fill _) (if_pos rfl).symm rfl hret hdue,
    if_neg Bool.false_ne_true]
  exact if_neg (not_not_intro hdrop)

end

/-- One chunk of such a build: it comes to a block boundary, it ends the build, or it is all taken
and the build goes on. -/
lemma indexNextChunk_unopened (h : Headers z) (hs : Unopened h file s) (max : ℤ) :
    (Opens z file max s.stream s.reader.pos ∧ ∀ fuel, Opened (indexNextChunk z max fuel s)) ∨
    ∃ ret s', (∀ fuel, indexNextChunk z max (fuel + 1) s = .ok (ret, s')) ∧
      s'.reader.list = [] ∧ s'.rawByteCounter = 0 ∧
      ((ret ≠ .ok ∧ ¬Opens z file max s.stream s.reader.pos) ∨
        (ret = .ok ∧ Unopened h file s' ∧ indexNextChunk z max 0 s = .error .fuel ∧
          s.reader.pos < s'.reader.pos ∧ s'.reader.pos ≤ file.length ∧
          (Opens z file max s.stream s.reader.pos ↔
            span ≤ max ∧ Opens z file max s'.stream s'.reader.pos))) := by
  by_cases hread : slice file s.reader.pos chunk = []
  · exact .inr ⟨_, _, fun fuel => hs.empty hread, hs.list, hs.raw,
      .inl ⟨by decide, not_opens fun hne => absurd hread hne⟩⟩
  rcases hs.headerStep hread with ⟨hret, hout⟩ | ⟨hret, hout, htype⟩ |
    ⟨hret, hout, htype, hall, hahead⟩
  · have hne : (headerCall z file s.stream s.reader.pos).ret ≠ .ok := by
      intro heq
      simp [heq] at hret
    exact .inr ⟨_, _, fun fuel => hs.failed hread hret, hs.list_afterCall, hs.raw_afterCall hout,
      .inl ⟨hne, not_opens fun _ => hne⟩⟩
  · exact .inl ⟨.boundary hread hret htype.1, fun fuel => hs.boundary hread hret hout htype⟩
  · have hlist := hs.list_afterCall
    have hraw := hs.raw_afterCall hout
    have hpos : 0 < (slice file s.reader.pos chunk).length := List.length_pos_iff.mpr hread
    have hlength := length_slice file s.reader.pos chunk
    refine .inr ⟨.ok, afterCall file s, fun fuel => hs.more hread hret hout htype hall, hlist, hraw,
      .inr ⟨rfl, ⟨hs.file, hlist, hraw, hahead⟩, hs.turn hread, Nat.lt_add_of_pos_right hpos, ?_,
        opens_next_iff hread hret htype⟩⟩
    change s.reader.pos + (slice file s.reader.pos chunk).length ≤ file.length
    omega

lemma indexNextChunk_zero (s : IndexState z.State) (max : ℤ) :
    indexNextChunk z max 0 s ≠ .error .null := by
  unfold indexNextChunk
  dsimp only
  split_ifs
  · simp
  · simp [indexNextChunkLoop]

/-- What the loop of `build_index` returns from a state that has come to no boundary. -/
structure BuildEnds (z : Library) (file : List UInt8) (max : ℤ) (s : IndexState z.State) :
    Prop where
  follows : ∀ fuel, buildIndexLoop z max fuel s ≠ .error .null
  opened : Opens z file max s.stream s.reader.pos → ∀ fuel, Opened (buildIndexLoop z max fuel s)
  unopened : ¬Opens z file max s.stream s.reader.pos → ∃ n ret s', s'.reader.list = [] ∧
    ∀ fuel, n ≤ fuel → buildIndexLoop z max fuel s = .ok (ret, s')

lemma buildIndexLoop_chunk {ret : Ret} {s' : IndexState z.State} (hraw : s'.rawByteCounter = 0)
    (hchunk : ∀ fuel, indexNextChunk z max (fuel + 1) s = .ok (ret, s')) (fuel : ℕ) :
    buildIndexLoop z max (fuel + 2) s =
      if ret = .ok ∧ span ≤ max then buildIndexLoop z max (fuel + 1) s' else .ok (ret, s') := by
  rw [buildIndexLoop, hchunk, Outcome.ok_bind]
  dsimp only
  rw [hraw, Nat.cast_zero, zero_add]
  by_cases hmax : max < span
  · rw [if_pos hmax, if_neg fun h => absurd h.2 (not_le.mpr hmax)]
    rfl
  · rw [if_neg hmax]
    by_cases hret : ret = .ok
    · rw [if_pos hret, if_pos ⟨hret, not_lt.mp hmax⟩]
    · rw [if_neg hret, if_neg fun h => hret h.1]
      rfl

lemma buildIndexLoop_one (s : IndexState z.State) (max : ℤ) :
    buildIndexLoop z max 1 s ≠ .error .null := by
  refine bind_follows (indexNextChunk_zero s max) fun a _ => ?_
  dsimp only
  split_ifs
  · simp
  · simp [buildIndexLoop]
  · simp

lemma buildIndexLoop_unopened (h : Headers z) (hs : Unopened h file s) (max : ℤ) :
    BuildEnds z file max s := by
  induction hn : file.length - s.reader.pos using Nat.strong_induction_on generalizing s with
  | _ n ih =>
    subst hn
    rcases indexNextChunk_unopened h hs max with
      ⟨hopens, hchunk⟩ | ⟨ret, s', hchunk, hlist, hraw, hends⟩
    · have hloop : ∀ fuel, Opened (buildIndexLoop z max fuel s) := by
        intro fuel
        cases fuel with
        | zero => exact opened_fuel
        | succ fuel => exact buildIndexLoop_of_chunk (hchunk fuel)
      exact ⟨fun fuel => (hloop fuel).follows, fun _ => hloop, fun hnot => absurd hopens hnot⟩
    have hstep := buildIndexLoop_chunk hraw hchunk
    by_cases hgoes : ret = .ok ∧ span ≤ max
    · -- the next chunk decides
      obtain ⟨rfl, hmax⟩ := hgoes
      rcases hends with ⟨hret, -⟩ | ⟨-, hs', hzero, hlt, hle, hopens⟩
      · exact absurd rfl hret
      have hnext := ih _ (by omega) hs' rfl
      refine ⟨fun fuel => ?_, fun ho fuel => ?_, fun hnot => ?_⟩
      · rcases fuel with _ | _ | fuel
        · simp [buildIndexLoop]
        · exact buildIndexLoop_one s max
        · rw [hstep, if_pos ⟨rfl, hmax⟩]
          exact hnext.follows _
      · rcases fuel with _ | _ | fuel
        · exact opened_fuel
        · rw [buildIndexLoop, hzero]
          exact opened_fuel
        · rw [hstep, if_pos ⟨rfl, hmax⟩]
          exact hnext.opened (hopens.mp ho).2 _
      · obtain ⟨n, ret, s'', hlist', hrun⟩ := hnext.unopened fun ho => hnot (hopens.mpr ⟨hmax, ho⟩)
        refine ⟨n + 2, ret, s'', hlist', fun fuel hf => ?_⟩
        obtain ⟨k, rfl⟩ : ∃ k, fuel = k + 2 := ⟨fuel - 2, by omega⟩
        rw [hstep, if_pos ⟨rfl, hmax⟩]
        exact hrun _ (by omega)
    · have hnot : ¬Opens z file max s.stream s.reader.pos := by
        rcases hends with ⟨-, hnot⟩ | ⟨hret, -, -, -, -, hopens⟩
        · exact hnot
        · exact fun ho => hgoes ⟨hret, (hopens.mp ho).1⟩
      refine ⟨fun fuel => ?_, fun ho => absurd ho hnot, fun _ => ⟨2, ret, s', hlist, ?_⟩⟩
      · rcases fuel with _ | _ | fuel
        · simp [buildIndexLoop]
        · exact buildIndexLoop_one s max
        · simp [hstep, if_neg hgoes]
      · intro fuel hf
        obtain ⟨k, rfl⟩ : ∃ k, fuel = k + 2 := ⟨fuel - 2, by omega⟩
        rw [hstep, if_neg hgoes]

/-- The request of a read finds access points, or its build comes to one. -/
def HasPoint (z : Library) (reader : GzipReader) (max : ℤ) : Prop :=
  reader.list ≠ [] ∨ Opens z reader.gzipFile max (z.inflateInit2 gzipWindowBits) reader.pos

lemma request_empty (hlist : reader.list = []) (stack : List UInt8) (max : ℤ) (fuel : ℕ) :
    checkAndBuildIndex z fuel reader stack max = do
      let (ret, s) ← buildIndexLoop z max fuel ⟨reader, z.inflateInit2 gzipWindowBits, stack, 0, 0⟩
      return (ret, s.reader) := by
  unfold checkAndBuildIndex buildIndex buildStart
  rw [hlist]
  rfl

lemma buildEnds_request (h : Headers z) (hlist : reader.list = []) (stack : List UInt8) (max : ℤ) :
    BuildEnds z reader.gzipFile max ⟨reader, z.inflateInit2 gzipWindowBits, stack, 0, 0⟩ := by
  apply buildIndexLoop_unopened h
  exact ⟨rfl, hlist, rfl, h.start⟩

lemma request_follows (h : Headers z) (reader : GzipReader) (stack : List UInt8) (max : ℤ)
    (fuel : ℕ) : checkAndBuildIndex z fuel reader stack max ≠ .error .null := by
  by_cases hlist : reader.list = []
  · rw [request_empty hlist]
    exact bind_follows ((buildEnds_request h hlist stack max).follows fuel) fun a _ => by simp
  have hbuild : buildIndex z fuel reader stack max ≠ .error .null := by
    obtain ⟨-, hstate⟩ := buildStart_list (z := z) reader stack
    unfold buildIndex
    rcases hstart : buildStart z reader stack with ⟨_ | s, reader₁⟩
    · simp
    · rw [hstart] at hstate
      have hs : s.reader.list ≠ [] := hstate s rfl ▸ hlist
      exact bind_follows (buildIndexLoop_opened hs max fuel).follows fun a _ => by simp
  unfold checkAndBuildIndex
  split
  · split_ifs
    · simp
    · exact hbuild
  · exact hbuild

lemma request_opened (h : Headers z) (hpoint : HasPoint z reader max) {fuel : ℕ} {ret : Ret}
    {reader' : GzipReader}
    (hrun : checkAndBuildIndex z fuel reader stack max = .ok (ret, reader')) : reader'.list ≠ [] := by
  by_cases hlist : reader.list = []
  · have hopens := hpoint.resolve_left (not_not_intro hlist)
    rw [request_empty hlist] at hrun
    obtain ⟨⟨ret₁, s⟩, hloop, hrun⟩ := Outcome.bind_eq_ok.mp hrun
    obtain ⟨-, rfl⟩ := Prod.mk.inj (Except.ok.inj hrun)
    exact ((buildEnds_request h hlist stack max).opened hopens fuel).list ret₁ s hloop
  · exact ne_nil_of_grows (checkAndBuildIndex_grows hrun) hlist

lemma request_unopened (h : Headers z) (hpoint : ¬HasPoint z reader max) (stack : List UInt8) :
    ∃ n ret reader', reader'.list = [] ∧
      ∀ fuel, n ≤ fuel → checkAndBuildIndex z fuel reader stack max = .ok (ret, reader') := by
  obtain ⟨hlist, hopens⟩ := not_or.mp hpoint
  rw [not_not] at hlist
  obtain ⟨n, ret, s, hs, hrun⟩ := (buildEnds_request h hlist stack max).unopened hopens
  refine ⟨n, ret, s.reader, hs, fun fuel hf => ?_⟩
  rw [request_empty hlist, hrun fuel hf]
  rfl

lemma fillOutput_follows (fuel : ℕ) (s : ReadState z.State) (room : ℕ) :
    fillOutput z fuel s room ≠ .error .null := by
  induction fuel generalizing s room with
  | zero => simp [fillOutput]
  | succ fuel ih =>
    unfold fillOutput
    dsimp only
    split_ifs
    · exact bind_follows (ih _ _) fun a _ => by simp
    · simp

lemma skipAndRead_follows (length fuel : ℕ) (s : ReadState z.State) (offset : ℤ) :
    skipAndRead z length fuel s offset ≠ .error .null := by
  induction fuel generalizing s offset with
  | zero => simp [skipAndRead]
  | succ fuel ih =>
    unfold skipAndRead
    split_ifs
    · exact fillOutput_follows _ _ _
    all_goals
      refine bind_follows (fillOutput_follows _ _ _) fun a _ => bind_follows ?_ fun _ _ => ?_
      · unfold discard
        split_ifs <;> simp
      · split_ifs
        · exact ih _ _
        · simp

lemma gzipReadBuffer_follows {length : ℕ} (h : length = 0 ∨ reader.list ≠ []) (fuel : ℕ)
    (offset : ℤ) : gzipReadBuffer z fuel reader offset length ≠ .error .null := by
  unfold gzipReadBuffer
  split_ifs with hlength
  · simp
  · have hne := h.resolve_left hlength
    cases hlist : reader.list with
    | nil => exact absurd hlist hne
    | cons first rest =>
      dsimp only
      split
      · simp
      · exact bind_follows (skipAndRead_follows _ _ _ _) fun a _ => by simp

lemma gzipReadBuffer_null {length : ℕ} (hlength : length ≠ 0) (hlist : reader.list = []) (fuel : ℕ)
    (offset : ℤ) : gzipReadBuffer z fuel reader offset length = .error .null := by
  rw [gzipReadBuffer, if_neg hlength, hlist]

/-- A call of `gzip_read`, with what the stack of `build_index` happens to hold. -/
structure ReadCall where
  stack : List UInt8
  offset : ℤ
  length : ℕ

def ReadCall.maxByteAddress (c : ReadCall) : ℤ := Int.bmod (c.offset + c.length) (2 ^ 64)

def ReadCall.run (z : Library) (fuel : ℕ) (reader : GzipReader) (c : ReadCall) :
    Outcome (GzipReader × ℤ × List UInt8) :=
  gzipRead z fuel reader c.stack c.offset c.length

/-- A call follows no null pointer. If its request leaves the list empty and it needs an access
point, it returns `INDEXER_ERROR`. -/
structure ReadSafe (z : Library) (reader : GzipReader) (c : ReadCall) : Prop where
  follows : ∀ fuel, c.run z fuel reader ≠ .error .null
  fails : ∀ fuel ret reader₁,
    checkAndBuildIndex z fuel reader c.stack c.maxByteAddress = .ok (ret, reader₁) →
      reader₁.list = [] → c.length ≠ 0 → ∃ reader₂ buffer, c.run z fuel reader = .ok (reader₂, indexerError, buffer)

/-- The reads of a history are all safe, and `gzip_reader_free` behind them releases the list. -/
def HistorySafe (z : Library) : GzipReader → List ReadCall → Prop
  | reader, [] => Releases reader.list
  | reader, c :: cs => ReadSafe z reader c ∧ ∀ fuel reader' ret buffer,
      c.run z fuel reader = .ok (reader', ret, buffer) → HistorySafe z reader' cs

/-- Every read of a history needs no access point or has one, and so does the list that is freed
behind them. -/
def HistoryPoints (z : Library) : GzipReader → List ReadCall → Prop
  | reader, [] => reader.list ≠ []
  | reader, c :: cs => (c.length = 0 ∨ HasPoint z reader c.maxByteAddress) ∧
      ∀ fuel reader' ret buffer, c.run z fuel reader = .ok (reader', ret, buffer) →
        HistoryPoints z reader' cs

lemma gzipRead_opened (h : Headers z) {c : ReadCall} (hpoint : HasPoint z reader c.maxByteAddress)
    {fuel : ℕ} {reader' : GzipReader} {ret : ℤ} {buffer : List UInt8}
    (hrun : c.run z fuel reader = .ok (reader', ret, buffer)) : reader'.list ≠ [] := by
  obtain ⟨ret₁, reader₁, hrequest, hmoved, -⟩ := gzipRead_list hrun
  rw [hmoved]
  exact request_opened h hpoint hrequest

/-- A read that needs an access point and has none follows the first entry of the empty list. -/
lemma gzipRead_null (h : Headers z) {c : ReadCall} (hlength : c.length ≠ 0)
    (hpoint : ¬HasPoint z reader c.maxByteAddress) : ∃ n, ∀ fuel, n ≤ fuel →
      c.run z fuel reader = .error .null := by
  obtain ⟨n, ret, reader₁, hlist, hrun⟩ := request_unopened h hpoint c.stack
  refine ⟨n, fun fuel hf => ?_⟩
  have hrequest : checkAndBuildIndex z fuel reader c.stack
      (Int.bmod (c.offset + c.length) (2 ^ 64)) = .ok (ret, reader₁) := hrun fuel hf
  rw [ReadCall.run, gzipRead, hrequest, Outcome.ok_bind]
  dsimp only
  rw [gzipReadBuffer_null hlength hlist]
  rfl

theorem readSafe_iff (h : Headers z) (reader : GzipReader) (c : ReadCall) :
    ReadSafe z reader c ↔ c.length = 0 ∨ HasPoint z reader c.maxByteAddress := by
  constructor
  · intro hsafe
    by_contra hnot
    obtain ⟨hlength, hpoint⟩ := not_or.mp hnot
    obtain ⟨n, hnull⟩ := gzipRead_null h hlength hpoint
    exact hsafe.follows n (hnull n le_rfl)
  · intro hneeds
    constructor
    · intro fuel
      refine bind_follows (request_follows h reader c.stack c.maxByteAddress fuel) fun a ha => ?_
      have hread : c.length = 0 ∨ a.2.list ≠ [] := by
        rcases hneeds with hlength | hpoint
        · exact .inl hlength
        · exact .inr (request_opened h hpoint ha)
      refine bind_follows (gzipReadBuffer_follows hread _ _) fun b _ => ?_
      dsimp only
      split_ifs <;> simp
    · intro fuel ret reader₁ hrun hlist hlength
      have hpoint := hneeds.resolve_left hlength
      exact absurd hlist (request_opened h hpoint hrun)

/-- In a whole life of a reader no null pointer is followed, and all of its list is released once,
exactly when each read that needs an access point has one, and the list that is freed is not
empty. -/
theorem historySafe_iff (h : Headers z) (reader : GzipReader) (calls : List ReadCall) :
    HistorySafe z reader calls ↔ HistoryPoints z reader calls := by
  induction calls generalizing reader with
  | nil => exact releases_iff
  | cons c calls ih =>
    unfold HistorySafe HistoryPoints
    refine and_congr (readSafe_iff h reader c) ?_
    constructor
    · intro hrest fuel reader' ret buffer hrun
      exact (ih reader').mp (hrest fuel reader' ret buffer hrun)
    · intro hrest fuel reader' ret buffer hrun
      exact (ih reader').mpr (hrest fuel reader' ret buffer hrun)

theorem historySafe_of_list (h : Headers z) (hlist : reader.list ≠ []) (calls : List ReadCall) :
    HistorySafe z reader calls := by
  induction calls generalizing reader with
  | nil => exact releases_iff.mpr hlist
  | cons c calls ih =>
    have hpoint : HasPoint z reader c.maxByteAddress := .inl hlist
    exact ⟨(readSafe_iff h reader c).mpr (.inr hpoint), fun fuel reader' ret buffer hrun =>
      ih (gzipRead_opened h hpoint hrun)⟩

/-- A read of a whole file comes to its first access point. -/
theorem historySafe_iff_twoBlocks : HistorySafe Stored.library ⟨Stored.twoBlocks.member.file, 0, []⟩
    [⟨List.replicate windowSize 0, 0, 1⟩] := by
  have hpoint : ∀ max, HasPoint Stored.library ⟨Stored.twoBlocks.member.file, 0, []⟩ max :=
    fun max => .inr (.boundary (by decide) rfl (by decide))
  exact (historySafe_iff Stored.headers _ _).mpr ⟨.inr (hpoint _), fun _ _ _ _ hrun =>
    gzipRead_opened Stored.headers (hpoint _) hrun⟩

/-- A file that is cut off behind its magic bytes. It has no access point, which a read follows,
and so does `gzip_reader_free` of any reader that has not been read from. -/
theorem historySafe_counterexample :
    ¬HistorySafe Stored.library ⟨[0x1f, 0x8b], 0, []⟩ [] ∧
      ¬HistorySafe Stored.library ⟨[0x1f, 0x8b], 0, []⟩ [⟨List.replicate windowSize 0, 0, 1⟩] ∧
      ∃ n, ∀ fuel, n ≤ fuel → gzipRead Stored.library fuel ⟨[0x1f, 0x8b], 0, []⟩
        (List.replicate windowSize 0) 0 1 = .error .null := by
  have hpoint : ¬HasPoint Stored.library ⟨[0x1f, 0x8b], 0, []⟩ 1 := by
    rintro (hlist | ⟨-, -, hstop⟩ | ⟨-, -, -, hmax, -⟩)
    · exact hlist rfl
    · exact hstop rfl
    · norm_num [span] at hmax
  obtain ⟨n, hread⟩ := gzipRead_null Stored.headers
    (c := ⟨List.replicate windowSize 0, 0, 1⟩) Nat.one_ne_zero hpoint
  refine ⟨fun hsafe => releases_iff.mp hsafe rfl, fun hsafe => ?_, n, hread⟩
  exact hsafe.1.follows n (hread n le_rfl)

end Spotlight.Gzip
