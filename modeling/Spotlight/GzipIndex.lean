import Spotlight.AccessPoints

/-! What a chunk of input does to the index that `build_index` keeps: the points it selects
and the windows it records. -/
namespace Spotlight.Gzip
open Bytes Zlib

variable {z : Library} {m : Member} {σ : Type}

def GzipAccessPointEntry.point (entry : GzipAccessPointEntry) : Boundary :=
  ⟨entry.compressedByteAddress, entry.bits, entry.rawByteAddress⟩

/-- A position between the boundaries around it. -/
structure Within (m : Member) (p : Pos) : Prop where
  next_le : p.next ≤ m.bounds.length
  ahead : ∀ b, m.bounds[p.next]? = some b → p.raw ≤ b.raw ∧ p.comp ≤ b.comp
  ended : p.next = m.bounds.length → p.raw = m.content.length

/-- Where the stream of an index state stands: inside the member with the rest of the chunk
ahead of it, or behind the end. -/
inductive Stage (h : Decompresses z m) (s : IndexState z.State) (input : List UInt8)
    (exact : Prop) (p : Pos) : Prop
  | running (at_pos : h.At s.stream p exact) (within : Within m p)
      (comp : s.compressedByteCounter = p.comp) (ahead : input <+: m.file.drop p.comp)
      (pos : p.comp + input.length = s.reader.pos)
  | finished (done : h.Done s.stream) (next : p.next = m.bounds.length)
      (raw : p.raw = m.content.length)

/-- The list is empty, or it holds the access points up to its own last one. -/
def Indexed (m : Member) (list : List GzipAccessPointEntry) : Prop :=
  ∀ entry, list.getLast? = some entry → ∃ i, i + 1 < m.bounds.length ∧
    m.bounds[i]? = some entry.point ∧ list.map GzipAccessPointEntry.point = pointsUpTo m (i + 1)

/-- The list holds the access points among the first `k` boundaries. -/
structure IndexedTo (m : Member) (list : List GzipAccessPointEntry) (k : ℕ) : Prop where
  points : list.map GzipAccessPointEntry.point = pointsUpTo m k
  indexed : Indexed m list

/-- What was put out since the chunk began at `s₀` stands at the end of the window `old ++ out`
in the order of writing. -/
structure Recorded (m : Member) (s₀ : IndexState σ) (exact : Prop) (raw : ℕ)
    (window : List UInt8) : Prop where
  out : ∃ out : List UInt8, raw = s₀.rawByteCounter + out.length ∧
    window = (s₀.context ++ out).drop out.length ∧
    (exact → Continues m.content s₀.rawByteCounter out)

/-- The invariant of the loop of `index_next_chunk` over a chunk that began in `s₀`. -/
structure LoopInv (h : Decompresses z m) (s₀ s : IndexState z.State) (exact : Prop)
    (input : List UInt8) (availOut : ℕ) (p : Pos) : Prop where
  stage : Stage h s input exact p
  raw : s.rawByteCounter = p.raw
  file : s.reader.gzipFile = m.file
  pos : s.reader.pos = s₀.reader.pos
  length : s.context.length = windowSize
  room : availOut ≤ windowSize
  window : Recorded m s₀ exact s.rawByteCounter
    (Circular.unwrap s.context (windowSize - availOut))
  place : (s₀.rawByteCounter + (windowSize - availOut)) % windowSize =
    s.rawByteCounter % windowSize
  entries : ∃ new, s.reader.list = s₀.reader.list ++ new ∧ ∀ entry ∈ new,
    entry.compressedByteAddress ≤ s.reader.pos ∧
      Recorded m s₀ exact entry.rawByteAddress entry.context

theorem Recorded.write {s₀ : IndexState σ} {exact : Prop} {raw : ℕ} {context output : List UInt8}
    {pos : ℕ} (hw : Recorded m s₀ exact raw (Circular.unwrap context pos))
    (hfit : pos + output.length ≤ context.length)
    (hout : exact → Continues m.content raw output) :
    Recorded m s₀ exact (raw + output.length)
      (Circular.unwrap (Circular.write context pos output) (pos + output.length)) := by
  obtain ⟨out, rfl, hwindow, hcont⟩ := hw
  refine ⟨out ++ output, ?_, Circular.unwrap_write_history hfit hwindow, fun he => ?_⟩
  · rw [List.length_append, Nat.add_assoc]
  · exact Continues.append (hcont he) (hout he)

theorem Recorded.wrap {s₀ : IndexState σ} {exact : Prop} {raw : ℕ} {context : List UInt8}
    (hlen : context.length = windowSize) {availOut : ℕ}
    (hw : Recorded m s₀ exact raw (Circular.unwrap context (windowSize - availOut))) :
    Recorded m s₀ exact raw (Circular.unwrap context
      (windowSize - if availOut = 0 then windowSize else availOut)) := by
  split_ifs with hzero
  · subst hzero
    rw [Nat.sub_zero, ← hlen, Circular.unwrap_length] at hw
    rwa [Nat.sub_self, Circular.unwrap_zero]
  · exact hw

theorem dataType_boundary {bits : ℕ} (h : bits < 8) :
    (bits + 128) &&& 128 ≠ 0 ∧ (bits + 128) &&& 64 = 0 ∧ (bits + 128) &&& 7 = bits ∧
      (bits + 128 + 64) &&& 64 ≠ 0 := by
  revert bits
  decide

theorem bound_le_last {b : Boundary} (hb : b ∈ m.bounds) :
    b.raw ≤ m.content.length ∧ b.comp + 8 ≤ m.file.length := by
  have htwo := m.two_le
  obtain ⟨l, hl⟩ : ∃ l, m.bounds[m.bounds.length - 1]? = some l :=
    ⟨_, List.getElem?_eq_getElem (by omega)⟩
  obtain ⟨hraw, hcomp⟩ := m.last_raw l hl
  obtain ⟨i, hi⟩ := List.mem_iff_getElem?.mp hb
  obtain ⟨hilt, rfl⟩ := List.getElem?_eq_some_iff.mp hi
  obtain ⟨hllt, rfl⟩ := List.getElem?_eq_some_iff.mp hl
  rcases Nat.lt_or_eq_of_le (Nat.le_sub_one_of_lt hilt) with hlt | heq
  · have hle := List.pairwise_iff_getElem.mp m.sorted i _ hilt hllt hlt
    exact ⟨hle.1.trans hraw.le, by omega⟩
  · simp only [heq]
    exact ⟨hraw.le, hcomp⟩

theorem within_next {k : ℕ} {b : Boundary} (hb : m.bounds[k]? = some b) :
    Within m ⟨b.comp, b.raw, k + 1⟩ := by
  obtain ⟨hk, rfl⟩ := List.getElem?_eq_some_iff.mp hb
  constructor
  · exact hk
  · intro c hc
    obtain ⟨hk', rfl⟩ := List.getElem?_eq_some_iff.mp hc
    exact List.pairwise_iff_getElem.mp m.sorted k (k + 1) hk hk' (Nat.lt_succ_self k)
  · intro heq
    have hlast : m.bounds[m.bounds.length - 1]? = some m.bounds[k] := by
      rw [← heq, Nat.add_sub_cancel]
      exact hb
    exact (m.last_raw _ hlast).1

theorem pointDue_eq {list : List GzipAccessPointEntry} {k : ℕ} {b : Boundary}
    (hb : m.bounds[k]? = some b) (hk : k + 1 < m.bounds.length)
    (hpoints : list.map GzipAccessPointEntry.point = pointsUpTo m k) :
    pointDue list b.raw (b.bits + 128) =
      .ok (decide (Due ((pointsUpTo m k).getLast?.map Boundary.raw) b)) := by
  obtain ⟨h128, h64, -, -⟩ := dataType_boundary (m.bits_lt b (List.mem_of_getElem? hb))
  rw [pointDue, if_pos ⟨h128, h64⟩, ← hpoints, List.getLast?_map, Option.map_map]
  by_cases hzero : b.raw = 0
  · have hdue : Due (list.getLast?.map (Boundary.raw ∘ GzipAccessPointEntry.point)) b :=
      Or.inl hzero
    rw [if_pos hzero, decide_eq_true hdue]
  rw [if_neg hzero]
  cases hlast : list.getLast? with
  | none =>
    have hnil : list = [] := List.getLast?_eq_none_iff.mp hlast
    rw [hnil, List.map_nil] at hpoints
    rcases Nat.eq_zero_or_pos k with rfl | hpos
    · exact absurd (m.first_raw b hb) hzero
    · exact absurd hpoints.symm (pointsUpTo_one hpos)
  | some last =>
    have hdue : Due (Option.map (Boundary.raw ∘ GzipAccessPointEntry.point) (some last)) b ↔
        (b.raw : ℤ) - last.rawByteAddress > span := by
      simp only [Due, hzero, false_or, Option.map_some, Option.mem_def, Option.some.injEq,
        exists_eq_left', Function.comp_apply, GzipAccessPointEntry.point]
      omega
    simp only [Outcome.deref_some, Outcome.ok_bind, Outcome.pure_eq, decide_eq_decide.mpr hdue]

theorem pointDue_none {list : List GzipAccessPointEntry} {raw dataType : ℕ}
    (h : dataType &&& 128 = 0 ∨ dataType &&& 64 ≠ 0) : pointDue list raw dataType = .ok false := by
  rw [pointDue, if_neg]
  rintro ⟨h128, h64⟩
  rcases h with h | h
  · exact h128 h
  · exact h h64

section
variable {h : Decompresses z m} {s₀ s : IndexState z.State} {exact : Prop} {input : List UInt8}
  {availOut : ℕ} {p : Pos}

theorem prefix_drop {file : List UInt8} {comp n : ℕ} (hp : input <+: file.drop comp)
    (hn : n ≤ input.length) : input.drop n <+: file.drop (comp + n) := by
  rw [← List.drop_drop]
  obtain ⟨rest, hrest⟩ := hp
  exact ⟨rest, by rw [← hrest, List.drop_append_of_le_length hn]⟩

theorem LoopInv.step (hinv : LoopInv h s₀ s exact input availOut p) {room : ℕ}
    (hroom : room = if availOut = 0 then windowSize else availOut) {r : Inflated z.State}
    (hout : r.output.length ≤ room) (hcont : exact → Continues m.content p.raw r.output)
    {q : Pos} (hraw : p.raw + r.output.length = q.raw)
    (hstage : Stage h (s.advance r room) (input.drop r.consumed) exact q) :
    LoopInv h s₀ (s.advance r room) exact (input.drop r.consumed) (room - r.output.length) q := by
  have hle : room ≤ windowSize := by
    have := hinv.room
    split_ifs at hroom <;> omega
  have hlen := hinv.length
  have hback : windowSize - (room - r.output.length) =
      windowSize - room + r.output.length := by omega
  refine ⟨hstage, ?_, hinv.file, hinv.pos, ?_, by omega, ?_, ?_, hinv.entries⟩
  · rw [← hraw, ← hinv.raw]
    rfl
  · exact (Circular.length_write (by omega)).trans hlen
  · have hwrap := hinv.window.wrap hlen
    rw [← hroom] at hwrap
    rw [hback]
    apply hwrap.write (by omega)
    rwa [hinv.raw]
  · have hplace := hinv.place
    have hafter : (s.advance r room).rawByteCounter = s.rawByteCounter + r.output.length := rfl
    have hwindow : windowSize = 32768 := rfl
    rw [hafter, hback]
    rw [hwindow] at hplace hroom hle ⊢
    split_ifs at hroom <;> omega

theorem createAccessPointEntry_context {raw comp bits left : ℕ} {context : List UInt8}
    (hlen : context.length = windowSize) (hleft : left ≤ windowSize) :
    (createAccessPointEntry raw comp bits left context).context =
      Circular.unwrap context (windowSize - left) := by
  have htail : (context.drop (windowSize - left)).length ≤ left := by
    rw [List.length_drop]
    omega
  simp only [createAccessPointEntry, slice, Circular.unwrap, List.take_of_length_le htail,
    List.drop_zero]

theorem LoopInv.append (hinv : LoopInv h s₀ s exact input availOut p)
    {entry : GzipAccessPointEntry} (hcomp : entry.compressedByteAddress ≤ s.reader.pos)
    (hraw : entry.rawByteAddress = s.rawByteCounter)
    (hctx : entry.context = Circular.unwrap s.context (windowSize - availOut)) :
    LoopInv h s₀ (s.append entry) exact input availOut p := by
  refine ⟨?_, hinv.raw, hinv.file, hinv.pos, hinv.length, hinv.room, hinv.window, hinv.place, ?_⟩
  · cases hinv.stage with
    | running at_pos within comp ahead pos => exact .running at_pos within comp ahead pos
    | finished done next raw => exact .finished done next raw
  · obtain ⟨new, hnew, hentries⟩ := hinv.entries
    refine ⟨new ++ [entry], ?_, fun e he => ?_⟩
    · rw [← List.append_assoc, ← hnew]
      rfl
    · rcases List.mem_append.mp he with he | he
      · exact hentries e he
      · obtain rfl := List.mem_singleton.mp he
        exact ⟨hcomp, by rw [hraw, hctx]; exact hinv.window⟩

theorem IndexedTo.append {list : List GzipAccessPointEntry} {k : ℕ}
    (hl : IndexedTo m list k) {entry : GzipAccessPointEntry}
    (hb : m.bounds[k]? = some entry.point) (hk : k + 1 < m.bounds.length)
    (hdue : Due ((pointsUpTo m k).getLast?.map Boundary.raw) entry.point) :
    IndexedTo m (list ++ [entry]) (k + 1) := by
  have hpoints : (list ++ [entry]).map GzipAccessPointEntry.point = pointsUpTo m (k + 1) := by
    rw [pointsUpTo_succ hb hk, if_pos hdue, List.map_append, hl.points]
    rfl
  refine ⟨hpoints, fun e he => ?_⟩
  rw [List.getLast?_concat] at he
  cases he
  exact ⟨k, hk, hb, hpoints⟩

theorem IndexedTo.skip {list : List GzipAccessPointEntry} {k : ℕ} (hl : IndexedTo m list k)
    {b : Boundary} (hb : m.bounds[k]? = some b)
    (hskip : m.bounds.length ≤ k + 1 ∨ ¬Due ((pointsUpTo m k).getLast?.map Boundary.raw) b) :
    IndexedTo m list (k + 1) := by
  refine ⟨?_, hl.indexed⟩
  rw [hl.points]
  rcases Nat.lt_or_ge (k + 1) m.bounds.length with hk | hk
  · rw [pointsUpTo_succ hb hk, if_neg (hskip.resolve_left (by omega))]
  · rw [pointsUpTo_last hk, pointsUpTo_last (by omega)]

/-- How much of the member is ahead; every call of `inflate` that leaves input makes it less. -/
def remaining (m : Member) (p : Pos) : ℕ :=
  m.bounds.length - p.next + (m.content.length - p.raw)

/-- How the loop over a chunk ends: behind an access point that is far enough, with all of the
input taken, or at the end of the stream. -/
def ChunkDone (h : Decompresses z m) (s₀ : IndexState z.State) (exact : Prop) (max : ℤ)
    (s : IndexState z.State) : Prop :=
  ∃ input availOut p, LoopInv h s₀ s exact input availOut p ∧
    IndexedTo m s.reader.list p.next ∧
    (max < s.rawByteCounter + span ∨ Stage h s [] exact p)

theorem remaining_lt {q : Pos} (hq : Within m q)
    (hlt : p.next < q.next ∧ p.raw ≤ q.raw ∨ p.next = q.next ∧ p.raw < q.raw ∧
      q.raw ≤ m.content.length) : remaining m q < remaining m p := by
  have := hq.next_le
  unfold remaining
  omega

theorem stage_boundary {b : Boundary} {room : ℕ} {r : Inflated z.State}
    (hb : m.bounds[p.next]? = some b) (hcomp : s.compressedByteCounter = p.comp)
    (ahead : input <+: m.file.drop p.comp) (hpos : p.comp + input.length = s.reader.pos)
    (hle : r.consumed ≤ input.length) (comp : p.comp + r.consumed = b.comp)
    (at_next : h.At r.state ⟨b.comp, b.raw, p.next + 1⟩ exact) :
    Stage h (s.advance r room) (input.drop r.consumed) exact ⟨b.comp, b.raw, p.next + 1⟩ := by
  refine .running at_next (within_next hb) ?_ ?_ ?_
  · rw [← comp, ← hcomp]
    rfl
  · rw [← comp]
    exact prefix_drop ahead hle
  · change b.comp + (input.drop r.consumed).length = s.reader.pos
    rw [List.length_drop]
    omega

theorem stage_inside {room raw : ℕ} {r : Inflated z.State}
    (hcomp : s.compressedByteCounter = p.comp) (ahead : input <+: m.file.drop p.comp)
    (hpos : p.comp + input.length = s.reader.pos) (hle : r.consumed ≤ input.length)
    (hwithin : Within m ⟨p.comp + r.consumed, raw, p.next⟩)
    (at_inside : h.At r.state ⟨p.comp + r.consumed, raw, p.next⟩ exact) :
    Stage h (s.advance r room) (input.drop r.consumed) exact
      ⟨p.comp + r.consumed, raw, p.next⟩ := by
  refine .running at_inside hwithin ?_ (prefix_drop ahead hle) ?_
  · rw [← hcomp]
    rfl
  · change p.comp + r.consumed + (input.drop r.consumed).length = s.reader.pos
    rw [List.length_drop]
    omega

/-- The rest of an iteration that goes on while there is input. -/
def continueChunk (z : Library) (max : ℤ) (fuel : ℕ) (s : IndexState z.State)
    (input : List UInt8) (availOut : ℕ) : Outcome (Ret × IndexState z.State) :=
  if input ≠ [] then indexNextChunkLoop z max fuel s input availOut else .ok (.ok, s)

theorem indexNextChunkLoop_succ {max : ℤ} {fuel room : ℕ}
    (hroom : room = if availOut = 0 then windowSize else availOut) {r : Inflated z.State}
    (hr : r = z.inflate s.stream .block input room) (hret : r.ret = .ok) {due : Bool}
    (hdue : pointDue s.reader.list (s.rawByteCounter + r.output.length) r.dataType = .ok due) :
    indexNextChunkLoop z max (fuel + 1) s input availOut =
      if due then
        let s' := (s.advance r room).append (createAccessPointEntry
          (s.rawByteCounter + r.output.length) (s.compressedByteCounter + r.consumed)
          (r.dataType &&& 7) (room - r.output.length) (s.advance r room).context)
        if max < (s.rawByteCounter + r.output.length : ℕ) + span then .ok (.ok, s')
        else continueChunk z max fuel s' (input.drop r.consumed) (room - r.output.length)
      else continueChunk z max fuel (s.advance r room) (input.drop r.consumed)
        (room - r.output.length) := by
  have hdue' : pointDue (s.advance r room).reader.list (s.advance r room).rawByteCounter
      r.dataType = .ok due := hdue
  rw [indexNextChunkLoop]
  simp only [← hroom, ← hr, hret, hdue', Outcome.ok_bind, reduceCtorEq, or_self, if_false]
  cases due <;> rfl

theorem indexNextChunkLoop_end {max : ℤ} {fuel room : ℕ}
    (hroom : room = if availOut = 0 then windowSize else availOut) {r : Inflated z.State}
    (hr : r = z.inflate s.stream .block input room) (hret : r.ret = .streamEnd) :
    indexNextChunkLoop z max (fuel + 1) s input availOut = .ok (.ok, s.advance r room) := by
  rw [indexNextChunkLoop]
  simp only [← hroom, ← hr, hret, reduceCtorEq, or_self, if_false, if_true, Outcome.pure_eq]

theorem entry_point {b : Boundary} {r : Inflated z.State} {left : ℕ} {context : List UInt8}
    (hb : b ∈ m.bounds) (hcomp : s.compressedByteCounter + r.consumed = b.comp)
    (hraw : s.rawByteCounter + r.output.length = b.raw) (hdata : r.dataType = b.bits + 128) :
    (createAccessPointEntry (s.rawByteCounter + r.output.length)
      (s.compressedByteCounter + r.consumed) (r.dataType &&& 7) left context).point = b := by
  obtain ⟨-, -, h7, -⟩ := dataType_boundary (m.bits_lt b hb)
  simp only [createAccessPointEntry, GzipAccessPointEntry.point, hcomp, hraw, hdata, h7]

theorem LoopInv.append_due {b : Boundary} {r : Inflated z.State} {room : ℕ} {rest : List UInt8}
    {q : Pos} (hinv : LoopInv h s₀ (s.advance r room) exact rest (room - r.output.length) q)
    (hlist : IndexedTo m s.reader.list p.next) (hb : m.bounds[p.next]? = some b)
    (hk : p.next + 1 < m.bounds.length)
    (hdue : Due ((pointsUpTo m p.next).getLast?.map Boundary.raw) b)
    (hcomp : s.compressedByteCounter + r.consumed = b.comp)
    (hraw : s.rawByteCounter + r.output.length = b.raw) (hdata : r.dataType = b.bits + 128)
    (haddr : s.compressedByteCounter + r.consumed ≤ s.reader.pos) {entry : GzipAccessPointEntry}
    (hentry : entry = createAccessPointEntry (s.rawByteCounter + r.output.length)
      (s.compressedByteCounter + r.consumed) (r.dataType &&& 7) (room - r.output.length)
      (s.advance r room).context) :
    LoopInv h s₀ ((s.advance r room).append entry) exact rest (room - r.output.length) q ∧
      IndexedTo m (s.reader.list ++ [entry]) (p.next + 1) := by
  have hpoint : entry.point = b := by
    rw [hentry]
    exact entry_point (List.mem_of_getElem? hb) hcomp hraw hdata
  have hctx : entry.context = Circular.unwrap (s.advance r room).context
      (windowSize - (room - r.output.length)) := by
    rw [hentry]
    exact createAccessPointEntry_context hinv.length hinv.room
  refine ⟨hinv.append ?_ (by rw [hentry]; rfl) hctx,
    hlist.append (hpoint ▸ hb) hk (hpoint ▸ hdue)⟩
  rw [hentry]
  exact haddr

/-- The loop over a chunk ends for enough fuel, and keeps the invariant. -/
theorem indexNextChunkLoop_ok (max : ℤ) {fuel : ℕ}
    (hinv : LoopInv h s₀ s exact input availOut p) (hlist : IndexedTo m s.reader.list p.next)
    (hin : input ≠ []) (hf : remaining m p < fuel) :
    ∃ s', indexNextChunkLoop z max fuel s input availOut = .ok (.ok, s') ∧
      ChunkDone h s₀ exact max s' := by
  induction fuel generalizing s input availOut p with
  | zero => omega
  | succ fuel ih =>
    obtain ⟨room, hroom⟩ : ∃ room, room = if availOut = 0 then windowSize else availOut :=
      ⟨_, rfl⟩
    have hpos : 0 < room := by
      have : 0 < windowSize := Nat.succ_pos 32767
      split_ifs at hroom <;> omega
    obtain ⟨r, hr⟩ : ∃ r, r = z.inflate s.stream .block input room := ⟨_, rfl⟩
    have hconsumed : r.consumed ≤ input.length := hr ▸ h.consumed_le _ _ _ _
    have houtput : r.output.length ≤ room := hr ▸ h.output_le _ _ _ _
    have hcontinue : ∀ {s' : IndexState z.State} {availOut' : ℕ} {q : Pos},
        LoopInv h s₀ s' exact (input.drop r.consumed) availOut' q →
        IndexedTo m s'.reader.list q.next →
        (remaining m q < remaining m p ∨ input.drop r.consumed = []) →
        ∃ s'', continueChunk z max fuel s' (input.drop r.consumed) availOut' = .ok (.ok, s'') ∧
          ChunkDone h s₀ exact max s'' := by
      intro s' availOut' q hinv' hlist' hless
      rw [continueChunk]
      by_cases hempty : input.drop r.consumed = []
      · rw [if_neg (not_not_intro hempty)]
        exact ⟨s', rfl, _, _, q, hinv', hlist', Or.inr (hempty ▸ hinv'.stage)⟩
      · rw [if_pos hempty]
        exact ih hinv' hlist' hempty (by have := hless.resolve_right hempty; omega)
    cases hinv.stage with
    | running at_pos within comp ahead pos =>
      have hcont : exact → Continues m.content p.raw r.output := fun he =>
        hr ▸ h.exact _ _ _ _ _ _ at_pos he ahead
      rcases Nat.lt_or_eq_of_le within.next_le with hlt | hend
      · obtain ⟨hret, hstep⟩ := h.block _ _ _ _ _ at_pos hlt hin hpos ahead
        rw [← hr] at hret hstep
        cases hstep with
        | boundary b hb hcomp hraw dataType at_next =>
          have hinv' := hinv.step hroom houtput hcont hraw
            (stage_boundary hb comp ahead pos hconsumed hcomp at_next)
          have hless := remaining_lt (within_next hb)
            (Or.inl ⟨Nat.lt_succ_self p.next, (within.ahead b hb).1⟩)
          have hcomp' : s.compressedByteCounter + r.consumed = b.comp := by rw [comp, hcomp]
          have hraw' : s.rawByteCounter + r.output.length = b.raw := by rw [hinv.raw, hraw]
          have hbits := dataType_boundary (m.bits_lt b (List.mem_of_getElem? hb))
          by_cases hlast : p.next + 1 = m.bounds.length
          · rw [if_pos hlast] at dataType
            rw [indexNextChunkLoop_succ hroom hr hret
              (pointDue_none (Or.inr (dataType ▸ hbits.2.2.2)))]
            exact hcontinue hinv' (hlist.skip hb (Or.inl hlast.ge)) (Or.inl hless)
          · have hk : p.next + 1 < m.bounds.length := by omega
            rw [if_neg hlast, Nat.add_zero] at dataType
            have hdue := pointDue_eq hb hk hlist.points
            rw [← hraw', ← dataType] at hdue
            rw [indexNextChunkLoop_succ hroom hr hret hdue]
            by_cases hd : Due ((pointsUpTo m p.next).getLast?.map Boundary.raw) b
            · obtain ⟨hinv'', hlist'⟩ := hinv'.append_due hlist hb hk hd hcomp' hraw' dataType
                (by omega) rfl
              rw [decide_eq_true hd, if_pos rfl]
              dsimp only
              split_ifs with hmax
              · exact ⟨_, rfl, _, _, _, hinv'', hlist', Or.inl hmax⟩
              · exact hcontinue hinv'' hlist' (Or.inl hless)
            · rw [decide_eq_false hd]
              exact hcontinue hinv' (hlist.skip hb (Or.inr hd)) (Or.inl hless)
        | inside b hb hcomp hraw dataType exhausted at_inside =>
          have hwithin : Within m ⟨p.comp + r.consumed, p.raw + r.output.length, p.next⟩ := by
            refine ⟨within.next_le, fun c hc => ?_, fun heq => absurd heq hlt.ne⟩
            rw [hb] at hc
            cases hc
            exact ⟨hraw, hcomp⟩
          have hinv' := hinv.step hroom houtput hcont rfl
            (stage_inside comp ahead pos hconsumed hwithin at_inside)
          rw [indexNextChunkLoop_succ hroom hr hret (pointDue_none (Or.inl dataType))]
          refine hcontinue hinv' hlist ?_
          rcases exhausted with ⟨hall, -⟩ | hfull
          · exact Or.inr (by rw [hall, List.drop_length])
          · have hle := (bound_le_last (List.mem_of_getElem? hb)).1
            exact Or.inl (remaining_lt hwithin (Or.inr ⟨rfl, by dsimp only; omega, by
              dsimp only; omega⟩))
      · have hstep := h.trailer _ _ _ _ _ at_pos hend hin hpos ahead
        rw [← hr] at hstep
        cases hstep with
        | stop ret output at_done =>
          have hinv' := hinv.step hroom houtput hcont (q := p) (by simp [output])
            (.finished at_done hend (within.ended hend))
          rw [indexNextChunkLoop_end hroom hr ret]
          exact ⟨_, rfl, _, _, p, hinv', hlist,
            Or.inr (.finished at_done hend (within.ended hend))⟩
        | more ret output dataType exhausted at_inside =>
          have hwithin : Within m ⟨p.comp + r.consumed, p.raw, p.next⟩ := by
            refine ⟨within.next_le, fun c hc => ?_, within.ended⟩
            rw [List.getElem?_eq_none hend.ge] at hc
            cases hc
          have hinv' := hinv.step hroom houtput hcont (by simp [output])
            (stage_inside comp ahead pos hconsumed hwithin at_inside)
          rw [indexNextChunkLoop_succ hroom hr ret (pointDue_none (Or.inl dataType))]
          exact hcontinue hinv' hlist (Or.inr (by rw [exhausted, List.drop_length]))
    | finished done next raw =>
      obtain ⟨hret, hout, hdone⟩ := h.done s.stream .block input room done
      rw [← hr] at hret hout hdone
      have hinv' := hinv.step hroom houtput (fun _ => by simp [hout, Continues]) (q := p)
        (by simp [hout]) (.finished hdone next raw)
      rw [indexNextChunkLoop_end hroom hr hret]
      exact ⟨_, rfl, _, _, p, hinv', hlist, Or.inr (.finished hdone next raw)⟩

end

end Spotlight.Gzip
