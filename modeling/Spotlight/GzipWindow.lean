import Spotlight.GzipCanonical

/-! The windows of the access points. A chunk of input starts at the front of the circular
window again, so a point close behind the start of a chunk gets the window in a wrong order. -/
namespace Spotlight.Gzip
open Bytes Zlib

variable {z : Library} {m : Member} {σ : Type}

theorem precedes_of_long {content window out : List UInt8} {raw : ℕ}
    (hlen : window.length = windowSize) (hlong : windowSize ≤ out.length)
    (hout : Continues content raw out) :
    Precedes content (raw + out.length) ((window ++ out).drop out.length) := by
  refine ⟨by rw [List.length_drop, List.length_append, hlen]; omega, ?_⟩
  obtain ⟨k, hk⟩ : ∃ k, out.length = windowSize + k := Nat.exists_eq_add_of_le hlong
  have hmin : min (raw + out.length) windowSize = windowSize := by omega
  have htail : (window ++ out).drop out.length = out.drop k := by
    rw [hk, ← hlen, ← List.drop_drop, List.drop_left]
  have hslice : out.drop k = (slice content raw out.length).drop k := congrArg _ hout
  have hstart : raw + out.length - windowSize = raw + k := by omega
  rw [hmin, Nat.sub_self, List.drop_zero, htail, hslice, drop_slice, hstart, hk,
    Nat.add_sub_cancel]

theorem precedes_of_bytes {content window out : List UInt8} {raw : ℕ}
    (hlen : window.length = windowSize) (hout : Continues content raw out)
    (hinside : raw + out.length ≤ content.length)
    (hbytes : ∀ j < windowSize, out.length ≤ j → windowSize ≤ raw + j →
      window.getD j 0 = content.getD (raw + j - windowSize) 0) :
    Precedes content (raw + out.length) ((window ++ out).drop out.length) := by
  by_cases hlong : windowSize ≤ out.length
  · exact precedes_of_long hlen hlong hout
  obtain ⟨k, hk⟩ : ∃ k, k = min (raw + out.length) windowSize := ⟨_, rfl⟩
  obtain ⟨i, hi⟩ : ∃ i, i = out.length + (windowSize - k) := ⟨_, rfl⟩
  have hold : window.drop i = slice content (raw + out.length - k) (k - out.length) := by
    apply List.ext_getElem?
    intro t
    rw [List.getElem?_drop, getElem?_slice]
    split_ifs with ht
    · have hbyte := hbytes (i + t) (by omega) (by omega) (by omega)
      have hplace : raw + (i + t) - windowSize = raw + out.length - k + t := by omega
      rw [hplace, List.getD_eq_getElem _ _ (by omega), List.getD_eq_getElem _ _ (by omega)] at hbyte
      rw [List.getElem?_eq_getElem (by omega), List.getElem?_eq_getElem (by omega), hbyte]
    · exact List.getElem?_eq_none (by omega)
  have hjoin : raw + out.length - k + (k - out.length) = raw := by omega
  have hwhole := slice_append content (raw + out.length - k) (k - out.length) out.length
  rw [hjoin, ← hout, Nat.sub_add_cancel (by omega)] at hwhole
  refine ⟨by rw [List.length_drop, List.length_append, hlen]; omega, ?_⟩
  rw [← hk, List.drop_drop, ← hi, List.drop_append_of_le_length (by omega), hold, hwhole]

/-- The byte at place `j` of the window when a chunk begins at `raw`: one of the last chunk that put
out more than `j` bytes, or that of the stack. The earlier chunks of the build began at `starts`,
the last one first. -/
def windowByte (stack content : List UInt8) : ℕ → List ℕ → ℕ → UInt8
  | _, [], j => stack.getD j 0
  | raw, start :: starts, j =>
    if j < raw - start then content.getD (start + Circular.lastAt windowSize (raw - start) j) 0
    else windowByte stack content start starts j

/-- Whether a chunk records right windows. For each access point of the file that may come next in
it, the places of the window that the chunk has not written by then must hold the bytes before it;
there is no such place when the point lies a whole window behind the start of the chunk. -/
def ChunkSafe (m : Member) (stack : List UInt8) (starts : List ℕ) (s : IndexState σ) : Prop :=
  ∀ last ∈ s.reader.list.getLast?, ∀ b ∈ canonicalPoints m,
    (last.rawByteAddress : ℤ) + span < b.raw → b.comp ≤ s.reader.pos + chunk →
      ∀ j < windowSize, b.raw ≤ s.rawByteCounter + j → windowSize ≤ s.rawByteCounter + j →
        windowByte stack m.content s.rawByteCounter starts j =
          m.content.getD (s.rawByteCounter + j - windowSize) 0

/-- The same for the chunks of a build, one after the other. -/
def ChunksSafe (m : Member) (stack : List UInt8) : List ℕ → List (IndexState σ) → Prop
  | _, [] => True
  | starts, s :: chunks =>
    ChunkSafe m stack starts s ∧ ChunksSafe m stack (s.rawByteCounter :: starts) chunks

/-- The window holds what the stack and the chunks before have left in it. -/
def Stands (m : Member) (stack : List UInt8) (starts : List ℕ) (s : IndexState σ) : Prop :=
  ∀ j < windowSize, s.context.getD j 0 = windowByte stack m.content s.rawByteCounter starts j

/-- All windows of the list are right. -/
def Windowed (m : Member) (list : List GzipAccessPointEntry) : Prop :=
  ∀ entry ∈ list, Precedes m.content entry.rawByteAddress entry.context

theorem selectPoints_behind {last : ℕ} {bs : List Boundary} (hle : ∀ b ∈ bs, last ≤ b.raw)
    (hsorted : bs.Pairwise fun a b => a.raw ≤ b.raw) :
    ∀ b ∈ selectPoints (some last) bs, b.raw = 0 ∨ (last : ℤ) + span < b.raw := by
  induction bs generalizing last with
  | nil => simp [selectPoints]
  | cons c bs ih =>
    intro b hb
    obtain ⟨hc, hrest⟩ := List.pairwise_cons.mp hsorted
    have hlast := hle c List.mem_cons_self
    rw [selectPoints] at hb
    split_ifs at hb with hdue
    · have hc' : c.raw = 0 ∨ (last : ℤ) + span < c.raw := by simpa [Due] using hdue
      rcases List.mem_cons.mp hb with rfl | hb
      · exact hc'
      · rcases ih hc hrest b hb with hzero | hfar
        · exact Or.inl hzero
        · exact Or.inr (by omega)
    · exact ih (fun d hd => hle d (List.mem_cons_of_mem _ hd)) hrest b hb

theorem selectPoints_apart (last : Option ℕ) {bs : List Boundary}
    (hsorted : bs.Pairwise fun a b => a.raw ≤ b.raw) :
    (selectPoints last bs).Pairwise fun a b => b.raw = 0 ∨ (a.raw : ℤ) + span < b.raw := by
  induction bs generalizing last with
  | nil => exact List.Pairwise.nil
  | cons c bs ih =>
    obtain ⟨hc, hrest⟩ := List.pairwise_cons.mp hsorted
    rw [selectPoints]
    split_ifs with hdue
    · exact List.pairwise_cons.mpr ⟨selectPoints_behind hc hrest, ih _ hrest⟩
    · exact ih _ hrest

theorem bounds_dropLast_sorted (m : Member) (k : ℕ) :
    (m.bounds.dropLast.take k).Pairwise fun a b => a.raw ≤ b.raw :=
  ((m.sorted.imp fun h => h.1).sublist (List.dropLast_sublist _)).sublist (List.take_sublist _ _)

theorem entry_behind {old new : List GzipAccessPointEntry} {k : ℕ}
    (hi : IndexedTo m (old ++ new) k) {last entry : GzipAccessPointEntry}
    (hlast : old.getLast? = some last) (he : entry ∈ new) :
    entry.point ∈ m.bounds.dropLast ∧
      (entry.rawByteAddress = 0 ∨ (last.rawByteAddress : ℤ) + span < entry.rawByteAddress) := by
  have hmem : entry.point ∈ pointsUpTo m k := by
    rw [← hi.points]
    exact List.mem_map_of_mem (List.mem_append_right _ he)
  refine ⟨List.mem_of_mem_take (selectPoints_subset _ _ _ hmem), ?_⟩
  have hapart := selectPoints_apart none (bounds_dropLast_sorted m k)
  rw [← pointsUpTo, ← hi.points, List.map_append, List.pairwise_append] at hapart
  exact hapart.2.2 _ (List.mem_map_of_mem (List.mem_of_getLast? hlast)) _ (List.mem_map_of_mem he)

theorem raw_of_empty {s : IndexState σ} {p : Pos} (hi : IndexedAt m s p)
    (hempty : s.reader.list = []) : s.rawByteCounter = 0 := by
  have hpoints := hi.indexed.points
  rw [hempty, List.map_nil] at hpoints
  have hnext : p.next = 0 := by
    by_contra hne
    exact pointsUpTo_one (Nat.pos_of_ne_zero hne) hpoints.symm
  have htwo := m.two_le
  obtain ⟨b, hb⟩ : ∃ b, m.bounds[0]? = some b := ⟨_, List.getElem?_eq_getElem (by omega)⟩
  have hahead := hi.ahead b (by rw [hnext, List.drop_zero]; exact List.mem_of_getElem? hb)
  have hzero := m.first_raw b hb
  have hraw := hi.raw
  omega

theorem windowed_chunk {s : IndexState σ} {p : Pos} {list : List GzipAccessPointEntry} {k : ℕ}
    {exact : Prop} (he : exact) (hi : IndexedAt m s p) (hlist : IndexedTo m list k)
    (hadded : Added m s exact (s.reader.pos + chunk) list) {stack : List UInt8} {starts : List ℕ}
    (hstands : Stands m stack starts s) (hsafe : ChunkSafe m stack starts s)
    (hold : Windowed m s.reader.list) : Windowed m list := by
  obtain ⟨new, rfl, hnew⟩ := hadded
  intro entry hentry
  rcases List.mem_append.mp hentry with hmem | hmem
  · exact hold entry hmem
  obtain ⟨hcomp, out, hraw, hcontext, hcont⟩ := hnew entry hmem
  have hpoint : entry.point ∈ canonicalPoints m :=
    (indexed_isPrefix hlist.indexed).subset (List.mem_map_of_mem hentry)
  have hinside : entry.rawByteAddress ≤ m.content.length :=
    (bound_le_last (List.mem_of_mem_dropLast (selectPoints_subset _ _ _ hpoint))).1
  rw [hraw] at hinside
  rw [hraw, hcontext]
  refine precedes_of_bytes hi.length (hcont he) hinside fun j hj hbehind hwindow => ?_
  have hpos : s.rawByteCounter ≠ 0 := by omega
  cases hlast : s.reader.list.getLast? with
  | none => exact absurd (raw_of_empty hi (List.getLast?_eq_none_iff.mp hlast)) hpos
  | some last =>
    obtain ⟨-, hzero | hspan⟩ := entry_behind hlist hlast hmem
    · omega
    · have hplace : entry.point.raw ≤ s.rawByteCounter + j := by
        change entry.rawByteAddress ≤ _
        omega
      rw [hstands j hj]
      exact hsafe last hlast entry.point hpoint hspan hcomp j hj hplace hwindow

/-- Each chunk of a build finds the window as the chunks before have left it. -/
theorem buildChunks_stand {h : Decompresses z m} {max : ℤ} {fuel : ℕ} {s : IndexState z.State}
    {p : Pos} {exact : Prop} (he : exact) (hs : Stage h s [] exact p) (hi : IndexedAt m s p)
    (hf : m.file.length - s.reader.pos + m.bounds.length + m.content.length + 1 < fuel)
    {stack : List UInt8} {starts : List ℕ} (hstands : Stands m stack starts s)
    (hsafe : ChunksSafe m stack starts (buildChunks z max fuel s)) :
    ∀ c ∈ buildChunks z max fuel s, ∃ starts, Stands m stack starts c ∧
      ChunkSafe m stack starts c := by
  induction fuel generalizing s p starts with
  | zero => omega
  | succ fuel ih =>
    have hrem : remaining m p < fuel := by
      unfold remaining
      omega
    obtain ⟨ret, s', hchunk, -, hwound, p', hi', hend⟩ := indexNextChunk_ok hs hi max hrem
    have hnext : Stands m stack (s.rawByteCounter :: starts) s' := by
      intro j hj
      rw [hwound he j hj, windowByte, hstands j hj]
    simp only [buildChunks, hchunk] at hsafe ⊢
    obtain ⟨hfirst, hrest⟩ := hsafe
    intro c hc
    rcases List.mem_cons.mp hc with rfl | hc
    · exact ⟨starts, hstands, hfirst⟩
    · by_cases hmax : max < s'.rawByteCounter + span
      · cases ret <;> simp [hmax] at hc
      · rcases hend.resolve_left hmax with ⟨rfl, hstage, hpos, hless⟩ | ⟨rfl, -⟩
        · simp only [if_neg hmax] at hrest hc
          exact ih hstage hi' (by omega) hnext hrest c hc
        · simp at hc

theorem buildStart_context {reader reader' : GzipReader} {stack : List UInt8}
    {s : IndexState z.State} (hs : buildStart z reader stack = (some s, reader')) :
    s.context = stack := by
  rw [buildStart] at hs
  cases hlast : reader.list.getLast? with
  | none =>
    rw [hlast] at hs
    cases hs
    rfl
  | some entry =>
    rw [hlast] at hs
    obtain ⟨stream, -, rfl⟩ := Option.map_eq_some_iff.mp (congrArg Prod.fst hs)
    rfl

theorem requestChunks_stand (h : Decompresses z m) {fuel : ℕ} (hf : enoughFuel m < fuel)
    {reader : GzipReader} (hr : ReaderInv m reader) (hw : Windowed m reader.list)
    (hstart : Resumable reader) {stack : List UInt8} (hstack : stack.length = windowSize) {max : ℤ}
    (hsafe : ChunksSafe m stack [] (requestChunks z fuel reader stack max)) :
    ∀ c ∈ requestChunks z fuel reader stack max, ∃ starts, Stands m stack starts c ∧
      ChunkSafe m stack starts c := by
  obtain ⟨s, reader', p, exact, hs, hstage, hi, -, hexact⟩ := buildStart_ok h hr hstart hstack
  rw [requestChunks] at hsafe ⊢
  split_ifs at hsafe ⊢
  · simp
  · rw [hs] at hsafe ⊢
    have hfuel : m.file.length - s.reader.pos + m.bounds.length + m.content.length + 1 < fuel := by
      unfold enoughFuel at hf
      omega
    have hstands : Stands m stack [] s := fun j _ => by rw [buildStart_context hs, windowByte]
    exact buildChunks_stand (hexact hw) hstage hi hfuel hstands hsafe

theorem windowed_request (h : Decompresses z m) {fuel : ℕ} (hf : enoughFuel m < fuel)
    {reader : GzipReader} (hr : ReaderInv m reader) (hw : Windowed m reader.list)
    (hstart : Resumable reader) {stack : List UInt8} (hstack : stack.length = windowSize) (max : ℤ)
    (hsafe : ChunksSafe m stack [] (requestChunks z fuel reader stack max)) :
    ∃ ret reader', checkAndBuildIndex z fuel reader stack max = .ok (ret, reader') ∧
      ReaderInv m reader' ∧ Windowed m reader'.list ∧ Served m reader'.list max := by
  refine checkAndBuildIndex_ok h hr hstart hstack max hf
    (fun _ hexact c hc _ _ _ hi hlist hadded hold => ?_) hw
  obtain ⟨starts, hstands, hsafe⟩ := requestChunks_stand h hf hr hw hstart hstack hsafe c hc
  exact windowed_chunk (hexact hw) hi hlist hadded hstands hsafe hold

def Moved (reader reader' : GzipReader) : Prop :=
  reader'.list = reader.list ∧ reader'.gzipFile = reader.gzipFile

theorem readNextChunk_moved (s : ReadState z.State) (room : ℕ) :
    Moved s.reader (readNextChunk z s room).2.1.reader := by
  unfold readNextChunk
  dsimp only
  split_ifs <;> exact ⟨rfl, rfl⟩

theorem fillOutput_moved {fuel room : ℕ} {s s' : ReadState z.State} {ret : Ret}
    {output : List UInt8} (hrun : fillOutput z fuel s room = .ok (ret, s', output)) :
    Moved s.reader s'.reader := by
  induction fuel generalizing s room ret output with
  | zero => cases hrun
  | succ fuel ih =>
    have hmoved := readNextChunk_moved s room
    rcases hread : readNextChunk z s room with ⟨ret₁, s₁, output₁⟩
    rw [fillOutput] at hrun
    simp only [hread] at hrun hmoved
    split_ifs at hrun
    · obtain ⟨⟨ret₂, s₂, more⟩, hrest, hrun⟩ := Outcome.bind_eq_ok.mp hrun
      cases hrun
      obtain ⟨hlist, hfile⟩ := ih hrest
      exact ⟨hlist.trans hmoved.1, hfile.trans hmoved.2⟩
    · cases hrun
      exact hmoved

theorem skipAndRead_moved {fuel length : ℕ} {offset : ℤ} {s s' : ReadState z.State} {ret : Ret}
    {output : List UInt8} (hrun : skipAndRead z length fuel s offset = .ok (ret, s', output)) :
    Moved s.reader s'.reader := by
  induction fuel generalizing s offset ret output with
  | zero => cases hrun
  | succ fuel ih =>
    rw [skipAndRead] at hrun
    split_ifs at hrun
    · exact fillOutput_moved hrun
    all_goals
      obtain ⟨⟨ret₁, s₁, output₁⟩, hfill, hrun⟩ := Outcome.bind_eq_ok.mp hrun
      obtain ⟨-, -, hrun⟩ := Outcome.bind_eq_ok.mp hrun
      have hmoved := fillOutput_moved hfill
      split_ifs at hrun
      · obtain ⟨hlist, hfile⟩ := ih hrun
        exact ⟨hlist.trans hmoved.1, hfile.trans hmoved.2⟩
      · cases hrun
        exact hmoved

theorem resumeAt_moved (reader : GzipReader) (entry : GzipAccessPointEntry) :
    Moved reader (resumeAt z reader entry).2 := by
  unfold resumeAt
  dsimp only
  split_ifs
  · split <;> exact ⟨rfl, rfl⟩
  · exact ⟨rfl, rfl⟩

theorem gzipReadBuffer_moved {fuel length : ℕ} {offset : ℤ} {reader reader' : GzipReader}
    {ret : Ret} {buffer : List UInt8}
    (hrun : gzipReadBuffer z fuel reader offset length = .ok (ret, reader', buffer)) :
    Moved reader reader' := by
  rw [gzipReadBuffer] at hrun
  split_ifs at hrun
  · cases hrun
    exact ⟨rfl, rfl⟩
  · cases hlist : reader.list with
    | nil =>
      rw [hlist] at hrun
      cases hrun
    | cons first rest =>
      rw [hlist] at hrun
      dsimp only at hrun
      rcases hresume : resumeAt z reader (searchEntry offset first rest) with ⟨stream, reader₁⟩
      have hmoved := resumeAt_moved (z := z) reader (searchEntry offset first rest)
      rw [hresume] at hrun hmoved
      cases stream with
      | none =>
        cases hrun
        exact hmoved
      | some stream =>
        obtain ⟨⟨ret₁, s₁, output⟩, hread, hrun⟩ := Outcome.bind_eq_ok.mp hrun
        cases hrun
        obtain ⟨hlist', hfile⟩ := skipAndRead_moved hread
        exact ⟨hlist'.trans hmoved.1, hfile.trans hmoved.2⟩

theorem gzipRead_list {fuel length : ℕ} {offset : ℤ} {reader reader' : GzipReader} {ret : ℤ}
    {stack buffer : List UInt8}
    (hrun : gzipRead z fuel reader stack offset length = .ok (reader', ret, buffer)) :
    ∃ ret₁ reader₁, checkAndBuildIndex z fuel reader stack (Int.bmod (offset + length) (2 ^ 64)) =
      .ok (ret₁, reader₁) ∧ Moved reader₁ reader' := by
  rw [gzipRead] at hrun
  obtain ⟨⟨ret₁, reader₁⟩, hindex, hrun⟩ := Outcome.bind_eq_ok.mp hrun
  obtain ⟨⟨ret₂, reader₂, buffer₂⟩, hread, hrun⟩ := Outcome.bind_eq_ok.mp hrun
  refine ⟨ret₁, reader₁, hindex, ?_⟩
  have hmoved := gzipReadBuffer_moved hread
  have hreader : reader' = reader₂ := by
    dsimp only at hrun
    split_ifs at hrun <;>
      simp only [Outcome.pure_eq, Except.ok.injEq, Prod.mk.injEq] at hrun <;> exact hrun.1.symm
  rw [hreader]
  exact hmoved

/-- The readers of a run of `gzip_read` calls, when each call finds a reader and takes chunks
that are allowed. -/
inductive Read (z : Library) (m : Member) (fuel : ℕ)
    (allowed : GzipReader → List UInt8 → List (IndexState z.State) → Prop) : GzipReader → Prop
  | opened : Read z m fuel allowed ⟨m.file, 0, []⟩
  | read {reader reader' : GzipReader} {stack : List UInt8} {offset : ℤ} {length : ℕ} {ret : ℤ}
      {buffer : List UInt8} (hr : Read z m fuel allowed reader) (hstack : stack.length = windowSize)
      (hallowed : allowed reader stack
        (requestChunks z fuel reader stack (Int.bmod (offset + length) (2 ^ 64))))
      (hrun : gzipRead z fuel reader stack offset length = .ok (reader', ret, buffer)) :
      Read z m fuel allowed reader'

/-- A call whose build can resume, and whose chunks record right windows. -/
def Careful (m : Member) (reader : GzipReader) (stack : List UInt8)
    (chunks : List (IndexState σ)) : Prop :=
  Resumable reader ∧ ChunksSafe m stack [] chunks

theorem ReaderInv.moved {reader reader' : GzipReader} (hr : ReaderInv m reader)
    (hmoved : Moved reader reader') : ReaderInv m reader' := by
  obtain ⟨hlist, hfile⟩ := hmoved
  exact ⟨hfile.trans hr.file, hlist ▸ hr.indexed, hlist ▸ hr.contexts⟩

/-- The invariant of a run of careful calls. -/
theorem read_inv (h : Decompresses z m) {fuel : ℕ} (hf : enoughFuel m < fuel)
    {reader : GzipReader} (hr : Read z m fuel (Careful m) reader) :
    ReaderInv m reader ∧ Windowed m reader.list := by
  induction hr with
  | opened => exact ⟨readerInv_open m, fun entry he => by cases he⟩
  | read hr hstack hallowed hrun ih =>
    obtain ⟨hstart, hsafe⟩ := hallowed
    obtain ⟨ret₁, reader₁, hindex, hmoved⟩ := gzipRead_list hrun
    obtain ⟨ret₂, reader₂, hindex', hinv, hw, -⟩ :=
      windowed_request h hf ih.1 ih.2 hstart hstack _ hsafe
    rw [hindex] at hindex'
    cases hindex'
    exact ⟨hinv.moved hmoved, hmoved.1 ▸ hw⟩

/-- Some byte of the window is 1 that the chunks of a stored file never write over, and so are
the access points' windows. -/
structure Stale (s : IndexState σ) : Prop where
  length : s.context.length = windowSize
  unwritten : 1 ∈ s.context.drop chunk
  entries : ∀ entry ∈ s.reader.list, 1 ∈ entry.context

theorem Stale.advance {s : IndexState σ} (hs : Stale s) {r : Inflated σ} {room : ℕ}
    (hroom : chunk + r.output.length ≤ room) (hle : room ≤ windowSize) :
    Stale (s.advance r room) := by
  have hchunk : windowSize = chunk + chunk := rfl
  refine ⟨(Circular.length_write (by rw [hs.length]; omega)).trans hs.length, ?_, hs.entries⟩
  change 1 ∈ (Circular.write s.context (windowSize - room) r.output).drop chunk
  have hhead : (s.context.take (windowSize - room) ++ r.output).length =
      windowSize - room + r.output.length := by
    rw [List.length_append, List.length_take, hs.length]
    omega
  have hback : chunk = windowSize - room + r.output.length +
      (chunk - (windowSize - room + r.output.length)) := by omega
  rw [Circular.write, hback, ← List.drop_drop, List.drop_left' hhead, List.drop_drop, ← hback]
  exact hs.unwritten

theorem Stale.append {s : IndexState σ} (hs : Stale s) (raw comp bits : ℕ) {left : ℕ}
    (hleft : chunk ≤ left) (hle : left ≤ windowSize) :
    Stale (s.append (createAccessPointEntry raw comp bits left s.context)) := by
  refine ⟨hs.length, hs.unwritten, fun entry he => ?_⟩
  rcases List.mem_append.mp he with he | he
  · exact hs.entries entry he
  · obtain rfl := List.mem_singleton.mp he
    have hchunk : windowSize = chunk + chunk := rfl
    have hstart : chunk = windowSize - left + (left - chunk) := by omega
    have hmem := hs.unwritten
    rw [hstart, ← List.drop_drop] at hmem
    rw [createAccessPointEntry_context hs.length hle]
    exact List.mem_append_left _ (List.mem_of_mem_drop hmem)

theorem indexNextChunkLoop_inv {max : ℤ} {fuel : ℕ} {s s' : IndexState z.State}
    {input : List UInt8} {availOut room : ℕ} {ret : Ret} {r : Inflated z.State}
    (hroom : room = if availOut = 0 then windowSize else availOut)
    (hr : r = z.inflate s.stream .block input room)
    (hrun : indexNextChunkLoop z max (fuel + 1) s input availOut = .ok (ret, s')) :
    ∃ s₁, (s₁ = s.advance r room ∨ s₁ = (s.advance r room).append
        (createAccessPointEntry (s.advance r room).rawByteCounter
          (s.advance r room).compressedByteCounter (r.dataType &&& 7) (room - r.output.length)
          (s.advance r room).context)) ∧
      (s' = s₁ ∨ indexNextChunkLoop z max fuel s₁ (input.drop r.consumed)
        (room - r.output.length) = .ok (ret, s')) := by
  rw [indexNextChunkLoop] at hrun
  simp only [← hroom, ← hr] at hrun
  by_cases herror : r.ret = .memError ∨ r.ret = .dataError ∨ r.ret = .needDict
  · rw [if_pos herror] at hrun
    cases hrun
    exact ⟨_, Or.inl rfl, Or.inl rfl⟩
  by_cases hend : r.ret = .streamEnd
  · rw [if_neg herror, if_pos hend] at hrun
    cases hrun
    exact ⟨_, Or.inl rfl, Or.inl rfl⟩
  rw [if_neg herror, if_neg hend] at hrun
  obtain ⟨due, -, hrun⟩ := Outcome.bind_eq_ok.mp hrun
  cases due with
  | false =>
    refine ⟨_, Or.inl rfl, ?_⟩
    simp only [Bool.false_eq_true, if_false] at hrun
    split_ifs at hrun
    · exact Or.inr hrun
    · cases hrun
      exact Or.inl rfl
  | true =>
    refine ⟨_, Or.inr rfl, ?_⟩
    simp only [if_true] at hrun
    split_ifs at hrun
    · cases hrun
      exact Or.inl rfl
    · exact Or.inr hrun
    · cases hrun
      exact Or.inl rfl

end Spotlight.Gzip
