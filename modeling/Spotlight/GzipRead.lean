import Spotlight.GzipBuild
import Spotlight.StoredInflate

/-! Reading from an access point: `_gzip_read` skips to its offset and delivers the bytes of
the content there, wherever the chunks of input end. -/
namespace Spotlight.Gzip
open Bytes Zlib

variable {z : Library} {m : Member}

/-- A raw stream with the right window inside the content, with the rest of a chunk ahead. -/
structure ReadAt (h : Decompresses z m) (exact : Prop) (s : ReadState z.State) (p : Pos) :
    Prop where
  at_pos : h.At s.stream p exact
  raw : h.Raw s.stream
  file : s.reader.gzipFile = m.file
  ahead : s.input <+: m.file.drop p.comp
  pos : p.comp + s.input.length = s.reader.pos
  bound : ∃ b, m.bounds[p.next]? = some b ∧ p.comp ≤ b.comp
  inside : p.raw < m.content.length

section
variable {h : Decompresses z m} {exact : Prop} {s : ReadState z.State} {p : Pos} {room : ℕ}

theorem ReadAt.comp_lt (hs : ReadAt h exact s p) : p.comp < m.file.length := by
  obtain ⟨b, hb, hle⟩ := hs.bound
  have := (bound_le_last (List.mem_of_getElem? hb)).2
  omega

theorem ReadAt.refill (hs : ReadAt h exact s p) : ∃ input pos,
    (if s.input = [] then slice s.reader.gzipFile s.reader.pos chunk else s.input) = input ∧
    (if s.input = [] then s.reader.pos + input.length else s.reader.pos) = pos ∧
    input ≠ [] ∧ input <+: m.file.drop p.comp ∧ p.comp + input.length = pos := by
  by_cases hempty : s.input = []
  · have hpos := hs.pos
    rw [hempty, List.length_nil, Nat.add_zero] at hpos
    refine ⟨_, _, if_pos hempty, if_pos hempty, ?_, ?_, by rw [hpos]⟩
    · apply List.length_pos_iff.mp
      have hlt := hs.comp_lt
      have hchunk : 0 < chunk := Nat.succ_pos 16383
      rw [length_slice, hs.file]
      omega
    · rw [hs.file, ← hpos]
      exact List.take_prefix _ _
  · exact ⟨_, _, if_neg hempty, if_neg hempty, hempty, hs.ahead, hs.pos⟩

/-- One call of `read_next_chunk`: it comes to the end of the content, fills the room, or takes
all of its input. -/
theorem readNextChunk_ok (hs : ReadAt h exact s p) (he : exact) (hroom : 0 < room) :
    ∃ ret s' output, readNextChunk z s room = (ret, s', output) ∧ output.length ≤ room ∧
      Continues m.content p.raw output ∧
      (p.raw + output.length = m.content.length ∧
          (ret = .streamEnd ∨ ret = .ok ∧ output.length = room) ∨
        ret = .ok ∧ ∃ q, ReadAt h exact s' q ∧ q.raw = p.raw + output.length ∧
          (output.length = room ∨ p.comp < q.comp)) := by
  obtain ⟨input, pos, hinput, hpos, hne, hahead, hlen⟩ := hs.refill
  obtain ⟨r, hr⟩ : ∃ r, r = z.inflate s.stream .noFlush input room := ⟨_, rfl⟩
  have hrun : readNextChunk z s room =
      (r.ret, ⟨{ s.reader with pos }, r.state, input.drop r.consumed⟩, r.output) := by
    simp only [readNextChunk, hinput, hpos, if_neg hne, ← hr]
  have houtput : r.output.length ≤ room := hr ▸ h.output_le _ _ _ _
  have hconsumed : r.consumed ≤ input.length := hr ▸ h.consumed_le _ _ _ _
  have hcont : Continues m.content p.raw r.output :=
    hr ▸ h.exact _ _ _ _ _ _ hs.at_pos he hahead
  obtain ⟨b, hb, -⟩ := hs.bound
  obtain ⟨hnext, -⟩ := List.getElem?_eq_some_iff.mp hb
  have hflow := h.flow _ _ _ _ _ hs.at_pos hs.raw hnext hs.inside hne hroom hahead
  have hraw : h.Raw r.state := hr ▸ h.raw_inflate _ _ _ _ hs.raw
  rw [← hr] at hflow
  refine ⟨_, _, _, hrun, houtput, hcont, ?_⟩
  cases hflow with
  | stop ret raw => exact Or.inl ⟨raw, Or.inl ret⟩
  | full ret raw full => exact Or.inl ⟨raw, Or.inr ⟨ret, full⟩⟩
  | more ret raw exhausted next c hc comp at_inside =>
    refine Or.inr ⟨ret, _, ⟨at_inside, hraw, hs.file, prefix_drop hahead hconsumed, ?_,
      ⟨c, hc, comp⟩, raw⟩, rfl, ?_⟩
    · dsimp only
      rw [List.length_drop]
      omega
    · refine exhausted.symm.imp_right fun hall => ?_
      have := List.length_pos_iff.mpr hne
      dsimp only
      omega

theorem fillOutput_ok (hs : ReadAt h exact s p) (he : exact) (hroom : 0 < room)
    (hfit : p.raw + room ≤ m.content.length) {fuel : ℕ} (hf : m.file.length - p.comp < fuel) :
    ∃ ret s', fillOutput z fuel s room = .ok (ret, s', slice m.content p.raw room) ∧
      (ret = .ok ∨ ret = .streamEnd) ∧ (p.raw + room < m.content.length →
        ret = .ok ∧ ∃ q, ReadAt h exact s' q ∧ q.raw = p.raw + room) := by
  induction fuel generalizing s p room with
  | zero => omega
  | succ fuel ih =>
    obtain ⟨ret, s', output, hrun, hle, hcont, hcase⟩ := readNextChunk_ok hs he hroom
    rw [fillOutput]
    simp only [hrun]
    by_cases hfull : output.length = room
    · -- the room is full: the loop ends, whatever the stream returned
      rw [if_neg fun hmore => hmore.1 (by omega)]
      rw [Continues, hfull] at hcont
      rw [hcont]
      refine ⟨ret, s', rfl, ?_, fun hlt => ?_⟩
      · rcases hcase with ⟨-, hret | ⟨hret, -⟩⟩ | ⟨hret, -⟩
        · exact Or.inr hret
        · exact Or.inl hret
        · exact Or.inl hret
      · have hinside : p.raw + output.length ≠ m.content.length := by omega
        obtain ⟨hret, q, hq, hraw, -⟩ := hcase.resolve_left fun hend => hinside hend.1
        exact ⟨hret, q, hq, by rw [hraw, hfull]⟩
    · have hinside : p.raw + output.length ≠ m.content.length := by omega
      obtain ⟨rfl, q, hq, hraw, hcomp⟩ := hcase.resolve_left fun hend => hinside hend.1
      have hlt := hq.comp_lt
      have hcomp := hcomp.resolve_left hfull
      clear hcase
      have hroom' : 0 < room - output.length := by omega
      have hfit' : q.raw + (room - output.length) ≤ m.content.length := by omega
      have hfuel : m.file.length - q.comp < fuel := by omega
      obtain ⟨ret, s'', hrest, hret, hgo⟩ := ih hq hroom' hfit' hfuel
      rw [if_pos ⟨by omega, rfl⟩, hrest]
      have hall : output ++ slice m.content q.raw (room - output.length) =
          slice m.content p.raw room := by
        rw [hraw]
        nth_rewrite 1 [hcont]
        rw [slice_append, Nat.add_sub_cancel' hle]
      refine ⟨ret, s'', ?_, hret, fun hinside => ?_⟩
      · simp only [Outcome.ok_bind, Outcome.pure_eq, hall]
      · obtain ⟨hok, q', hq', hraw'⟩ := hgo (by omega)
        refine ⟨hok, q', hq', ?_⟩
        rw [hraw', hraw, Nat.add_assoc, Nat.add_sub_cancel' hle]

/-- The room of one skip, and the offset that is left behind it. -/
def skipRoom (offset : ℕ) : ℕ := min offset windowSize

theorem skip_eq (offset : ℕ) :
    (if (offset : ℤ) > windowSize then windowSize else ((offset : ℤ) % 2 ^ 32).toNat) =
      skipRoom offset ∧
    (if (offset : ℤ) > windowSize then (offset : ℤ) - windowSize else 0) =
      ((offset - skipRoom offset : ℕ) : ℤ) := by
  unfold skipRoom
  by_cases hfar : (offset : ℤ) > windowSize
  · rw [if_pos hfar, if_pos hfar, Nat.min_eq_right (by omega)]
    exact ⟨rfl, by omega⟩
  · have hle : offset ≤ windowSize := by omega
    have hfit : offset < 2 ^ 32 := lt_of_le_of_lt hle (by norm_num [windowSize])
    rw [if_neg hfar, if_neg hfar, Nat.min_eq_left hle, Nat.sub_self]
    refine ⟨?_, rfl⟩
    rw [Int.emod_eq_of_lt (Int.natCast_nonneg offset) (by exact_mod_cast hfit), Int.toNat_natCast]

theorem skipAndRead_skip (length offset : ℕ) (hs : ReadAt h exact s p) (he : exact)
    (hinside : p.raw + offset < m.content.length) {fuel : ℕ}
    (hf : offset + m.file.length + 1 < fuel) :
    ∃ fuel' s' q, skipAndRead z length fuel s offset = fillOutput z fuel' s' (length % 2 ^ 32) ∧
      m.file.length < fuel' ∧ ReadAt h exact s' q ∧ q.raw = p.raw + offset := by
  induction fuel generalizing s p offset with
  | zero => omega
  | succ fuel ih =>
    rw [skipAndRead]
    by_cases hzero : offset = 0
    · exact ⟨fuel, s, p, if_pos (by rw [hzero]; rfl), by omega, hs, by rw [hzero, Nat.add_zero]⟩
    · obtain ⟨hroom, hleft⟩ := skip_eq offset
      rw [if_neg (by exact_mod_cast hzero), hroom, hleft]
      have hpos : 0 < skipRoom offset :=
        lt_min (Nat.pos_of_ne_zero hzero) (Nat.succ_pos 32767)
      have hle : skipRoom offset ≤ offset := Nat.min_le_left _ _
      have hwindow : skipRoom offset ≤ windowSize := Nat.min_le_right _ _
      obtain ⟨ret, s', hrun, -, hgo⟩ :=
        fillOutput_ok hs he hpos (by omega) (by omega : m.file.length - p.comp < fuel)
      obtain ⟨rfl, q, hq, hraw⟩ := hgo (by omega)
      have hlen : (slice m.content p.raw (skipRoom offset)).length = skipRoom offset :=
        length_slice_of_le (by omega)
      have hdiscard : discard (slice m.content p.raw (skipRoom offset)) = .ok () := by
        rw [discard, hlen, if_pos hwindow]
      have hnext : q.raw + (offset - skipRoom offset) = p.raw + offset := by
        rw [hraw, Nat.add_assoc, Nat.add_sub_cancel' hle]
      obtain ⟨fuel', s'', q', hrest, hfuel, hq', hraw'⟩ :=
        ih (offset - skipRoom offset) hq (by omega) (by omega)
      refine ⟨fuel', s'', q', ?_, hfuel, hq', by rw [hraw', hnext]⟩
      simp only [hrun, hdiscard, Outcome.ok_bind, if_true, hrest]

end

/-- An access point that a reader may start from. -/
structure ValidEntry (m : Member) (entry : GzipAccessPointEntry) : Prop where
  boundary : entry.point ∈ m.bounds
  context : Precedes m.content entry.rawByteAddress entry.context

theorem searchEntry_ok {offset : ℤ} {current : GzipAccessPointEntry}
    (rest : List GzipAccessPointEntry) (hle : (current.rawByteAddress : ℤ) ≤ offset) :
    searchEntry offset current rest ∈ current :: rest ∧
      ((searchEntry offset current rest).rawByteAddress : ℤ) ≤ offset := by
  induction rest generalizing current with
  | nil => exact ⟨List.mem_cons_self, hle⟩
  | cons next rest ih =>
    rw [searchEntry]
    split_ifs with hlt
    · obtain ⟨hmem, hle'⟩ := ih hlt.le
      exact ⟨List.mem_cons_of_mem _ hmem, hle'⟩
    · exact ⟨List.mem_cons_self, hle⟩

theorem readAt_resume (h : Decompresses z m) {reader : GzipReader}
    (hfile : reader.gzipFile = m.file) {entry : GzipAccessPointEntry}
    (hentry : ValidEntry m entry) (hinside : entry.rawByteAddress < m.content.length) :
    ∃ st reader' p, resumeAt z reader entry = (some st, reader') ∧
      ReadAt h (Precedes m.content entry.rawByteAddress entry.context) ⟨reader', st, []⟩ p ∧
      p.raw = entry.rawByteAddress := by
  obtain ⟨i, hi⟩ := List.mem_iff_getElem?.mp hentry.boundary
  obtain ⟨hlt, -⟩ := List.getElem?_eq_some_iff.mp hi
  have hnext : i + 1 < m.bounds.length := by
    by_contra hlast
    have heq : m.bounds.length - 1 = i := by omega
    have hraw := (m.last_raw entry.point (by rw [heq]; exact hi)).1
    exact hinside.ne hraw
  obtain ⟨st, hrun, hat, hraw⟩ := resumeAt_ok h hfile hi hnext hentry.context.1
  have hb := List.getElem?_eq_getElem hnext
  exact ⟨st, _, _, hrun, ⟨hat, hraw, hfile, List.nil_prefix, rfl,
    ⟨_, hb, ((within_next hi).ahead _ hb).2⟩, hinside⟩, rfl⟩

/-- A read inside the content comes to its offset, whichever access points the list has. The
search needs no order of the list. -/
theorem gzipReadBuffer_at (h : Decompresses z m) {reader : GzipReader}
    (hfile : reader.gzipFile = m.file) {first : GzipAccessPointEntry}
    {rest : List GzipAccessPointEntry} (hlist : reader.list = first :: rest)
    (hfirst : first.rawByteAddress = 0) (hvalid : ∀ entry ∈ reader.list, ValidEntry m entry)
    {offset length : ℕ} (hpos : 0 < length) (hinside : offset < m.content.length) {fuel : ℕ}
    (hf : enoughFuel m < fuel) :
    ∃ (exact : Prop) (fuel' : ℕ) (s : ReadState z.State) (q : Pos), exact ∧ ReadAt h exact s q ∧
      q.raw = offset ∧ m.file.length < fuel' ∧
      gzipReadBuffer z fuel reader offset length = do
        let (ret, s, output) ← fillOutput z fuel' s (length % 2 ^ 32)
        return (ret, s.reader, output) := by
  have hzero : (first.rawByteAddress : ℤ) ≤ offset := by
    rw [hfirst]
    exact Int.natCast_nonneg offset
  obtain ⟨hmem, hle⟩ := searchEntry_ok rest hzero
  obtain ⟨current, hcurrent⟩ : ∃ current, searchEntry offset first rest = current := ⟨_, rfl⟩
  rw [hcurrent] at hmem hle
  have hentry := hvalid current (hlist ▸ hmem)
  have hbefore : current.rawByteAddress ≤ offset := by exact_mod_cast hle
  obtain ⟨st, reader', p, hresume, hread, hraw⟩ :=
    readAt_resume h hfile hentry (by omega)
  have hfuel : offset - current.rawByteAddress + m.file.length + 1 < fuel := by
    have := m.two_le
    unfold enoughFuel at hf
    omega
  have hsum : p.raw + (offset - current.rawByteAddress) = offset := by
    rw [hraw, Nat.add_sub_cancel' hbefore]
  obtain ⟨fuel', s, q, hskip, hfuel', hq, hqraw⟩ := skipAndRead_skip length
    (offset - current.rawByteAddress) hread hentry.context (by rw [hsum]; exact hinside) hfuel
  rw [Nat.cast_sub hbefore] at hskip
  refine ⟨_, fuel', s, q, hentry.context, hq, by rw [hqraw, hsum], hfuel', ?_⟩
  rw [gzipReadBuffer, if_neg hpos.ne', hlist]
  simp only [hcurrent, hresume, hskip]

end Spotlight.Gzip
