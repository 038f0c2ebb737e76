import Spotlight.GzipRead
import Spotlight.GzipWindow

/-! What `gzip_read` returns. Inside the content it is the number of bytes delivered; past the
end of the content the whole length is reported all the same. -/
namespace Spotlight.Gzip
open Bytes Zlib

variable {z : Library} {m : Member}

theorem indexNextChunkLoop_grows {max : ℤ} {fuel : ℕ} {s s' : IndexState z.State}
    {input : List UInt8} {availOut : ℕ} {ret : Ret}
    (hrun : indexNextChunkLoop z max fuel s input availOut = .ok (ret, s')) :
    s.reader.list <+: s'.reader.list := by
  induction fuel generalizing s input availOut with
  | zero => cases hrun
  | succ fuel ih =>
    obtain ⟨room, hroom⟩ : ∃ room, room = if availOut = 0 then windowSize else availOut := ⟨_, rfl⟩
    obtain ⟨r, hr⟩ : ∃ r, r = z.inflate s.stream .block input room := ⟨_, rfl⟩
    obtain ⟨s₁, hs₁, hend⟩ := indexNextChunkLoop_inv hroom hr hrun
    have hgrows : s.reader.list <+: s₁.reader.list := by
      rcases hs₁ with rfl | rfl
      · exact List.prefix_rfl
      · exact List.prefix_append _ _
    rcases hend with rfl | hrest
    · exact hgrows
    · exact hgrows.trans (ih hrest)

theorem indexNextChunk_grows {max : ℤ} {fuel : ℕ} {s s' : IndexState z.State} {ret : Ret}
    (hrun : indexNextChunk z max fuel s = .ok (ret, s')) :
    s.reader.list <+: s'.reader.list := by
  rw [indexNextChunk] at hrun
  dsimp only at hrun
  split_ifs at hrun
  · cases hrun
    exact List.prefix_rfl
  · have hgrows := indexNextChunkLoop_grows hrun
    exact hgrows

theorem buildIndexLoop_grows {max : ℤ} {fuel : ℕ} {s s' : IndexState z.State} {ret : Ret}
    (hrun : buildIndexLoop z max fuel s = .ok (ret, s')) :
    s.reader.list <+: s'.reader.list := by
  induction fuel generalizing s ret with
  | zero => cases hrun
  | succ fuel ih =>
    rw [buildIndexLoop] at hrun
    obtain ⟨⟨ret₁, s₁⟩, hchunk, hrun⟩ := Outcome.bind_eq_ok.mp hrun
    have hs₁ := indexNextChunk_grows hchunk
    dsimp only at hrun
    split_ifs at hrun
    · cases hrun
      exact hs₁
    · exact hs₁.trans (ih hrun)
    · cases hrun
      exact hs₁

theorem inflate_header (h : Decompresses z m) (hshort : ∀ b, m.bounds[0]? = some b → b.comp ≤ chunk)
    {r : Inflated z.State} (hr : r = z.inflate (z.inflateInit2 gzipWindowBits) .block
      (slice m.file 0 chunk) windowSize) :
    r.ret = .ok ∧ r.output = [] ∧ r.dataType &&& 128 ≠ 0 ∧ r.dataType &&& 64 = 0 := by
  have htwo := m.two_le
  obtain ⟨b, hb⟩ : ∃ b, m.bounds[0]? = some b := ⟨_, List.getElem?_eq_getElem (by omega)⟩
  have hmem := List.mem_of_getElem? hb
  have hcomp := hshort b hb
  have hzero := m.first_raw b hb
  have hpos := m.comp_pos b hmem
  have hlast := (bound_le_last hmem).2
  have hchunk : 0 < chunk := Nat.succ_pos 16383
  have hlen : (slice m.file 0 chunk).length = min chunk m.file.length := length_slice _ _ _
  have hne : slice m.file 0 chunk ≠ [] := List.length_pos_iff.mp (by omega)
  obtain ⟨hret, hstep⟩ := h.block _ _ _ _ windowSize h.start (by dsimp only; omega) hne
    (Nat.succ_pos 32767) (List.take_prefix _ _)
  rw [← hr] at hret hstep
  have hbits := dataType_boundary (m.bits_lt b hmem)
  cases hstep with
  | boundary c hc _ raw dataType _ =>
    rw [hb] at hc
    cases hc
    rw [if_neg (by dsimp only; omega), Nat.add_zero] at dataType
    dsimp only at raw
    exact ⟨hret, List.eq_nil_of_length_eq_zero (by omega), dataType ▸ hbits.1, dataType ▸ hbits.2.1⟩
  | inside c hc comp raw _ exhausted _ =>
    rw [hb] at hc
    cases hc
    have hwindow : windowSize = 32768 := rfl
    dsimp only at comp raw exhausted
    omega

theorem request_in_header (h : Decompresses z m)
    (hshort : ∀ b, m.bounds[0]? = some b → b.comp ≤ chunk) {fuel : ℕ} {stack : List UInt8} {max : ℤ}
    {ret : Ret} {reader : GzipReader}
    (hrun : checkAndBuildIndex z (fuel + 2) ⟨m.file, 0, []⟩ stack max = .ok (ret, reader)) :
    reader.list ≠ [] := by
  obtain ⟨r, hr⟩ : ∃ r, r = z.inflate (z.inflateInit2 gzipWindowBits) .block
      (slice m.file 0 chunk) windowSize := ⟨_, rfl⟩
  obtain ⟨hret, hout, h128, h64⟩ := inflate_header h hshort hr
  simp only [checkAndBuildIndex, List.getLast?_nil, buildIndex, buildStart] at hrun
  obtain ⟨⟨ret₁, s₁⟩, hloop, hrun⟩ := Outcome.bind_eq_ok.mp hrun
  cases hrun
  rw [buildIndexLoop] at hloop
  obtain ⟨⟨ret₂, s₂⟩, hchunk, hloop⟩ := Outcome.bind_eq_ok.mp hloop
  have hgrows : s₂.reader.list <+: s₁.reader.list := by
    dsimp only at hloop
    split_ifs at hloop
    · cases hloop
      exact List.prefix_rfl
    · exact buildIndexLoop_grows hloop
    · cases hloop
      exact List.prefix_rfl
  suffices hne : s₂.reader.list ≠ [] by
    intro hnil
    rw [hnil] at hgrows
    exact hne (List.prefix_nil.mp hgrows)
  rw [indexNextChunk] at hchunk
  dsimp only at hchunk
  split_ifs at hchunk with hempty
  · have htwo := m.two_le
    obtain ⟨b, hb⟩ : ∃ b, m.bounds[0]? = some b := ⟨_, List.getElem?_eq_getElem (by omega)⟩
    have hlast := (bound_le_last (List.mem_of_getElem? hb)).2
    have hlen := length_slice m.file 0 chunk
    rw [hempty, List.length_nil] at hlen
    have hchunk : 0 < chunk := Nat.succ_pos 16383
    omega
  · have hdue : pointDue [] (0 + r.output.length) r.dataType = .ok true := by
      rw [pointDue, if_pos ⟨h128, h64⟩, hout]
      rfl
    rw [indexNextChunkLoop_succ (if_pos rfl).symm hr hret hdue, if_pos rfl] at hchunk
    dsimp only at hchunk
    split_ifs at hchunk
    · cases hchunk
      exact List.append_ne_nil_of_right_ne_nil _ (List.cons_ne_nil _ _)
    · rw [continueChunk] at hchunk
      split_ifs at hchunk
      · have hgrown := indexNextChunkLoop_grows hchunk
        intro hnil
        rw [hnil] at hgrown
        exact List.append_ne_nil_of_right_ne_nil _ (List.cons_ne_nil _ _) (List.prefix_nil.mp hgrown)
      · cases hchunk
        exact List.append_ne_nil_of_right_ne_nil _ (List.cons_ne_nil _ _)

/-- A request up to `max` that has an access point, or finds one. -/
def HeaderReached (m : Member) (reader : GzipReader) (max : ℤ) : Prop :=
  reader.list ≠ [] ∨ (∀ b, m.bounds[0]? = some b → b.comp ≤ chunk) ∨ span ≤ max

theorem buildStart_list (reader : GzipReader) (stack : List UInt8) :
    (buildStart z reader stack).2.list = reader.list ∧
      ∀ s ∈ (buildStart z reader stack).1, s.reader.list = reader.list := by
  rw [buildStart]
  cases reader.list.getLast? with
  | none =>
    refine ⟨rfl, fun s hs => ?_⟩
    cases hs
    rfl
  | some entry =>
    have hmoved := (resumeAt_moved (z := z) reader entry).1
    refine ⟨hmoved, fun s hs => ?_⟩
    obtain ⟨stream, -, rfl⟩ := Option.map_eq_some_iff.mp hs
    exact hmoved

theorem checkAndBuildIndex_grows {fuel : ℕ} {reader reader' : GzipReader} {stack : List UInt8}
    {max : ℤ} {ret : Ret}
    (hrun : checkAndBuildIndex z fuel reader stack max = .ok (ret, reader')) :
    reader.list <+: reader'.list := by
  have hbuild : ∀ {ret reader'}, buildIndex z fuel reader stack max = .ok (ret, reader') →
      reader.list <+: reader'.list := by
    intro ret reader' hrun
    obtain ⟨hlist, hstate⟩ := buildStart_list (z := z) reader stack
    rw [buildIndex] at hrun
    rcases hs : buildStart z reader stack with ⟨_ | s, reader₁⟩
    · rw [hs] at hrun hlist
      cases hrun
      exact hlist ▸ List.prefix_rfl
    · rw [hs] at hrun hstate
      obtain ⟨⟨ret₁, s₁⟩, hloop, hrun⟩ := Outcome.bind_eq_ok.mp hrun
      cases hrun
      exact hstate s rfl ▸ buildIndexLoop_grows hloop
  rw [checkAndBuildIndex] at hrun
  split at hrun
  · split_ifs at hrun
    · cases hrun
      exact List.prefix_rfl
    · exact hbuild hrun
  · exact hbuild hrun

theorem request_first (h : Decompresses z m) {fuel : ℕ} (hf : enoughFuel m < fuel)
    {reader reader' : GzipReader} (hr : ReaderInv m reader) (hr' : ReaderInv m reader')
    (hstart : Resumable reader) {stack : List UInt8} {max : ℤ} {ret : Ret}
    (hheader : HeaderReached m reader max)
    (hrun : checkAndBuildIndex z fuel reader stack max = .ok (ret, reader'))
    (hserved : Served m reader'.list max) :
    ∃ first rest, reader'.list = first :: rest ∧ first.rawByteAddress = 0 := by
  obtain ⟨b, later, -, hzero, hpoints⟩ := canonicalPoints_cons m
  have hgrows := checkAndBuildIndex_grows hrun
  have hne : reader'.list ≠ [] := by
    intro hnil
    have hempty : reader.list = [] := by
      rw [hnil] at hgrows
      exact List.prefix_nil.mp hgrows
    rcases hheader with hlist | hshort | hspan
    · exact hlist hempty
    · have hreader : reader = ⟨m.file, 0, []⟩ := by
        rw [← hr.file, ← hempty, ← hstart.resolve_left (not_not_intro hempty)]
      obtain ⟨k, hk⟩ : ∃ k, fuel = k + 2 := by
        have htwo := m.two_le
        unfold enoughFuel at hf
        exact Nat.exists_eq_add_of_le' (by omega)
      rw [hk, hreader] at hrun
      exact request_in_header h hshort hrun hnil
    · have hmem := hserved.near b (by rw [hpoints]; exact List.mem_cons_self) (by omega)
      rw [hnil] at hmem
      exact List.not_mem_nil hmem
  obtain ⟨first, rest, hcons⟩ := List.exists_cons_of_ne_nil hne
  have hprefix := indexed_isPrefix hr'.indexed
  rw [hcons, hpoints, List.map_cons, List.cons_prefix_cons] at hprefix
  refine ⟨first, rest, hcons, ?_⟩
  rw [← hzero, ← hprefix.1]
  rfl

theorem validEntries {reader : GzipReader} (hr : ReaderInv m reader) (hw : Windowed m reader.list) :
    ∀ entry ∈ reader.list, ValidEntry m entry := by
  intro entry he
  refine ⟨?_, hw entry he⟩
  have hmem := (indexed_isPrefix hr.indexed).subset (List.mem_map_of_mem he)
  exact List.mem_of_mem_dropLast (selectPoints_subset _ _ _ hmem)

theorem gzipRead_index (h : Decompresses z m) {fuel : ℕ} (hf : enoughFuel m < fuel)
    {reader : GzipReader} (hr : Read z m fuel (Careful m) reader) {stack : List UInt8}
    (hstack : stack.length = windowSize) {max : ℤ}
    (hcareful : Careful m reader stack (requestChunks z fuel reader stack max))
    (hheader : HeaderReached m reader max) :
    ∃ ret reader' first rest, checkAndBuildIndex z fuel reader stack max = .ok (ret, reader') ∧
      reader'.gzipFile = m.file ∧ reader'.list = first :: rest ∧ first.rawByteAddress = 0 ∧
      ∀ entry ∈ reader'.list, ValidEntry m entry := by
  obtain ⟨hinv, hw⟩ := read_inv h hf hr
  obtain ⟨ret, reader', hindex, hinv', hw', hserved⟩ :=
    windowed_request h hf hinv hw hcareful.1 hstack max hcareful.2
  obtain ⟨first, rest, hcons, hfirst⟩ :=
    request_first h hf hinv hinv' hcareful.1 hheader hindex hserved
  exact ⟨ret, reader', first, rest, hindex, hinv'.file, hcons, hfirst, validEntries hinv' hw'⟩

theorem bmod_offset {offset length : ℕ} (hfits : offset + length < 2 ^ 63) :
    Int.bmod ((offset : ℤ) + length) (2 ^ 64) = offset + length :=
  Int.bmod_eq_of_le_mul_two (by omega) (by omega)

theorem gzipRead_eq {fuel : ℕ} {reader reader₁ reader₂ : GzipReader} {stack buffer : List UInt8}
    {offset max : ℤ} {length : ℕ} {ret₁ ret₂ : Ret}
    (hmax : Int.bmod (offset + length) (2 ^ 64) = max)
    (hindex : checkAndBuildIndex z fuel reader stack max = .ok (ret₁, reader₁))
    (hread : gzipReadBuffer z fuel reader₁ offset length = .ok (ret₂, reader₂, buffer))
    (hret : ret₂ = .ok ∨ ret₂ = .streamEnd) (hshort : length < 2 ^ 31) :
    gzipRead z fuel reader stack offset length = .ok (reader₂, length, buffer) := by
  have hint : Int.bmod (length : ℤ) (2 ^ 32) = length :=
    Int.bmod_eq_of_le_mul_two (by omega) (by omega)
  rw [gzipRead, hmax, hindex, Outcome.ok_bind]
  dsimp only
  rw [hread, Outcome.ok_bind]
  dsimp only
  rw [if_pos hret, hint]
  rfl

end Spotlight.Gzip
