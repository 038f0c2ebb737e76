import Spotlight.XzFooter

/-! The indexes of all streams of a file (`parse_block_indexes` of `xz_reader.c`), read from the
last stream to the first. -/
namespace Spotlight.Xz
open Bytes

/-- The variables of `parse_block_indexes`, with the reader's `index` and `stream_padding` and the
indexes that the library has allocated. -/
structure IndexParse where
  cursor : Cursor
  indexes : Heap (List LzmaStream)
  currentIndex : Option ℕ
  index : Option ℕ
  streamPadding : ℕ

/-- The loop that feeds an index field to the decoder: `index_size`, and the last code of
`lzma_code` with the rest of its input and all buffers so far. -/
def indexLoop (lzma : Lzma) (file : List UInt8) (turn : ℕ) :
    ℕ → Cursor → ℕ → List (List UInt8) →
      Outcome (Cursor × ℕ × Except LzmaRet (LzmaRet × ℕ × List (List UInt8)))
  | 0, _, _, _ => .error .fuel
  | n + 1, c, indexSize, buffers =>
    let preadSize := min ioBufferSize indexSize
    let (c, buffer) := c.pread file preadSize
    if buffer.length ≠ preadSize then .ok (c, indexSize, .error .progError)
    else
      let c := c.move preadSize
      let indexSize := indexSize - preadSize
      let buffers := buffers ++ [buffer]
      let (ret, availIn) := lzma.code turn buffers
      if ret = .ok then indexLoop lzma file turn n c indexSize buffers
      else .ok (c, indexSize, .ok (ret, availIn, buffers))

/-- From the footer to the end of the index field. A decoder that is done leaves its index in
`current_index`. -/
def decodeIndex (lzma : Lzma) (file : List UInt8) (fuel turn : ℕ) (s : IndexParse)
    (flags : StreamFlags) : Outcome (IndexParse × LzmaRet) := do
  if s.cursor.position % 2 ^ 64 < ((flags.backwardSize + lzmaStreamHeaderSize) % 2 ^ 64 : ℕ) then
    return (s, .dataError)
  else
    let s := { s with cursor := s.cursor.move (-flags.backwardSize), currentIndex := none }
    if lzma.indexDecoder turn ≠ .ok then return (s, lzma.indexDecoder turn)
    else
      match ← indexLoop lzma file turn fuel s.cursor flags.backwardSize [] with
      | (cursor, _, .error ret) => return ({ s with cursor }, ret)
      | (cursor, indexSize, .ok (ret, availIn, buffers)) =>
        if ret = .streamEnd then
          let (totalSize, size, blocks) := lzma.decoded turn buffers
          let (p, indexes) := s.indexes.alloc [⟨blocks, totalSize, size, none, 0⟩]
          let s := { s with cursor, indexes, currentIndex := some p }
          if indexSize ≠ 0 ∨ availIn ≠ 0 then return (s, .dataError)
          else return (s, .ok)
        else return ({ s with cursor }, ret)

/-- From the end of the index field to the stream header, which must agree with the footer. -/
def decodeHeader (lzma : Lzma) (file : List UInt8) (s : IndexParse) (flags : StreamFlags) :
    Outcome (IndexParse × LzmaRet) := do
  let current ← deref s.currentIndex
  let streams ← s.indexes.read current
  let s := { s with cursor := s.cursor.move (-(flags.backwardSize + lzmaStreamHeaderSize)) }
  if s.cursor.position % 2 ^ 64 < (lzma.indexTotalSize streams : ℤ) then return (s, .dataError)
  else
    let (cursor, buffer) :=
      (s.cursor.move (-lzma.indexTotalSize streams)).pread file lzmaStreamHeaderSize
    let s := { s with cursor }
    if buffer.length ≠ lzmaStreamHeaderSize then return (s, .progError)
    else
      match lzma.streamHeaderDecode buffer with
      | (.ok, headerFlags) => return (s, lzma.streamFlagsCompare headerFlags flags)
      | (ret, _) => return (s, ret)

/-- The index of the stream goes in front of those already read. The code of
`lzma_index_stream_padding` only counts when there are none. -/
def storeIndex (lzma : Lzma) (turn : ℕ) (s : IndexParse) (flags : StreamFlags) (padding : ℕ) :
    Outcome (IndexParse × Except LzmaRet LzmaRet) := do
  let current ← deref s.currentIndex
  let streams ← s.indexes.read current
  let (ret, streams) := lzma.indexStreamPadding (lzma.indexStreamFlags streams flags) padding
  let indexes ← s.indexes.modify current fun _ => streams
  let streamPadding := (s.streamPadding + padding) % 2 ^ 64
  match s.index with
  | none => return ({ s with indexes, currentIndex := none, index := current, streamPadding }, .ok ret)
  | some index =>
    if lzma.indexCat turn ≠ .ok then
      return ({ s with indexes }, .error (lzma.indexCat turn))
    else do
      let rest ← indexes.read index
      let indexes ← indexes.modify current fun streams => streams ++ rest
      let indexes ← indexes.free index
      return ({ s with indexes, currentIndex := none, index := current, streamPadding }, .ok .ok)

/-- One turn of the outer loop: a code to leave with through `error`, or the value of
`return_value` at its end. -/
def parseStream (lzma : Lzma) (file : List UInt8) (fuel turn : ℕ) (s : IndexParse) :
    Outcome (IndexParse × Except LzmaRet LzmaRet) := do
  match ← footerSearch file s.cursor with
  | (cursor, _, .error ret) => return ({ s with cursor }, .error ret)
  | (cursor, padding, .ok buffer) =>
    let s := { s with cursor }
    match lzma.streamFooterDecode buffer with
    | (.ok, footerFlags) =>
      if footerFlags.version ≠ 0 then return (s, .error .optionsError)
      else do
        match ← decodeIndex lzma file fuel turn s footerFlags with
        | (s, .ok) =>
          match ← decodeHeader lzma file s footerFlags with
          | (s, .ok) => storeIndex lzma turn s footerFlags padding
          | (s, ret) => return (s, .error ret)
        | (s, ret) => return (s, .error ret)
    | (ret, _) => return (s, .error ret)

/-- The outer loop; the flag says whether it was left at its end. -/
def parseLoop (lzma : Lzma) (file : List UInt8) (fuel : ℕ) :
    ℕ → ℕ → IndexParse → Outcome (IndexParse × LzmaRet × Bool)
  | 0, _, _ => .error .fuel
  | n + 1, turn, s => do
    match ← parseStream lzma file fuel turn s with
    | (s, .error ret) => do
      let indexes ← lzmaIndexEnd s.indexes s.index
      let indexes ← lzmaIndexEnd indexes s.currentIndex
      return ({ s with indexes }, ret, false)
    | (s, .ok ret) =>
      if 0 < s.cursor.position then parseLoop lzma file fuel n (turn + 1) s
      else return (s, ret, true)

/-- `parse_block_indexes` of a reader that has no index yet. -/
def parseBlockIndexes (lzma : Lzma) (file : List UInt8) (fuel : ℕ)
    (indexes : Heap (List LzmaStream)) (streamPadding : ℕ) :
    Outcome (IndexParse × LzmaRet × Bool) :=
  parseLoop lzma file fuel fuel 0 ⟨.atEnd file.length, indexes, none, none, streamPadding⟩

variable {lzma : Lzma} {file : List UInt8} {turn : ℕ} {s : IndexParse} {c : Cursor}

lemma indexLoop_mono {n m indexSize : ℕ} {buffers : List (List UInt8)}
    {r : Cursor × ℕ × Except LzmaRet (LzmaRet × ℕ × List (List UInt8))}
    (h : indexLoop lzma file turn n c indexSize buffers = .ok r) (hnm : n ≤ m) :
    indexLoop lzma file turn m c indexSize buffers = .ok r := by
  induction n generalizing m c indexSize buffers with
  | zero => cases h
  | succ n ih =>
    obtain ⟨m, rfl⟩ : ∃ k, m = k + 1 := ⟨m - 1, by omega⟩
    simp only [indexLoop] at h ⊢
    split_ifs at h ⊢ with hread hret
    · exact h
    · exact ih h (Nat.le_of_succ_le_succ hnm)
    · exact h

/-- The loop has been left with all of `fed` given to the decoder since it was entered. -/
structure Fed (lzma : Lzma) (file : List UInt8) (turn : ℕ) (c : Cursor) (indexSize : ℕ)
    (buffers : List (List UInt8)) (r : Cursor × ℕ × LzmaRet × ℕ × List (List UInt8)) : Prop where
  inside : r.1.Inside file
  position : r.1.position + r.2.1 = c.position + indexSize
  le : r.2.1 ≤ indexSize
  fed : r.2.2.2.2.flatten =
    buffers.flatten ++ slice file c.position.toNat (indexSize - r.2.1)
  code : lzma.code turn r.2.2.2.2 = (r.2.2.1, r.2.2.2.1)
  done : r.2.2.1 ≠ .ok

lemma indexLoop_step (lzma : Lzma) (turn : ℕ) (h : c.Inside file) {indexSize m : ℕ}
    (hin : c.position + indexSize < file.length) (hm : m = min ioBufferSize indexSize)
    (buffers : List (List UInt8)) : ∃ c', c'.Inside file ∧ c'.position = c.position + m ∧
      ∀ n, indexLoop lzma file turn (n + 1) c indexSize buffers =
        let buffers := buffers ++ [slice file c.position.toNat m]
        let (ret, availIn) := lzma.code turn buffers
        if ret = .ok then indexLoop lzma file turn n c' (indexSize - m) buffers
        else .ok (c', indexSize - m, .ok (ret, availIn, buffers)) := by
  have h₀ := h.position
  obtain ⟨hread, hpos, hbytes⟩ := h.pread (show c.position < file.length by omega) m
  have hlen : (slice file c.position.toNat m).length = m := length_slice_of_le (by omega)
  refine ⟨(c.pread file m).1.move m, hread.move (by rw [hpos]; omega), by
    simp [Cursor.move, hpos], fun n => ?_⟩
  simp only [indexLoop, ← hm, hbytes, hlen, ne_eq, not_true_eq_false, if_false]

/-- The loop ends with this much of the field read. -/
def Ends (lzma : Lzma) (file : List UInt8) (turn : ℕ) (c : Cursor) (indexSize : ℕ)
    (buffers : List (List UInt8)) : Prop :=
  ∃ n c' rest ret availIn buffers', indexLoop lzma file turn n c indexSize buffers =
      .ok (c', rest, .ok (ret, availIn, buffers')) ∧
    Fed lzma file turn c indexSize buffers (c', rest, ret, availIn, buffers')

lemma Fed.cons {c' : Cursor} {indexSize m : ℕ} {buffers : List (List UInt8)}
    {r : Cursor × ℕ × LzmaRet × ℕ × List (List UInt8)} (h₀ : 0 ≤ c.position)
    (hm : m ≤ indexSize) (hpos : c'.position = c.position + m)
    (h : Fed lzma file turn c' (indexSize - m) (buffers ++ [slice file c.position.toNat m]) r) :
    Fed lzma file turn c indexSize buffers r := by
  have hle := h.le
  have hposition := h.position
  refine ⟨h.inside, by omega, by omega, ?_, h.code, h.done⟩
  have hstart : c'.position.toNat = c.position.toNat + m := by omega
  have hlength : m + (indexSize - m - r.2.1) = indexSize - r.2.1 := by omega
  rw [h.fed, hstart, List.flatten_append, List.flatten_singleton, List.append_assoc, slice_append,
    hlength]

lemma Ends.of_turn (h : c.Inside file) {indexSize m : ℕ}
    (hin : c.position + indexSize < file.length) (hm : m = min ioBufferSize indexSize)
    {buffers : List (List UInt8)}
    (hnext : ∀ c', c'.Inside file → c'.position = c.position + m →
      (lzma.code turn (buffers ++ [slice file c.position.toNat m])).1 = .ok →
        Ends lzma file turn c' (indexSize - m) (buffers ++ [slice file c.position.toNat m])) :
    Ends lzma file turn c indexSize buffers := by
  have h₀ := h.position
  obtain ⟨c', h', hpos, hstep⟩ := indexLoop_step lzma turn h hin hm buffers
  by_cases hret : (lzma.code turn (buffers ++ [slice file c.position.toNat m])).1 = .ok
  · obtain ⟨n, c'', rest, ret, availIn, buffers', hloop, hfed⟩ := hnext c' h' hpos hret
    exact ⟨n + 1, c'', rest, ret, availIn, buffers', (hstep n).trans ((if_pos hret).trans hloop),
      hfed.cons h₀ (by omega) hpos⟩
  · refine ⟨1, c', _, _, _, _, (hstep 0).trans (if_neg hret), h', ?_, Nat.sub_le _ _, ?_, rfl, hret⟩
    · simp only
      omega
    · rw [List.flatten_append, List.flatten_singleton, Nat.sub_sub_self (by omega)]

/-- The loop ends when the field is read, as the decoder does not ask for more for ever. -/
lemma indexLoop_exhausted (h : c.Inside file) (hin : c.position < file.length) {k : ℕ}
    {buffers : List (List UInt8)}
    (hk : (lzma.code turn (buffers ++ List.replicate (k + 1) [])).1 ≠ .ok) :
    Ends lzma file turn c 0 buffers := by
  induction k generalizing c buffers with
  | zero =>
    refine .of_turn h (by simpa using hin) (Nat.min_zero _).symm fun c' _ _ hret => ?_
    rw [slice_zero] at hret
    exact absurd hret hk
  | succ k ih =>
    refine .of_turn h (by simpa using hin) (Nat.min_zero _).symm fun c' h' hpos _ => ?_
    rw [slice_zero]
    refine ih h' (by rw [hpos]; simpa using hin) ?_
    rwa [List.append_assoc, List.singleton_append, ← List.replicate_succ]

lemma indexLoop_ends (hl : lzma.Lawful) (h : c.Inside file) {indexSize : ℕ}
    (hin : c.position + indexSize < file.length) (buffers : List (List UInt8)) :
    Ends lzma file turn c indexSize buffers := by
  induction hn : indexSize using Nat.strong_induction_on generalizing c indexSize buffers with
  | _ n ih =>
    subst hn
    obtain rfl | hpos := Nat.eq_zero_or_pos indexSize
    · obtain ⟨k, hk⟩ := hl.ends turn buffers
      exact indexLoop_exhausted h (by simpa using hin) hk
    · have hio : 0 < ioBufferSize := Nat.succ_pos _
      exact .of_turn h hin rfl fun c' h' hpos' _ => ih _ (by omega) h' (by omega) _ rfl

/-- The stream at `a` has a header, an index field of this size that was decoded, and a footer. -/
structure StreamAt (lzma : Lzma) (file : List UInt8) (a : ℕ) (t : LzmaStream) : Prop where
  header : ∃ flags, lzma.streamHeaderDecode (slice file a lzmaStreamHeaderSize) = (.ok, flags)
  index : ∃ turn buffers, lzma.code turn buffers = (.streamEnd, 0) ∧
    lzma.decoded turn buffers = (t.totalSize, t.indexSize, t.blocks) ∧ buffers.flatten =
      slice file (a + lzmaStreamHeaderSize + t.totalSize) t.indexSize
  footer : ∃ flags, t.flags = some flags ∧ flags.backwardSize = t.indexSize ∧
    lzma.streamFooterDecode (slice file
      (a + lzmaStreamHeaderSize + t.totalSize + t.indexSize) lzmaStreamHeaderSize) = (.ok, flags)

/-- The streams lie one behind the other from `a` to `e`. -/
def Tiles (lzma : Lzma) (file : List UInt8) : ℕ → List LzmaStream → ℕ → Prop
  | a, [], e => a = e
  | a, t :: streams, e => StreamAt lzma file a t ∧ Tiles lzma file (a + t.fileSize) streams e

/-- A decoder that is done: the field of `size` bytes at `a` gave this stream. -/
structure Decoded (lzma : Lzma) (file : List UInt8) (a size : ℕ) (t : LzmaStream) : Prop where
  indexSize : t.indexSize = size
  flags : t.flags = none
  padding : t.padding = 0
  index : ∃ turn buffers, lzma.code turn buffers = (.streamEnd, 0) ∧
    lzma.decoded turn buffers = (t.totalSize, t.indexSize, t.blocks) ∧
      buffers.flatten = slice file a size

/-- What `decodeIndex` does to the indexes: nothing on an error of its own, else the decoder has
left a new one. -/
inductive IndexDecoded (lzma : Lzma) (file : List UInt8) (s : IndexParse) (size : ℕ) :
    IndexParse → LzmaRet → Prop
  | failed {s' : IndexParse} {ret : LzmaRet} : s'.indexes = s.indexes → s'.currentIndex = none →
      ret ≠ .ok → IndexDecoded lzma file s size s' ret
  | allocated {s' : IndexParse} {ret : LzmaRet} (t : LzmaStream) :
      s'.indexes = (s.indexes.alloc [t]).2 → s'.currentIndex = some s.indexes.next →
      (ret = .ok → s'.cursor.position = s.cursor.position ∧
        (size : ℤ) + 12 ≤ s.cursor.position ∧
        Decoded lzma file (s.cursor.position - size).toNat size t) →
      IndexDecoded lzma file s size s' ret

lemma decodeIndex_spec (hl : lzma.Lawful) {flags : StreamFlags}
    (hflags : 4 ≤ flags.backwardSize ∧ flags.backwardSize ≤ 2 ^ 34)
    (h : s.cursor.Inside file) (hcurrent : s.currentIndex = none)
    (hin : s.cursor.position + 12 ≤ file.length) (hsize : file.length < 2 ^ 63) (turn : ℕ) :
    ∃ n s' ret, (∀ fuel, n ≤ fuel → decodeIndex lzma file fuel turn s flags = .ok (s', ret)) ∧
      s'.cursor.Inside file ∧ s'.index = s.index ∧
      IndexDecoded lzma file s flags.backwardSize s' ret := by
  have h₀ := h.position
  have hmod : s.cursor.position % 2 ^ 64 = s.cursor.position :=
    Int.emod_eq_of_lt h₀ (by omega)
  have hsum : (flags.backwardSize + lzmaStreamHeaderSize) % 2 ^ 64 = flags.backwardSize + 12 :=
    Nat.mod_eq_of_lt (by
      rw [lzmaStreamHeaderSize]
      omega)
  by_cases hfits : s.cursor.position < ((flags.backwardSize + 12 : ℕ) : ℤ)
  · refine ⟨0, s, .dataError, fun fuel _ => ?_, h, rfl, .failed rfl hcurrent (by decide)⟩
    rw [decodeIndex, hmod, hsum, if_pos hfits]
    rfl
  have hmove := h.move (d := -flags.backwardSize) (by omega)
  by_cases hinit : lzma.indexDecoder turn ≠ .ok
  · refine ⟨0, { s with cursor := s.cursor.move (-flags.backwardSize), currentIndex := none },
      lzma.indexDecoder turn, fun fuel _ => ?_, hmove, rfl, .failed rfl rfl hinit⟩
    rw [decodeIndex, hmod, hsum, if_neg hfits]
    simp only [if_pos hinit]
    rfl
  have hends : Ends lzma file turn (s.cursor.move (-flags.backwardSize)) flags.backwardSize [] :=
    indexLoop_ends hl hmove (by simp only [Cursor.move]; omega) []
  obtain ⟨n, c', rest, ret, availIn, buffers, hloop, hfed⟩ := hends
  have hrun : ∀ fuel, n ≤ fuel → decodeIndex lzma file fuel turn s flags =
      if ret = .streamEnd then
        .ok (⟨c', (s.indexes.alloc [⟨(lzma.decoded turn buffers).2.2,
          (lzma.decoded turn buffers).1, (lzma.decoded turn buffers).2.1, none, 0⟩]).2,
            some s.indexes.next, s.index, s.streamPadding⟩, if rest ≠ 0 ∨ availIn ≠ 0 then .dataError else .ok)
      else .ok ({ s with cursor := c', currentIndex := none }, ret) := by
    intro fuel hn
    rw [decodeIndex, hmod, hsum, if_neg hfits]
    simp only [if_neg hinit, indexLoop_mono hloop hn, Outcome.ok_bind]
    split_ifs <;> rfl
  by_cases hret : ret = .streamEnd
  · refine ⟨n, _, _, fun fuel hn => (hrun fuel hn).trans (if_pos hret), hfed.inside, rfl,
      .allocated _ rfl rfl fun hok => ?_⟩
    have hall : rest = 0 ∧ availIn = 0 := by
      by_contra hleft
      rw [if_pos (by omega)] at hok
      cases hok
    obtain ⟨rfl, rfl⟩ := hall
    obtain rfl := hret
    have hpos := hfed.position
    have hbytes := hfed.fed
    simp only [Cursor.move, Nat.sub_zero, List.flatten_nil, List.nil_append,
      ← Int.sub_eq_add_neg] at hpos hbytes
    have hlength : (lzma.decoded turn buffers).2.1 = flags.backwardSize := by
      rw [hl.indexSize turn buffers hfed.code, hbytes]
      exact length_slice_of_le (by omega)
    refine ⟨?_, by omega, hlength, rfl, rfl, turn, buffers, hfed.code, rfl, hbytes⟩
    simp only
    omega
  · refine ⟨n, _, ret, fun fuel hn => (hrun fuel hn).trans (if_neg hret), hfed.inside, rfl,
      .failed rfl rfl hfed.done⟩

lemma decodeHeader_spec (hl : lzma.Lawful) (flags : StreamFlags) (h : s.cursor.Inside file) {q : ℕ}
    {t : LzmaStream} (hcurrent : s.currentIndex = some q) (hcell : s.indexes.cells q = some [t])
    (hlo : (flags.backwardSize : ℤ) + 12 ≤ s.cursor.position)
    (hin : s.cursor.position ≤ file.length) (hsize : file.length < 2 ^ 63) : ∃ s' ret,
    decodeHeader lzma file s flags = .ok (s', ret) ∧ s'.cursor.Inside file ∧
      s'.indexes = s.indexes ∧ s'.currentIndex = s.currentIndex ∧ s'.index = s.index ∧
      (ret = .ok →
        s'.cursor.position + 12 + t.totalSize + flags.backwardSize = s.cursor.position ∧
        ∃ header, lzma.streamHeaderDecode (slice file s'.cursor.position.toNat
          lzmaStreamHeaderSize) = (.ok, header)) := by
  have hheader : (lzmaStreamHeaderSize : ℤ) = 12 := rfl
  have hback := h.move (d := -(flags.backwardSize + lzmaStreamHeaderSize)) (by omega)
  obtain ⟨c, hc⟩ : ∃ c, c = s.cursor.move (-(flags.backwardSize + lzmaStreamHeaderSize)) := ⟨_, rfl⟩
  have hpos : c.position = s.cursor.position - flags.backwardSize - 12 := by
    rw [hc]
    simp only [Cursor.move]
    omega
  rw [← hc] at hback
  have hmod : c.position % 2 ^ 64 = c.position := Int.emod_eq_of_lt hback.position (by omega)
  have htotal : lzma.indexTotalSize [t] = t.totalSize :=
    (hl.indexTotalSize [t]).trans List.sum_singleton
  have hrun : decodeHeader lzma file s flags =
      if c.position < t.totalSize then .ok ({ s with cursor := c }, .dataError)
      else
        let (c, buffer) := (c.move (-t.totalSize)).pread file lzmaStreamHeaderSize
        if buffer.length ≠ lzmaStreamHeaderSize then .ok ({ s with cursor := c }, .progError)
        else
          match lzma.streamHeaderDecode buffer with
          | (.ok, headerFlags) =>
            .ok ({ s with cursor := c }, lzma.streamFlagsCompare headerFlags flags)
          | (ret, _) => .ok ({ s with cursor := c }, ret) := by
    rw [decodeHeader]
    simp only [hcurrent, Outcome.deref_some, Outcome.ok_bind, Heap.read_of_cell hcell, htotal, ← hc,
      hmod, Outcome.pure_eq]
  rw [hrun]
  by_cases hfits : c.position < t.totalSize
  · rw [if_pos hfits]
    exact ⟨_, _, rfl, hback, rfl, rfl, rfl, by simp⟩
  have hstart := hback.move (d := -t.totalSize) (by omega)
  obtain ⟨hread, hpos', hbytes⟩ :=
    hstart.pread (by simp only [Cursor.move]; omega) lzmaStreamHeaderSize
  obtain ⟨c', hc'⟩ : ∃ c', c' = ((c.move (-t.totalSize)).pread file lzmaStreamHeaderSize).1 :=
    ⟨_, rfl⟩
  have hplace : c'.position + t.totalSize = c.position := by
    rw [hc', hpos']
    simp only [Cursor.move]
    omega
  rw [← hc'] at hread hpos'
  rw [← hpos'] at hbytes
  have h₀ := hread.position
  have hlength : (slice file c'.position.toNat lzmaStreamHeaderSize).length =
      lzmaStreamHeaderSize := length_slice_of_le (by
    rw [lzmaStreamHeaderSize]
    omega)
  rw [if_neg hfits]
  simp only [hbytes, ← hc', hlength, ne_eq, not_true_eq_false, if_false]
  rcases hdecode : lzma.streamHeaderDecode (slice file c'.position.toNat lzmaStreamHeaderSize)
    with ⟨ret, header⟩
  cases ret
  case ok =>
    refine ⟨_, _, rfl, hread, rfl, rfl, rfl, fun _ => ⟨?_, header, ?_⟩⟩
    · simp only
      omega
    · exact hdecode
  all_goals exact ⟨_, _, rfl, hread, rfl, rfl, rfl, by simp⟩

/-- What `error` frees is live. -/
structure IndexParse.Live (s : IndexParse) : Prop where
  index : ∀ p ∈ s.index, (s.indexes.cells p).isSome
  current : ∀ q ∈ s.currentIndex, (s.indexes.cells q).isSome ∧ s.index ≠ some q

/-- The reader has the index of these streams, or none of none. -/
def IndexParse.Holds (s : IndexParse) (streams : List LzmaStream) : Prop :=
  s.index.elim (streams = []) fun p => s.indexes.cells p = some streams

lemma storeIndex_spec (hl : lzma.Lawful) {q padding : ℕ} {t : LzmaStream}
    {streams : List LzmaStream} (hcurrent : s.currentIndex = some q)
    (hcell : s.indexes.cells q = some [t]) (hholds : s.Holds streams) (hne : s.index ≠ some q)
    {bytes : List UInt8} {flags : StreamFlags}
    (hfooter : lzma.streamFooterDecode bytes = (.ok, flags)) (hversion : flags.version = 0)
    (hpadding : padding % 4 = 0)
    (hfits : ({ t with padding } : LzmaStream).fileSize ≤ lzmaVliMax) (turn : ℕ) : ∃ s' res,
    storeIndex lzma turn s flags padding = .ok (s', res) ∧ s'.cursor = s.cursor ∧ s'.Live ∧
      (res = .ok .ok ∧ s'.currentIndex = none ∧ (∃ p, s'.index = some p) ∧
          s'.Holds ({ t with flags := some flags, padding } :: streams) ∨
        ∃ ret, res = .error ret) := by
  have hstored : lzma.indexStreamPadding (lzma.indexStreamFlags [t] flags) padding =
      (.ok, [{ t with flags := some flags, padding }]) := by
    rw [hl.indexStreamFlags [t] bytes flags hfooter hversion]
    exact hl.indexStreamPadding [{ t with flags := some flags }] padding hpadding
      (List.sum_singleton.trans_le hfits)
  have hmodify := Heap.modify_of_cell hcell fun _ =>
    [({ t with flags := some flags, padding } : LzmaStream)]
  have hnew := Heap.cells_modifyCell_self hcell fun _ =>
    [({ t with flags := some flags, padding } : LzmaStream)]
  rw [storeIndex]
  simp only [hcurrent, Outcome.deref_some, Outcome.ok_bind, Heap.read_of_cell hcell, hstored,
    hmodify]
  unfold IndexParse.Holds at hholds
  cases hindex : s.index with
  | none =>
    rw [hindex] at hholds
    obtain rfl : streams = [] := hholds
    refine ⟨_, _, rfl, rfl, ⟨?_, fun q hq => nomatch hq⟩, .inl ⟨rfl, rfl, ⟨q, rfl⟩, hnew⟩⟩
    rintro p ⟨rfl⟩
    exact Option.isSome_of_eq_some hnew
  | some p =>
    rw [hindex] at hholds hne
    have hpq : p ≠ q := fun heq => hne (congrArg some heq)
    have hrest : (s.indexes.modifyCell q fun _ =>
        [({ t with flags := some flags, padding } : LzmaStream)]).cells p = some streams := by
      rw [Heap.cells_modifyCell_ne hpq]
      exact hholds
    by_cases hcat : lzma.indexCat turn ≠ .ok
    · simp only [if_pos hcat]
      refine ⟨_, _, rfl, rfl, ⟨?_, ?_⟩, .inr ⟨_, rfl⟩⟩
      · rintro p' ⟨rfl⟩
        exact Option.isSome_of_eq_some hrest
      · rintro q' ⟨rfl⟩
        exact ⟨Option.isSome_of_eq_some hnew, hne⟩
    · have hjoin := Heap.modify_of_cell hnew fun current => current ++ streams
      have hjoined := Heap.cells_modifyCell_self hnew fun current => current ++ streams
      have hsrc := (Heap.cells_modifyCell_ne hpq fun current => current ++ streams).trans hrest
      simp only [if_neg hcat, Heap.read_of_cell hrest, Outcome.ok_bind, hjoin, Heap.free_of_cell hsrc,
        Outcome.pure_eq]
      have hlast := (Heap.cells_release_ne hpq.symm).trans hjoined
      refine ⟨_, _, rfl, rfl, ⟨?_, fun q hq => nomatch hq⟩, .inl ⟨rfl, rfl, ⟨q, rfl⟩, hlast⟩⟩
      rintro p' ⟨rfl⟩
      exact Option.isSome_of_eq_some hlast

lemma IndexParse.Live.alloc (h : s.Live) {s' : IndexParse} {streams : List LzmaStream}
    (hindexes : s'.indexes = (s.indexes.alloc streams).2) (hindex : s'.index = s.index)
    (hcurrent : s'.currentIndex = some s.indexes.next) : s'.Live ∧ s'.index ≠ some s.indexes.next := by
  have hne : s.index ≠ some s.indexes.next := by
    intro heq
    obtain ⟨a, ha⟩ := Option.isSome_iff_exists.mp (h.index _ heq)
    exact lt_irrefl _ (Heap.lt_next ha)
  refine ⟨⟨fun p hp => ?_, ?_⟩, hindex ▸ hne⟩
  · obtain ⟨a, ha⟩ := Option.isSome_iff_exists.mp (h.index p (hindex ▸ hp))
    rw [hindexes]
    exact Option.isSome_of_eq_some (Heap.cells_alloc ha)
  · rw [hcurrent]
    rintro q ⟨rfl⟩
    rw [hindexes, hindex]
    exact ⟨Option.isSome_of_eq_some (Heap.cells_alloc_self _ _), hne⟩

lemma IndexParse.Holds.alloc {streams : List LzmaStream} (h : s.Holds streams) {s' : IndexParse}
    {t : List LzmaStream} (hindexes : s'.indexes = (s.indexes.alloc t).2)
    (hindex : s'.index = s.index) : s'.Holds streams := by
  unfold IndexParse.Holds at h ⊢
  rw [hindexes, hindex]
  cases hs : s.index with
  | none => rwa [hs] at h
  | some p =>
    rw [hs] at h
    exact Heap.cells_alloc h

/-- Between two turns: the streams read so far tile the file from `position` on. -/
structure Between (lzma : Lzma) (file : List UInt8) (s : IndexParse)
    (streams : List LzmaStream) : Prop where
  inside : s.cursor.Inside file
  live : s.Live
  current : s.currentIndex = none
  holds : s.Holds streams
  tiles : Tiles lzma file s.cursor.position.toNat streams file.length
  le : s.cursor.position ≤ file.length

/-- Behind a footer that is found, each step leaves the turn unless the library answers
`LZMA_OK`. -/
lemma parseStream_of_footer {fuel k : ℕ} {buffer : List UInt8} {ret : LzmaRet} {flags : StreamFlags}
    (hsearch : footerSearch file s.cursor = .ok (c, k, .ok buffer))
    (hfooter : lzma.streamFooterDecode buffer = (ret, flags)) :
    parseStream lzma file fuel turn s =
      if ret ≠ .ok then .ok ({ s with cursor := c }, .error ret)
      else if flags.version ≠ 0 then .ok ({ s with cursor := c }, .error .optionsError)
      else decodeIndex lzma file fuel turn { s with cursor := c } flags >>= fun r =>
        if r.2 ≠ .ok then .ok (r.1, .error r.2)
        else decodeHeader lzma file r.1 flags >>= fun r =>
          if r.2 ≠ .ok then .ok (r.1, .error r.2) else storeIndex lzma turn r.1 flags k := by
  rw [parseStream, hsearch, Outcome.ok_bind]
  dsimp only
  rw [hfooter]
  by_cases hret : ret = .ok
  · subst hret
    rw [if_neg (not_not_intro rfl)]
    dsimp only
    split_ifs
    · rfl
    · refine bind_congr fun r => ?_
      rcases r with ⟨s₁, ret⟩
      cases ret
      case ok =>
        refine bind_congr fun r => ?_
        rcases r with ⟨s₂, ret⟩
        cases ret <;> rfl
      all_goals rfl
  · rw [if_pos hret]
    cases ret
    case ok => exact absurd rfl hret
    all_goals rfl

lemma parseStream_spec (hl : lzma.Lawful) (hsize : file.length < 2 ^ 63)
    {streams : List LzmaStream} (h : Between lzma file s streams) (turn : ℕ) : ∃ n s' res,
    (∀ fuel, n ≤ fuel → parseStream lzma file fuel turn s = .ok (s', res)) ∧
      s'.cursor.Inside file ∧ s'.Live ∧
      ((∃ ret, res = .error ret) ∨
        (res = .ok .ok ∧ s'.cursor.position < s.cursor.position ∧ (∃ p, s'.index = some p) ∧
          ∃ t, Between lzma file s' (t :: streams))) := by
  obtain ⟨c, k, found, hsearch, hc, hfound⟩ := footerSearch_spec h.inside h.le
  have hlive : ({ s with cursor := c } : IndexParse).Live := ⟨h.live.index, h.live.current⟩
  rcases hfound with ⟨rfl, -⟩ | ⟨-, hk, -, hstop, rfl⟩
  · exact ⟨0, _, .error .dataError, fun fuel _ => by simp [parseStream, hsearch], hc, hlive,
      .inl ⟨_, rfl⟩⟩
  rcases hfooter : lzma.streamFooterDecode (slice file c.position.toNat 12) with ⟨ret, flags⟩
  by_cases hret : ret = .ok
  swap
  · exact ⟨0, _, .error ret, fun fuel _ => (parseStream_of_footer hsearch hfooter).trans
      (if_pos hret), hc, hlive, .inl ⟨_, rfl⟩⟩
  obtain rfl := hret
  by_cases hversion : flags.version ≠ 0
  · exact ⟨0, _, .error .optionsError, fun fuel _ => by
      rw [parseStream_of_footer hsearch hfooter, if_neg (not_not_intro rfl), if_pos hversion],
      hc, hlive, .inl ⟨_, rfl⟩⟩
  have hle := h.le
  have hflags := hl.backwardSize _ _ hfooter
  obtain ⟨n, s₁, ret, hindex, hc₁, hi₁, hdecoded⟩ := decodeIndex_spec
    (s := { s with cursor := c }) hl hflags hc h.current (by simp only; omega) hsize turn
  have hrun : ∀ fuel, n ≤ fuel → parseStream lzma file fuel turn s =
      if ret ≠ .ok then .ok (s₁, .error ret)
      else decodeHeader lzma file s₁ flags >>= fun r =>
        if r.2 ≠ .ok then .ok (r.1, .error r.2) else storeIndex lzma turn r.1 flags (4 * k) := by
    intro fuel hn
    rw [parseStream_of_footer hsearch hfooter, if_neg (not_not_intro rfl), if_neg hversion,
      hindex fuel hn, Outcome.ok_bind]
  by_cases hret : ret = .ok
  swap
  · refine ⟨n, s₁, .error ret, fun fuel hn => (hrun fuel hn).trans (if_pos hret), hc₁, ?_,
      .inl ⟨_, rfl⟩⟩
    rcases hdecoded with ⟨hindexes, hcurrent, -⟩ | ⟨t, hindexes, hcurrent, -⟩
    · refine ⟨?_, by simp [hcurrent]⟩
      rw [hindexes, hi₁]
      exact h.live.index
    · exact (hlive.alloc hindexes hi₁ hcurrent).1
  obtain rfl := hret
  rcases hdecoded with ⟨-, -, hne⟩ | ⟨t, hindexes, hcurrent, hdone⟩
  · exact absurd rfl hne
  obtain ⟨hp₁, hfits, hfield⟩ := hdone rfl
  obtain ⟨hlive₁, hne₁⟩ := hlive.alloc hindexes hi₁ hcurrent
  have hcell : s₁.indexes.cells s.indexes.next = some [t] := by
    rw [hindexes]
    exact Heap.cells_alloc_self _ _
  simp only at hp₁ hfits hfield hcurrent
  obtain ⟨s₂, ret, hheader, hc₂, hindexes₂, hcurrent₂, hi₂, hplace⟩ :=
    decodeHeader_spec hl flags hc₁ hcurrent hcell (by omega) (by omega) hsize
  have hlive₂ : s₂.Live := by
    refine ⟨?_, ?_⟩
    · rw [hindexes₂, hi₂]
      exact hlive₁.index
    · rw [hindexes₂, hi₂, hcurrent₂]
      exact hlive₁.current
  by_cases hret : ret = .ok
  swap
  · have hout : ∀ fuel, n ≤ fuel → parseStream lzma file fuel turn s = .ok (s₂, .error ret) := by
      intro fuel hn
      rw [hrun fuel hn, if_neg (not_not_intro rfl), hheader, Outcome.ok_bind, if_pos hret]
    exact ⟨n, s₂, .error ret, hout, hc₂, hlive₂, .inl ⟨_, rfl⟩⟩
  obtain rfl := hret
  obtain ⟨hback, hstart⟩ := hplace rfl
  have h₀ := hc₂.position
  have hsizes := hfield.indexSize
  have hfileSize : s₂.cursor.position + (({ t with padding := 4 * k } : LzmaStream).fileSize : ℕ) =
      s.cursor.position := by
    simp only [LzmaStream.fileSize, lzmaStreamHeaderSize]
    omega
  have hmax : lzmaVliMax = 2 ^ 63 - 1 := rfl
  have hholds₂ : s₂.Holds streams := by
    have hholds₁ : s₁.Holds streams :=
      IndexParse.Holds.alloc (s := { s with cursor := c }) h.holds hindexes hi₁
    unfold IndexParse.Holds at hholds₁ ⊢
    rwa [hindexes₂, hi₂]
  obtain ⟨s₃, res, hstore, hc₃, hlive₃, hres⟩ := storeIndex_spec hl
    (hcurrent₂.trans hcurrent) (by rw [hindexes₂, hcell]) hholds₂ (by rw [hi₂]; exact hne₁) hfooter
    (not_not.mp hversion) (Nat.mul_mod_right 4 k) (by omega) turn
  have hout : ∀ fuel, n ≤ fuel → parseStream lzma file fuel turn s = .ok (s₃, res) := by
    intro fuel hn
    rw [hrun fuel hn, if_neg (not_not_intro rfl), hheader, Outcome.ok_bind,
      if_neg (not_not_intro rfl), hstore]
  refine ⟨n, s₃, res, hout, hc₃ ▸ hc₂, hlive₃, ?_⟩
  rcases hres with ⟨rfl, hnone, hsome, hholds₃⟩ | herror
  · refine .inr ⟨rfl, by rw [hc₃]; omega, hsome, _, hc₃ ▸ hc₂, hlive₃, hnone, hholds₃, ?_, ?_⟩
    · rw [hc₃]
      refine ⟨⟨hstart, ?_, flags, rfl, hsizes.symm, ?_⟩, ?_⟩
      · obtain ⟨turn', buffers, hcode, hdecoded, hbytes⟩ := hfield.index
        refine ⟨turn', buffers, hcode, hdecoded, hbytes.trans ?_⟩
        simp only [hsizes, lzmaStreamHeaderSize]
        congr 1
        omega
      · rw [← hfooter]
        simp only [hsizes, lzmaStreamHeaderSize]
        congr 2
        omega
      · have hend : s₂.cursor.position.toNat +
            (({ t with flags := some flags, padding := 4 * k } : LzmaStream)).fileSize =
              s.cursor.position.toNat := by
          simp only [LzmaStream.fileSize, lzmaStreamHeaderSize] at hfileSize ⊢
          omega
        rw [hend]
        exact h.tiles
    · rw [hc₃]
      omega
  · exact .inl herror

/-- What `error` frees is live and not the same, so that nothing is freed twice. -/
lemma IndexParse.Live.ends (h : s.Live) : ∃ indexes indexes',
    lzmaIndexEnd s.indexes s.index = .ok indexes ∧
      lzmaIndexEnd indexes s.currentIndex = .ok indexes' := by
  have hcurrent : ∀ indexes : Heap (List LzmaStream),
      (∀ q ∈ s.currentIndex, (indexes.cells q).isSome) →
        ∃ indexes', lzmaIndexEnd indexes s.currentIndex = .ok indexes' := by
    intro indexes hq
    cases hs : s.currentIndex with
    | none => exact ⟨_, rfl⟩
    | some q =>
      obtain ⟨a, ha⟩ := Option.isSome_iff_exists.mp (hq q hs)
      exact ⟨_, Heap.free_of_cell ha⟩
  cases hs : s.index with
  | none =>
    obtain ⟨indexes', hend⟩ := hcurrent s.indexes fun q hq => (h.current q hq).1
    exact ⟨_, indexes', rfl, hend⟩
  | some p =>
    obtain ⟨a, ha⟩ := Option.isSome_iff_exists.mp (h.index p hs)
    obtain ⟨indexes', hend⟩ := hcurrent (s.indexes.release p) fun q hq => by
      have hne : q ≠ p := fun heq => (h.current q hq).2 (heq ▸ hs)
      rw [Heap.cells_release_ne hne]
      exact (h.current q hq).1
    exact ⟨_, indexes', Heap.free_of_cell ha, hend⟩

lemma parseLoop_spec (hl : lzma.Lawful) (hsize : file.length < 2 ^ 63)
    {streams : List LzmaStream} (h : Between lzma file s streams) (turn : ℕ) :
    ∃ n s' ret done,
      (∀ fuel turns, n ≤ fuel → n ≤ turns →
        parseLoop lzma file fuel turns turn s = .ok (s', ret, done)) ∧
      s'.cursor.Inside file ∧
      (done = true → ∃ p streams, s'.index = some p ∧ s'.indexes.cells p = some streams ∧
        Tiles lzma file 0 streams file.length) := by
  induction hn : s.cursor.position.toNat using Nat.strong_induction_on
    generalizing s streams turn with
  | _ m ih =>
    subst hn
    obtain ⟨n, s₁, res, hstream, hc₁, hlive₁, hres⟩ := parseStream_spec hl hsize h turn
    rcases hres with ⟨ret, rfl⟩ | ⟨rfl, hlt, ⟨p, hp⟩, t, hnext⟩
    · obtain ⟨indexes, indexes', hend, hend'⟩ := hlive₁.ends
      refine ⟨n + 1, { s₁ with indexes := indexes' }, ret, false, fun fuel turns hf ht => ?_, hc₁,
        fun hdone => nomatch hdone⟩
      obtain ⟨k, rfl⟩ : ∃ k, turns = k + 1 := ⟨turns - 1, by omega⟩
      simp [parseLoop, hstream fuel (by omega), hend, hend']
    · have h₀ := hc₁.position
      by_cases hpos : 0 < s₁.cursor.position
      · obtain ⟨n', s', ret, done, hloop, hc', htiles⟩ :=
          ih _ (by omega) hnext (turn + 1) rfl
        refine ⟨max n n' + 1, s', ret, done, fun fuel turns hf ht => ?_, hc', htiles⟩
        obtain ⟨k, rfl⟩ : ∃ k, turns = k + 1 := ⟨turns - 1, by omega⟩
        simp [parseLoop, hstream fuel (by omega), hpos, hloop fuel k (by omega) (by omega)]
      · refine ⟨n + 1, s₁, .ok, true, fun fuel turns hf ht => ?_, hc₁, fun _ =>
          ⟨p, t :: streams, hp, ?_, ?_⟩⟩
        · obtain ⟨k, rfl⟩ : ∃ k, turns = k + 1 := ⟨turns - 1, by omega⟩
          simp [parseLoop, hstream fuel (by omega), hpos]
        · have hholds := hnext.holds
          unfold IndexParse.Holds at hholds
          rwa [hp] at hholds
        · have htiles := hnext.tiles
          rwa [show s₁.cursor.position.toNat = 0 by omega] at htiles

/-- `parse_block_indexes` ends for every file. `position` was never negative and every `pread`
started inside the file, and if it left the loop with `LZMA_OK`, the reader's index has streams
that tile the file. -/
theorem parseBlockIndexes_tiles (hl : lzma.Lawful) (hsize : file.length < 2 ^ 63)
    (indexes : Heap (List LzmaStream)) (streamPadding : ℕ) : ∃ n s ret done,
    (∀ fuel, n ≤ fuel →
      parseBlockIndexes lzma file fuel indexes streamPadding = .ok (s, ret, done)) ∧
      s.cursor.Inside file ∧
      (done = true → ret = .ok → ∃ p streams, s.index = some p ∧
        s.indexes.cells p = some streams ∧ Tiles lzma file 0 streams file.length) := by
  have hstart : Between lzma file ⟨.atEnd file.length, indexes, none, none, streamPadding⟩ [] :=
    ⟨inside_atEnd file _, ⟨by simp, by simp⟩, rfl, rfl, Int.toNat_natCast _, le_rfl⟩
  obtain ⟨n, s, ret, done, hloop, hc, htiles⟩ := parseLoop_spec hl hsize hstart 0
  exact ⟨n, s, ret, done, fun fuel hf => hloop fuel fuel hf hf, hc, fun hdone _ => htiles hdone⟩

/-- The stream of a file of the three letters abc. Its header and its footer are those of the stream
of an empty file. -/
def letterStream : List UInt8 :=
  [0xfd, 0x37, 0x7a, 0x58, 0x5a, 0x00, 0x00, 0x04, 0xe6, 0xd6, 0xb4, 0x46,
    0x02, 0x00, 0x21, 0x01, 0x16, 0x00, 0x00, 0x00, 0x74, 0x2f, 0xe5, 0xa3,
    0x01, 0x00, 0x02, 0x61, 0x62, 0x63, 0x00, 0x00, 0x27, 0x76, 0x27, 0x1a,
    0x4a, 0x09, 0xd8, 0x2c, 0x00, 0x01, 0x1b, 0x03, 0x0b, 0x2f, 0xb9, 0x10,
    0x1f, 0xb6, 0xf3, 0x7d, 0x01, 0x00, 0x00, 0x00, 0x00, 0x04, 0x59, 0x5a]

/-- The library on these two streams. -/
def tinyLzma : Lzma where
  streamFooterDecode bytes :=
    if bytes = slice letterStream 48 12 then (.ok, ⟨0, 8, 4⟩) else (.formatError, ⟨0, 4, 0⟩)
  streamHeaderDecode bytes :=
    if bytes = slice letterStream 0 12 then (.ok, ⟨0, 0, 4⟩) else (.formatError, ⟨0, 0, 0⟩)
  streamFlagsCompare _ _ := .ok
  indexDecoder _ := .ok
  code _ buffers :=
    if buffers.flatten = slice letterStream 40 8 ∨ buffers.flatten = slice (emptyStream 0) 12 8 then
      (.streamEnd, 0)
    else (.dataError, 0)
  decoded _ buffers := if buffers.flatten = slice letterStream 40 8 then (28, 8, [3]) else (0, 8, [])
  indexTotalSize streams := (streams.map LzmaStream.totalSize).sum
  indexStreamFlags streams flags := streams.modifyLast fun s => { s with flags := some flags }
  indexStreamPadding streams padding :=
    let padded := streams.modifyLast fun s => { s with padding }
    if padding % 4 ≠ 0 then (.progError, streams)
    else if lzmaVliMax < (padded.map LzmaStream.fileSize).sum then (.dataError, streams)
    else (.ok, padded)
  indexCat _ := .ok
  indexIter streams := blocksFrom 0 (streams.flatMap LzmaStream.blocks)

lemma tinyLzma_lawful : tinyLzma.Lawful := by
  constructor
  case backwardSize =>
    intro bytes flags h
    simp only [tinyLzma] at h
    split_ifs at h
    · obtain rfl := (Prod.mk.inj h).2
      decide
    · cases h
  case ends =>
    intro turn buffers
    refine ⟨0, ?_⟩
    simp only [tinyLzma]
    split_ifs <;> decide
  case indexSize =>
    intro turn buffers h
    simp only [tinyLzma] at h ⊢
    by_cases hletters : buffers.flatten = slice letterStream 40 8
    · rw [if_pos hletters, hletters]
      rfl
    · rw [if_neg hletters]
      split_ifs at h with hbytes
      · rw [hbytes.resolve_left hletters]
        rfl
      · cases h
  case indexStreamPadding =>
    intro streams padding hmod hle
    simp only [tinyLzma]
    rw [if_neg (by omega), if_neg (by omega)]
  all_goals
    intros
    rfl

/-- Both streams with three words of padding. -/
def paddedStreams : List UInt8 := letterStream ++ List.replicate 12 0 ++ emptyStream 12

def paddedIndex : List LzmaStream :=
  [⟨[3], 28, 8, some ⟨0, 8, 4⟩, 12⟩, ⟨[], 0, 8, some ⟨0, 8, 4⟩, 12⟩]

set_option maxRecDepth 4000 in
lemma parseBlockIndexes_paddedStreams : ∃ s : IndexParse,
    (∀ fuel, parseBlockIndexes tinyLzma paddedStreams (fuel + 3) Heap.empty 0 =
      .ok (s, .ok, true)) ∧ s.index = some 1 ∧ s.indexes.cells 1 = some paddedIndex :=
  ⟨_, fun _ => rfl, rfl, rfl⟩

theorem parseBlockIndexes_tiles_paddedStreams : ∃ n s p,
    (∀ fuel, n ≤ fuel →
      parseBlockIndexes tinyLzma paddedStreams fuel Heap.empty 0 = .ok (s, .ok, true)) ∧
      s.cursor.Inside paddedStreams ∧ s.index = some p ∧ s.indexes.cells p = some paddedIndex ∧
      Tiles tinyLzma paddedStreams 0 paddedIndex paddedStreams.length := by
  have hsize : paddedStreams.length < 2 ^ 63 := by decide
  obtain ⟨n, s, ret, done, hparse, hin, htiles⟩ :=
    parseBlockIndexes_tiles tinyLzma_lawful hsize Heap.empty 0
  obtain ⟨s', hrun, hindex, hcells⟩ := parseBlockIndexes_paddedStreams
  have heq := (hparse (n + 3) (Nat.le_add_right n 3)).symm.trans (hrun n)
  simp only [Except.ok.injEq, Prod.mk.injEq] at heq
  obtain ⟨rfl, rfl, rfl⟩ := heq
  obtain ⟨p, streams, hp, hstreams, hall⟩ := htiles rfl rfl
  obtain rfl := Option.some.inj (hp.symm.trans hindex)
  obtain rfl := Option.some.inj (hstreams.symm.trans hcells)
  exact ⟨n, s, 1, hparse, hin, hindex, hcells, hall⟩

end Spotlight.Xz
