import Spotlight.ReadLayer
import Spotlight.StoredInflate

/-! Which reader a file gets. The parse of the indexes turns out the same whatever a reader holds in
`stream_padding`, so a file that `xz_is_supported` accepts always gets its reader. -/
namespace Spotlight.ReadLayer
open Bytes Zlib Gzip Xz Ext4 Outcome Relation

variable {lzma : Lzma} {file : List UInt8} {fuel turn : ℕ} {s s' : IndexParse} {p : ℕ}

/-- The variables of a parse whose reader holds another `stream_padding`. -/
abbrev repad (p : ℕ) (s : IndexParse) : IndexParse := { s with streamPadding := p }

lemma decodeIndex_repad (flags : StreamFlags) :
    decodeIndex lzma file fuel turn (repad p s) flags =
      Prod.map (repad p) id <$> decodeIndex lzma file fuel turn s flags := by
  simp only [decodeIndex, repad]
  split_ifs
  · rfl
  · rfl
  · generalize indexLoop _ _ _ _ _ _ _ = r
    obtain e | ⟨cursor, size, ret | ⟨ret, availIn, buffers⟩⟩ := r
    · rfl
    · rfl
    · simp only [ok_bind]
      split_ifs <;> rfl

lemma decodeHeader_repad (flags : StreamFlags) :
    decodeHeader lzma file (repad p s) flags =
      Prod.map (repad p) id <$> decodeHeader lzma file s flags := by
  simp only [decodeHeader]
  cases deref s.currentIndex with
  | error e => rfl
  | ok current =>
    simp only [ok_bind]
    cases s.indexes.read current with
    | error e => rfl
    | ok streams =>
      simp only [ok_bind]
      split_ifs
      · rfl
      · rfl
      · generalize lzma.streamHeaderDecode _ = r
        obtain ⟨ret, flags⟩ := r
        cases ret <;> rfl

lemma storeIndex_repad (flags : StreamFlags) (padding : ℕ) :
    Prod.map (repad 0) id <$> storeIndex lzma turn (repad p s) flags padding =
      Prod.map (repad 0) id <$> storeIndex lzma turn s flags padding := by
  simp only [storeIndex]
  cases deref s.currentIndex with
  | error e => rfl
  | ok current =>
    simp only [ok_bind]
    cases s.indexes.read current with
    | error e => rfl
    | ok streams =>
      simp only [ok_bind]
      generalize s.indexes.modify _ _ = r
      cases r with
      | error e => rfl
      | ok indexes =>
        simp only [ok_bind]
        cases s.index with
        | none => rfl
        | some index =>
          dsimp only
          split_ifs
          · rfl
          · cases indexes.read index with
            | error e => rfl
            | ok rest =>
              simp only [ok_bind]
              generalize indexes.modify _ _ = r
              cases r with
              | error e => rfl
              | ok indexes =>
                simp only [ok_bind]
                cases indexes.free index <;> rfl

lemma parseStream_repad : Prod.map (repad 0) id <$> parseStream lzma file fuel turn (repad p s) =
    Prod.map (repad 0) id <$> parseStream lzma file fuel turn s := by
  simp only [parseStream]
  generalize footerSearch file s.cursor = r
  obtain e | ⟨cursor, padding, ret | buffer⟩ := r
  · rfl
  · rfl
  simp only [ok_bind]
  generalize lzma.streamFooterDecode buffer = r
  obtain ⟨ret, flags⟩ := r
  cases ret
  case ok =>
    dsimp only
    split_ifs
    · rfl
    have hindex : decodeIndex lzma file fuel turn (repad p { s with cursor }) flags = _ :=
      decodeIndex_repad flags
    simp only [repad] at hindex
    rw [hindex]
    generalize decodeIndex _ _ _ _ _ _ = r
    obtain e | ⟨s₁, ret⟩ := r
    · rfl
    cases ret
    case ok =>
      simp only [map_ok, ok_bind, Prod.map, id]
      rw [decodeHeader_repad]
      generalize decodeHeader _ _ _ _ = r
      obtain e | ⟨s₂, ret⟩ := r
      · rfl
      cases ret
      case ok => exact storeIndex_repad flags padding
      all_goals rfl
    all_goals rfl
  all_goals rfl

lemma eq_repad_of_map {α : Type} {x y : Outcome (IndexParse × α)}
    (h : Prod.map (repad 0) id <$> x = Prod.map (repad 0) id <$> y) {s : IndexParse} {a : α}
    (hx : x = .ok (s, a)) : ∃ p, y = .ok (repad p s, a) := by
  subst hx
  obtain e | ⟨s', b⟩ := y
  · cases h
  · simp only [map_ok, Except.ok.injEq, Prod.map, id, Prod.mk.injEq, IndexParse.mk.injEq] at h
    obtain ⟨⟨hcursor, hindexes, hcurrent, hindex, -⟩, rfl⟩ := h
    exact ⟨s'.streamPadding, by rw [repad, hcursor, hindexes, hcurrent, hindex]⟩

lemma parseLoop_repad {n : ℕ} :
    Prod.map (repad 0) id <$> parseLoop lzma file fuel n turn (repad p s) =
      Prod.map (repad 0) id <$> parseLoop lzma file fuel n turn s := by
  induction n generalizing turn s p with
  | zero => rfl
  | succ n ih =>
    have hturn : _ = Prod.map (repad 0) id <$> parseStream lzma file fuel turn (repad p s) :=
      parseStream_repad.symm
    simp only [parseLoop]
    cases hstream : parseStream lzma file fuel turn s with
    | error e =>
      rw [hstream] at hturn
      cases hrun : parseStream lzma file fuel turn (repad p s) with
      | error e' =>
        rw [hrun] at hturn
        cases hturn
        rfl
      | ok r =>
        rw [hrun] at hturn
        cases hturn
    | ok r =>
      obtain ⟨s₁, ret | ret⟩ := r
      · obtain ⟨q, hrun⟩ := eq_repad_of_map hturn hstream
        rw [hrun]
        simp only [ok_bind]
        cases lzmaIndexEnd s₁.indexes s₁.index with
        | error e => rfl
        | ok indexes =>
          simp only [ok_bind]
          cases lzmaIndexEnd indexes s₁.currentIndex <;> rfl
      · obtain ⟨q, hrun⟩ := eq_repad_of_map hturn hstream
        rw [hrun]
        simp only [ok_bind]
        split_ifs
        · exact ih
        · rfl

/-- What a parse leaves, whatever the reader holds in `stream_padding`. -/
lemma parse_left (hl : lzma.Lawful) (hsize : file.length < 2 ^ 63) : ∃ n s ret done,
    LoopLeft lzma file (0, .start file 0) s ret ∧
      (∀ fuel, n ≤ fuel →
        parseBlockIndexes lzma file fuel Heap.empty 0 = .ok (s, ret, done)) ∧
      ∀ fuel, n ≤ fuel → ∀ padding, ∃ p,
        parseBlockIndexes lzma file fuel Heap.empty padding = .ok (repad p s, ret, done) := by
  obtain ⟨n, s, ret, done, hparse, hleft⟩ := parseBlockIndexes_left hl hsize 0
  refine ⟨n, s, ret, done, hleft, hparse, fun fuel hn padding => ?_⟩
  exact eq_repad_of_map (parseLoop_repad (p := padding)).symm (hparse fuel hn)

/-- The index that the parse of a file finds. -/
def Indexed (lzma : Lzma) (file : List UInt8) (streams : List LzmaStream) : Prop :=
  ∃ s p done, Settles (fun fuel => parseBlockIndexes lzma file fuel Heap.empty 0) (s, .ok, done) ∧
    s.index = some p ∧ s.indexes.cells p = some streams

lemma Indexed.unique {streams streams' : List LzmaStream} (h : Indexed lzma file streams)
    (h' : Indexed lzma file streams') : streams = streams' := by
  obtain ⟨s, p, done, hparse, hp, hcell⟩ := h
  obtain ⟨s', p', done', hparse', hp', hcell'⟩ := h'
  obtain rfl := (Prod.mk.inj (hparse.unique hparse')).1
  obtain rfl := Option.some.inj (hp.symm.trans hp')
  exact Option.some.inj (hcell.symm.trans hcell')

/-- One index is live. -/
def OneLive (indexes : Arena) (p : ℕ) : Prop := ∀ q, (indexes.cells q).isSome ↔ q = p

/-- No index is live. -/
def AllEnded (indexes : Arena) : Prop := ∀ p, indexes.cells p = none

lemma oneLive_of_owns (h : s.Owns) (hcurrent : s.currentIndex = none) (hindex : s.index = some p) :
    OneLive s.indexes p := by
  intro q
  rw [h.live, hindex, hcurrent, Option.some_inj, eq_comm]
  simp

lemma OneLive.ends {indexes : Arena} (h : OneLive indexes p) : ∃ indexes',
    lzmaIndexEnd indexes (some p) = .ok indexes' ∧ AllEnded indexes' := by
  obtain ⟨streams, hstreams⟩ := Option.isSome_iff_exists.mp ((h p).mpr rfl)
  refine ⟨indexes.release p, Heap.free_of_cell hstreams, fun q => ?_⟩
  rw [← Option.not_isSome_iff_eq_none, Heap.isSome_release, h]
  rintro ⟨heq, hne⟩
  exact hne heq

lemma foldl_maxSize_le {blocks : List XzBlock} {n k : ℕ} :
    blocks.foldl (fun maxSize b => if maxSize < b.size then b.size else maxSize) k ≤ n ↔
      k ≤ n ∧ ∀ b ∈ blocks, b.size ≤ n := by
  induction blocks generalizing k with
  | nil => simp
  | cons b blocks ih =>
    rw [List.foldl_cons, ih, List.forall_mem_cons, ← and_assoc]
    refine and_congr_left fun _ => ?_
    split_ifs <;> omega

lemma maxBlockSize_le {blocks : List XzBlock} {n : ℕ} :
    maxBlockSize blocks ≤ n ↔ ∀ b ∈ blocks, b.size ≤ n := by
  rw [maxBlockSize, foldl_maxSize_le]
  simp only [Nat.zero_le, true_and, List.mem_filter, decide_eq_true_eq]
  exact forall_congr' fun b =>
    ⟨fun h hb => (Nat.eq_zero_or_pos b.size).elim (by omega) fun hpos => h ⟨hb, by omega⟩,
      fun h hb => h hb.1⟩

/-- What `xz_is_supported` asks of a file: the magic header where it reads, streams that all can be
read from the end, and no block too large for the cache. -/
structure XzSupported (env : Env) (file : CFile) : Prop where
  magic : slice file.bytes file.pos 6 = xzMagicHeader
  streams : ∀ a, ReflTransGen (NextStream env.lzma file.bytes) (0, .start file.bytes 0) a →
    ¬StreamFails env.lzma file.bytes a
  blocks : ∀ streams, Indexed env.lzma file.bytes streams →
    ∀ b ∈ env.lzma.indexIter streams, b.size ≤ maxSupportedBlockSize

/-- The test of a file for xz, and the ledger of the indexes behind it. -/
structure XzTested (env : Env) (file : CFile) (r : CFile × Arena × Bool) : Prop where
  bytes : r.1.bytes = file.bytes
  supported : r.2.2 = true ↔ XzSupported env file
  live : r.2.2 = true → ∃ p, OneLive r.2.1 p
  ended : r.2.2 = false → AllEnded r.2.1

lemma hasMagic_eq (magic : List UInt8) (file : CFile) : hasMagic magic file =
    ({ file with pos := file.pos + (slice file.bytes file.pos magic.length).length },
      decide (slice file.bytes file.pos magic.length = magic)) := rfl

lemma xzIsSupported_of_parse {env : Env} {file : CFile} {ret : LzmaRet} {done : Bool}
    (hmagic : slice file.bytes file.pos 6 = xzMagicHeader)
    (hparse : parseBlockIndexes env.lzma file.bytes fuel Heap.empty 0 = .ok (s, ret, done)) :
    xzIsSupported env fuel file =
      if ret ≠ .ok then .ok (file.seekEnd, s.indexes, false)
      else do
        let index ← deref s.index
        let streams ← s.indexes.read index
        if maxSupportedBlockSize < maxBlockSize (env.lzma.indexIter streams) then do
          let indexes ← lzmaIndexEnd s.indexes s.index
          return (file.seekEnd, indexes, false)
        else return (file.seekEnd, s.indexes, true) := by
  have hhas : decide (slice file.bytes file.pos xzMagicHeader.length = xzMagicHeader) = true :=
    decide_eq_true hmagic
  rw [xzIsSupported, hasMagic_eq, hhas]
  dsimp only
  rw [if_neg (by simp), hparse]
  rfl

theorem xzIsSupported_spec {env : Env} (hl : env.lzma.Lawful) {file : CFile}
    (hsize : file.bytes.length < 2 ^ 63) :
    ∃ r, Settles (fun fuel => xzIsSupported env fuel file) r ∧ XzTested env file r := by
  by_cases hmagic : slice file.bytes file.pos 6 = xzMagicHeader
  · obtain ⟨n, s, ret, done, hleft, hparse, -⟩ := parse_left hl hsize
    have hrun := fun fuel hn => xzIsSupported_of_parse hmagic (hparse fuel hn)
    by_cases hret : ret = .ok
    · subst hret
      obtain ⟨howns, hcurrent, hindex, hno⟩ := hleft.joined rfl
      obtain ⟨p, hp⟩ := Option.isSome_iff_exists.mp hindex
      have hlive := oneLive_of_owns howns hcurrent hp
      obtain ⟨streams, hcell⟩ := Option.isSome_iff_exists.mp ((hlive p).mpr rfl)
      have hindexed : Indexed env.lzma file.bytes streams := ⟨s, p, done, ⟨n, hparse⟩, hp, hcell⟩
      by_cases hblocks : maxSupportedBlockSize < maxBlockSize (env.lzma.indexIter streams)
      · obtain ⟨indexes', hend, hended⟩ := hlive.ends
        refine ⟨(file.seekEnd, indexes', false), ⟨n, fun fuel hn => ?_⟩, rfl,
          iff_of_false (by simp) fun h => ?_, by simp, fun _ => hended⟩
        · simp [hrun fuel hn, hp, Heap.read_of_cell hcell, hblocks, hend]
        · exact absurd (maxBlockSize_le.mpr (h.blocks streams hindexed)) (Nat.not_le.mpr hblocks)
      · refine ⟨(file.seekEnd, s.indexes, true), ⟨n, fun fuel hn => ?_⟩, rfl,
          iff_of_true rfl ⟨hmagic, hno, fun streams' h' => ?_⟩, fun _ => ⟨p, hlive⟩, by simp⟩
        · simp [hrun fuel hn, hp, Heap.read_of_cell hcell, hblocks]
        · rw [← hindexed.unique h']
          exact maxBlockSize_le.mp (Nat.not_lt.mp hblocks)
    · obtain ⟨hended, ⟨a, ha, hfails⟩, -⟩ := hleft.failed hret
      refine ⟨(file.seekEnd, s.indexes, false), ⟨n, fun fuel hn => ?_⟩, rfl,
        iff_of_false (by simp) fun h => h.streams a ha hfails, by simp, fun _ => hended⟩
      simp [hrun fuel hn, hret]
  · have hhas : decide (slice file.bytes file.pos xzMagicHeader.length = xzMagicHeader) = false :=
      decide_eq_false hmagic
    refine ⟨((hasMagic xzMagicHeader file).1, Heap.empty, false), ⟨0, fun fuel _ => ?_⟩, rfl,
      iff_of_false (by simp) fun h => hmagic h.magic, by simp, fun _ _ => rfl⟩
    change xzIsSupported env fuel file = _
    rw [xzIsSupported, hasMagic_eq, hhas]
    rfl

/-- The reader that a file gets: the first one whose test it passes. The test for gzip reads at the
position of the file, and the others at its front. -/
inductive Chosen (env : Env) (file : CFile) : ReaderImpl → Prop
  | gzip (hmagic : slice file.bytes file.pos 2 = gzipMagicHeader) : Chosen env file .gzip
  | xz (hmagic : slice file.bytes file.pos 2 ≠ gzipMagicHeader)
      (hxz : XzSupported env file.rewind) : Chosen env file .xz
  | raw (hmagic : slice file.bytes file.pos 2 ≠ gzipMagicHeader)
      (hxz : ¬XzSupported env file.rewind) : Chosen env file .raw

/-- What the tests have lost: the index of a file that is supported for xz. -/
def Lost : ReaderImpl → List Arena → Prop
  | .gzip, lost => lost = []
  | .xz, lost => ∃ indexes p, lost = [indexes] ∧ OneLive indexes p
  | .raw, lost => ∃ indexes, lost = [indexes] ∧ AllEnded indexes

/-- One index is live, and it is the one that the parse of the file finds. -/
def OwnIndex (lzma : Lzma) (file : List UInt8) (indexes : Arena) (p : ℕ) : Prop :=
  OneLive indexes p ∧ ∃ streams, indexes.cells p = some streams ∧ Indexed lzma file streams

/-- A reader of the file that has not been used. -/
def Unused (env : Env) (file : List UInt8) : ReaderImpl → CompressionReader → Prop
  | .gzip, reader => reader = .gzip []
  | .xz, reader => ∃ indexes p streamPadding,
    reader = .xz indexes ⟨some p, emptyCache, streamPadding⟩ ∧ OwnIndex env.lzma file indexes p
  | .raw, reader => reader = .raw

/-- An unused reader of this kind, at the front of the file. -/
structure Allocated (env : Env) (file : CFile) (impl : ReaderImpl)
    (r : CFile × List Arena × Option CompressionReader) : Prop where
  bytes : r.1.bytes = file.bytes
  front : impl ≠ .xz → r.1.pos = 0
  lost : Lost impl r.2.1
  reader : ∃ reader, r.2.2 = some reader ∧ Unused env file.bytes impl reader

lemma xzReaderAlloc_supported {env : Env} (hl : env.lzma.Lawful) {file : CFile}
    (hsize : file.bytes.length < 2 ^ 63) (hxz : XzSupported env file) : ∃ n indexes p,
    OwnIndex env.lzma file.bytes indexes p ∧ ∀ fuel, n ≤ fuel → ∀ padding, ∃ streamPadding,
      xzReaderAlloc env.lzma file.bytes fuel padding =
        .ok (indexes, some ⟨some p, emptyCache, streamPadding⟩) := by
  obtain ⟨n, s, ret, done, hleft, hparse, hrepad⟩ := parse_left hl hsize
  have hret : ret = .ok := by
    by_contra hne
    obtain ⟨-, ⟨a, ha, hfails⟩, -⟩ := hleft.failed hne
    exact hxz.streams a ha hfails
  subst hret
  obtain ⟨howns, hcurrent, hindex, -⟩ := hleft.joined rfl
  obtain ⟨p, hp⟩ := Option.isSome_iff_exists.mp hindex
  have hlive := oneLive_of_owns howns hcurrent hp
  obtain ⟨streams, hcell⟩ := Option.isSome_iff_exists.mp ((hlive p).mpr rfl)
  refine ⟨n, s.indexes, p, ⟨hlive, streams, hcell, s, p, done, ⟨n, hparse⟩, hp, hcell⟩,
    fun fuel hf padding => ?_⟩
  obtain ⟨q, hq⟩ := hrepad fuel hf padding
  exact ⟨q, by simp [xzReaderAlloc, hq, hp]⟩

variable {env : Env} {f : CFile}

lemma getSupportedCompReader_eq (fuel : ℕ) (f : CFile) :
    getSupportedCompReader env fuel availableReaders f =
      if slice f.bytes f.pos 2 = gzipMagicHeader then
        .ok ((gzipIsSupported f).1, [], some .gzip)
      else do
        let (f', indexes, supported) ← xzIsSupported env fuel f.rewind
        if supported then return (f', [indexes], some .xz)
        else return (f'.rewind, [indexes], some .raw) := by
  have hgzip : (gzipIsSupported f).2 = decide (slice f.bytes f.pos 2 = gzipMagicHeader) := rfl
  have hrewind : (gzipIsSupported f).1.rewind = f.rewind := rfl
  rw [availableReaders, getSupportedCompReader, ReaderImpl.isSupported, ok_bind]
  dsimp only
  rw [hgzip, hrewind]
  by_cases hmagic : slice f.bytes f.pos 2 = gzipMagicHeader
  · simp [hmagic]
  rw [decide_eq_false hmagic, if_neg Bool.false_ne_true, if_neg hmagic, getSupportedCompReader,
    ReaderImpl.isSupported]
  obtain e | ⟨f', indexes, supported⟩ := xzIsSupported env fuel f.rewind
  · rfl
  · cases supported <;> rfl

lemma getSupportedCompReader_spec (hl : env.lzma.Lawful) (hsize : f.bytes.length < 2 ^ 63) :
    ∃ impl f' lost, Chosen env f impl ∧ f'.bytes = f.bytes ∧ Lost impl lost ∧
      Settles (fun fuel => getSupportedCompReader env fuel availableReaders f)
        (f', lost, some impl) := by
  simp only [getSupportedCompReader_eq]
  by_cases hmagic : slice f.bytes f.pos 2 = gzipMagicHeader
  · exact ⟨.gzip, (gzipIsSupported f).1, [], .gzip hmagic, rfl, rfl, 0, fun fuel _ => if_pos hmagic⟩
  simp only [if_neg hmagic]
  have hsize' : f.rewind.bytes.length < 2 ^ 63 := hsize
  obtain ⟨⟨f', indexes, supported⟩, ⟨n, hn⟩, htest⟩ := xzIsSupported_spec hl hsize'
  cases supported with
  | true =>
    obtain ⟨p, hlive⟩ := htest.live rfl
    exact ⟨.xz, f', [indexes], .xz hmagic (htest.supported.mp rfl), htest.bytes,
      ⟨indexes, p, rfl, hlive⟩, n, fun fuel hf => by simp [hn fuel hf]⟩
  | false =>
    have hxz : ¬XzSupported env f.rewind := fun h => by simpa using htest.supported.mpr h
    exact ⟨.raw, f'.rewind, [indexes], .raw hmagic hxz, htest.bytes,
      ⟨indexes, rfl, htest.ended rfl⟩, n, fun fuel hf => by simp [hn fuel hf]⟩

lemma compressionReaderAlloc_spec (hl : env.lzma.Lawful) (hsize : f.bytes.length < 2 ^ 63) :
    ∃ n impl, Chosen env f impl ∧ ∀ fuel, n ≤ fuel → ∀ padding, ∃ r,
      compressionReaderAlloc env fuel padding f = .ok r ∧ Allocated env f impl r := by
  obtain ⟨impl, f', lost, hchosen, hbytes, hlost, n, hn⟩ := getSupportedCompReader_spec hl hsize
  have hfront : f'.rewind = f.rewind := congrArg (CFile.mk · 0) hbytes
  cases impl with
  | gzip =>
    refine ⟨n, .gzip, hchosen, fun fuel hf padding => ⟨(f.rewind, lost, some (.gzip [])), ?_, rfl,
      fun _ => rfl, hlost, _, rfl, rfl⟩⟩
    simp [compressionReaderAlloc, hn fuel hf, ReaderImpl.alloc, hfront]
  | xz =>
    have hsize' : f.rewind.bytes.length < 2 ^ 63 := hsize
    have hxz : XzSupported env f.rewind := by
      cases hchosen
      assumption
    obtain ⟨m, indexes, p, hown, hm⟩ := xzReaderAlloc_supported hl hsize' hxz
    refine ⟨max n m, .xz, hchosen, fun fuel hf padding => ?_⟩
    obtain ⟨streamPadding, halloc⟩ := hm fuel (le_of_max_le_right hf) padding
    refine ⟨(f.rewind.seekEnd, lost, some (.xz indexes _)), ?_, rfl, by simp, hlost, _, rfl,
      indexes, p, streamPadding, rfl, hown⟩
    simp [compressionReaderAlloc, hn fuel (le_of_max_le_left hf), ReaderImpl.alloc, hfront, halloc]
  | raw =>
    refine ⟨n, .raw, hchosen, fun fuel hf padding => ⟨(f.rewind, lost, some .raw), ?_, rfl,
      fun _ => rfl, hlost, _, rfl, rfl⟩⟩
    simp [compressionReaderAlloc, hn fuel hf, ReaderImpl.alloc, hfront]

lemma XzSupported.not_gzip (h : XzSupported env f.rewind) :
    slice f.bytes 0 2 ≠ gzipMagicHeader := by
  have hsix : slice f.bytes 0 6 = xzMagicHeader := h.magic
  have htwo : slice f.bytes 0 2 = (slice f.bytes 0 6).take 2 := by
    simp [slice, List.take_take]
  rw [htwo, hsix]
  decide

lemma Chosen.unique {impl impl' : ReaderImpl} (h : Chosen env f impl) (h' : Chosen env f impl') :
    impl = impl' := by
  cases h <;> cases h' <;> first | rfl | contradiction

/-- A file that `xz_is_supported` accepts gets its reader from `xz_reader_alloc`, with an index of
its own. The index of the test stays live: nothing ends it. -/
theorem xzIsSupported_reader (hl : env.lzma.Lawful) (hsize : f.bytes.length < 2 ^ 63) :
    ∃ n r, XzTested env f r ∧ ∀ fuel, n ≤ fuel → xzIsSupported env fuel f = .ok r ∧
      (r.2.2 = true → ∀ padding, ∃ indexes p streamPadding,
        OwnIndex env.lzma f.bytes indexes p ∧ xzReaderAlloc env.lzma f.bytes fuel padding =
          .ok (indexes, some ⟨some p, emptyCache, streamPadding⟩)) := by
  obtain ⟨r, ⟨n, hn⟩, htest⟩ := xzIsSupported_spec hl hsize
  by_cases hxz : XzSupported env f
  · obtain ⟨m, indexes, p, hown, hm⟩ := xzReaderAlloc_supported hl hsize hxz
    refine ⟨max n m, r, htest, fun fuel hf => ⟨hn fuel (le_of_max_le_left hf), fun _ padding => ?_⟩⟩
    obtain ⟨streamPadding, halloc⟩ := hm fuel (le_of_max_le_right hf) padding
    exact ⟨indexes, p, streamPadding, hown, halloc⟩
  · exact ⟨n, r, htest, fun fuel hf => ⟨hn fuel hf, fun h => absurd (htest.supported.mp h) hxz⟩⟩

/-- Every file gets a reader, at any position and whatever memory holds. A gzip file is taken for a
raw one where its header does not stand at the position. -/
theorem compressionReaderAlloc_total (hl : env.lzma.Lawful) (hsize : f.bytes.length < 2 ^ 63) :
    ∃ n impl, (∀ impl', Chosen env f impl' ↔ impl' = impl) ∧
      (∀ fuel, n ≤ fuel → ∀ padding, ∃ r,
        compressionReaderAlloc env fuel padding f = .ok r ∧ Allocated env f impl r) ∧
      (slice f.bytes 0 2 = gzipMagicHeader →
        (impl = .raw ↔ slice f.bytes f.pos 2 ≠ gzipMagicHeader)) := by
  obtain ⟨n, impl, hchosen, halloc⟩ := compressionReaderAlloc_spec hl hsize
  refine ⟨n, impl, fun impl' => ⟨fun h => h.unique hchosen, fun h => h ▸ hchosen⟩, halloc,
    fun hgzip => ?_⟩
  cases hchosen with
  | gzip hmagic => simp [hmagic]
  | xz hmagic hxz => exact absurd hgzip hxz.not_gzip
  | raw hmagic hxz => simp [hmagic]

/-- The libraries on stored blocks and on two small xz streams, the first of which has a block. -/
def storedEnv : Env where
  z := Stored.library
  lzma := tinyLzma
  decodeBlock file block :=
    if slice file 0 60 = letterStream ∧ block = ⟨0, 3⟩ then some (slice file 27 3) else none
  malloc := enoughMemory
  stack _ := List.replicate windowSize 0
  stack_length _ := List.length_replicate
  streamPadding _ := 0

lemma storedEnv_lawful : storedEnv.lzma.Lawful := tinyLzma_lawful

lemma xzIsSupported_paddedStreams : ∃ indexes, ∀ fuel,
    xzIsSupported storedEnv (fuel + 3) ⟨paddedStreams, 0⟩ =
      .ok (⟨paddedStreams, paddedStreams.length⟩, indexes, true) := by
  obtain ⟨s, hparse, hindex, hcell⟩ := parseBlockIndexes_paddedStreams
  have hblocks : ¬maxSupportedBlockSize < maxBlockSize (storedEnv.lzma.indexIter paddedIndex) := by
    decide
  have hmagic : slice paddedStreams 0 6 = xzMagicHeader := by decide
  refine ⟨s.indexes, fun fuel => ?_⟩
  have hrun : xzIsSupported storedEnv (fuel + 3) ⟨paddedStreams, 0⟩ = _ :=
    xzIsSupported_of_parse hmagic (hparse fuel)
  rw [hrun]
  simp [hindex, Heap.read_of_cell hcell, hblocks, CFile.seekEnd]

lemma xzSupported_paddedStreams : XzSupported storedEnv ⟨paddedStreams, 0⟩ := by
  have hsize : (⟨paddedStreams, 0⟩ : CFile).bytes.length < 2 ^ 63 := by
    change paddedStreams.length < 2 ^ 63
    decide
  obtain ⟨r, ⟨n, hn⟩, htest⟩ := xzIsSupported_spec storedEnv_lawful hsize
  obtain ⟨indexes, hrun⟩ := xzIsSupported_paddedStreams
  have heq := (hn (n + 3) (Nat.le_add_right n 3)).symm.trans (hrun n)
  obtain rfl := Except.ok.inj heq
  exact htest.supported.mp rfl

/-- Two streams with padding are supported, and their reader has the index of both. -/
theorem xzIsSupported_reader_paddedStreams : ∃ n r, XzTested storedEnv ⟨paddedStreams, 0⟩ r ∧
    ∀ fuel, n ≤ fuel → xzIsSupported storedEnv fuel ⟨paddedStreams, 0⟩ = .ok r ∧ r.2.2 = true ∧
      ∀ padding, ∃ indexes p streamPadding, OwnIndex tinyLzma paddedStreams indexes p ∧
        xzReaderAlloc tinyLzma paddedStreams fuel padding =
          .ok (indexes, some ⟨some p, emptyCache, streamPadding⟩) := by
  have hsize : paddedStreams.length < 2 ^ 63 := by decide
  obtain ⟨n, r, htest, hr⟩ :=
    xzIsSupported_reader storedEnv_lawful (f := ⟨paddedStreams, 0⟩) hsize
  have hsupported := htest.supported.mpr xzSupported_paddedStreams
  exact ⟨n, r, htest, fun fuel hf => ⟨(hr fuel hf).1, hsupported, (hr fuel hf).2 hsupported⟩⟩

/-- A gzip file behind its header. -/
theorem compressionReaderAlloc_total_twoBlocks : ∃ n impl,
    (∀ impl', Chosen storedEnv ⟨Stored.twoBlocks.member.file, 2⟩ impl' ↔ impl' = impl) ∧
      (∀ fuel, n ≤ fuel → ∀ padding, ∃ r,
        compressionReaderAlloc storedEnv fuel padding ⟨Stored.twoBlocks.member.file, 2⟩ = .ok r ∧
          Allocated storedEnv ⟨Stored.twoBlocks.member.file, 2⟩ impl r) ∧ impl = .raw := by
  have hsize : Stored.twoBlocks.member.file.length < 2 ^ 63 := by decide
  obtain ⟨n, impl, hchosen, halloc, hraw⟩ := compressionReaderAlloc_total storedEnv_lawful
    (f := ⟨Stored.twoBlocks.member.file, 2⟩) hsize
  exact ⟨n, impl, hchosen, halloc, (hraw (by decide)).mpr (by decide)⟩

end Spotlight.ReadLayer
