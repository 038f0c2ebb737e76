import Spotlight.Loops
import Spotlight.XzIndexes
import Spotlight.XzRecency

/-! Which indexes of the library are live when a reader is made and freed (`xz_reader_alloc` and
`xz_reader_free` of `xz_reader.c`). -/
namespace Spotlight.Xz
open Bytes Outcome Relation

/-- The fields of `XzReader`, with its index in the memory of the library. The file is a parameter
of the functions that read it. -/
structure ReaderFields where
  index : Option ℕ
  cache : CacheState
  streamPadding : ℕ

/-- `xz_reader_free`: the indexes and the cache that it leaves. -/
def xzReaderFree (indexes : Heap (List LzmaStream)) (reader : ReaderFields) :
    Outcome (Heap (List LzmaStream) × CacheState) := do
  let indexes ← lzmaIndexEnd indexes reader.index
  let cache ← freeCacheEntries reader.cache
  return (indexes, cache)

/-- `xz_reader_alloc`, with the value that `malloc` has left in `stream_padding`. -/
def xzReaderAlloc (lzma : Lzma) (file : List UInt8) (fuel streamPadding : ℕ) :
    Outcome (Heap (List LzmaStream) × Option ReaderFields) := do
  let (s, ret, _) ← parseBlockIndexes lzma file fuel Heap.empty streamPadding
  let reader : ReaderFields := ⟨s.index, emptyCache, s.streamPadding⟩
  if ret ≠ .ok then do
    let (indexes, _) ← xzReaderFree s.indexes reader
    return (indexes, none)
  else return (s.indexes, some reader)

variable {lzma : Lzma} {file : List UInt8} {fuel fuel' turn : ℕ} {s s' : IndexParse}

/-- The live indexes are those of the reader and of `current_index`, and these are two. -/
structure IndexParse.Owns (s : IndexParse) : Prop where
  live : ∀ p, (s.indexes.cells p).isSome ↔ s.index = some p ∨ s.currentIndex = some p
  ne : ∀ p, s.index = some p → s.currentIndex ≠ some p

lemma IndexParse.Owns.of_eq (h : s.Owns) (hindexes : s'.indexes = s.indexes)
    (hindex : s'.index = s.index) (hcurrent : s'.currentIndex = s.currentIndex) : s'.Owns := by
  constructor
  · rw [hindexes, hindex, hcurrent]
    exact h.live
  · rw [hindex, hcurrent]
    exact h.ne

lemma IndexParse.Owns.alloc (h : s.Owns) (hcurrent : s.currentIndex = none)
    {streams : List LzmaStream} (hindexes : s'.indexes = (s.indexes.alloc streams).2)
    (hindex : s'.index = s.index) (hcurrent' : s'.currentIndex = some s.indexes.next) :
    s'.Owns := by
  constructor
  · intro p
    rw [hindexes, hindex, hcurrent', Heap.isSome_alloc, h.live, hcurrent]
    simp [eq_comm]
  · intro p hp heq
    rw [hindex] at hp
    rw [hcurrent', Option.some_inj] at heq
    obtain ⟨a, ha⟩ := Option.isSome_iff_exists.mp ((h.live p).mpr (.inl hp))
    exact (Heap.lt_next ha).ne heq.symm

lemma decodeIndex_owns {flags : StreamFlags} {ret : LzmaRet} (hs : s.Owns)
    (hcurrent : s.currentIndex = none)
    (h : decodeIndex lzma file fuel turn s flags = .ok (s', ret)) :
    s'.Owns ∧ s'.index = s.index := by
  have hsame : ∀ cursor : Cursor,
      ({ s with cursor, currentIndex := none } : IndexParse).Owns := fun cursor =>
    hs.of_eq rfl rfl hcurrent.symm
  unfold decodeIndex at h
  split_ifs at h with hfits hinit
  · obtain ⟨rfl, -⟩ := Prod.mk.inj (Except.ok.inj h)
    exact ⟨hs, rfl⟩
  · obtain ⟨rfl, -⟩ := Prod.mk.inj (Except.ok.inj h)
    exact ⟨hsame _, rfl⟩
  obtain ⟨⟨cursor, indexSize, res⟩, -, h⟩ := Outcome.bind_eq_ok.mp h
  rcases res with ret' | ⟨ret', availIn, buffers⟩
  · obtain ⟨rfl, -⟩ := Prod.mk.inj (Except.ok.inj h)
    exact ⟨hsame _, rfl⟩
  dsimp only at h
  split_ifs at h with hend hrest
  · obtain ⟨rfl, -⟩ := Prod.mk.inj (Except.ok.inj h)
    exact ⟨hs.alloc hcurrent rfl rfl rfl, rfl⟩
  · obtain ⟨rfl, -⟩ := Prod.mk.inj (Except.ok.inj h)
    exact ⟨hs.alloc hcurrent rfl rfl rfl, rfl⟩
  · obtain ⟨rfl, -⟩ := Prod.mk.inj (Except.ok.inj h)
    exact ⟨hsame _, rfl⟩

lemma decodeHeader_owns {flags : StreamFlags} {ret : LzmaRet} (hs : s.Owns)
    (h : decodeHeader lzma file s flags = .ok (s', ret)) : s'.Owns ∧ s'.index = s.index := by
  have hsame : ∀ cursor : Cursor, ({ s with cursor } : IndexParse).Owns := fun cursor =>
    hs.of_eq rfl rfl rfl
  unfold decodeHeader at h
  obtain ⟨current, -, h⟩ := Outcome.bind_eq_ok.mp h
  obtain ⟨streams, -, h⟩ := Outcome.bind_eq_ok.mp h
  dsimp only at h
  split_ifs at h with hfits hread
  · obtain ⟨rfl, -⟩ := Prod.mk.inj (Except.ok.inj h)
    exact ⟨hsame _, rfl⟩
  · obtain ⟨rfl, -⟩ := Prod.mk.inj (Except.ok.inj h)
    exact ⟨hsame _, rfl⟩
  · split at h
    all_goals
      obtain ⟨rfl, -⟩ := Prod.mk.inj (Except.ok.inj h)
      exact ⟨hsame _, rfl⟩

/-- The index of the stream becomes that of the reader, unless the library does not join it to the
one that the reader has. -/
lemma storeIndex_owns {flags : StreamFlags} {padding : ℕ} {res : Except LzmaRet LzmaRet}
    (hs : s.Owns) (h : storeIndex lzma turn s flags padding = .ok (s', res)) : s'.Owns ∧
      ((∃ ret, res = .ok ret ∧ s'.currentIndex = none ∧ s'.index.isSome) ∨
        ∃ ret, res = .error ret ∧ ret ≠ .ok ∧ s'.index = s.index) := by
  unfold storeIndex at h
  obtain ⟨current, hcurrent, h⟩ := Outcome.bind_eq_ok.mp h
  obtain ⟨streams, hstreams, h⟩ := Outcome.bind_eq_ok.mp h
  rw [Outcome.deref_eq_ok] at hcurrent
  obtain ⟨indexes, hmodify, h⟩ := Outcome.bind_eq_ok.mp h
  rw [Heap.read_eq_ok] at hstreams
  rw [Heap.modify_of_cell hstreams, Except.ok.injEq] at hmodify
  have hlive : ∀ p, (indexes.cells p).isSome ↔ (s.indexes.cells p).isSome := by
    intro p
    rw [← hmodify, Heap.isSome_modifyCell]
  dsimp only at h
  cases hindex : s.index with
  | none =>
    rw [hindex] at h
    obtain ⟨rfl, rfl⟩ := Prod.mk.inj (Except.ok.inj h)
    refine ⟨⟨fun p => ?_, fun p _ => by simp⟩, .inl ⟨_, rfl, rfl, rfl⟩⟩
    rw [hlive, hs.live, hindex, hcurrent]
    simp
  | some index =>
    rw [hindex] at h
    dsimp only at h
    by_cases hcat : lzma.indexCat turn ≠ .ok
    · rw [if_pos hcat] at h
      obtain ⟨rfl, rfl⟩ := Prod.mk.inj (Except.ok.inj h)
      refine ⟨⟨fun p => ?_, fun p hp => hs.ne p (hindex.trans hp)⟩, .inr ⟨_, rfl, hcat, rfl⟩⟩
      rw [hlive, hs.live, hindex]
    · rw [if_neg hcat] at h
      obtain ⟨rest, -, h⟩ := Outcome.bind_eq_ok.mp h
      obtain ⟨joined, hjoin, h⟩ := Outcome.bind_eq_ok.mp h
      obtain ⟨freed, hfree, h⟩ := Outcome.bind_eq_ok.mp h
      obtain ⟨rfl, rfl⟩ := Prod.mk.inj (Except.ok.inj h)
      refine ⟨⟨fun p => ?_, fun p _ => by simp⟩, .inl ⟨_, rfl, rfl, rfl⟩⟩
      have hne : index ≠ current := fun heq => hs.ne index hindex (heq ▸ hcurrent)
      rw [Heap.free_eq_ok hfree, Heap.isSome_release, Heap.modify_eq_ok hjoin,
        Heap.isSome_modifyCell, hlive, hs.live, hindex, hcurrent]
      simp only [Option.some.injEq, reduceCtorEq, or_false]
      constructor
      · rintro ⟨rfl | rfl, hp⟩
        · exact absurd rfl hp
        · rfl
      · rintro rfl
        exact ⟨.inr rfl, hne.symm⟩

lemma parseStream_owns {res : Except LzmaRet LzmaRet} (hs : s.Owns)
    (hcurrent : s.currentIndex = none) (hin : s.cursor.Inside file)
    (hle : s.cursor.position ≤ file.length)
    (h : parseStream lzma file fuel turn s = .ok (s', res)) : s'.Owns ∧
      ((∃ ret, res = .ok ret ∧ s'.currentIndex = none ∧ s'.index.isSome) ∨
        ∃ ret, res = .error ret ∧ ret ≠ .ok ∧ s'.index = s.index) := by
  obtain ⟨cursor, k, found, hfooter, -, hfound⟩ := footerSearch_spec hin hle
  have hsame : ({ s with cursor } : IndexParse).Owns := hs.of_eq rfl rfl rfl
  rcases hfound with ⟨rfl, -⟩ | ⟨-, -, -, -, rfl⟩
  · rw [parseStream, hfooter] at h
    obtain ⟨rfl, rfl⟩ := Prod.mk.inj (Except.ok.inj h)
    exact ⟨hsame, .inr ⟨_, rfl, by decide, rfl⟩⟩
  rw [parseStream_of_footer hfooter rfl] at h
  split_ifs at h with hret hversion
  · obtain ⟨rfl, rfl⟩ := Prod.mk.inj (Except.ok.inj h)
    exact ⟨hsame, .inr ⟨_, rfl, hret, rfl⟩⟩
  · obtain ⟨rfl, rfl⟩ := Prod.mk.inj (Except.ok.inj h)
    exact ⟨hsame, .inr ⟨_, rfl, by decide, rfl⟩⟩
  obtain ⟨⟨s₁, ret₁⟩, hindex, h⟩ := Outcome.bind_eq_ok.mp h
  obtain ⟨hs₁, hi₁⟩ := decodeIndex_owns hsame hcurrent hindex
  split_ifs at h with hret₁
  · obtain ⟨rfl, rfl⟩ := Prod.mk.inj (Except.ok.inj h)
    exact ⟨hs₁, .inr ⟨_, rfl, hret₁, hi₁⟩⟩
  obtain ⟨⟨s₂, ret₂⟩, hheader, h⟩ := Outcome.bind_eq_ok.mp h
  obtain ⟨hs₂, hi₂⟩ := decodeHeader_owns hs₁ hheader
  split_ifs at h with hret₂
  · obtain ⟨rfl, rfl⟩ := Prod.mk.inj (Except.ok.inj h)
    exact ⟨hs₂, .inr ⟨_, rfl, hret₂, hi₂.trans hi₁⟩⟩
  obtain ⟨hs', hres⟩ := storeIndex_owns hs₂ h
  rw [hi₂, hi₁] at hres
  exact ⟨hs', hres⟩

/-- The loop goes on to the next stream, which is the one in front. -/
def NextStream (lzma : Lzma) (file : List UInt8) (a b : ℕ × IndexParse) : Prop :=
  b.1 = a.1 + 1 ∧ 0 < b.2.cursor.position ∧
    ∃ ret, Settles (fun fuel => parseStream lzma file fuel a.1 a.2) (b.2, .ok ret)

def StreamFails (lzma : Lzma) (file : List UInt8) (a : ℕ × IndexParse) : Prop :=
  ∃ s ret, Settles (fun fuel => parseStream lzma file fuel a.1 a.2) (s, .error ret)

/-- What `parse_block_indexes` begins with in the first call for a new reader. -/
def IndexParse.start (file : List UInt8) (streamPadding : ℕ) : IndexParse :=
  ⟨.atEnd file.length, Heap.empty, none, none, streamPadding⟩

/-- No stream fails but the last one of the file, which is read first. -/
def OnlyLastFails (lzma : Lzma) (file : List UInt8) (streamPadding : ℕ) : Prop :=
  ∀ a, ReflTransGen (NextStream lzma file) (0, .start file streamPadding) a →
    StreamFails lzma file a → a.1 = 0

/-- The ledger of the indexes. Without a reader all that were made have been ended, and with one
only its own is live, which `xz_reader_free` ends after any use of the cache. To end an index
twice is a fault. -/
def Balanced : Heap (List LzmaStream) × Option ReaderFields → Prop
  | (indexes, none) => ∀ p, indexes.cells p = none
  | (indexes, some reader) => ∃ p, reader.index = some p ∧
    (∀ q, (indexes.cells q).isSome ↔ q = p) ∧
    ∀ ops cache results, runOps reader.cache ops = .ok (cache, results) →
      ∃ indexes' cache', xzReaderFree indexes { reader with cache } = .ok (indexes', cache') ∧
        ∀ q, indexes'.cells q = none

variable {a : ℕ × IndexParse} {res : Except LzmaRet LzmaRet} {ret : LzmaRet}

lemma StreamFails.not_settles (h : StreamFails lzma file (turn, s))
    (hok : Settles (fun fuel => parseStream lzma file fuel turn s) (s', .ok ret)) : False := by
  obtain ⟨s₁, ret₁, hfails⟩ := h
  cases (Prod.mk.inj (hfails.unique hok)).2

lemma reaches_next (h : Settles (fun fuel => parseStream lzma file fuel turn s) (s', .ok ret))
    (hpos : 0 < s'.cursor.position) : ReflTransGen (NextStream lzma file) (turn, s) a ↔
      a = (turn, s) ∨ ReflTransGen (NextStream lzma file) (turn + 1, s') a := by
  constructor
  · intro hreach
    rcases ReflTransGen.cases_head hreach with heq | ⟨⟨turn₁, s₁⟩, ⟨rfl, -, ret₁, hnext⟩, hrest⟩
    · exact .inl heq.symm
    · obtain rfl := (Prod.mk.inj (hnext.unique h)).1
      exact .inr hrest
  · rintro (rfl | hrest)
    · exact .refl
    · exact .head ⟨rfl, hpos, ret, h⟩ hrest

lemma reaches_last (h : Settles (fun fuel => parseStream lzma file fuel turn s) (s', res))
    (hres : ∀ ret, res = .ok ret → ¬0 < s'.cursor.position)
    (hreach : ReflTransGen (NextStream lzma file) (turn, s) a) : a = (turn, s) := by
  rcases ReflTransGen.cases_head hreach with heq | ⟨⟨turn₁, s₁⟩, ⟨rfl, hpos, ret₁, hnext⟩, -⟩
  · exact heq.symm
  · obtain ⟨rfl, rfl⟩ := Prod.mk.inj (hnext.unique h)
    exact absurd hpos (hres ret₁ rfl)

/-- What the loop has left: the indexes joined to one that the reader has, or, behind a stream that
fails, none that is live. The reader then keeps the pointer that it had before this stream. -/
structure LoopLeft (lzma : Lzma) (file : List UInt8) (a : ℕ × IndexParse) (s : IndexParse)
    (ret : LzmaRet) : Prop where
  joined : ret = .ok → s.Owns ∧ s.currentIndex = none ∧ s.index.isSome ∧
    ∀ b, ReflTransGen (NextStream lzma file) a b → ¬StreamFails lzma file b
  failed : ret ≠ .ok → (∀ p, s.indexes.cells p = none) ∧
    (∃ b, ReflTransGen (NextStream lzma file) a b ∧ StreamFails lzma file b) ∧
    ∀ b, ReflTransGen (NextStream lzma file) a b → StreamFails lzma file b →
      (s.index = none ↔ b.1 = 0)

lemma lzmaIndexEnd_live {indexes indexes' : Heap (List LzmaStream)} {index : Option ℕ}
    (h : lzmaIndexEnd indexes index = .ok indexes') (p : ℕ) :
    (indexes'.cells p).isSome ↔ (indexes.cells p).isSome ∧ index ≠ some p := by
  cases index with
  | none =>
    obtain rfl := Except.ok.inj h
    simp
  | some q =>
    rw [Heap.free_eq_ok h, Heap.isSome_release, ne_eq, ne_eq, Option.some_inj, @eq_comm _ p q]

/-- The label `error` ends all indexes that are live. -/
lemma IndexParse.Owns.ends (h : s.Owns) : ∃ indexes indexes',
    lzmaIndexEnd s.indexes s.index = .ok indexes ∧
      lzmaIndexEnd indexes s.currentIndex = .ok indexes' ∧ ∀ p, indexes'.cells p = none := by
  have hlive : s.Live := ⟨fun p hp => (h.live p).mpr (.inl hp),
    fun q hq => ⟨(h.live q).mpr (.inr hq), fun hp => h.ne q hp hq⟩⟩
  obtain ⟨indexes, indexes', hend, hend'⟩ := hlive.ends
  refine ⟨indexes, indexes', hend, hend', fun p => ?_⟩
  have hdead := lzmaIndexEnd_live hend' p
  rw [lzmaIndexEnd_live hend, h.live] at hdead
  rw [← Option.not_isSome_iff_eq_none, hdead]
  rintro ⟨⟨hindex | hcurrent, hne⟩, hne'⟩
  · exact hne hindex
  · exact hne' hcurrent

lemma parseLoop_left (hl : lzma.Lawful) (hsize : file.length < 2 ^ 63)
    {streams : List LzmaStream} (h : Between lzma file s streams) (hs : s.Owns)
    (hturn : s.index = none ↔ turn = 0) : ∃ n s' ret done,
      (∀ fuel turns, n ≤ fuel → n ≤ turns →
        parseLoop lzma file fuel turns turn s = .ok (s', ret, done)) ∧
      LoopLeft lzma file (turn, s) s' ret := by
  induction hn : s.cursor.position.toNat using Nat.strong_induction_on
    generalizing s streams turn with
  | _ m ih =>
    subst hn
    obtain ⟨n, s₁, res, hstream, hc₁, -, hres⟩ := parseStream_spec hl hsize h turn
    obtain ⟨hs₁, hindex⟩ := parseStream_owns hs h.current h.inside h.le (hstream n le_rfl)
    rcases hres with ⟨ret, rfl⟩ | ⟨rfl, hlt, -, t, hnext⟩
    · -- the stream fails
      obtain ⟨ret', hret', hne, hsame⟩ : ∃ ret', Except.error ret = Except.error ret' ∧
          ret' ≠ LzmaRet.ok ∧ s₁.index = s.index := by
        rcases hindex with ⟨ret', hret', -⟩ | hfailed
        · cases hret'
        · exact hfailed
      cases hret'
      have hfails : StreamFails lzma file (turn, s) := ⟨s₁, ret, n, hstream⟩
      obtain ⟨indexes, indexes', hend, hend', hdead⟩ := hs₁.ends
      refine ⟨n + 1, { s₁ with indexes := indexes' }, ret, false, fun fuel turns hf ht => ?_,
        fun heq => absurd heq hne, fun _ => ⟨hdead, ⟨_, .refl, hfails⟩, fun b hb _ => ?_⟩⟩
      · obtain ⟨k, rfl⟩ : ∃ k, turns = k + 1 := ⟨turns - 1, by omega⟩
        simp [parseLoop, hstream fuel (by omega), hend, hend']
      · obtain rfl := reaches_last ⟨n, hstream⟩ (fun ret' heq => by cases heq) hb
        exact (iff_of_eq (congrArg (· = none) hsame)).trans hturn
    · obtain ⟨hnone, hsome⟩ : s₁.currentIndex = none ∧ s₁.index.isSome := by
        rcases hindex with ⟨ret', -, hcurrent, hsome⟩ | ⟨ret', hret', -⟩
        · exact ⟨hcurrent, hsome⟩
        · cases hret'
      have hnot : ¬StreamFails lzma file (turn, s) := fun hfails =>
        hfails.not_settles ⟨n, hstream⟩
      by_cases hpos : 0 < s₁.cursor.position
      · have hturn₁ : s₁.index = none ↔ turn + 1 = 0 :=
          ⟨fun heq => by simp [heq] at hsome, fun heq => absurd heq turn.succ_ne_zero⟩
        have hreach : ∀ b, ReflTransGen (NextStream lzma file) (turn, s) b →
            StreamFails lzma file b → ReflTransGen (NextStream lzma file) (turn + 1, s₁) b := by
          intro b hb hfails
          rcases (reaches_next ⟨n, hstream⟩ hpos).mp hb with rfl | hb
          · exact absurd hfails hnot
          · exact hb
        have h₀ := hc₁.position
        obtain ⟨n', s', ret, done, hloop, hleft⟩ := ih _ (by omega) hnext hs₁ hturn₁ rfl
        refine ⟨max n n' + 1, s', ret, done, fun fuel turns hf ht => ?_, fun hok => ?_,
          fun hne => ?_⟩
        · obtain ⟨k, rfl⟩ : ∃ k, turns = k + 1 := ⟨turns - 1, by omega⟩
          simp [parseLoop, hstream fuel (by omega), hpos, hloop fuel k (by omega) (by omega)]
        · obtain ⟨howns, hcurrent, hindex, hno⟩ := hleft.joined hok
          exact ⟨howns, hcurrent, hindex, fun b hb hfails => hno b (hreach b hb hfails) hfails⟩
        · obtain ⟨hdead, ⟨b, hb, hfails⟩, hall⟩ := hleft.failed hne
          exact ⟨hdead, ⟨b, (reaches_next ⟨n, hstream⟩ hpos).mpr (.inr hb), hfails⟩,
            fun c hc hfails => hall c (hreach c hc hfails) hfails⟩
      · refine ⟨n + 1, s₁, .ok, true, fun fuel turns hf ht => ?_, fun _ => ⟨hs₁, hnone, hsome,
          fun b hb hfails => ?_⟩, fun hne => absurd rfl hne⟩
        · obtain ⟨k, rfl⟩ : ∃ k, turns = k + 1 := ⟨turns - 1, by omega⟩
          simp [parseLoop, hstream fuel (by omega), hpos]
        · obtain rfl := reaches_last ⟨n, hstream⟩ (fun _ _ => hpos) hb
          exact hnot hfails

lemma parseBlockIndexes_left (hl : lzma.Lawful) (hsize : file.length < 2 ^ 63)
    (streamPadding : ℕ) : ∃ n s ret done, (∀ fuel, n ≤ fuel →
      parseBlockIndexes lzma file fuel Heap.empty streamPadding = .ok (s, ret, done)) ∧
      LoopLeft lzma file (0, .start file streamPadding) s ret := by
  have hbetween : Between lzma file (.start file streamPadding) [] :=
    ⟨inside_atEnd file _, ⟨by simp [IndexParse.start], by simp [IndexParse.start]⟩, rfl, rfl,
      Int.toNat_natCast _, le_rfl⟩
  have howns : (IndexParse.start file streamPadding).Owns :=
    ⟨fun p => by simp [IndexParse.start, Heap.empty], fun p hp => by cases hp⟩
  have hfirst : (IndexParse.start file streamPadding).index = none ↔ 0 = 0 := iff_of_true rfl rfl
  obtain ⟨n, s, ret, done, hloop, hleft⟩ := parseLoop_left hl hsize hbetween howns hfirst
  exact ⟨n, s, ret, done, fun fuel hn => hloop fuel fuel hn hn, hleft⟩

lemma balanced_of_owns (h : s.Owns) (hcurrent : s.currentIndex = none) (hindex : s.index.isSome) :
    Balanced (s.indexes, some ⟨s.index, emptyCache, s.streamPadding⟩) := by
  obtain ⟨p, hp⟩ := Option.isSome_iff_exists.mp hindex
  have hlive : ∀ q, (s.indexes.cells q).isSome ↔ q = p := by
    intro q
    rw [h.live, hp, hcurrent, Option.some_inj, eq_comm]
    simp
  refine ⟨p, hp, hlive, fun ops cache results hrun => ?_⟩
  obtain ⟨cache₁, slots, hrun₁, hfollows⟩ := runOps_follows follows_empty ops
  obtain ⟨rfl, -⟩ := Prod.mk.inj (Except.ok.inj (hrun.symm.trans hrun₁))
  obtain ⟨cache', hfree, -⟩ := freeCacheEntries_releases hfollows
  obtain ⟨streams, hstreams⟩ := Option.isSome_iff_exists.mp ((hlive p).mpr rfl)
  have hend : lzmaIndexEnd s.indexes s.index = .ok (s.indexes.release p) := by
    rw [hp]
    exact Heap.free_of_cell hstreams
  refine ⟨s.indexes.release p, cache', by simp [xzReaderFree, hend, hfree], fun q => ?_⟩
  rw [← Option.not_isSome_iff_eq_none, Heap.isSome_release, hlive]
  rintro ⟨heq, hne⟩
  exact hne heq

/-- `xz_reader_alloc` ends every index once, and the reader that it returns has the only one that
is live, exactly when no stream fails but the last one of the file: behind the label `error` the
reader keeps an index that has been ended, and its cleanup ends it again. -/
theorem xzReaderAlloc_balanced_iff (hl : lzma.Lawful) (hsize : file.length < 2 ^ 63)
    (streamPadding : ℕ) :
    (∃ r, Settles (fun fuel => xzReaderAlloc lzma file fuel streamPadding) r ∧ Balanced r) ↔
      OnlyLastFails lzma file streamPadding := by
  obtain ⟨n, s, ret, done, hparse, hleft⟩ := parseBlockIndexes_left hl hsize streamPadding
  by_cases hret : ret = .ok
  · subst hret
    obtain ⟨hs, hcurrent, hindex, hno⟩ := hleft.joined rfl
    refine iff_of_true ⟨_, ⟨n, fun fuel hn => ?_⟩, balanced_of_owns hs hcurrent hindex⟩
      fun a ha hfails => absurd hfails (hno a ha)
    simp [xzReaderAlloc, hparse fuel hn]
  · obtain ⟨hdead, ⟨a, ha, hfails⟩, hall⟩ := hleft.failed hret
    have hcache : freeCacheEntries emptyCache = .ok emptyCache := rfl
    cases hindex : s.index with
    | none =>
      refine iff_of_true ⟨(s.indexes, none), ⟨n, fun fuel hn => ?_⟩, hdead⟩
        fun b hb hb' => (hall b hb hb').mp hindex
      simp [xzReaderAlloc, hparse fuel hn, hret, xzReaderFree, hindex, lzmaIndexEnd, hcache]
    | some p =>
      refine iff_of_false ?_ fun honly => ?_
      · rintro ⟨r, ⟨m, hm⟩, -⟩
        have hrun := hm _ (le_max_right n m)
        simp [xzReaderAlloc, hparse _ (le_max_left n m), hret, xzReaderFree, hindex, lzmaIndexEnd,
          Heap.free_of_dead (hdead p)] at hrun
      · have hnone := (hall a ha hfails).mpr (honly a ha hfails)
        rw [hindex] at hnone
        cases hnone

/-- Two streams that can both be read. -/
theorem xzReaderAlloc_balanced_iff_paddedStreams : OnlyLastFails tinyLzma paddedStreams 0 ∧
    ∃ r, Settles (fun fuel => xzReaderAlloc tinyLzma paddedStreams fuel 0) r ∧ Balanced r := by
  have hsize : paddedStreams.length < 2 ^ 63 := by decide
  obtain ⟨n, s, ret, done, hparse, hleft⟩ := parseBlockIndexes_left tinyLzma_lawful hsize 0
  obtain ⟨s', hrun, -⟩ := parseBlockIndexes_paddedStreams
  have heq := (hparse (n + 3) (Nat.le_add_right n 3)).symm.trans (hrun n)
  simp only [Except.ok.injEq, Prod.mk.injEq] at heq
  obtain ⟨-, rfl, -⟩ := heq
  obtain ⟨hs, hcurrent, hindex, -⟩ := hleft.joined rfl
  have hbalanced : ∃ r, Settles (fun fuel => xzReaderAlloc tinyLzma paddedStreams fuel 0) r ∧
      Balanced r := by
    refine ⟨_, ⟨n, fun fuel hn => ?_⟩, balanced_of_owns hs hcurrent hindex⟩
    simp [xzReaderAlloc, hparse fuel hn]
  exact ⟨(xzReaderAlloc_balanced_iff tinyLzma_lawful hsize 0).mp hbalanced, hbalanced⟩

/-- A stream that is cut off behind its header, in front of a whole one. -/
def cutStreams : List UInt8 := (emptyStream 0).take 12 ++ emptyStream 0

/-- The last stream is read and its index stored. The stream in front of it fails, the label
`error` ends that index, and `xz_reader_free` ends it again. -/
theorem xzReaderAlloc_balanced_counterexample :
    (∀ fuel, xzReaderAlloc tinyLzma cutStreams (fuel + 2) 0 = .error .null) ∧
      ¬∃ r, Settles (fun fuel => xzReaderAlloc tinyLzma cutStreams fuel 0) r ∧ Balanced r := by
  have hrun : ∀ fuel, xzReaderAlloc tinyLzma cutStreams (fuel + 2) 0 = .error .null := by
    intro fuel
    rfl
  refine ⟨hrun, ?_⟩
  rintro ⟨r, ⟨n, hn⟩, -⟩
  have hok := (hrun n).symm.trans (hn (n + 2) (Nat.le_add_right n 2))
  cases hok

end Spotlight.Xz
