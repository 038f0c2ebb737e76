import Spotlight.DiskImages
import Spotlight.GzipExact
import Spotlight.ReaderChoice

/-! Lives of a disk, from `disk_open` to `disk_close`. Over a file that holds an image, raw or
compressed, every program that reads inside the image gets its bytes, in every life. -/
namespace Spotlight.ReadLayer
open Bytes Zlib Gzip Xz Ext4 Outcome Programs

variable {env : Env} {impl : ReaderImpl} {file image : List UInt8} {fuel : ℕ} {f : CFile}
  {reader : CompressionReader} {l : Layer}

section Gzip
variable {m : Member}

/-- The requests inside the content record right windows on the stacks that the calls find, in every
run of such requests. -/
def SafeWindows (env : Env) (m : Member) : Prop :=
  ∀ fuel reader n max, Read env.z m fuel (Careful m) reader → max ≤ (m.content.length : ℤ) →
    ChunksSafe m (env.stack n) [] (requestChunks env.z fuel reader (env.stack n) max)

/-- A gzip file that can be read at random: its first boundary lies in the first chunk, and its
windows are right. -/
structure GzipImage (env : Env) (m : Member) : Prop where
  decompresses : Nonempty (Decompresses env.z m)
  magic : slice m.file 0 2 = gzipMagicHeader
  fits : m.content.length < 2 ^ 63
  header : ∀ b, m.bounds[0]? = some b → b.comp ≤ chunk
  windows : SafeWindows env m

lemma gzipRead_inside (h : GzipImage env m) (hf : enoughFuel m < fuel) {reader : GzipReader}
    (hr : Read env.z m fuel (Careful m) reader) (hstart : Resumable reader) (n : ℕ)
    {offset length : ℕ} (hpos : 0 < length) (hshort : length < 2 ^ 31)
    (hinside : offset + length ≤ m.content.length) :
    ∃ reader', gzipRead env.z fuel reader (env.stack n) offset length =
        .ok (reader', length, slice m.content offset length) ∧
      reader'.gzipFile = m.file ∧ reader'.list ≠ [] ∧ Read env.z m fuel (Careful m) reader' := by
  obtain ⟨⟨hz⟩, hmagic, hfits, hheader, hwindows⟩ := h
  have hstack := env.stack_length n
  have hmax := bmod_offset (by omega : offset + length < 2 ^ 63)
  have hcareful : Careful m reader (env.stack n)
      (requestChunks env.z fuel reader (env.stack n) (Int.bmod (offset + length) (2 ^ 64))) := by
    rw [hmax]
    exact ⟨hstart, hwindows fuel reader n _ hr (by exact_mod_cast hinside)⟩
  obtain ⟨ret₁, reader₁, first, rest, hindex, hfile, hcons, hfirst, hvalid⟩ :=
    gzipRead_index hz hf hr hstack hcareful (.inr (.inl hheader))
  obtain ⟨exact, fuel', s, q, he, hq, hraw, hfuel, hrun⟩ :=
    gzipReadBuffer_at hz hfile hcons hfirst hvalid hpos (by omega : offset < _) hf
  obtain ⟨ret₂, s', hfill, hret, -⟩ := fillOutput_ok hq he hpos (by omega)
    (by omega : m.file.length - q.comp < fuel')
  have hread : gzipReadBuffer env.z fuel reader₁ offset length =
      .ok (ret₂, s'.reader, slice m.content offset length) := by
    rw [hrun, Nat.mod_eq_of_lt (by omega), hfill, hraw]
    rfl
  have hgzip := gzipRead_eq rfl hindex hread hret hshort
  obtain ⟨hlist, hfile'⟩ := gzipReadBuffer_moved hread
  refine ⟨s'.reader, hgzip, hfile'.trans hfile, ?_, .read hr hstack hcareful hgzip⟩
  rw [hlist, hcons]
  exact List.cons_ne_nil _ _

end Gzip

section Xz
variable {r : XzReader} {content : List UInt8} {s : CacheState} {streams : List LzmaStream}

lemma freeCacheEntries_sound (h : Sound r content s) : ∃ s', freeCacheEntries s = .ok s' := by
  obtain ⟨l, ⟨slots, hslots, -⟩, -⟩ := h
  obtain ⟨s', hfree, -⟩ := freeCacheEntries_eq hslots.toChained fun c hc =>
    Option.isSome_of_eq_some (hslots.buffer c hc)
  exact ⟨s', hfree⟩

/-- An xz file whose index has no empty block, and whose blocks decode to the image. -/
structure XzImage (env : Env) (file image : List UInt8) (streams : List LzmaStream) : Prop where
  indexed : Indexed env.lzma file streams
  nonempty : ∀ n ∈ streams.flatMap LzmaStream.blocks, 0 < n
  length : (streams.flatMap LzmaStream.blocks).sum = image.length
  fits : image.length < 2 ^ 63
  decodes : ∀ b ∈ env.lzma.indexIter streams,
    env.decodeBlock file b = some (slice image b.start b.size)

lemma splits_blocksFrom {a : ℕ} {sizes : List ℕ} (h : ∀ n ∈ sizes, 0 < n) :
    Splits a (blocksFrom a sizes) (a + sizes.sum) := by
  induction sizes generalizing a with
  | nil => rfl
  | cons size sizes ih =>
    obtain ⟨hsize, hsizes⟩ := List.forall_mem_cons.mp h
    refine ⟨rfl, hsize, ?_⟩
    rw [List.sum_cons, ← Nat.add_assoc]
    exact ih hsizes

lemma XzImage.reads (hl : env.lzma.Lawful) (h : XzImage env file image streams) :
    (env.xzReader file streams).Decodes image := by
  refine ⟨?_, h.fits, h.decodes⟩
  have hsplits := splits_blocksFrom (a := 0) h.nonempty
  rw [h.length, Nat.zero_add, ← hl.indexIter] at hsplits
  exact hsplits

end Xz

/-- A file of this kind holds an image. -/
inductive Holds (env : Env) : ReaderImpl → List UInt8 → List UInt8 → Prop
  | gzip {m : Member} (h : GzipImage env m) : Holds env .gzip m.file m.content
  | xz {file image : List UInt8} {streams : List LzmaStream} (hchosen : Chosen env ⟨file, 0⟩ .xz)
      (h : XzImage env file image streams) : Holds env .xz file image
  | raw {file : List UInt8} (hchosen : Chosen env ⟨file, 0⟩ .raw) : Holds env .raw file file

/-- A reader that can go on to deliver the image. -/
inductive Ready (env : Env) (fuel : ℕ) :
    ReaderImpl → List UInt8 → CFile → CompressionReader → Prop
  | gzip {m : Member} {list : List GzipAccessPointEntry} {pos : ℕ} (h : GzipImage env m)
      (hf : enoughFuel m < fuel) (hr : Read env.z m fuel (Careful m) ⟨m.file, pos, list⟩)
      (hstart : Resumable ⟨m.file, pos, list⟩) :
      Ready env fuel .gzip m.content ⟨m.file, pos⟩ (.gzip list)
  | xz {image indexes} {p : ℕ} {streams : List LzmaStream} {fields : ReaderFields} {f : CFile}
      (h : (env.xzReader f.bytes streams).Decodes image) (hlive : OneLive indexes p)
      (hindex : fields.index = some p) (hcell : indexes.cells p = some streams)
      (hs : Sound (env.xzReader f.bytes streams) image fields.cache) :
      Ready env fuel .xz image f (.xz indexes fields)
  | raw {f : CFile} : Ready env fuel .raw f.bytes f .raw

/-- A gzip reader has an access point once it has been read from. -/
def Used : CompressionReader → Prop
  | .gzip list => list ≠ []
  | _ => True

lemma Ready.read (h : Ready env fuel impl image f reader) (n : ℕ) {q : DiskCall}
    {a : ℤ × List UInt8} (hq : imageAnswer image q = some a) : ∃ reader' f',
      compressionRead env fuel (env.stack n) reader f q.pos q.size = .ok (reader', f', a) ∧
        Ready env fuel impl image f' reader' ∧ Used reader' ∧ f'.bytes = f.bytes := by
  obtain ⟨⟨hpos, hshort, hinside⟩, rfl⟩ := imageAnswer_eq_some.mp hq
  cases h with
  | gzip h hf hr hstart =>
    obtain ⟨reader', hread, hfile, hlist, hr'⟩ :=
      gzipRead_inside h hf hr hstart n hpos hshort hinside
    obtain ⟨gzipFile, pos', list'⟩ := reader'
    obtain rfl := hfile
    exact ⟨.gzip list', ⟨_, pos'⟩, by simp [compressionRead, hread], .gzip h hf hr' (.inl hlist),
      hlist, rfl⟩
  | @xz _ indexes p streams fields f h hlive hindex hcell hs =>
    have hfits := h.fits
    obtain ⟨cache, ret, bytes, hread, hs', hexact⟩ := xzRead_sound env.malloc h hs
      (Nat.lt_succ_self q.size) (show -2 ^ 63 ≤ (q.pos : ℤ) by omega) (by omega)
    obtain ⟨rfl, rfl⟩ := hexact (Int.natCast_nonneg _) hpos hinside
    refine ⟨.xz indexes { fields with cache }, f, ?_, .xz h hlive hindex hcell hs', trivial, rfl⟩
    simp [compressionRead, hindex, Heap.read_of_cell hcell, hread]
  | raw =>
    have hlen : (slice f.bytes q.pos q.size).length = q.size := by
      rw [length_slice]
      omega
    refine ⟨.raw, f, ?_, .raw, trivial, rfl⟩
    simp [compressionRead, rawReadRead, hlen]

lemma Ready.free (h : Ready env fuel impl image f reader) (hused : Used reader) :
    ∃ lost, compressionReaderFree reader = .ok lost ∧ ∀ indexes ∈ lost, AllEnded indexes := by
  cases h with
  | gzip h hf hr hstart =>
    obtain ⟨first, rest, rfl⟩ := List.exists_cons_of_ne_nil hused
    obtain ⟨p, m, cells, hlist, hchained⟩ := readerList_chained (first :: rest)
    cases cells with
    | nil => cases hchained.payload
    | cons c cells =>
      obtain ⟨m', hfree, -⟩ := freeAccessPointList_releases hchained
      exact ⟨[], by simp [compressionReaderFree, hlist, gzipReaderFree, hfree], by simp⟩
  | xz h hlive hindex hcell hs =>
    obtain ⟨cache, hfree⟩ := freeCacheEntries_sound hs
    obtain ⟨indexes', hend, hended⟩ := hlive.ends
    refine ⟨[indexes'], by simp [compressionReaderFree, xzReaderFree, hindex, hend, hfree], ?_⟩
    simpa using hended
  | raw => exact ⟨[], rfl, by simp⟩

end Spotlight.ReadLayer
