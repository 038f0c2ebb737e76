import Spotlight.Heap

/-! What the xz reader uses of the lzma library: its return codes and constants, and the
functions on the indexes of streams. -/
namespace Spotlight.Xz

inductive LzmaRet
  | ok
  | streamEnd
  | noCheck
  | unsupportedCheck
  | getCheck
  | memError
  | memlimitError
  | formatError
  | optionsError
  | dataError
  | bufError
  | progError
  deriving DecidableEq, Repr

def lzmaStreamHeaderSize : ℕ := 12

def lzmaVliMax : ℕ := 2 ^ 63 - 1

def lzmaVliUnknown : ℕ := 2 ^ 64 - 1

/-- The buffer size of the reader for its calls of `pread`. -/
def ioBufferSize : ℕ := 16384

structure StreamFlags where
  version : ℕ
  backwardSize : ℕ
  check : ℕ

/-- What an index holds of one stream: the uncompressed sizes of its blocks, their size in the file,
the size of the index field, and the flags and the padding once they are stored. -/
structure LzmaStream where
  blocks : List ℕ
  totalSize : ℕ
  indexSize : ℕ
  flags : Option StreamFlags
  padding : ℕ

/-- A stream from its header to its footer and padding. -/
def LzmaStream.fileSize (s : LzmaStream) : ℕ :=
  lzmaStreamHeaderSize + s.totalSize + s.indexSize + lzmaStreamHeaderSize + s.padding

/-- What an index says of one block. -/
structure XzBlock where
  start : ℕ
  size : ℕ
  deriving DecidableEq

/-- Blocks of these sizes, one behind the other from `a` on. -/
def blocksFrom : ℕ → List ℕ → List XzBlock
  | _, [] => []
  | a, size :: sizes => ⟨a, size⟩ :: blocksFrom (a + size) sizes

/-- The library's functions on the bytes of streams and on indexes. Calls that allocate memory may
turn out differently in every turn of the loop over the streams. `code` is `lzma_code` on an index
decoder that was given these buffers, with what it left of the last one. When it is done `decoded`
has the size of the blocks, that of the index field, and the uncompressed sizes. `indexIter` has the
blocks that an iterator over an index goes through. -/
structure Lzma where
  streamFooterDecode : List UInt8 → LzmaRet × StreamFlags
  streamHeaderDecode : List UInt8 → LzmaRet × StreamFlags
  streamFlagsCompare : StreamFlags → StreamFlags → LzmaRet
  indexDecoder : ℕ → LzmaRet
  code : ℕ → List (List UInt8) → LzmaRet × ℕ
  decoded : ℕ → List (List UInt8) → ℕ × ℕ × List ℕ
  indexTotalSize : List LzmaStream → ℕ
  indexStreamFlags : List LzmaStream → StreamFlags → List LzmaStream
  indexStreamPadding : List LzmaStream → ℕ → LzmaRet × List LzmaStream
  indexCat : ℕ → LzmaRet
  indexIter : List LzmaStream → List XzBlock

/-- The library as documented: the range of a backward size, an index decoder that does not wait
for ever for more input, an index field as long as the bytes it was decoded from, and the functions
on indexes. Those that store something do so in the last stream: flags that come from a footer, and
a padding of whole words with which the file does not become too large. -/
structure Lzma.Lawful (lzma : Lzma) : Prop where
  backwardSize : ∀ bytes flags, lzma.streamFooterDecode bytes = (.ok, flags) →
    4 ≤ flags.backwardSize ∧ flags.backwardSize ≤ 2 ^ 34
  ends : ∀ turn buffers, ∃ n, (lzma.code turn (buffers ++ List.replicate (n + 1) [])).1 ≠ .ok
  indexSize : ∀ turn buffers, lzma.code turn buffers = (.streamEnd, 0) →
    (lzma.decoded turn buffers).2.1 = buffers.flatten.length
  indexTotalSize : ∀ streams, lzma.indexTotalSize streams =
    (streams.map LzmaStream.totalSize).sum
  indexStreamFlags : ∀ streams bytes flags, lzma.streamFooterDecode bytes = (.ok, flags) →
    flags.version = 0 → lzma.indexStreamFlags streams flags =
      streams.modifyLast fun s => { s with flags := some flags }
  indexStreamPadding : ∀ streams padding, padding % 4 = 0 →
    ((streams.modifyLast fun s => { s with padding }).map LzmaStream.fileSize).sum ≤ lzmaVliMax →
      lzma.indexStreamPadding streams padding =
        (.ok, streams.modifyLast fun s => { s with padding })
  indexIter : ∀ streams, lzma.indexIter streams =
    blocksFrom 0 (streams.flatMap LzmaStream.blocks)

/-- `lzma_index_end` of a pointer that may be `NULL`. -/
def lzmaIndexEnd (indexes : Heap (List LzmaStream)) : Option ℕ → Outcome (Heap (List LzmaStream))
  | none => .ok indexes
  | some p => indexes.free p

end Spotlight.Xz
