import Spotlight.DiskPrograms
import Spotlight.GzipFree
import Spotlight.XzAlloc
import Spotlight.XzRead

/-! The read layer (`read_layer.c`, `compression_reader.c`, and the tests of the readers): which
reader a file gets, and what a call does through it. Built with `NDEBUG`. -/
namespace Spotlight.ReadLayer
open Bytes Zlib Gzip Xz Ext4

/-- A `FILE`: its bytes and its position. -/
structure CFile where
  bytes : List UInt8
  pos : ℕ

def CFile.rewind (file : CFile) : CFile := { file with pos := 0 }

def CFile.seekEnd (file : CFile) : CFile := { file with pos := file.bytes.length }

def CFile.fread (file : CFile) (size : ℕ) : CFile × List UInt8 :=
  let buffer := slice file.bytes file.pos size
  ({ file with pos := file.pos + buffer.length }, buffer)

/-- What the readers run on: the libraries, what the blocks of a file decode to, when `malloc` has
memory for an entry of the xz cache, and what memory holds before it is set. -/
structure Env where
  z : Library
  lzma : Lzma
  decodeBlock : List UInt8 → XzBlock → Option (List UInt8)
  malloc : CacheState → Bool
  stack : ℕ → List UInt8
  stack_length : ∀ n, (stack n).length = windowSize
  streamPadding : ℕ → ℕ

/-- The indexes that one parse has allocated. -/
abbrev Arena := Heap (List LzmaStream)

def gzipMagicHeader : List UInt8 := [0x1F, 0x8B]

def xzMagicHeader : List UInt8 := [0xFD, 0x37, 0x7A, 0x58, 0x5A, 0x00]

def maxSupportedBlockSize : ℕ := 64 * 1024 * 1024

/-- The comparison with a magic header, which a short file fails. -/
def hasMagic (magic : List UInt8) (file : CFile) : CFile × Bool :=
  let (file, header) := file.fread magic.length
  (file, header = magic)

def gzipIsSupported (file : CFile) : CFile × Bool := hasMagic gzipMagicHeader file

def maxBlockSize (blocks : List XzBlock) : ℕ :=
  (blocks.filter fun b => b.size ≠ 0).foldl
    (fun maxSize b => if maxSize < b.size then b.size else maxSize) 0

/-- `xz_is_supported`. A file that is supported keeps its index. -/
def xzIsSupported (env : Env) (fuel : ℕ) (file : CFile) : Outcome (CFile × Arena × Bool) := do
  let (file, magic) := hasMagic xzMagicHeader file
  if magic = false then return (file, Heap.empty, false)
  else do
    let (s, ret, _) ← parseBlockIndexes env.lzma file.bytes fuel Heap.empty 0
    if ret ≠ .ok then return (file.seekEnd, s.indexes, false)
    else do
      let index ← deref s.index
      let streams ← s.indexes.read index
      if maxSupportedBlockSize < maxBlockSize (env.lzma.indexIter streams) then do
        let indexes ← lzmaIndexEnd s.indexes s.index
        return (file.seekEnd, indexes, false)
      else return (file.seekEnd, s.indexes, true)

def rawReadIsSupported (file : CFile) : CFile × Bool := (file, true)

/-- The entries of `available_readers`. -/
inductive ReaderImpl
  | gzip
  | xz
  | raw
  deriving DecidableEq

def availableReaders : List ReaderImpl := [.gzip, .xz, .raw]

/-- `is_supported`, with the parses whose indexes nobody has a pointer to any more. -/
def ReaderImpl.isSupported (env : Env) (fuel : ℕ) (file : CFile) :
    ReaderImpl → Outcome (CFile × List Arena × Bool)
  | .gzip => .ok ((gzipIsSupported file).1, [], (gzipIsSupported file).2)
  | .xz => do
    let (file, indexes, supported) ← xzIsSupported env fuel file
    return (file, [indexes], supported)
  | .raw => .ok ((rawReadIsSupported file).1, [], (rawReadIsSupported file).2)

def getSupportedCompReader (env : Env) (fuel : ℕ) :
    List ReaderImpl → CFile → Outcome (CFile × List Arena × Option ReaderImpl)
  | [], file => .ok (file, [], none)
  | impl :: rest, file => do
    let (file, lost, supported) ← impl.isSupported env fuel file
    if supported then return (file, lost, some impl)
    else do
      let (file, more, found) ← getSupportedCompReader env fuel rest file.rewind
      return (file, lost ++ more, found)

/-- A reader in use. The `FILE` is the one that the layer reads. -/
inductive CompressionReader
  | gzip (list : List GzipAccessPointEntry)
  | xz (indexes : Arena) (fields : ReaderFields)
  | raw

/-- `alloc` of an entry, with the value that `malloc` leaves in `stream_padding`. -/
def ReaderImpl.alloc (env : Env) (fuel streamPadding : ℕ) (file : CFile) :
    ReaderImpl → Outcome (CFile × Option CompressionReader)
  | .gzip => .ok (file, some (.gzip []))
  | .xz => do
    let (indexes, reader) ← xzReaderAlloc env.lzma file.bytes fuel streamPadding
    return (file.seekEnd, reader.map (.xz indexes))
  | .raw => .ok (file, some .raw)

def compressionReaderAlloc (env : Env) (fuel streamPadding : ℕ) (file : CFile) :
    Outcome (CFile × List Arena × Option CompressionReader) := do
  let (file, lost, impl) ← getSupportedCompReader env fuel availableReaders file
  match impl with
  | none => return (file.rewind, lost, none)
  | some impl => do
    let (file, reader) ← impl.alloc env fuel streamPadding file.rewind
    return (file, lost, reader)

/-- `pread`, which gives what the file has there. -/
def rawReadRead (file : CFile) (offset : ℤ) (length : ℕ) : ℤ × List UInt8 :=
  if offset < 0 then (-1, [])
  else
    let buffer := slice file.bytes offset.toNat length
    (buffer.length, buffer)

/-- What an xz reader reads: the blocks of its index, as the file has them. -/
def Env.xzReader (env : Env) (bytes : List UInt8) (streams : List LzmaStream) : XzReader :=
  ⟨env.lzma.indexIter streams, env.decodeBlock bytes⟩

/-- `compression_read`. The xz reader goes to the end of the file, where it has been since it was
made. -/
def compressionRead (env : Env) (fuel : ℕ) (stack : List UInt8) (reader : CompressionReader)
    (file : CFile) (offset : ℤ) (length : ℕ) :
    Outcome (CompressionReader × CFile × ℤ × List UInt8) :=
  match reader with
  | .gzip list => do
    let (reader, ret, buffer) ←
      gzipRead env.z fuel ⟨file.bytes, file.pos, list⟩ stack offset length
    return (.gzip reader.list, { file with pos := reader.pos }, ret, buffer)
  | .xz indexes fields => do
    let index ← deref fields.index
    let streams ← indexes.read index
    let (cache, ret, buffer) ← xzRead (env.xzReader file.bytes streams) env.malloc (length + 1)
      fields.cache offset length
    return (.xz indexes { fields with cache }, file, ret, buffer)
  | .raw =>
    let (ret, buffer) := rawReadRead file offset length
    .ok (.raw, file, ret, buffer)

/-- `compression_reader_free`, which frees the access points of a gzip reader as they are in
memory, and what an xz reader leaves of its indexes. -/
def compressionReaderFree : CompressionReader → Outcome (List Arena)
  | .gzip list => do
    let (list, m) ← readerList list
    let _ ← gzipReaderFree m list
    return []
  | .xz indexes fields => do
    let (indexes, _) ← xzReaderFree indexes fields
    return [indexes]
  | .raw => .ok []

/-- What is left of the process when no disk is open: how often it has read, and the indexes that
nobody has a pointer to any more. -/
structure Process where
  calls : ℕ
  lost : List Arena

/-- A disk that is open, with the static variable of `read_layer.c`. -/
structure Layer extends Process where
  file : CFile
  reader : Option CompressionReader

/-- The reader of the layer, which the first call makes. -/
def Layer.getReader (env : Env) (fuel : ℕ) (l : Layer) :
    Outcome (Layer × Option CompressionReader) :=
  match l.reader with
  | some reader => .ok (l, some reader)
  | none => do
    let (file, lost, reader) ← compressionReaderAlloc env fuel (env.streamPadding l.calls) l.file
    return ({ l with file, reader, lost := l.lost ++ lost }, reader)

def readWrapper (env : Env) (fuel : ℕ) (l : Layer) (offset : ℤ) (length : ℕ) :
    Outcome (Layer × ℤ × List UInt8) := do
  let (l, reader) ← l.getReader env fuel
  let calls := l.calls + 1
  match reader with
  | none => return ({ l with calls }, -1, [])
  | some reader => do
    let (reader, file, ret, buffer) ←
      compressionRead env fuel (env.stack l.calls) reader l.file offset length
    return ({ l with calls, file, reader := some reader }, ret, buffer)

def serve (env : Env) (fuel : ℕ) (l : Layer) (q : DiskCall) : Outcome (Layer × ℤ × List UInt8) :=
  readWrapper env fuel l q.pos q.size

end Spotlight.ReadLayer
