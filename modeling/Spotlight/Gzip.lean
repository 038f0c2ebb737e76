import Spotlight.Outcome
import Spotlight.Zlib
import Spotlight.Circular

/-! The gzip reader (`gzip_reader.c`): an index of access points, built as far as requests
need it, and reads that start from them. Memory is always granted and files read without
errors. -/
namespace Spotlight.Gzip
open Bytes Zlib

def span : ℤ := 1048576
def chunk : ℕ := 16384
def indexerError : ℤ := -1

structure GzipAccessPointEntry where
  rawByteAddress : ℕ
  compressedByteAddress : ℕ
  bits : ℕ
  context : List UInt8

/-- The file with its read position, and the access point list from first to last. -/
structure GzipReader where
  gzipFile : List UInt8
  pos : ℕ
  list : List GzipAccessPointEntry

def createAccessPointEntry (rawByteAddress compressedByteAddress bits left : ℕ)
    (context : List UInt8) : GzipAccessPointEntry where
  rawByteAddress := rawByteAddress
  compressedByteAddress := compressedByteAddress
  bits := bits
  context := slice context (windowSize - left) left ++ slice context 0 (windowSize - left)

/-- The variables of `build_index`; `context` is the window that `inflate` writes round. -/
structure IndexState (σ : Type) where
  reader : GzipReader
  stream : σ
  context : List UInt8
  rawByteCounter : ℕ
  compressedByteCounter : ℕ

/-- Whether a new access point is due behind the bytes counted so far. -/
def pointDue (list : List GzipAccessPointEntry) (rawByteCounter dataType : ℕ) :
    Outcome Bool :=
  if dataType &&& 128 ≠ 0 ∧ dataType &&& 64 = 0 then
    if rawByteCounter = 0 then .ok true
    else do
      let last ← deref list.getLast?
      return decide ((rawByteCounter : ℤ) - last.rawByteAddress > span)
  else .ok false

def IndexState.append {σ : Type} (s : IndexState σ) (entry : GzipAccessPointEntry) :
    IndexState σ :=
  { s with reader := { s.reader with list := s.reader.list ++ [entry] } }

/-- The state behind a call of `inflate` that had `availOut` bytes of the window left. -/
def IndexState.advance {σ : Type} (s : IndexState σ) (r : Inflated σ) (availOut : ℕ) :
    IndexState σ :=
  { s with
    stream := r.state
    context := Circular.write s.context (windowSize - availOut) r.output
    rawByteCounter := s.rawByteCounter + r.output.length
    compressedByteCounter := s.compressedByteCounter + r.consumed }

/-- The loop of `index_next_chunk`, with the input and the room of the window that are left;
`next_out` always points `availOut` bytes before the end of the window. -/
def indexNextChunkLoop (z : Library) (maxByteAddress : ℤ) :
    ℕ → IndexState z.State → List UInt8 → ℕ → Outcome (Ret × IndexState z.State)
  | 0, _, _, _ => .error .fuel
  | fuel + 1, s, input, availOut => do
    let availOut := if availOut = 0 then windowSize else availOut
    let r := z.inflate s.stream .block input availOut
    let s := s.advance r availOut
    let input := input.drop r.consumed
    let availOut := availOut - r.output.length
    if r.ret = .memError ∨ r.ret = .dataError ∨ r.ret = .needDict then return (r.ret, s)
    else if r.ret = .streamEnd then return (.ok, s)
    else if ← pointDue s.reader.list s.rawByteCounter r.dataType then do
      let s := s.append (createAccessPointEntry s.rawByteCounter s.compressedByteCounter
        (r.dataType &&& 7) availOut s.context)
      if maxByteAddress < s.rawByteCounter + span then return (.ok, s)
      else if input ≠ [] then indexNextChunkLoop z maxByteAddress fuel s input availOut
      else return (.ok, s)
    else if input ≠ [] then indexNextChunkLoop z maxByteAddress fuel s input availOut
    else return (.ok, s)

def indexNextChunk (z : Library) (maxByteAddress : ℤ) (fuel : ℕ) (s : IndexState z.State) :
    Outcome (Ret × IndexState z.State) :=
  let input := slice s.reader.gzipFile s.reader.pos chunk
  let s := { s with reader := { s.reader with pos := s.reader.pos + input.length } }
  if input = [] then .ok (.dataError, s)
  else indexNextChunkLoop z maxByteAddress fuel s input 0

def buildIndexLoop (z : Library) (maxByteAddress : ℤ) :
    ℕ → IndexState z.State → Outcome (Ret × IndexState z.State)
  | 0, _ => .error .fuel
  | fuel + 1, s => do
    let (ret, s) ← indexNextChunk z maxByteAddress fuel s
    if maxByteAddress < s.rawByteCounter + span then return (ret, s)
    else if ret = .ok then buildIndexLoop z maxByteAddress fuel s
    else return (ret, s)

/-- A raw stream placed at an access point, `none` when the file ends before it, and the reader
with its file behind the bytes used. -/
def resumeAt (z : Library) (reader : GzipReader) (entry : GzipAccessPointEntry) :
    Option z.State × GzipReader :=
  let stream := z.inflateInit2 rawInflateBits
  if entry.bits ≠ 0 then
    match reader.gzipFile[entry.compressedByteAddress - 1]? with
    | none => (none, { reader with pos := entry.compressedByteAddress - 1 })
    | some nextChar =>
      let stream := z.inflatePrime stream entry.bits (nextChar.toNat >>> (8 - entry.bits))
      (some (z.inflateSetDictionary stream entry.context),
        { reader with pos := entry.compressedByteAddress })
  else
    (some (z.inflateSetDictionary stream entry.context),
      { reader with pos := entry.compressedByteAddress })

/-- The variables of `build_index` before its loop; `stack` is what its window array happens to
hold. -/
def buildStart (z : Library) (reader : GzipReader) (stack : List UInt8) :
    Option (IndexState z.State) × GzipReader :=
  match reader.list.getLast? with
  | none => (some ⟨reader, z.inflateInit2 gzipWindowBits, stack, 0, 0⟩, reader)
  | some entry =>
    let (stream, reader) := resumeAt z reader entry
    (stream.map fun stream =>
      ⟨reader, stream, stack, entry.rawByteAddress, entry.compressedByteAddress⟩, reader)

def buildIndex (z : Library) (fuel : ℕ) (reader : GzipReader) (stack : List UInt8)
    (maxByteAddress : ℤ) : Outcome (Ret × GzipReader) :=
  match buildStart z reader stack with
  | (none, reader) => .ok (.dataError, reader)
  | (some s, _) => do
    let (ret, s) ← buildIndexLoop z maxByteAddress fuel s
    return (ret, s.reader)

def checkAndBuildIndex (z : Library) (fuel : ℕ) (reader : GzipReader) (stack : List UInt8)
    (maxByteAddress : ℤ) : Outcome (Ret × GzipReader) :=
  match reader.list.getLast? with
  | some last =>
    if last.rawByteAddress + span > maxByteAddress then .ok (.ok, reader)
    else buildIndex z fuel reader stack maxByteAddress
  | none => buildIndex z fuel reader stack maxByteAddress

/-- The search loop of `_gzip_read`: the last entry before the offset. -/
def searchEntry (offset : ℤ) (current : GzipAccessPointEntry) :
    List GzipAccessPointEntry → GzipAccessPointEntry
  | [] => current
  | next :: rest =>
    if (next.rawByteAddress : ℤ) < offset then searchEntry offset next rest else current

/-- A stream with its unread input, inside `_gzip_read`. -/
structure ReadState (σ : Type) where
  reader : GzipReader
  stream : σ
  input : List UInt8

def readNextChunk (z : Library) (s : ReadState z.State) (availOut : ℕ) :
    Ret × ReadState z.State × List UInt8 :=
  let input := if s.input = [] then slice s.reader.gzipFile s.reader.pos chunk else s.input
  let pos := if s.input = [] then s.reader.pos + input.length else s.reader.pos
  let reader := { s.reader with pos }
  if input = [] then (.dataError, ⟨reader, s.stream, []⟩, [])
  else
    let r := z.inflate s.stream .noFlush input availOut
    (r.ret, ⟨reader, r.state, input.drop r.consumed⟩, r.output)

/-- The inner loop of `_gzip_read`: it fills `availOut` bytes, unless the stream ends. -/
def fillOutput (z : Library) :
    ℕ → ReadState z.State → ℕ → Outcome (Ret × ReadState z.State × List UInt8)
  | 0, _, _ => .error .fuel
  | fuel + 1, s, availOut => do
    let (ret, s, output) := readNextChunk z s availOut
    if availOut - output.length ≠ 0 ∧ ret = .ok then do
      let (ret, s, more) ← fillOutput z fuel s (availOut - output.length)
      return (ret, s, output ++ more)
    else return (ret, s, output)

def discard (output : List UInt8) : Outcome Unit :=
  if output.length ≤ windowSize then .ok () else .error .bounds

/-- The outer loop of `_gzip_read`: skips `offset` bytes and stores `length` bytes. -/
def skipAndRead (z : Library) (length : ℕ) :
    ℕ → ReadState z.State → ℤ → Outcome (Ret × ReadState z.State × List UInt8)
  | 0, _, _ => .error .fuel
  | fuel + 1, s, offset =>
    if offset = 0 then fillOutput z fuel s (length % 2 ^ 32)
    else do
      let room := if offset > windowSize then windowSize else (offset % 2 ^ 32).toNat
      let (ret, s, output) ← fillOutput z fuel s room
      discard output
      if ret = .ok then
        skipAndRead z length fuel s (if offset > windowSize then offset - windowSize else 0)
      else return (ret, s, [])

/-- `_gzip_read`: the result, the reader behind it and the bytes stored in `buffer`. -/
def gzipReadBuffer (z : Library) (fuel : ℕ) (reader : GzipReader) (offset : ℤ) (length : ℕ) :
    Outcome (Ret × GzipReader × List UInt8) :=
  if length = 0 then .ok (.ok, reader, [])
  else
    match reader.list with
    | [] => .error .null
    | first :: rest =>
      let current := searchEntry offset first rest
      match resumeAt z reader current with
      | (none, reader) => .ok (.dataError, reader, [])
      | (some stream, reader) => do
        let (ret, s, output) ← skipAndRead z length fuel ⟨reader, stream, []⟩
          (offset - current.rawByteAddress)
        return (ret, s.reader, output)

/-- `gzip_read`, built with `NDEBUG`: the reader behind the call, the returned number and the
bytes stored in `buffer`. -/
def gzipRead (z : Library) (fuel : ℕ) (reader : GzipReader) (stack : List UInt8) (offset : ℤ)
    (length : ℕ) : Outcome (GzipReader × ℤ × List UInt8) := do
  let (_, reader) ← checkAndBuildIndex z fuel reader stack (Int.bmod (offset + length) (2 ^ 64))
  let (ret, reader, buffer) ← gzipReadBuffer z fuel reader offset length
  if ret = .ok ∨ ret = .streamEnd then return (reader, Int.bmod length (2 ^ 32), buffer)
  else return (reader, indexerError, buffer)

end Spotlight.Gzip
