import Spotlight.Bytes

/-! The zlib library as its callers see it: a streaming decompressor that stops at deflate
block boundaries, and what it is relied on to do with the first member of a gzip file. -/
namespace Spotlight.Zlib
open Bytes

inductive Ret
  | ok
  | streamEnd
  | needDict
  | errno
  | streamError
  | dataError
  | memError
  | bufError
  deriving DecidableEq, Repr

inductive Flush
  | noFlush
  | block

/-- What one call of `inflate` did: `consumed` bytes were taken from `next_in`, and `output`
was appended at `next_out`. -/
structure Inflated (σ : Type) where
  state : σ
  ret : Ret
  consumed : ℕ
  output : List UInt8
  dataType : ℕ

/-- The library's functions. `inflate` gets the bytes at `next_in` and the room left at
`next_out`. -/
structure Library where
  State : Type
  inflateInit2 : ℤ → State
  inflatePrime : State → ℕ → ℕ → State
  inflateSetDictionary : State → List UInt8 → State
  inflate : State → Flush → List UInt8 → ℕ → Inflated State

/-- A raw stream that got the high `bits` bits of a byte. -/
def Library.primed (z : Library) (rawBits : ℤ) (bits : ℕ) (byte : UInt8) : z.State :=
  if bits = 0 then z.inflateInit2 rawBits
  else z.inflatePrime (z.inflateInit2 rawBits) bits (byte.toNat >>> (8 - bits))

def windowSize : ℕ := 32768
def gzipWindowBits : ℤ := 47
def rawInflateBits : ℤ := -15

/-- A deflate block boundary: the address of the first whole byte behind it, the number of
bits before that byte that lie behind it too, and the output position. -/
structure Boundary where
  comp : ℕ
  bits : ℕ
  raw : ℕ
  deriving DecidableEq

/-- The first member of a gzip file: the bytes it decompresses to and its block boundaries,
from the end of the header to the end of the last block. -/
structure Member where
  file : List UInt8
  content : List UInt8
  bounds : List Boundary
  two_le : 2 ≤ bounds.length
  first_raw : ∀ b, bounds[0]? = some b → b.raw = 0
  last_raw : ∀ b, bounds[bounds.length - 1]? = some b →
    b.raw = content.length ∧ b.comp + 8 ≤ file.length
  sorted : bounds.Pairwise fun a b => a.raw ≤ b.raw ∧ a.comp ≤ b.comp
  bits_lt : ∀ b ∈ bounds, b.bits < 8
  comp_pos : ∀ b ∈ bounds, 0 < b.comp

/-- How far a stream has come: compressed bytes taken, bytes put out, and the index of the
boundary ahead. -/
structure Pos where
  comp : ℕ
  raw : ℕ
  next : ℕ

/-- The last bytes of a window of `windowSize` bytes are those before position `raw`. -/
def Precedes (content : List UInt8) (raw : ℕ) (window : List UInt8) : Prop :=
  window.length = windowSize ∧
    window.drop (windowSize - min raw windowSize) =
      slice content (raw - min raw windowSize) (min raw windowSize)

/-- The output starts with the content's bytes at `raw`. -/
def Continues (content : List UInt8) (raw : ℕ) (output : List UInt8) : Prop :=
  output = slice content raw output.length

variable {σ : Type}

/-- A call with `Z_BLOCK` ahead of a boundary: it stops at the boundary, or runs out of input
before the boundary's last byte, or out of room. -/
inductive BlockStep (m : Member) (reaches : Pos → Prop) (p : Pos) (input : List UInt8) (room : ℕ)
    (r : Inflated σ) : Prop
  | boundary (b : Boundary) (hb : m.bounds[p.next]? = some b)
      (comp : p.comp + r.consumed = b.comp) (raw : p.raw + r.output.length = b.raw)
      (dataType : r.dataType = b.bits + 128 + if p.next + 1 = m.bounds.length then 64 else 0)
      (at_next : reaches ⟨b.comp, b.raw, p.next + 1⟩)
  | inside (b : Boundary) (hb : m.bounds[p.next]? = some b)
      (comp : p.comp + r.consumed ≤ b.comp) (raw : p.raw + r.output.length ≤ b.raw)
      (dataType : r.dataType &&& 128 = 0)
      (exhausted : r.consumed = input.length ∧ p.comp + r.consumed < b.comp ∨
        r.output.length = room)
      (at_inside : reaches ⟨p.comp + r.consumed, p.raw + r.output.length, p.next⟩)

/-- A call with `Z_BLOCK` behind the last boundary. -/
inductive TrailerStep (m : Member) (reaches : Pos → Prop) (done : Prop) (p : Pos)
    (input : List UInt8) (r : Inflated σ) : Prop
  | stop (ret : r.ret = .streamEnd) (output : r.output = []) (at_done : done)
  | more (ret : r.ret = .ok) (output : r.output = []) (dataType : r.dataType &&& 128 = 0)
      (exhausted : r.consumed = input.length)
      (at_inside : reaches ⟨p.comp + r.consumed, p.raw, p.next⟩)

/-- A call with `Z_NO_FLUSH` on a raw stream ahead of the end of the content. -/
inductive FlowStep (m : Member) (reaches : Pos → Prop) (p : Pos) (input : List UInt8)
    (room : ℕ) (r : Inflated σ) : Prop
  | stop (ret : r.ret = .streamEnd) (raw : p.raw + r.output.length = m.content.length)
  | full (ret : r.ret = .ok) (raw : p.raw + r.output.length = m.content.length)
      (room : r.output.length = room)
  | more (ret : r.ret = .ok) (raw : p.raw + r.output.length < m.content.length)
      (exhausted : r.consumed = input.length ∨ r.output.length = room) (next : ℕ) (b : Boundary)
      (hb : m.bounds[next]? = some b) (comp : p.comp + r.consumed ≤ b.comp)
      (at_inside : reaches ⟨p.comp + r.consumed, p.raw + r.output.length, next⟩)

/-- What the library does with the first member of `m.file`. `At st p exact` says that a
stream in state `st` has come to `p`; it is exact when its window holds the content's bytes,
and only then are the bytes it puts out the content's. Lengths and boundaries do not depend on
the window. -/
structure Decompresses (z : Library) (m : Member) where
  At : z.State → Pos → Prop → Prop
  Done : z.State → Prop
  /-- The stream has no trailer to check. -/
  Raw : z.State → Prop
  start : At (z.inflateInit2 gzipWindowBits) ⟨0, 0, 0⟩ True
  /-- A raw stream, primed with the bits before the first whole byte and given a full window. -/
  resume : ∀ i b window byte, m.bounds[i]? = some b → i + 1 < m.bounds.length →
    window.length = windowSize → m.file[b.comp - 1]? = some byte →
    At (z.inflateSetDictionary (z.primed rawInflateBits b.bits byte) window) ⟨b.comp, b.raw, i + 1⟩
      (Precedes m.content b.raw window)
  raw_resume : ∀ bits byte window,
    Raw (z.inflateSetDictionary (z.primed rawInflateBits bits byte) window)
  raw_inflate : ∀ st flush input room, Raw st → Raw (z.inflate st flush input room).state
  consumed_le : ∀ st flush input room, (z.inflate st flush input room).consumed ≤ input.length
  output_le : ∀ st flush input room, (z.inflate st flush input room).output.length ≤ room
  exact : ∀ st p exact flush input room, At st p exact → exact → input <+: m.file.drop p.comp →
    Continues m.content p.raw (z.inflate st flush input room).output
  block : ∀ st p exact input room, At st p exact → p.next < m.bounds.length → input ≠ [] →
    0 < room → input <+: m.file.drop p.comp →
    (z.inflate st .block input room).ret = .ok ∧
    BlockStep m (fun q => At (z.inflate st .block input room).state q exact) p input room
      (z.inflate st .block input room)
  trailer : ∀ st p exact input room, At st p exact → p.next = m.bounds.length → input ≠ [] →
    0 < room → input <+: m.file.drop p.comp →
    TrailerStep m (fun q => At (z.inflate st .block input room).state q exact)
      (Done (z.inflate st .block input room).state) p input (z.inflate st .block input room)
  done : ∀ st flush input room, Done st →
    (z.inflate st flush input room).ret = .streamEnd ∧
    (z.inflate st flush input room).output = [] ∧ Done (z.inflate st flush input room).state
  flow : ∀ st p exact input room, At st p exact → Raw st → p.next < m.bounds.length →
    p.raw < m.content.length → input ≠ [] → 0 < room → input <+: m.file.drop p.comp →
    FlowStep m (fun q => At (z.inflate st .noFlush input room).state q exact) p input room
      (z.inflate st .noFlush input room)

/-- A call with `Z_BLOCK` ahead of the first boundary of a file. -/
inductive HeaderStep (ahead : σ → Prop) (input : List UInt8) (r : Inflated σ) : Prop
  | failed (ret : r.ret = .memError ∨ r.ret = .dataError ∨ r.ret = .needDict)
      (output : r.output = [])
  | boundary (ret : r.ret = .ok) (output : r.output = [])
      (dataType : r.dataType &&& 128 ≠ 0 ∧ r.dataType &&& 64 = 0)
  | more (ret : r.ret = .ok) (output : r.output = []) (dataType : r.dataType &&& 128 = 0)
      (exhausted : r.consumed = input.length) (at_ahead : ahead r.state)

/-- What the library does with the header of a file of any bytes: it puts nothing out before the
first boundary. -/
structure Headers (z : Library) where
  Ahead : z.State → Prop
  start : Ahead (z.inflateInit2 gzipWindowBits)
  header : ∀ st input room, Ahead st → input ≠ [] → 0 < room →
    HeaderStep Ahead input (z.inflate st .block input room)

theorem Continues.append {content : List UInt8} {raw : ℕ} {out more : List UInt8}
    (h : Continues content raw out) (h' : Continues content (raw + out.length) more) :
    Continues content raw (out ++ more) := by
  unfold Continues at *
  rw [List.length_append, ← slice_append, ← h, ← h']

end Spotlight.Zlib
