import Spotlight.Circular
import Spotlight.XzRead

/-! Decoding one block of an xz file (`read_block` of `xz_reader.c`), whatever the calls that it
makes return. -/
namespace Spotlight.Xz
open Bytes

/-- What the index says of a block that is not empty. -/
structure BlockRecord extends XzBlock where
  compressedFileOffset : ℕ
  size_pos : 0 < size
  size_le : size ≤ lzmaVliMax

/-- The results of one turn of the loop over the data: of `pread`, if there is need of it, and of
`lzma_code`. -/
structure DataTurn where
  pread : ℤ
  ret : LzmaRet
  consumed : ℕ
  output : List UInt8

def lzmaBlockHeaderSizeDecode (b : UInt8) : ℕ := (b.toNat + 1) * 4

/-- The results of the calls of one run. `headerDecode` comes with the `uncompressed_size` it
leaves in the block, `malloc` with what is in the memory. The turns of the loop go on until
`lzma_code` returns another code than `LZMA_OK`, and `pread` reads a header inside the file. -/
structure BlockCalls where
  located : Option BlockRecord
  fileSize : ℕ
  firstByte : Option UInt8
  headerRest : ℤ
  headerDecode : LzmaRet × ℕ
  compressedSize : LzmaRet
  blockDecoder : LzmaRet
  malloc : Option (ℕ → UInt8)
  turns : List DataTurn
  last : DataTurn
  turns_ok : ∀ t ∈ turns, t.ret = .ok
  last_ne : last.ret ≠ .ok
  inside : ∀ b n, located = some b → firstByte = some n →
    headerRest = lzmaBlockHeaderSizeDecode n - 1 →
    b.compressedFileOffset + lzmaBlockHeaderSizeDecode n ≤ fileSize

/-- The variables of `xz_read` that `read_block` sets through pointers. They start out
uninitialised. -/
structure Caller where
  block : Option ℕ
  start : ℤ
  size : ℕ

/-- A `read_block` that returned, with the bytes that the decoder produced and, for every call of
it, the end of the output space it was given, counted from the front of the buffer. -/
structure BlockRun extends BlockRead where
  produced : ℕ
  given : List ℕ

/-- The place of the next `pread` and the `lzma_stream`. -/
structure DataStream where
  compressedOffset : ℕ
  availIn : ℕ
  nextOut : ℕ
  availOut : ℕ
  given : List ℕ

/-- The refill of the input at the top of a turn. A short `pread` leaves nothing. -/
def DataStream.refill (fileSize : ℕ) (st : DataStream) (pread : ℤ) : Option DataStream :=
  if st.availIn = 0 then
    let availIn := if fileSize < st.compressedOffset + ioBufferSize then
      fileSize - st.compressedOffset else ioBufferSize
    if 0 < availIn then
      if pread ≠ availIn then none
      else some { st with availIn, compressedOffset := st.compressedOffset + availIn }
    else some { st with availIn }
  else some st

def DataStream.code (st : DataStream) (t : DataTurn) : DataStream :=
  { st with
    availIn := st.availIn - t.consumed
    nextOut := st.nextOut + t.output.length
    availOut := st.availOut - t.output.length
    given := (st.nextOut + st.availOut) :: st.given }

def store (buffers : Heap (List UInt8)) (p pos : ℕ) (bytes : List UInt8) :
    Outcome (Heap (List UInt8)) := do
  let data ← buffers.read p
  if pos + bytes.length ≤ data.length then buffers.modify p fun d => Circular.write d pos bytes
  else .error .bounds

/-- How the loop over the data ends; `short` is the jump after a short `pread`. -/
structure LoopEnd where
  short : Bool
  ret : LzmaRet
  stream : DataStream
  buffers : Heap (List UInt8)

def dataLoop (fileSize p : ℕ) :
    List DataTurn → LzmaRet → DataStream → Heap (List UInt8) → Outcome LoopEnd
  | [], _, _, _ => .error .fuel
  | t :: turns, returnValue, st, buffers =>
    match st.refill fileSize t.pread with
    | none => .ok ⟨true, returnValue, st, buffers⟩
    | some st => do
      let buffers ← store buffers p st.nextOut t.output
      if t.ret = .ok then dataLoop fileSize p turns t.ret (st.code t) buffers
      else return ⟨false, t.ret, st.code t, buffers⟩

def freeBuffer (buffers : Heap (List UInt8)) : Option ℕ → Outcome (Heap (List UInt8))
  | none => .ok buffers
  | some p => buffers.free p

def cleanUp (b : XzBlock) (ret : LzmaRet) (data : Option ℕ) (st : DataStream)
    (buffers : Heap (List UInt8)) : Outcome BlockRun := do
  let buffers ← freeBuffer buffers data
  return ⟨⟨ret, buffers, data, b.start, b.size⟩, st.nextOut, st.given⟩

/-- `read_block` from the comparison with the index on. A failed `malloc` and a short `pread`
leave `return_value` as it is. -/
def readBlockData (calls : BlockCalls) (block : Option ℕ) (b : BlockRecord)
    (compressedOffset : ℕ) (buffers : Heap (List UInt8)) : Outcome BlockRun :=
  let st : DataStream := ⟨compressedOffset, 0, 0, calls.headerDecode.2, []⟩
  if calls.compressedSize ≠ .ok then
    cleanUp b.toXzBlock calls.compressedSize block st buffers
  else if calls.blockDecoder ≠ .ok then
    cleanUp b.toXzBlock calls.blockDecoder block st buffers
  else
    match calls.malloc with
    | none => cleanUp b.toXzBlock calls.blockDecoder none st buffers
    | some memory => do
      let (data, buffers) := buffers.alloc (readAt memory 0 b.size)
      let e ← dataLoop calls.fileSize data (calls.turns ++ [calls.last]) calls.blockDecoder st
        buffers
      if e.short ∨ e.ret ≠ .ok ∧ e.ret ≠ .streamEnd then
        cleanUp b.toXzBlock e.ret (some data) e.stream e.buffers
      else
        return ⟨⟨.ok, e.buffers, some data, b.start, b.size⟩, e.stream.nextOut, e.stream.given⟩

def Caller.returns (caller : Caller) (ret : LzmaRet) (buffers : Heap (List UInt8)) :
    Outcome BlockRun :=
  .ok ⟨⟨ret, buffers, caller.block, caller.start, caller.size⟩, 0, []⟩

def readBlock (calls : BlockCalls) (caller : Caller) (buffers : Heap (List UInt8)) :
    Outcome BlockRun :=
  match calls.located with
  | none => caller.returns .progError buffers
  | some b =>
    let caller := { caller with start := b.start, size := b.size }
    match calls.firstByte with
    | none => caller.returns .progError buffers
    | some n =>
      if n = 0 then caller.returns .dataError buffers
      else if calls.headerRest ≠ lzmaBlockHeaderSizeDecode n - 1 then
        caller.returns .dataError buffers
      else if calls.headerDecode.1 ≠ .ok then caller.returns calls.headerDecode.1 buffers
      else
        readBlockData calls caller.block b
          (b.compressedFileOffset + lzmaBlockHeaderSizeDecode n) buffers

def outputs (turns : List DataTurn) : List UInt8 := turns.flatMap DataTurn.output

def BlockCalls.output (calls : BlockCalls) : List UInt8 := outputs (calls.turns ++ [calls.last])

/-- The bytes that the refill wants at a place of the file. -/
def asked (fileSize offset availIn : ℕ) : ℕ :=
  if availIn = 0 then min ioBufferSize (fileSize - offset) else 0

def Supplied (fileSize : ℕ) : ℕ → ℕ → List DataTurn → Prop
  | _, _, [] => True
  | offset, availIn, t :: turns =>
    (0 < asked fileSize offset availIn → t.pread = asked fileSize offset availIn) ∧
      Supplied fileSize (offset + asked fileSize offset availIn)
        (availIn + asked fileSize offset availIn - t.consumed) turns

variable {fileSize p : ℕ} {st : DataStream} {data : List UInt8} {t : DataTurn}
  {buffers : Heap (List UInt8)}

@[simp] lemma outputs_cons (t : DataTurn) (turns : List DataTurn) :
    outputs (t :: turns) = t.output ++ outputs turns := rfl

def DataStream.refilled (fileSize : ℕ) (st : DataStream) : DataStream :=
  { st with
    compressedOffset := st.compressedOffset + asked fileSize st.compressedOffset st.availIn
    availIn := st.availIn + asked fileSize st.compressedOffset st.availIn }

def TurnSupplied (fileSize : ℕ) (st : DataStream) (t : DataTurn) : Prop :=
  0 < asked fileSize st.compressedOffset st.availIn →
    t.pread = asked fileSize st.compressedOffset st.availIn

lemma refill_eq (fileSize : ℕ) (st : DataStream) (t : DataTurn) :
    (TurnSupplied fileSize st t → st.refill fileSize t.pread = some (st.refilled fileSize)) ∧
      (¬TurnSupplied fileSize st t → st.refill fileSize t.pread = none) := by
  have hmin : (if fileSize < st.compressedOffset + ioBufferSize then
      fileSize - st.compressedOffset else ioBufferSize) =
      min ioBufferSize (fileSize - st.compressedOffset) := by
    split_ifs <;> omega
  unfold DataStream.refill DataStream.refilled TurnSupplied asked
  by_cases hin : st.availIn = 0
  · simp only [hin, if_true, hmin, Nat.zero_add]
    by_cases hpos : 0 < min ioBufferSize (fileSize - st.compressedOffset)
    · simp only [hpos, if_true, forall_true_left, ne_eq, ite_not]
      exact ⟨fun h => if_pos h, fun h => if_neg h⟩
    · have hzero : min ioBufferSize (fileSize - st.compressedOffset) = 0 := by omega
      simp [hzero]
  · simp [hin]

lemma store_ok (hp : buffers.cells p = some data) {pos : ℕ} {bytes : List UInt8}
    (h : pos + bytes.length ≤ data.length) :
    store buffers p pos bytes = .ok (buffers.modifyCell p fun d => Circular.write d pos bytes) := by
  rw [store, Heap.read_of_cell hp, Outcome.ok_bind, if_pos h, Heap.modify_of_cell hp]

lemma store_bounds (hp : buffers.cells p = some data) {pos : ℕ} {bytes : List UInt8}
    (h : ¬pos + bytes.length ≤ data.length) : store buffers p pos bytes = .error .bounds := by
  rw [store, Heap.read_of_cell hp, Outcome.ok_bind, if_neg h]

/-- Where a stream and the buffer are after some turns with all their input. -/
structure Filled (p : ℕ) (data : List UInt8) (st : DataStream) (buffers : Heap (List UInt8))
    (turns : List DataTurn) (st' : DataStream) (buffers' : Heap (List UInt8)) : Prop where
  fits : st.nextOut + (outputs turns).length ≤ data.length
  nextOut : st'.nextOut = st.nextOut + (outputs turns).length
  cell : buffers'.cells p = some (Circular.write data st.nextOut (outputs turns))
  others : ∀ q, q ≠ p → buffers'.cells q = buffers.cells q
  next : buffers'.next = buffers.next
  given : (outputs turns).length ≤ st.availOut →
    st'.given = List.replicate turns.length (st.nextOut + st.availOut) ++ st.given

lemma filled_nil (hp : buffers.cells p = some data) (h : st.nextOut ≤ data.length) :
    Filled p data st buffers [] st buffers where
  fits := h
  nextOut := rfl
  cell := by simpa [Circular.write, outputs] using hp
  others _ _ := rfl
  next := rfl
  given _ := rfl

lemma Filled.cons {turns : List DataTurn} {st' : DataStream} {buffers' : Heap (List UInt8)}
    (hfit : st.nextOut + t.output.length ≤ data.length)
    (h : Filled p (Circular.write data st.nextOut t.output) (st.code t)
      (buffers.modifyCell p fun d => Circular.write d st.nextOut t.output) turns st' buffers') :
    Filled p data st buffers (t :: turns) st' buffers' := by
  have hfits := h.fits
  have hnext : st'.nextOut = st.nextOut + t.output.length + (outputs turns).length := h.nextOut
  have hcell : buffers'.cells p = some (Circular.write (Circular.write data st.nextOut t.output)
      (st.nextOut + t.output.length) (outputs turns)) := h.cell
  rw [Circular.length_write hfit] at hfits
  constructor
  · rw [outputs_cons, List.length_append, ← Nat.add_assoc]
    exact hfits
  · rw [hnext, outputs_cons, List.length_append, Nat.add_assoc]
  · rw [hcell, Circular.write_write hfit, outputs_cons]
  · intro q hq
    rw [h.others q hq, Heap.cells_modifyCell_ne hq]
  · exact h.next
  · intro hout
    rw [outputs_cons, List.length_append] at hout
    have hsum : (st.code t).nextOut + (st.code t).availOut = st.nextOut + st.availOut := by
      simp only [DataStream.code]
      omega
    have hroom : (outputs turns).length ≤ (st.code t).availOut := by
      simp only [DataStream.code]
      omega
    rw [h.given hroom, hsum, List.length_cons, List.replicate_succ', List.append_assoc]
    rfl

lemma Filled.of_refilled {turns : List DataTurn} {st' : DataStream}
    {buffers' : Heap (List UInt8)}
    (h : Filled p data (st.refilled fileSize) buffers turns st' buffers') :
    Filled p data st buffers turns st' buffers' :=
  ⟨h.fits, h.nextOut, h.cell, h.others, h.next, h.given⟩

lemma supplied_cons {turns : List DataTurn} :
    Supplied fileSize st.compressedOffset st.availIn (t :: turns) ↔ TurnSupplied fileSize st t ∧
      Supplied fileSize ((st.refilled fileSize).code t).compressedOffset
        ((st.refilled fileSize).code t).availIn turns := Iff.rfl

lemma Supplied.of_append {pre post : List DataTurn} {offset availIn : ℕ}
    (h : Supplied fileSize offset availIn (pre ++ post)) :
    Supplied fileSize offset availIn pre := by
  induction pre generalizing offset availIn with
  | nil => trivial
  | cons t pre ih => exact ⟨h.1, ih h.2⟩

lemma dataLoop_short (h : ¬TurnSupplied fileSize st t) (turns : List DataTurn)
    (returnValue : LzmaRet) (buffers : Heap (List UInt8)) :
    dataLoop fileSize p (t :: turns) returnValue st buffers =
      .ok ⟨true, returnValue, st, buffers⟩ := by
  rw [dataLoop, (refill_eq fileSize st t).2 h]

lemma dataLoop_bounds (h : TurnSupplied fileSize st t) (hp : buffers.cells p = some data)
    (hfit : ¬st.nextOut + t.output.length ≤ data.length) (turns : List DataTurn)
    (returnValue : LzmaRet) :
    dataLoop fileSize p (t :: turns) returnValue st buffers = .error .bounds := by
  rw [dataLoop, (refill_eq fileSize st t).1 h]
  have hstore : store buffers p (st.refilled fileSize).nextOut t.output = .error .bounds :=
    store_bounds hp hfit
  simp only [hstore, Outcome.error_bind]

lemma dataLoop_turn (h : TurnSupplied fileSize st t) (hp : buffers.cells p = some data)
    (hfit : st.nextOut + t.output.length ≤ data.length) (turns : List DataTurn)
    (returnValue : LzmaRet) :
    dataLoop fileSize p (t :: turns) returnValue st buffers =
      if t.ret = .ok then
        dataLoop fileSize p turns t.ret ((st.refilled fileSize).code t)
          (buffers.modifyCell p fun d => Circular.write d st.nextOut t.output)
      else .ok ⟨false, t.ret, (st.refilled fileSize).code t,
        buffers.modifyCell p fun d => Circular.write d st.nextOut t.output⟩ := by
  rw [dataLoop, (refill_eq fileSize st t).1 h]
  have hstore : store buffers p (st.refilled fileSize).nextOut t.output =
      .ok (buffers.modifyCell p fun d => Circular.write d st.nextOut t.output) :=
    store_ok hp hfit
  simp only [hstore, Outcome.ok_bind]
  rfl

/-- The loop writes outside the buffer, runs to its last turn, or stops at a short `pread` with
the code that the turn before left. -/
theorem dataLoop_spec {last : DataTurn} (hlast : last.ret ≠ .ok) {turns : List DataTurn}
    (hturns : ∀ t ∈ turns, t.ret = .ok) (hp : buffers.cells p = some data)
    (hst : st.nextOut ≤ data.length) :
    (dataLoop fileSize p (turns ++ [last]) .ok st buffers = .error .bounds ∧
      data.length < st.nextOut + (outputs (turns ++ [last])).length) ∨
    (∃ st' buffers', dataLoop fileSize p (turns ++ [last]) .ok st buffers =
        .ok ⟨false, last.ret, st', buffers'⟩ ∧
      Supplied fileSize st.compressedOffset st.availIn (turns ++ [last]) ∧
      Filled p data st buffers (turns ++ [last]) st' buffers') ∨
    ∃ pre t post st' buffers', dataLoop fileSize p (turns ++ [last]) .ok st buffers =
        .ok ⟨true, .ok, st', buffers'⟩ ∧ turns ++ [last] = pre ++ t :: post ∧
      Supplied fileSize st.compressedOffset st.availIn pre ∧
      ¬Supplied fileSize st.compressedOffset st.availIn (pre ++ [t]) ∧
      Filled p data st buffers pre st' buffers' := by
  induction turns generalizing st data buffers with
  | nil =>
    by_cases hfed : TurnSupplied fileSize st last
    · by_cases hfit : st.nextOut + last.output.length ≤ data.length
      · refine .inr (.inl ⟨(st.refilled fileSize).code last,
          buffers.modifyCell p fun d => Circular.write d st.nextOut last.output, ?_,
          supplied_cons.mpr ⟨hfed, trivial⟩, ?_⟩)
        · rw [List.nil_append, dataLoop_turn hfed hp hfit, if_neg hlast]
        · have hnext : ((st.refilled fileSize).code last).nextOut ≤
              (Circular.write data st.nextOut last.output).length := by
            rw [Circular.length_write hfit]
            exact hfit
          exact Filled.of_refilled
            (Filled.cons hfit (filled_nil (Heap.cells_modifyCell_self hp _) hnext))
      · refine .inl ⟨dataLoop_bounds hfed hp hfit _ _, ?_⟩
        simpa [outputs] using hfit
    · exact .inr (.inr ⟨[], last, [], st, buffers, dataLoop_short hfed _ _ _, rfl, trivial,
        fun h => hfed (supplied_cons.mp h).1, filled_nil hp hst⟩)
  | cons t turns ih =>
    by_cases hfed : TurnSupplied fileSize st t
    · by_cases hfit : st.nextOut + t.output.length ≤ data.length
      · have hret : t.ret = .ok := hturns t List.mem_cons_self
        have hlen := Circular.length_write hfit
        have hstep := dataLoop_turn hfed hp hfit (turns ++ [last]) .ok
        rw [if_pos hret, hret] at hstep
        have hcell : (buffers.modifyCell p fun d => Circular.write d st.nextOut t.output).cells p =
            some (Circular.write data st.nextOut t.output) := Heap.cells_modifyCell_self hp _
        have hnext : ((st.refilled fileSize).code t).nextOut ≤
            (Circular.write data st.nextOut t.output).length := by
          rw [hlen]
          exact hfit
        rw [List.cons_append, hstep]
        rcases ih (fun u hu => hturns u (List.mem_cons_of_mem _ hu)) hcell hnext with
          ⟨hrun, hover⟩ | ⟨st', buffers', hrun, hall, hfilled⟩ |
            ⟨pre, u, post, st', buffers', hrun, hsplit, hpre, hnot, hfilled⟩
        · refine .inl ⟨hrun, ?_⟩
          rw [hlen] at hover
          rw [outputs_cons, List.length_append, ← Nat.add_assoc]
          exact hover
        · exact .inr (.inl ⟨st', buffers', hrun, supplied_cons.mpr ⟨hfed, hall⟩,
            Filled.of_refilled (Filled.cons hfit hfilled)⟩)
        · refine .inr (.inr ⟨t :: pre, u, post, st', buffers', hrun, by rw [hsplit]; rfl,
            supplied_cons.mpr ⟨hfed, hpre⟩, fun h => hnot (supplied_cons.mp h).2,
            Filled.of_refilled (Filled.cons hfit hfilled)⟩)
      · refine .inl ⟨dataLoop_bounds hfed hp hfit _ _, ?_⟩
        rw [List.cons_append, outputs_cons, List.length_append]
        omega
    · exact .inr (.inr ⟨[], t, turns ++ [last], st, buffers, dataLoop_short hfed _ _ _, rfl,
        trivial, fun h => hfed (supplied_cons.mp h).1, filled_nil hp hst⟩)

/-- The header of a located block was read and decoded, and its data begin at `offset`. -/
def BlockCalls.Headed (calls : BlockCalls) (b : BlockRecord) (offset : ℕ) : Prop :=
  calls.located = some b ∧ calls.headerDecode.1 = .ok ∧ ∃ n, calls.firstByte = some n ∧ n ≠ 0 ∧
    calls.headerRest = lzmaBlockHeaderSizeDecode n - 1 ∧
    offset = b.compressedFileOffset + lzmaBlockHeaderSizeDecode n

variable {calls : BlockCalls} {caller : Caller} {b : BlockRecord} {offset : ℕ}

lemma BlockCalls.Headed.unique {b' : BlockRecord} {offset' : ℕ} (h : calls.Headed b offset)
    (h' : calls.Headed b' offset') : b' = b ∧ offset' = offset := by
  obtain ⟨hb, -, n, hn, -, -, ho⟩ := h
  obtain ⟨hb', -, n', hn', -, -, ho'⟩ := h'
  obtain rfl := Option.some.inj (hb'.symm.trans hb)
  obtain rfl := Option.some.inj (hn'.symm.trans hn)
  exact ⟨rfl, ho'.trans ho.symm⟩

lemma readBlock_cases (calls : BlockCalls) (caller : Caller) (buffers : Heap (List UInt8)) :
    (∃ b offset, calls.Headed b offset ∧
      readBlock calls caller buffers = readBlockData calls caller.block b offset buffers) ∨
    ((∀ b offset, ¬calls.Headed b offset) ∧ ∃ (c : Caller) (ret : LzmaRet), ret ≠ .ok ∧
      readBlock calls caller buffers = c.returns ret buffers) := by
  unfold readBlock BlockCalls.Headed
  cases hb : calls.located with
  | none => exact .inr ⟨by simp, _, .progError, by decide, rfl⟩
  | some b =>
    cases hn : calls.firstByte with
    | none => exact .inr ⟨by simp, _, .progError, by decide, rfl⟩
    | some n =>
      simp only []
      split_ifs with hzero hrest hdecode
      · exact .inr ⟨by simp [hzero], _, .dataError, by decide, rfl⟩
      · exact .inr ⟨by simp [hrest], _, .dataError, by decide, rfl⟩
      · exact .inr ⟨by simp [hdecode], _, _, hdecode, rfl⟩
      · exact .inl ⟨b, _, ⟨rfl, not_not.mp hdecode, n, rfl, hzero, not_not.mp hrest, rfl⟩, rfl⟩

def BlockCalls.start (calls : BlockCalls) (offset : ℕ) : DataStream :=
  ⟨offset, 0, 0, calls.headerDecode.2, []⟩

lemma readBlockData_error1 (h : ¬(calls.compressedSize = .ok ∧ calls.blockDecoder = .ok))
    (block : Option ℕ) (b : BlockRecord) (offset : ℕ) (buffers : Heap (List UInt8)) :
    ∃ ret, ret ≠ .ok ∧ readBlockData calls block b offset buffers =
      cleanUp b.toXzBlock ret block (calls.start offset) buffers := by
  unfold readBlockData
  by_cases hsize : calls.compressedSize = .ok
  · have hdecoder : calls.blockDecoder ≠ .ok := fun hd => h ⟨hsize, hd⟩
    exact ⟨_, hdecoder, by rw [if_neg (not_not_intro hsize), if_pos hdecoder]; rfl⟩
  · exact ⟨_, hsize, by rw [if_pos hsize]; rfl⟩

lemma readBlockData_malloc (hsize : calls.compressedSize = .ok)
    (hdecoder : calls.blockDecoder = .ok) (hmalloc : calls.malloc = none) (block : Option ℕ)
    (b : BlockRecord) (offset : ℕ) (buffers : Heap (List UInt8)) :
    readBlockData calls block b offset buffers =
      .ok ⟨⟨.ok, buffers, none, b.start, b.size⟩, 0, []⟩ := by
  simp [readBlockData, hsize, hdecoder, hmalloc, cleanUp, freeBuffer]

/-- What is known of a run once some turns have written to its buffer. -/
structure RunData (calls : BlockCalls) (b : BlockRecord) (turns : List DataTurn)
    (r : BlockRun) : Prop where
  start : r.start = b.start
  size : r.size = b.size
  fits : (outputs turns).length ≤ b.size
  produced : r.produced = (outputs turns).length
  given : (outputs turns).length ≤ calls.headerDecode.2 →
    r.given = List.replicate turns.length calls.headerDecode.2

section
variable {memory : ℕ → UInt8} {turns : List DataTurn} {st' : DataStream}
  {buffers' : Heap (List UInt8)}

lemma Filled.decoded (h : Filled buffers.next (readAt memory 0 b.size) (calls.start offset)
    (buffers.alloc (readAt memory 0 b.size)).2 turns st' buffers') (ret : LzmaRet)
    (freed : Heap (List UInt8)) (data : Option ℕ) :
    RunData calls b turns ⟨⟨ret, freed, data, b.start, b.size⟩, st'.nextOut, st'.given⟩ where
  start := rfl
  size := rfl
  fits := by simpa [BlockCalls.start] using h.fits
  produced := by simpa [BlockCalls.start] using h.nextOut
  given hout := by simpa [BlockCalls.start] using h.given hout

lemma Filled.cells (h : Filled buffers.next (readAt memory 0 b.size) (calls.start offset)
    (buffers.alloc (readAt memory 0 b.size)).2 turns st' buffers') :
    buffers'.cells = Function.update buffers.cells buffers.next
      (some (Circular.write (readAt memory 0 b.size) 0 (outputs turns))) := by
  funext q
  by_cases hq : q = buffers.next
  · rw [hq, Function.update_self]
    exact h.cell
  · rw [Function.update_of_ne hq, h.others q hq]
    exact Function.update_of_ne hq _ _

lemma Filled.cleanUp (h : Filled buffers.next (readAt memory 0 b.size) (calls.start offset)
    (buffers.alloc (readAt memory 0 b.size)).2 turns st' buffers') (ret : LzmaRet) :
    ∃ r, cleanUp b.toXzBlock ret (some buffers.next) st' buffers' = .ok r ∧ r.ret = ret ∧
      r.data = some buffers.next ∧ r.buffers.cells = buffers.cells ∧ RunData calls b turns r := by
  refine ⟨_, by rw [Xz.cleanUp, freeBuffer, Heap.free_of_cell h.cell]; rfl, rfl, rfl, ?_,
    h.decoded _ _ _⟩
  funext q
  rw [Heap.cells_release, h.cells]
  split_ifs with hq
  · rw [hq, buffers.fresh _ le_rfl]
  · exact Function.update_of_ne hq _ _

/-- How a run with a buffer ends: a write outside of it, a decoder that comes to its last turn, or
a short `pread`, which is not told from a success. -/
theorem readBlockData_run (hsize : calls.compressedSize = .ok)
    (hdecoder : calls.blockDecoder = .ok) (hmalloc : calls.malloc = some memory)
    (block : Option ℕ) (b : BlockRecord) (offset : ℕ) (buffers : Heap (List UInt8)) :
    (readBlockData calls block b offset buffers = .error .bounds ∧
      b.size < calls.output.length) ∨
    (∃ r, readBlockData calls block b offset buffers = .ok r ∧
      Supplied calls.fileSize offset 0 (calls.turns ++ [calls.last]) ∧
      RunData calls b (calls.turns ++ [calls.last]) r ∧ r.data = some buffers.next ∧
      (calls.last.ret = .streamEnd ∧ r.ret = .ok ∧ r.buffers.next = buffers.next + 1 ∧
          r.buffers.cells = Function.update buffers.cells buffers.next
            (some (Circular.write (readAt memory 0 b.size) 0 calls.output)) ∨
        calls.last.ret ≠ .streamEnd ∧ r.ret ≠ .ok ∧ r.buffers.cells = buffers.cells)) ∨
    ∃ pre t post r, readBlockData calls block b offset buffers = .ok r ∧
      calls.turns ++ [calls.last] = pre ++ t :: post ∧ Supplied calls.fileSize offset 0 pre ∧
      ¬Supplied calls.fileSize offset 0 (pre ++ [t]) ∧ RunData calls b pre r ∧
      r.data = some buffers.next ∧ r.ret = .ok ∧ r.buffers.cells = buffers.cells := by
  have hrun : readBlockData calls block b offset buffers = do
      let e ← dataLoop calls.fileSize buffers.next (calls.turns ++ [calls.last]) .ok
        (calls.start offset) (buffers.alloc (readAt memory 0 b.size)).2
      if e.short ∨ e.ret ≠ .ok ∧ e.ret ≠ .streamEnd then
        cleanUp b.toXzBlock e.ret (some buffers.next) e.stream e.buffers
      else
        return ⟨⟨.ok, e.buffers, some buffers.next, b.start, b.size⟩, e.stream.nextOut,
          e.stream.given⟩ := by
    simp only [readBlockData, hsize, hdecoder, hmalloc, ne_eq, not_true_eq_false, if_false]
    rfl
  have hmem := Heap.cells_alloc_self buffers (readAt memory 0 b.size)
  rw [hrun]
  have hstart : (calls.start offset).nextOut ≤ (readAt memory 0 b.size).length := Nat.zero_le _
  rcases dataLoop_spec calls.last_ne calls.turns_ok hmem hstart with
    ⟨hloop, hover⟩ | ⟨st', buffers', hloop, hfed, hfilled⟩ |
      ⟨pre, t, post, st', buffers', hloop, hsplit, hpre, hnot, hfilled⟩
  · refine .inl ⟨by rw [hloop]; rfl, ?_⟩
    simpa [BlockCalls.start, BlockCalls.output] using hover
  · rw [hloop, Outcome.ok_bind]
    by_cases hend : calls.last.ret = .streamEnd
    · refine .inr (.inl ⟨_, if_neg (by simp [hend]), hfed, hfilled.decoded _ _ _, rfl,
        .inl ⟨hend, rfl, hfilled.next, hfilled.cells⟩⟩)
    · obtain ⟨r, hclean, hret, hdata, hcells, hdecoded⟩ := hfilled.cleanUp calls.last.ret
      refine .inr (.inl ⟨r, ?_, hfed, hdecoded, hdata,
        .inr ⟨hend, hret ▸ calls.last_ne, hcells⟩⟩)
      rw [if_pos (.inr ⟨calls.last_ne, hend⟩), hclean]
  · obtain ⟨r, hclean, hret, hdata, hcells, hdecoded⟩ := hfilled.cleanUp .ok
    refine .inr (.inr ⟨pre, t, post, r, ?_, hsplit, hpre, hnot, hdecoded, hdata, hret, hcells⟩)
    rw [hloop, Outcome.ok_bind, if_pos (.inl rfl), hclean]

end

/-- The caller has the whole block in a live buffer of its own, and no other buffer changed. -/
def Delivered (calls : BlockCalls) (buffers : Heap (List UInt8)) (r : BlockRun) : Prop :=
  calls.last.ret = .streamEnd ∧ calls.output.length = r.size ∧
    ∃ p, r.data = some p ∧ buffers.cells p = none ∧ r.buffers.cells p = some calls.output ∧
      ∀ q, q ≠ p → r.buffers.cells q = buffers.cells q

/-- The run returns, with `LZMA_OK` exactly when it delivered the block. Otherwise its buffers are
gone and no others, and `xz_read` leaves the cache as it was. -/
def Handled (calls : BlockCalls) (caller : Caller) (buffers : Heap (List UInt8)) : Prop :=
  ∃ r, readBlock calls caller buffers = .ok r ∧
    (r.ret = .ok ↔ Delivered calls buffers r) ∧
    (r.ret ≠ .ok → r.buffers.cells = buffers.cells ∧
      ∀ (malloc : CacheState → Bool) (s : CacheState) (offset : ℤ) (length fuel : ℕ),
        s.buffers = buffers → getCacheBlock s offset = .ok (s, none) →
          xzReadWith (fun buffers _ => BlockRun.toBlockRead <$> readBlock calls caller buffers)
            malloc (fuel + 1) s offset length =
              .ok ({ s with buffers := r.buffers }, readerError, []))

/-- The results with which a run does what it should. A failure behind the header finds the
caller's pointer `NULL`; or the memory is there, no `pread` is short, and the decoder stays inside
the block and ends it where the index does. -/
def BlockCalls.Manageable (calls : BlockCalls) (caller : Caller) : Prop :=
  ∀ b offset, calls.Headed b offset →
    (¬(calls.compressedSize = .ok ∧ calls.blockDecoder = .ok) → caller.block = none) ∧
    (calls.compressedSize = .ok → calls.blockDecoder = .ok →
      calls.malloc.isSome ∧ Supplied calls.fileSize offset 0 (calls.turns ++ [calls.last]) ∧
        calls.output.length ≤ b.size ∧
        (calls.last.ret = .streamEnd → calls.output.length = b.size))

lemma handled_of_failure {r : BlockRun} (h : readBlock calls caller buffers = .ok r)
    (hret : r.ret ≠ .ok) (hcells : r.buffers.cells = buffers.cells) :
    Handled calls caller buffers := by
  refine ⟨r, h, iff_of_false hret ?_, fun _ => ⟨hcells, ?_⟩⟩
  · rintro ⟨-, -, p, -, hfresh, hlive, -⟩
    rw [hcells, hfresh] at hlive
    cases hlive
  · rintro malloc s offset length fuel rfl hget
    simp [xzReadWith, fetchBlock, hget, h, hret]

lemma not_delivered_of_cells {r : BlockRun} (hcells : r.buffers.cells = buffers.cells) :
    ¬Delivered calls buffers r := by
  rintro ⟨-, -, p, -, hfresh, hlive, -⟩
  rw [hcells, hfresh] at hlive
  cases hlive

lemma not_handled_of_fault {e : Fault} (h : readBlock calls caller buffers = .error e) :
    ¬Handled calls caller buffers := by
  rintro ⟨r, h', -⟩
  rw [h] at h'
  cases h'

lemma not_handled_of_ok {r : BlockRun} (h : readBlock calls caller buffers = .ok r)
    (hret : r.ret = .ok) (hno : ¬Delivered calls buffers r) : ¬Handled calls caller buffers := by
  rintro ⟨r', h', hiff, -⟩
  obtain rfl := Except.ok.inj (h.symm.trans h')
  exact hno (hiff.mp hret)

lemma not_handled_of_cells {r : BlockRun} (h : readBlock calls caller buffers = .ok r)
    (hret : r.ret ≠ .ok) (hcells : r.buffers.cells ≠ buffers.cells) :
    ¬Handled calls caller buffers := by
  rintro ⟨r', h', -, hclean⟩
  obtain rfl := Except.ok.inj (h.symm.trans h')
  exact hcells (hclean hret).1

lemma handled_error1 (h : ¬(calls.compressedSize = .ok ∧ calls.blockDecoder = .ok))
    (hread : readBlock calls caller buffers =
      readBlockData calls caller.block b offset buffers) :
    Handled calls caller buffers ↔ caller.block = none := by
  obtain ⟨ret, hret, hdata⟩ := readBlockData_error1 h caller.block b offset buffers
  rw [hdata] at hread
  cases hblock : caller.block with
  | none =>
    rw [hblock] at hread
    exact iff_of_true (handled_of_failure hread hret rfl) rfl
  | some p =>
    refine iff_of_false ?_ (by simp)
    rw [hblock, cleanUp, freeBuffer] at hread
    cases hp : buffers.cells p with
    | none =>
      rw [Heap.free, Heap.read, hp] at hread
      exact not_handled_of_fault hread
    | some data =>
      rw [Heap.free_of_cell hp] at hread
      refine not_handled_of_cells hread hret fun hcells => ?_
      have hgone := congrFun hcells p
      rw [hp] at hgone
      simp at hgone

lemma handled_data (hsize : calls.compressedSize = .ok) (hdecoder : calls.blockDecoder = .ok)
    (hread : readBlock calls caller buffers =
      readBlockData calls caller.block b offset buffers) :
    Handled calls caller buffers ↔
      calls.malloc.isSome ∧ Supplied calls.fileSize offset 0 (calls.turns ++ [calls.last]) ∧
        calls.output.length ≤ b.size ∧
        (calls.last.ret = .streamEnd → calls.output.length = b.size) := by
  cases hmalloc : calls.malloc with
  | none =>
    rw [readBlockData_malloc hsize hdecoder hmalloc] at hread
    exact iff_of_false (not_handled_of_ok hread rfl (not_delivered_of_cells rfl)) (by simp)
  | some memory =>
    rcases readBlockData_run hsize hdecoder hmalloc caller.block b offset buffers with
      ⟨hrun, hover⟩ | ⟨r, hrun, hfed, hdecoded, hdata, hend⟩ |
        ⟨pre, t, post, r, hrun, hsplit, -, hnot, -, -, hret, hcells⟩
    · rw [hrun] at hread
      refine iff_of_false (not_handled_of_fault hread) ?_
      rintro ⟨-, -, hle, -⟩
      omega
    · rw [hrun] at hread
      have hfits : calls.output.length ≤ b.size := hdecoded.fits
      rcases hend with ⟨hstream, hret, -, hcells⟩ | ⟨hstream, hret, hcells⟩
      · by_cases hlen : calls.output.length = b.size
        · have hmem : calls.output.length = (readAt memory 0 b.size).length := by simp [hlen]
          rw [Circular.write_zero_of_length hmem] at hcells
          refine iff_of_true ⟨r, hread, iff_of_true hret ?_, fun h => absurd hret h⟩
            ⟨rfl, hfed, hfits, fun _ => hlen⟩
          refine ⟨hstream, hlen.trans hdecoded.size.symm, buffers.next, hdata,
            buffers.fresh _ le_rfl, ?_, fun q hq => ?_⟩
          · rw [hcells, Function.update_self]
          · rw [hcells, Function.update_of_ne hq]
        · refine iff_of_false (not_handled_of_ok hread hret ?_) fun h => hlen (h.2.2.2 hstream)
          rintro ⟨-, hsize', -⟩
          exact hlen (hsize'.trans hdecoded.size)
      · exact iff_of_true (handled_of_failure hread hret hcells)
          ⟨rfl, hfed, hfits, fun h => absurd h hstream⟩
    · rw [hrun] at hread
      refine iff_of_false (not_handled_of_ok hread hret (not_delivered_of_cells hcells)) ?_
      rintro ⟨-, hfed, -⟩
      rw [hsplit, List.append_cons] at hfed
      exact hnot hfed.of_append

theorem readBlock_handled (calls : BlockCalls) (caller : Caller) (buffers : Heap (List UInt8)) :
    Handled calls caller buffers ↔ calls.Manageable caller := by
  rcases readBlock_cases calls caller buffers with
    ⟨b, offset, hhead, hread⟩ | ⟨hnone, c, ret, hret, hread⟩
  · have hmanageable : calls.Manageable caller ↔
        (¬(calls.compressedSize = .ok ∧ calls.blockDecoder = .ok) → caller.block = none) ∧
        (calls.compressedSize = .ok → calls.blockDecoder = .ok →
          calls.malloc.isSome ∧ Supplied calls.fileSize offset 0 (calls.turns ++ [calls.last]) ∧
            calls.output.length ≤ b.size ∧
            (calls.last.ret = .streamEnd → calls.output.length = b.size)) := by
      refine ⟨fun h => h b offset hhead, fun h b' offset' hhead' => ?_⟩
      obtain ⟨rfl, rfl⟩ := hhead.unique hhead'
      exact h
    rw [hmanageable]
    by_cases hstarts : calls.compressedSize = .ok ∧ calls.blockDecoder = .ok
    · simpa [hstarts] using handled_data hstarts.1 hstarts.2 hread
    · rw [handled_error1 hstarts hread]
      refine ⟨fun h => ⟨fun _ => h, fun hs hd => absurd ⟨hs, hd⟩ hstarts⟩, fun h => h.1 hstarts⟩
  · refine iff_of_true (handled_of_failure hread hret rfl) fun b offset hhead => ?_
    exact absurd hhead (hnone b offset)

/-- The block at this place decodes to what these calls produce. -/
def Reads (r : XzReader) (o : ℤ) (calls : BlockCalls) : Prop :=
  r.locate o = calls.located.map BlockRecord.toXzBlock ∧
    ∀ b, calls.located = some b → ∀ bytes, r.decodeBlock b.toXzBlock = some bytes ↔
      (∃ offset, calls.Headed b offset) ∧ calls.compressedSize = .ok ∧
        calls.blockDecoder = .ok ∧ calls.last.ret = .streamEnd ∧ bytes = calls.output

lemma Reads.refused {reader : XzReader} {o : ℤ} (h : Reads reader o calls)
    (hno : ∀ b, calls.located = some b → reader.decodeBlock b.toXzBlock = none)
    (buffers : Heap (List UInt8)) : ∃ r',
    reader.readBlock buffers o = .ok r' ∧ r'.ret ≠ .ok ∧ r'.buffers = buffers := by
  unfold XzReader.readBlock
  rw [h.1]
  cases hb : calls.located with
  | none => exact ⟨⟨.progError, buffers, none, 0, 0⟩, rfl, by simp, rfl⟩
  | some b =>
    refine ⟨⟨.dataError, buffers, none, b.start, b.size⟩, ?_, by simp, rfl⟩
    simp only [Option.map_some, hno b hb]

/-- When the calls can be managed, `read_block` is the one that decodes blocks in whole or refuses
them. -/
theorem readBlock_refines {reader : XzReader} {o : ℤ} (h : calls.Manageable caller)
    (hreads : Reads reader o calls) (buffers : Heap (List UInt8)) : ∃ r r',
    readBlock calls caller buffers = .ok r ∧ reader.readBlock buffers o = .ok r' ∧
      r.buffers.cells = r'.buffers.cells ∧ (r.ret = .ok ↔ r'.ret = .ok) ∧
      (r.ret = .ok → r.toBlockRead = r') := by
  have hrefuse : ∀ r, readBlock calls caller buffers = .ok r → r.ret ≠ .ok →
      r.buffers.cells = buffers.cells →
      (∀ b, calls.located = some b → reader.decodeBlock b.toXzBlock = none) → ∃ r r',
      readBlock calls caller buffers = .ok r ∧ reader.readBlock buffers o = .ok r' ∧
        r.buffers.cells = r'.buffers.cells ∧ (r.ret = .ok ↔ r'.ret = .ok) ∧
        (r.ret = .ok → r.toBlockRead = r') := by
    intro r hread hret hcells hno
    obtain ⟨r', hread', hret', hbuffers⟩ := hreads.refused hno buffers
    exact ⟨r, r', hread, hread', by rw [hcells, hbuffers], iff_of_false hret hret',
      fun hok => absurd hok hret⟩
  rcases readBlock_cases calls caller buffers with
    ⟨b, offset, hhead, hread⟩ | ⟨hnone, c, ret, hret, hread⟩
  · have hdecode := hreads.2 b hhead.1
    have hother : ∀ b', calls.located = some b' → b' = b := fun b' hb' =>
      Option.some.inj (hb'.symm.trans hhead.1)
    obtain ⟨herror, hdata⟩ := h b offset hhead
    by_cases hstarts : calls.compressedSize = .ok ∧ calls.blockDecoder = .ok
    · obtain ⟨hmalloc, hfed, hle, hlen⟩ := hdata hstarts.1 hstarts.2
      obtain ⟨memory, hmalloc⟩ := Option.isSome_iff_exists.mp hmalloc
      rcases readBlockData_run hstarts.1 hstarts.2 hmalloc caller.block b offset buffers with
        ⟨-, hover⟩ | ⟨r, hrun, -, hr, hp, hend⟩ | ⟨pre, t, post, r, -, hsplit, -, hnot, -⟩
      · omega
      · rcases hend with ⟨hstream, hret, hnext, hcells⟩ | ⟨hstream, hret, hcells⟩
        · have hmem : calls.output.length = (readAt memory 0 b.size).length := by
            rw [hlen hstream, length_readAt]
          rw [Circular.write_zero_of_length hmem] at hcells
          have hbytes : reader.decodeBlock b.toXzBlock = some calls.output :=
            (hdecode _).mpr ⟨⟨offset, hhead⟩, hstarts.1, hstarts.2, hstream, rfl⟩
          have hideal : reader.readBlock buffers o = .ok
              ⟨.ok, (buffers.alloc calls.output).2, some buffers.next, b.start, b.size⟩ := by
            simp [XzReader.readBlock, hreads.1, hhead.1, hbytes]
          have hbuffers : r.buffers = (buffers.alloc calls.output).2 := Heap.ext hcells hnext
          refine ⟨r, _, hread.trans hrun, hideal, by rw [hbuffers], iff_of_true hret rfl,
            fun _ => ?_⟩
          rw [← hret, ← hbuffers, ← hp, ← hr.start, ← hr.size]
        · refine hrefuse r (hread.trans hrun) hret hcells fun b' hb' => ?_
          rw [hother b' hb', Option.eq_none_iff_forall_ne_some]
          exact fun bytes hbytes => hstream ((hdecode bytes).mp hbytes).2.2.2.1
      · rw [hsplit, List.append_cons] at hfed
        exact absurd hfed.of_append hnot
    · obtain ⟨ret, hret, hclean⟩ := readBlockData_error1 hstarts caller.block b offset buffers
      rw [hclean, herror hstarts] at hread
      refine hrefuse _ hread hret rfl fun b' hb' => ?_
      rw [hother b' hb', Option.eq_none_iff_forall_ne_some]
      intro bytes hbytes
      obtain ⟨-, hsize, hdecoder, -⟩ := (hdecode bytes).mp hbytes
      exact hstarts ⟨hsize, hdecoder⟩
  · refine hrefuse _ hread hret rfl fun b hb => ?_
    rw [Option.eq_none_iff_forall_ne_some]
    intro bytes hbytes
    obtain ⟨⟨offset, hhead⟩, -⟩ := (hreads.2 b hb bytes).mp hbytes
    exact hnone b offset hhead

def emptyPread : BlockCalls where
  located := some ⟨⟨0, 2⟩, 12, by decide, by decide⟩
  fileSize := 60
  firstByte := some 2
  headerRest := 11
  headerDecode := (.ok, 2)
  compressedSize := .ok
  blockDecoder := .ok
  malloc := some fun _ => 0
  turns := []
  last := ⟨0, .streamEnd, 0, [10, 20]⟩
  turns_ok := by simp
  last_ne := by decide
  inside := by
    rintro b n hb hn -
    obtain rfl := Option.some.inj hb
    obtain rfl := Option.some.inj hn
    decide

/-- `LZMA_OK` comes with a pointer to freed memory. -/
theorem readBlock_handled_counterexample : ∃ r,
    readBlock emptyPread ⟨none, 0, 0⟩ Heap.empty = .ok r ∧ r.ret = .ok ∧ r.data = some 0 ∧
      r.buffers.cells 0 = none ∧ ¬Handled emptyPread ⟨none, 0, 0⟩ Heap.empty := by
  obtain ⟨r, hread, hret, hdata, hgone⟩ : ∃ r,
      readBlock emptyPread ⟨none, 0, 0⟩ Heap.empty = .ok r ∧ r.ret = .ok ∧ r.data = some 0 ∧
        r.buffers.cells 0 = none := ⟨_, rfl, rfl, rfl, rfl⟩
  refine ⟨r, hread, hret, hdata, hgone, not_handled_of_ok hread hret ?_⟩
  rintro ⟨-, -, p, hp, -, hlive, -⟩
  obtain rfl := Option.some.inj (hdata.symm.trans hp)
  rw [hgone] at hlive
  cases hlive

/-- The decoder stays inside the space it is given, and what it has produced at the end of a block
is what the header says, if it says so. -/
structure BlockCalls.Lawful (calls : BlockCalls) : Prop where
  fits : calls.output.length ≤ calls.headerDecode.2
  checked : calls.last.ret = .streamEnd → calls.headerDecode.2 ≠ lzmaVliUnknown →
    calls.output.length = calls.headerDecode.2

/-- No call of the decoder has space beyond the buffer, or writes there, and a success means that
the buffer was filled. -/
def Sized (calls : BlockCalls) (caller : Caller) (buffers : Heap (List UInt8)) : Prop :=
  readBlock calls caller buffers ≠ .error .bounds ∧
    ∀ r, readBlock calls caller buffers = .ok r →
      (∀ e ∈ r.given, e ≤ r.size) ∧ (r.ret = .ok → r.produced = r.size)

/-- The sizes with which that holds, if a decoder is started: the one of the header is there and is
not above the one of the index. They are equal if the decoder comes to the end of the block, and
before a short `pread` it had produced so much. -/
def BlockCalls.SizesAgree (calls : BlockCalls) : Prop :=
  ∀ b offset, calls.Headed b offset → calls.compressedSize = .ok → calls.blockDecoder = .ok →
    calls.malloc.isSome ∧ calls.headerDecode.2 ≤ b.size ∧
      (Supplied calls.fileSize offset 0 (calls.turns ++ [calls.last]) →
        calls.last.ret = .streamEnd → calls.headerDecode.2 = b.size) ∧
      ∀ pre t post, calls.turns ++ [calls.last] = pre ++ t :: post →
        Supplied calls.fileSize offset 0 pre → ¬Supplied calls.fileSize offset 0 (pre ++ [t]) →
          (outputs pre).length = b.size

lemma short_unique {pre pre' post post' : List DataTurn} {t t' : DataTurn} {availIn : ℕ}
    (hsplit : pre ++ t :: post = pre' ++ t' :: post')
    (hpre : Supplied fileSize offset availIn pre)
    (hnot : ¬Supplied fileSize offset availIn (pre ++ [t]))
    (hpre' : Supplied fileSize offset availIn pre')
    (hnot' : ¬Supplied fileSize offset availIn (pre' ++ [t'])) : pre = pre' := by
  induction pre generalizing pre' offset availIn with
  | nil =>
    cases pre' with
    | nil => rfl
    | cons u pre' =>
      obtain ⟨rfl, -⟩ := List.cons.inj hsplit
      exact absurd ⟨hpre'.1, trivial⟩ hnot
  | cons u pre ih =>
    cases pre' with
    | nil =>
      obtain ⟨rfl, -⟩ := List.cons.inj hsplit
      exact absurd ⟨hpre.1, trivial⟩ hnot'
    | cons u' pre' =>
      obtain ⟨rfl, hrest⟩ := List.cons.inj hsplit
      rw [ih hrest hpre.2 (fun h => hnot ⟨hpre.1, h⟩) hpre'.2 fun h => hnot' ⟨hpre.1, h⟩]

lemma sized_iff {r : BlockRun} (h : readBlock calls caller buffers = .ok r) :
    Sized calls caller buffers ↔
      (∀ e ∈ r.given, e ≤ r.size) ∧ (r.ret = .ok → r.produced = r.size) := by
  refine ⟨fun hs => hs.2 r h, fun hs => ⟨by simp [h], fun r' h' => ?_⟩⟩
  obtain rfl := Except.ok.inj (h.symm.trans h')
  exact hs

lemma freeBuffer_error {block : Option ℕ} {e : Fault} (h : freeBuffer buffers block = .error e) :
    e = .null := by
  cases block with
  | none => cases h
  | some p =>
    cases hp : buffers.cells p with
    | none =>
      rw [freeBuffer, Heap.free, Heap.read, hp] at h
      exact (Except.error.inj h).symm
    | some data =>
      rw [freeBuffer, Heap.free_of_cell hp] at h
      cases h

lemma sized_error1 (h : ¬(calls.compressedSize = .ok ∧ calls.blockDecoder = .ok))
    (hread : readBlock calls caller buffers =
      readBlockData calls caller.block b offset buffers) : Sized calls caller buffers := by
  obtain ⟨ret, hret, hdata⟩ := readBlockData_error1 h caller.block b offset buffers
  rw [hdata, cleanUp] at hread
  cases hfree : freeBuffer buffers caller.block with
  | ok freed =>
    rw [hfree, Outcome.ok_bind] at hread
    exact (sized_iff hread).mpr ⟨by simp [BlockCalls.start], fun hok => absurd hok hret⟩
  | error e =>
    rw [hfree, Outcome.error_bind] at hread
    rw [freeBuffer_error hfree] at hread
    exact ⟨by simp [hread], by simp [hread]⟩

lemma sized_data (h : calls.Lawful) (hsize : calls.compressedSize = .ok)
    (hdecoder : calls.blockDecoder = .ok)
    (hread : readBlock calls caller buffers =
      readBlockData calls caller.block b offset buffers) :
    Sized calls caller buffers ↔ calls.malloc.isSome ∧ calls.headerDecode.2 ≤ b.size ∧
      (Supplied calls.fileSize offset 0 (calls.turns ++ [calls.last]) →
        calls.last.ret = .streamEnd → calls.headerDecode.2 = b.size) ∧
      ∀ pre t post, calls.turns ++ [calls.last] = pre ++ t :: post →
        Supplied calls.fileSize offset 0 pre → ¬Supplied calls.fileSize offset 0 (pre ++ [t]) →
          (outputs pre).length = b.size := by
  have hpos := b.size_pos
  have hfits := h.fits
  cases hmalloc : calls.malloc with
  | none =>
    rw [readBlockData_malloc hsize hdecoder hmalloc] at hread
    refine iff_of_false (fun hs => ?_) (by simp)
    have hzero : 0 = b.size := ((sized_iff hread).mp hs).2 rfl
    omega
  | some memory =>
    rcases readBlockData_run hsize hdecoder hmalloc caller.block b offset buffers with
      ⟨hrun, hover⟩ | ⟨r, hrun, hfed, hdecoded, -, hend⟩ |
        ⟨pre, t, post, r, hrun, hsplit, hpre, hnot, hdecoded, -, hret, -⟩
    · refine iff_of_false (fun hs => hs.1 (hread.trans hrun)) ?_
      rintro ⟨-, hle, -⟩
      omega
    · have hgiven : (∀ e ∈ r.given, e ≤ r.size) ↔ calls.headerDecode.2 ≤ b.size := by
        rw [hdecoded.given hfits, hdecoded.size]
        simp
      have hproduced : r.produced = calls.output.length := hdecoded.produced
      have hcode : r.ret = .ok ↔ calls.last.ret = .streamEnd := by
        rcases hend with ⟨hstream, hret, -⟩ | ⟨hstream, hret, -⟩
        · exact iff_of_true hret hstream
        · exact iff_of_false hret hstream
      have hchecked : calls.headerDecode.2 ≤ b.size → calls.last.ret = .streamEnd →
          calls.output.length = calls.headerDecode.2 := by
        intro hle hstream
        refine h.checked hstream fun hunknown => ?_
        have := b.size_le
        rw [hunknown] at hle
        unfold lzmaVliUnknown at hle
        unfold lzmaVliMax at this
        omega
      rw [sized_iff (hread.trans hrun), hgiven, hproduced, hdecoded.size, hcode]
      constructor
      · rintro ⟨hle, hall⟩
        refine ⟨rfl, hle, fun _ hstream => ?_, fun pre t post hsplit _ hnot => ?_⟩
        · rw [← hchecked hle hstream, hall hstream]
        · rw [hsplit, List.append_cons] at hfed
          exact absurd hfed.of_append hnot
      · rintro ⟨-, hle, hsame, -⟩
        exact ⟨hle, fun hstream => (hchecked hle hstream).trans (hsame hfed hstream)⟩
    · have hpart : (outputs pre).length ≤ calls.headerDecode.2 := by
        have hall : calls.output = outputs pre ++ outputs (t :: post) := by
          rw [BlockCalls.output, hsplit, outputs, List.flatMap_append]
          rfl
        rw [hall, List.length_append] at hfits
        omega
      rw [sized_iff (hread.trans hrun), hdecoded.given hpart, hdecoded.produced, hdecoded.size]
      constructor
      · rintro ⟨hgiven, hall⟩
        have hlen := hall hret
        refine ⟨rfl, hgiven _ ?_, fun hfed => ?_, fun pre' t' post' hsplit' hpre' hnot' => ?_⟩
        · -- a decoder that was never called would have produced nothing
          refine List.mem_replicate.mpr ⟨fun hnil => ?_, rfl⟩
          rw [List.eq_nil_of_length_eq_zero hnil] at hlen
          simp [outputs] at hlen
          omega
        · rw [hsplit, List.append_cons] at hfed
          exact absurd hfed.of_append hnot
        · rw [← short_unique (hsplit.symm.trans hsplit') hpre hnot hpre' hnot']
          exact hlen
      · rintro ⟨-, hle, -, hshort⟩
        refine ⟨fun e he => ?_, fun _ => hshort pre t post hsplit hpre hnot⟩
        rw [(List.mem_replicate.mp he).2]
        exact hle

/-- `read_block` keeps to the size of the buffer and fills it exactly when the sizes agree. -/
theorem readBlock_sized (h : calls.Lawful) (caller : Caller) (buffers : Heap (List UInt8)) :
    Sized calls caller buffers ↔ calls.SizesAgree := by
  rcases readBlock_cases calls caller buffers with
    ⟨b, offset, hhead, hread⟩ | ⟨hnone, c, ret, hret, hread⟩
  · by_cases hstarts : calls.compressedSize = .ok ∧ calls.blockDecoder = .ok
    · rw [sized_data h hstarts.1 hstarts.2 hread]
      refine ⟨fun hs b' offset' hhead' _ _ => ?_, fun hs => hs b offset hhead hstarts.1 hstarts.2⟩
      obtain ⟨rfl, rfl⟩ := hhead.unique hhead'
      exact hs
    · exact iff_of_true (sized_error1 hstarts hread)
        fun b' offset' _ hs hd => absurd ⟨hs, hd⟩ hstarts
  · refine iff_of_true ((sized_iff hread).mpr ⟨by simp, fun hok => absurd hok hret⟩) ?_
    exact fun b offset hhead => absurd hhead (hnone b offset)

/-- A block of two bytes whose header has no Uncompressed Size. -/
def unsizedHeader : BlockCalls :=
  { emptyPread with
    headerDecode := (.ok, lzmaVliUnknown)
    last := ⟨36, .streamEnd, 36, [10, 20]⟩
    last_ne := by decide }

lemma unsizedHeader_lawful : unsizedHeader.Lawful where
  fits := by decide
  checked _ hknown := absurd rfl hknown

theorem readBlock_sized_unsizedHeader :
    Sized unsizedHeader ⟨none, 0, 0⟩ Heap.empty ↔ unsizedHeader.SizesAgree :=
  readBlock_sized unsizedHeader_lawful ⟨none, 0, 0⟩ Heap.empty

/-- The decoder of a sound block is given all of the address space. -/
theorem readBlock_sized_counterexample : unsizedHeader.Lawful ∧ ∃ r,
    readBlock unsizedHeader ⟨none, 0, 0⟩ Heap.empty = .ok r ∧ r.ret = .ok ∧ r.size = 2 ∧
      r.given = [2 ^ 64 - 1] ∧ ¬Sized unsizedHeader ⟨none, 0, 0⟩ Heap.empty := by
  obtain ⟨r, hread, hret, hsize, hgiven⟩ : ∃ r,
      readBlock unsizedHeader ⟨none, 0, 0⟩ Heap.empty = .ok r ∧ r.ret = .ok ∧ r.size = 2 ∧
        r.given = [2 ^ 64 - 1] := ⟨_, rfl, rfl, rfl, rfl⟩
  refine ⟨unsizedHeader_lawful, r, hread, hret, hsize, hgiven, fun hs => ?_⟩
  have hle := ((sized_iff hread).mp hs).1 (2 ^ 64 - 1) (by simp [hgiven])
  rw [hsize] at hle
  omega

end Spotlight.Xz
