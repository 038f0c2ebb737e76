import Spotlight.Zlib

/-! Gzip files of stored blocks, and a decompressor for them that reads byte by byte. It shows
that what is relied on of the library can be had, and runs on concrete files. -/
namespace Spotlight.Stored
open Bytes Zlib

/-- Where the decompressor stands. A header holds the bytes read of it, a block header too;
`stored` counts the bytes left of a block. -/
inductive Phase
  | header (seen : List UInt8)
  | name
  | blockHead (seen : List UInt8)
  | stored (left : ℕ) (last : Bool)
  | trailer (left : ℕ)
  | done
  | failed

/-- A raw stream has no header and no trailer. -/
structure Stream where
  raw : Bool
  phase : Phase

/-- What one byte does: the phase behind it, the byte put out, and whether a block boundary
was reached, with whether it ends the last block. -/
structure ByteStep where
  phase : Phase
  output : List UInt8
  boundary : Option Bool

def endOfBlock (raw last : Bool) : Phase :=
  if last then if raw then .done else .trailer 8 else .blockHead []

def openBlock (raw : Bool) (head : List UInt8) : ByteStep :=
  let last := head.getD 0 0 == 1
  if u16At head 1 + u16At head 3 = 65535 then
    if u16At head 1 = 0 then ⟨endOfBlock raw last, [], some last⟩
    else ⟨.stored (u16At head 1) last, [], none⟩
  else ⟨.failed, [], none⟩

def readByte (raw : Bool) : Phase → UInt8 → ByteStep
  | .header seen, b =>
    let seen := seen ++ [b]
    if seen.length = 2 ∧ seen ≠ [0x1f, 0x8b] then ⟨.failed, [], none⟩
    else if seen.length < 10 then ⟨.header seen, [], none⟩
    else if seen.getD 2 0 = 8 ∧ seen.getD 3 0 = 8 then ⟨.name, [], none⟩
    else ⟨.failed, [], none⟩
  | .name, b => if b = 0 then ⟨.blockHead [], [], some false⟩ else ⟨.name, [], none⟩
  | .blockHead seen, b =>
    let seen := seen ++ [b]
    if seen.length < 5 then
      if seen.getD 0 0 = 0 ∨ seen.getD 0 0 = 1 then ⟨.blockHead seen, [], none⟩
      else ⟨.failed, [], none⟩
    else openBlock raw seen
  | .stored left last, b =>
    if left ≤ 1 then ⟨endOfBlock raw last, [b], some last⟩
    else ⟨.stored (left - 1) last, [b], none⟩
  | .trailer left, _ => if left ≤ 1 then ⟨.done, [], none⟩ else ⟨.trailer (left - 1), [], none⟩
  | .done, _ => ⟨.done, [], none⟩
  | .failed, _ => ⟨.failed, [], none⟩

def stop (s : Stream) : Inflated Stream :=
  match s.phase with
  | .done => ⟨s, .streamEnd, 0, [], 0⟩
  | .failed => ⟨s, .dataError, 0, [], 0⟩
  | _ => ⟨s, .ok, 0, [], 0⟩

def Phase.Reads : Phase → ℕ → Bool
  | .done, _ => false
  | .failed, _ => false
  | .stored _ _, room => decide (0 < room)
  | _, _ => true

def inflate (flush : Flush) : Stream → List UInt8 → ℕ → Inflated Stream
  | s, [], _ => stop s
  | s, b :: input, room =>
    if s.phase.Reads room then
      let step := readByte s.raw s.phase b
      let s := { s with phase := step.phase }
      match flush, step.boundary with
      | .block, some last => ⟨s, .ok, 1, step.output, 128 + if last then 64 else 0⟩
      | _, _ =>
        let r := inflate flush s input (room - step.output.length)
        { r with consumed := r.consumed + 1, output := step.output ++ r.output }
    else stop s

/-- The decompressor as a library. Stored blocks start at whole bytes and refer to no window. -/
def library : Library where
  State := Stream
  inflateInit2 windowBits :=
    if windowBits < 0 then ⟨true, .blockHead []⟩ else ⟨false, .header []⟩
  inflatePrime s _ _ := s
  inflateSetDictionary s _ := s
  inflate s flush input room := inflate flush s input room

def le16 (n : ℕ) : List UInt8 := [UInt8.ofNat (n % 256), UInt8.ofNat (n / 256 % 256)]

def encodeBlockHead (last : Bool) (length : ℕ) : List UInt8 :=
  (if last then 1 else 0) :: (le16 length ++ le16 (65535 - length))

def encodeBlocks : List (List UInt8) → List UInt8
  | [] => []
  | block :: blocks =>
    encodeBlockHead blocks.isEmpty block.length ++ (block ++ encodeBlocks blocks)

def crcBit (crc : ℕ) : ℕ := if crc % 2 = 1 then crc / 2 ^^^ 0xEDB88320 else crc / 2

def crcByte (crc : ℕ) (b : UInt8) : ℕ := crcBit^[8] (crc ^^^ b.toNat)

def crc32 (bytes : List UInt8) : ℕ := bytes.foldl crcByte 0xFFFFFFFF ^^^ 0xFFFFFFFF

def encodeTrailer (content : List UInt8) : List UInt8 :=
  le16 (crc32 content % 65536) ++ le16 (crc32 content / 65536) ++
    (le16 (content.length % 65536) ++ le16 (content.length / 65536 % 65536))

def fixedHeader : List UInt8 := [0x1f, 0x8b, 8, 8, 0, 0, 0, 0, 0, 255]

/-- A gzip file with a file name, of stored blocks. -/
def encodeFile (name : List UInt8) (blocks : List (List UInt8)) : List UInt8 :=
  fixedHeader ++ (name ++ 0 :: (encodeBlocks blocks ++ encodeTrailer blocks.flatten))

/-- The boundary at a position and those behind the blocks that follow. -/
def boundsFrom : ℕ → ℕ → List (List UInt8) → List Boundary
  | comp, raw, [] => [⟨comp, 0, raw⟩]
  | comp, raw, block :: blocks =>
    ⟨comp, 0, raw⟩ :: boundsFrom (comp + 5 + block.length) (raw + block.length) blocks

example : crc32 "123456789".toUTF8.toList = 0xCBF43926 := by decide +kernel

/-- Blocks that the header of a stored block can describe, none of them empty. -/
def Sized (blocks : List (List UInt8)) : Prop :=
  ∀ block ∈ blocks, 0 < block.length ∧ block.length < 65536

/-- A gzip file of stored blocks. -/
structure File where
  name : List UInt8
  blocks : List (List UInt8)
  name_nonzero : 0 ∉ name
  blocks_nonempty : blocks ≠ []
  sized : Sized blocks

theorem length_encodeBlockHead (last : Bool) (n : ℕ) : (encodeBlockHead last n).length = 5 := rfl

theorem length_encodeTrailer (content : List UInt8) : (encodeTrailer content).length = 8 := rfl

theorem u16At_le16 {n : ℕ} (hn : n < 65536) (pre suf : List UInt8) :
    u16At (pre ++ (le16 n ++ suf)) pre.length = n := by
  have hlow : n % 256 < 256 := Nat.mod_lt _ (by norm_num)
  have hhigh : n / 256 % 256 < 256 := Nat.mod_lt _ (by norm_num)
  simp only [u16At, le16, List.getD_eq_getElem?_getD, List.getElem?_append_right (Nat.le_refl _),
    List.getElem?_append_right (Nat.le_add_right pre.length 1), Nat.sub_self,
    Nat.add_sub_cancel_left, List.cons_append, List.nil_append, List.getElem?_cons_zero,
    List.getElem?_cons_succ, Option.getD_some, UInt8.toNat_ofNat']
  omega

theorem openBlock_encode {n : ℕ} (hpos : 0 < n) (hn : n < 65536) (raw last : Bool) :
    openBlock raw (encodeBlockHead last n) = ⟨.stored n last, [], none⟩ := by
  obtain ⟨flag, hflag⟩ : ∃ flag : UInt8, flag = if last then 1 else 0 := ⟨_, rfl⟩
  have hone : u16At (encodeBlockHead last n) 1 = n := by
    rw [encodeBlockHead, ← hflag]
    exact u16At_le16 hn [flag] (le16 (65535 - n))
  have hthree : u16At (encodeBlockHead last n) 3 = 65535 - n := by
    have h := u16At_le16 (n := 65535 - n) (by omega) (flag :: le16 n) []
    rw [List.append_nil] at h
    rw [encodeBlockHead, ← hflag]
    exact h
  have hlast : ((encodeBlockHead last n).getD 0 0 == 1) = last := by
    cases last <;> rfl
  rw [openBlock, hone, hthree, if_pos (by omega), if_neg hpos.ne', hlast]

theorem boundsFrom_length (comp raw : ℕ) (blocks : List (List UInt8)) :
    (boundsFrom comp raw blocks).length = blocks.length + 1 := by
  induction blocks generalizing comp raw with
  | nil => rfl
  | cons block blocks ih => rw [boundsFrom, List.length_cons, ih, List.length_cons]

theorem boundsFrom_ge {comp raw : ℕ} {blocks : List (List UInt8)} :
    ∀ b ∈ boundsFrom comp raw blocks, comp ≤ b.comp ∧ raw ≤ b.raw ∧ b.bits = 0 := by
  induction blocks generalizing comp raw with
  | nil =>
    intro b hb
    obtain rfl := List.mem_singleton.mp hb
    exact ⟨le_refl _, le_refl _, rfl⟩
  | cons block blocks ih =>
    intro b hb
    rcases List.mem_cons.mp hb with rfl | hb
    · exact ⟨le_refl _, le_refl _, rfl⟩
    · obtain ⟨hcomp, hraw, hbits⟩ := ih b hb
      exact ⟨by omega, by omega, hbits⟩

theorem boundsFrom_sorted (comp raw : ℕ) (blocks : List (List UInt8)) :
    (boundsFrom comp raw blocks).Pairwise fun a b => a.raw ≤ b.raw ∧ a.comp ≤ b.comp := by
  induction blocks generalizing comp raw with
  | nil => exact List.pairwise_singleton _ _
  | cons block blocks ih =>
    refine List.pairwise_cons.mpr ⟨fun b hb => ?_, ih _ _⟩
    obtain ⟨hcomp, hraw, -⟩ := boundsFrom_ge b hb
    exact ⟨by dsimp only; omega, by dsimp only; omega⟩

theorem boundsFrom_getLast (comp raw : ℕ) (blocks : List (List UInt8)) :
    (boundsFrom comp raw blocks).getLast? =
      some ⟨comp + (encodeBlocks blocks).length, 0, raw + blocks.flatten.length⟩ := by
  induction blocks generalizing comp raw with
  | nil => rfl
  | cons block blocks ih =>
    have hcomp : comp + 5 + block.length + (encodeBlocks blocks).length =
        comp + (encodeBlocks (block :: blocks)).length := by
      rw [encodeBlocks, List.length_append, List.length_append, length_encodeBlockHead]
      omega
    rw [boundsFrom, List.getLast?_cons, ih, hcomp, List.flatten_cons, List.length_append,
      ← Nat.add_assoc]
    rfl

theorem length_encodeFile (name : List UInt8) (blocks : List (List UInt8)) :
    (encodeFile name blocks).length = 11 + name.length + (encodeBlocks blocks).length + 8 := by
  simp only [encodeFile, List.length_append, List.length_cons, length_encodeTrailer,
    show fixedHeader.length = 10 from rfl]
  omega

def File.member (f : File) : Member where
  file := encodeFile f.name f.blocks
  content := f.blocks.flatten
  bounds := boundsFrom (11 + f.name.length) 0 f.blocks
  two_le := by
    rw [boundsFrom_length]
    have := List.length_pos_iff.mpr f.blocks_nonempty
    omega
  first_raw := by
    intro b hb
    cases hblocks : f.blocks <;> rw [hblocks] at hb <;> cases hb <;> rfl
  last_raw := by
    intro b hb
    have hlast := boundsFrom_getLast (11 + f.name.length) 0 f.blocks
    rw [List.getLast?_eq_getElem?, hb] at hlast
    cases hlast
    rw [length_encodeFile]
    exact ⟨Nat.zero_add _, by dsimp only; omega⟩
  sorted := boundsFrom_sorted _ _ _
  bits_lt b hb := by
    rw [(boundsFrom_ge b hb).2.2]
    norm_num
  comp_pos b hb := by
    have := (boundsFrom_ge b hb).1
    omega

/-- What is ahead of a stream that stands at a position: bytes of the file, content and
boundaries. -/
inductive Ahead (raw : Bool) :
    Phase → ℕ → ℕ → List UInt8 → List UInt8 → List Boundary → Prop
  | header {k : ℕ} (comp pos : ℕ) (hk : k < 10) {name : List UInt8} (hname : 0 ∉ name)
      {blocks : List (List UInt8)} (hne : blocks ≠ []) (hsized : Sized blocks)
      {trailer : List UInt8} (htrailer : trailer.length = 8) :
      Ahead raw (.header (fixedHeader.take k)) comp pos
        (fixedHeader.drop k ++ (name ++ 0 :: (encodeBlocks blocks ++ trailer)))
        blocks.flatten (boundsFrom (comp + (10 - k) + name.length + 1) pos blocks)
  | name (comp pos : ℕ) {name : List UInt8} (hname : 0 ∉ name) {blocks : List (List UInt8)}
      (hne : blocks ≠ []) (hsized : Sized blocks) {trailer : List UInt8}
      (htrailer : trailer.length = 8) :
      Ahead raw .name comp pos (name ++ 0 :: (encodeBlocks blocks ++ trailer))
        blocks.flatten (boundsFrom (comp + name.length + 1) pos blocks)
  | blockHead {k : ℕ} (comp pos : ℕ) (hk : k < 5) {block : List UInt8}
      {blocks : List (List UInt8)} (hsized : Sized (block :: blocks)) {trailer : List UInt8}
      (htrailer : trailer.length = 8) :
      Ahead raw (.blockHead ((encodeBlockHead blocks.isEmpty block.length).take k)) comp pos
        ((encodeBlockHead blocks.isEmpty block.length).drop k ++
          (block ++ (encodeBlocks blocks ++ trailer)))
        (block ++ blocks.flatten)
        (boundsFrom (comp + (5 - k) + block.length) (pos + block.length) blocks)
  | stored (comp pos : ℕ) {rest : List UInt8} (hrest : rest ≠ []) {blocks : List (List UInt8)}
      (hsized : Sized blocks) {trailer : List UInt8} (htrailer : trailer.length = 8) :
      Ahead raw (.stored rest.length blocks.isEmpty) comp pos
        (rest ++ (encodeBlocks blocks ++ trailer)) (rest ++ blocks.flatten)
        (boundsFrom (comp + rest.length) (pos + rest.length) blocks)
  | trailer (comp pos : ℕ) {rest : List UInt8} (hrest : rest ≠ []) (hraw : raw = false) :
      Ahead raw (.trailer rest.length) comp pos rest [] []
  | done (comp pos : ℕ) (rest : List UInt8) : Ahead raw .done comp pos rest [] []

section
variable {raw : Bool} {phase : Phase} {comp pos : ℕ} {bytes content : List UInt8}
  {bounds : List Boundary} {blocks : List (List UInt8)} {trailer : List UInt8}

theorem ahead_endOfBlock (raw : Bool) (comp pos : ℕ) (hsized : Sized blocks)
    (htrailer : trailer.length = 8) :
    ∃ bounds, boundsFrom comp pos blocks = ⟨comp, 0, pos⟩ :: bounds ∧
      blocks.isEmpty = bounds.isEmpty ∧
      Ahead raw (endOfBlock raw blocks.isEmpty) comp pos (encodeBlocks blocks ++ trailer)
        blocks.flatten bounds := by
  cases blocks with
  | nil =>
    refine ⟨[], rfl, rfl, ?_⟩
    cases raw with
    | false =>
      have hne : trailer ≠ [] := List.length_pos_iff.mp (by omega)
      have hahead : Ahead false _ _ _ _ _ _ := .trailer comp pos hne rfl
      rw [htrailer] at hahead
      exact hahead
    | true => exact .done comp pos trailer
  | cons block blocks =>
    have hahead : Ahead raw _ _ _ _ _ _ :=
      .blockHead (k := 0) comp pos (by norm_num) hsized htrailer
    have hbounds : (boundsFrom (comp + 5 + block.length) (pos + block.length) blocks).isEmpty =
        false := by
      cases blocks <;> rfl
    refine ⟨_, rfl, hbounds.symm, ?_⟩
    rw [encodeBlocks, List.append_assoc, List.append_assoc]
    exact hahead

theorem readByte_header {k : ℕ} (hk : k < 10) (b : UInt8) (hb : fixedHeader[k]? = some b) :
    readByte raw (.header (fixedHeader.take k)) b =
      ⟨if k = 9 then .name else .header (fixedHeader.take (k + 1)), [], none⟩ := by
  interval_cases k <;> cases hb <;> rfl

theorem readByte_blockHead {last : Bool} {n k : ℕ} (hpos : 0 < n) (hn : n < 65536) (hk : k < 5)
    {b : UInt8} (hb : (encodeBlockHead last n)[k]? = some b) :
    readByte raw (.blockHead ((encodeBlockHead last n).take k)) b =
      ⟨if k = 4 then .stored n last else .blockHead ((encodeBlockHead last n).take (k + 1)),
        [], none⟩ := by
  have hseen : (encodeBlockHead last n).take k ++ [b] = (encodeBlockHead last n).take (k + 1) := by
    rw [List.take_add_one, hb, Option.toList_some]
  have hlen : ((encodeBlockHead last n).take (k + 1)).length = k + 1 := by
    rw [List.length_take, length_encodeBlockHead]
    omega
  have hfirst : ((encodeBlockHead last n).take (k + 1)).getD 0 0 = 0 ∨
      ((encodeBlockHead last n).take (k + 1)).getD 0 0 = 1 := by
    cases last
    · exact Or.inl rfl
    · exact Or.inr rfl
  simp only [readByte, hseen, hlen, if_pos hfirst]
  by_cases hfour : k = 4
  · subst hfour
    exact openBlock_encode hpos hn raw last
  · rw [if_pos (by omega), if_neg hfour]

theorem readByte_stored {left : ℕ} {last : Bool} {b : UInt8} (h : 1 < left) :
    readByte raw (.stored left last) b = ⟨.stored (left - 1) last, [b], none⟩ :=
  if_neg (by omega)

theorem readByte_trailer {left : ℕ} {b : UInt8} (h : 1 < left) :
    readByte raw (.trailer left) b = ⟨.trailer (left - 1), [], none⟩ := if_neg (by omega)

theorem drop_append_eq_cons {α : Type} {l rest more : List α} {a : α} {k : ℕ} (hk : k < l.length)
    (h : a :: more = l.drop k ++ rest) : l[k]? = some a ∧ more = l.drop (k + 1) ++ rest := by
  rw [List.drop_eq_getElem_cons hk] at h
  cases h
  exact ⟨List.getElem?_eq_getElem hk, rfl⟩

theorem readByte_ahead {b : UInt8} (h : Ahead raw phase comp pos (b :: bytes) content bounds) :
    ∃ content' bounds', content = (readByte raw phase b).output ++ content' ∧
      Ahead raw (readByte raw phase b).phase (comp + 1)
        (pos + (readByte raw phase b).output.length) bytes content' bounds' ∧
      ((readByte raw phase b).boundary = none ∧ bounds = bounds' ∨
        (readByte raw phase b).boundary = some bounds'.isEmpty ∧
        bounds = ⟨comp + 1, 0, pos + (readByte raw phase b).output.length⟩ :: bounds') := by
  generalize hbs : b :: bytes = bs at h
  cases h with
  | @header k _ _ hk name hname blocks hne hsized trailer htrailer =>
    obtain ⟨hb, rfl⟩ := drop_append_eq_cons (l := fixedHeader) hk hbs
    rw [readByte_header hk b hb]
    refine ⟨_, boundsFrom (comp + (10 - k) + name.length + 1) pos blocks, rfl, ?_,
      Or.inl ⟨rfl, rfl⟩⟩
    by_cases hnine : k = 9
    · subst hnine
      exact .name (comp + 1) pos hname hne hsized htrailer
    · have hahead : Ahead raw _ _ _ _ _ _ :=
        .header (k := k + 1) (comp + 1) pos (by omega) hname hne hsized htrailer
      rw [show comp + 1 + (10 - (k + 1)) = comp + (10 - k) by omega] at hahead
      simp only [if_neg hnine]
      exact hahead
  | @name _ _ name hname blocks hne hsized trailer htrailer =>
    cases name with
    | nil =>
      cases hbs
      obtain ⟨bounds', hbounds, hempty, hahead⟩ :=
        ahead_endOfBlock raw (comp + 1) pos hsized htrailer
      have hblocks : blocks.isEmpty = false := by
        cases blocks with
        | nil => exact absurd rfl hne
        | cons => rfl
      rw [hblocks] at hempty hahead
      exact ⟨_, bounds', rfl, hahead, Or.inr ⟨by rw [← hempty]; rfl, hbounds⟩⟩
    | cons c name =>
      cases hbs
      rw [List.mem_cons, not_or] at hname
      have hstep : readByte raw .name b = ⟨.name, [], none⟩ := if_neg (Ne.symm hname.1)
      rw [hstep]
      have hahead : Ahead raw _ _ _ _ _ _ :=
        .name (comp + 1) pos hname.2 hne hsized htrailer
      refine ⟨_, _, rfl, hahead, Or.inl ⟨rfl, ?_⟩⟩
      congr 1
      rw [List.length_cons]
      omega
  | @blockHead k _ _ hk block blocks hsized trailer htrailer =>
    obtain ⟨hb, rfl⟩ :=
      drop_append_eq_cons (l := encodeBlockHead blocks.isEmpty block.length) hk hbs
    obtain ⟨hpos, hlt⟩ := hsized block List.mem_cons_self
    rw [readByte_blockHead hpos hlt hk hb]
    refine ⟨_, boundsFrom (comp + (5 - k) + block.length) (pos + block.length) blocks, rfl, ?_,
      Or.inl ⟨rfl, rfl⟩⟩
    by_cases hfour : k = 4
    · subst hfour
      exact .stored (comp + 1) pos (List.length_pos_iff.mp hpos)
        (fun c hc => hsized c (List.mem_cons_of_mem _ hc)) htrailer
    · have hahead : Ahead raw _ _ _ _ _ _ :=
        .blockHead (k := k + 1) (comp + 1) pos (by omega) hsized htrailer
      rw [show comp + 1 + (5 - (k + 1)) = comp + (5 - k) by omega] at hahead
      simp only [if_neg hfour]
      exact hahead
  | @stored _ _ rest hrest blocks hsized trailer htrailer =>
    cases rest with
    | nil => exact absurd rfl hrest
    | cons c rest =>
      cases hbs
      cases rest with
      | nil =>
        obtain ⟨bounds', hbounds, hempty, hahead⟩ :=
          ahead_endOfBlock raw (comp + 1) (pos + 1) hsized htrailer
        exact ⟨_, bounds', rfl, hahead, Or.inr ⟨congrArg some hempty, hbounds⟩⟩
      | cons d rest =>
        rw [readByte_stored (by simp)]
        have hahead : Ahead raw _ _ _ _ _ _ :=
          .stored (comp + 1) (pos + 1) (List.cons_ne_nil d rest) hsized htrailer
        refine ⟨_, _, rfl, hahead, Or.inl ⟨rfl, ?_⟩⟩
        congr 1 <;> simp only [List.length_cons] <;> omega
  | trailer _ _ hrest hraw =>
    cases hbs
    cases bytes with
    | nil => exact ⟨[], [], rfl, .done _ _ _, Or.inl ⟨rfl, rfl⟩⟩
    | cons d rest =>
      rw [readByte_trailer (by simp)]
      exact ⟨[], [], rfl, .trailer _ _ (List.cons_ne_nil d rest) hraw, Or.inl ⟨rfl, rfl⟩⟩
  | done => exact ⟨[], [], rfl, .done _ _ _, Or.inl ⟨rfl, rfl⟩⟩

theorem Ahead.le (h : Ahead raw phase comp pos bytes content bounds) :
    ∀ b ∈ bounds, comp < b.comp ∧ pos ≤ b.raw ∧ b.bits = 0 := by
  intro b hb
  cases h with
  | header | name | blockHead =>
    obtain ⟨hcomp, hpos, hbits⟩ := boundsFrom_ge b hb
    exact ⟨by omega, by omega, hbits⟩
  | stored _ _ hrest =>
    obtain ⟨hcomp, hpos, hbits⟩ := boundsFrom_ge b hb
    have := List.length_pos_iff.mpr hrest
    exact ⟨by omega, by omega, hbits⟩
  | trailer | done => cases hb

theorem flatten_ne_nil (hne : blocks ≠ []) (hsized : Sized blocks) : blocks.flatten ≠ [] := by
  obtain ⟨block, rest, rfl⟩ := List.exists_cons_of_ne_nil hne
  have hpos := (hsized block List.mem_cons_self).1
  rw [List.flatten_cons]
  exact List.append_ne_nil_of_left_ne_nil (List.length_pos_iff.mp hpos) _

theorem boundsFrom_ne_nil : boundsFrom comp pos blocks ≠ [] := by cases blocks <;> simp [boundsFrom]

theorem Ahead.content_eq_nil (h : Ahead raw phase comp pos bytes content bounds) :
    content = [] ↔ bounds = [] := by
  cases h with
  | header _ _ _ _ hne hsized | name _ _ _ hne hsized =>
    simp [flatten_ne_nil hne hsized, boundsFrom_ne_nil]
  | @blockHead _ _ _ _ block _ hsized =>
    have hpos := (hsized block List.mem_cons_self).1
    simp [List.length_pos_iff.mp hpos, boundsFrom_ne_nil]
  | stored _ _ hrest => simp [hrest, boundsFrom_ne_nil]
  | trailer | done => simp

theorem Ahead.stops (h : Ahead raw phase comp pos bytes content bounds) {room : ℕ}
    (hreads : phase.Reads room = false) : phase = .done ∧ bounds = [] ∨
      room = 0 ∧ ∃ left last, phase = .stored left last := by
  cases h with
  | stored => exact Or.inr ⟨by simpa [Phase.Reads] using hreads, _, _, rfl⟩
  | done => exact Or.inl ⟨rfl, rfl⟩
  | header | name | blockHead | trailer => cases hreads

theorem Ahead.nil_of_done (h : Ahead raw .done comp pos bytes content bounds) : bounds = [] := by
  cases h
  rfl

theorem Ahead.done_of_nil (h : Ahead true phase comp pos bytes content bounds)
    (hb : bounds = []) : phase = .done := by
  cases h with
  | header | name | blockHead | stored => exact absurd hb boundsFrom_ne_nil
  | trailer _ _ _ hraw => cases hraw
  | done => rfl

theorem Ahead.not_failed (h : Ahead raw phase comp pos bytes content bounds) :
    phase ≠ .failed := by
  cases h <;> simp

theorem Ahead.stop_ok {s : Stream} (h : Ahead s.raw s.phase comp pos bytes content bounds)
    (hphase : s.phase ≠ .done) : stop s = ⟨s, .ok, 0, [], 0⟩ := by
  have hfailed := h.not_failed
  unfold stop
  split <;> first | rfl | contradiction

def Stream.next (s : Stream) (b : UInt8) : Stream := { s with phase := (readByte s.raw s.phase b).phase }

section
variable {flush : Flush} {s : Stream} {b : UInt8} {input : List UInt8} {room : ℕ}

theorem inflate_stop (hreads : input = [] ∨ s.phase.Reads room = false) :
    inflate flush s input room = stop s := by
  cases input with
  | nil => rfl
  | cons b input =>
    have hfalse := hreads.resolve_left (List.cons_ne_nil b input)
    rw [inflate, hfalse]
    rfl

theorem inflate_boundary (hreads : s.phase.Reads room = true) {last : Bool}
    (hb : (readByte s.raw s.phase b).boundary = some last) :
    inflate .block s (b :: input) room =
      ⟨s.next b, .ok, 1, (readByte s.raw s.phase b).output, 128 + if last then 64 else 0⟩ := by
  rw [inflate, if_pos hreads]
  simp only [hb]
  rfl

theorem inflate_on (hreads : s.phase.Reads room = true)
    (hb : flush = .noFlush ∨ (readByte s.raw s.phase b).boundary = none) :
    inflate flush s (b :: input) room =
      { inflate flush (s.next b) input (room - (readByte s.raw s.phase b).output.length) with
        consumed := (inflate flush (s.next b) input
          (room - (readByte s.raw s.phase b).output.length)).consumed + 1
        output := (readByte s.raw s.phase b).output ++ (inflate flush (s.next b) input
          (room - (readByte s.raw s.phase b).output.length)).output } := by
  rw [inflate, if_pos hreads]
  rcases hb with rfl | hb
  · rfl
  · simp only [hb]
    cases flush <;> rfl

theorem inflate_induct (flush : Flush) {motive : Stream → List UInt8 → ℕ → Prop}
    (stop : ∀ s input room, input = [] ∨ s.phase.Reads room = false → motive s input room)
    (boundary : ∀ s b input room last, flush = .block → s.phase.Reads room = true →
      (readByte s.raw s.phase b).boundary = some last → motive s (b :: input) room)
    (on : ∀ s b input room, s.phase.Reads room = true →
      flush = .noFlush ∨ (readByte s.raw s.phase b).boundary = none →
      motive (s.next b) input (room - (readByte s.raw s.phase b).output.length) →
      motive s (b :: input) room) (s : Stream) (input : List UInt8) (room : ℕ) :
    motive s input room := by
  induction input generalizing s room with
  | nil => exact stop s [] room (Or.inl rfl)
  | cons b input ih =>
    cases hreads : s.phase.Reads room with
    | false => exact stop s _ room (Or.inr hreads)
    | true =>
      cases hb : (readByte s.raw s.phase b).boundary with
      | none => exact on s b input room hreads (Or.inr hb) (ih _ _)
      | some last =>
        cases hflush : flush with
        | noFlush => exact on s b input room hreads (Or.inl hflush) (ih _ _)
        | block => exact boundary s b input room last hflush hreads hb

end

theorem stop_fields (s : Stream) : (stop s).state = s ∧ (stop s).consumed = 0 ∧
    (stop s).output = [] ∧ (stop s).dataType = 0 := by
  unfold stop
  split <;> exact ⟨rfl, rfl, rfl, rfl⟩

theorem inflate_raw (flush : Flush) (s : Stream) (input : List UInt8) (room : ℕ) :
    (inflate flush s input room).state.raw = s.raw := by
  induction s, input, room using inflate_induct flush with
  | stop s input room h => rw [inflate_stop h, (stop_fields s).1]
  | boundary s b input room last hflush hreads hb =>
    subst hflush
    rw [inflate_boundary hreads hb]
    rfl
  | on s b input room hreads hb ih =>
    rw [inflate_on hreads hb]
    exact ih

theorem inflate_consumed_le (flush : Flush) (s : Stream) (input : List UInt8) (room : ℕ) :
    (inflate flush s input room).consumed ≤ input.length := by
  induction s, input, room using inflate_induct flush with
  | stop s input room h =>
    rw [inflate_stop h, (stop_fields s).2.1]
    exact Nat.zero_le _
  | boundary s b input room last hflush hreads hb =>
    subst hflush
    rw [inflate_boundary hreads hb]
    exact Nat.succ_le_succ (Nat.zero_le _)
  | on s b input room hreads hb ih =>
    rw [inflate_on hreads hb]
    exact Nat.succ_le_succ ih

theorem readByte_output_le {s : Stream} {room : ℕ} {b : UInt8} (hreads : s.phase.Reads room) :
    (readByte s.raw s.phase b).output.length ≤ room := by
  cases hphase : s.phase with
  | stored left last =>
    have hroom : 0 < room := by simpa [hphase, Phase.Reads] using hreads
    unfold readByte
    dsimp only
    split_ifs <;> exact hroom
  | blockHead seen =>
    unfold readByte openBlock
    dsimp only
    split_ifs <;> exact Nat.zero_le _
  | header | name | trailer =>
    unfold readByte
    dsimp only
    split_ifs <;> exact Nat.zero_le _
  | done | failed => exact Nat.zero_le _

theorem inflate_output_le (flush : Flush) (s : Stream) (input : List UInt8) (room : ℕ) :
    (inflate flush s input room).output.length ≤ room := by
  induction s, input, room using inflate_induct flush with
  | stop s input room h =>
    rw [inflate_stop h, (stop_fields s).2.2.1]
    exact Nat.zero_le _
  | boundary s b input room last hflush hreads hb =>
    subst hflush
    rw [inflate_boundary hreads hb]
    exact readByte_output_le hreads
  | on s b input room hreads hb ih =>
    have := readByte_output_le (b := b) hreads
    rw [inflate_on hreads hb, List.length_append]
    omega

theorem inflate_output (flush : Flush) {s : Stream} {input : List UInt8} (room : ℕ)
    (h : Ahead s.raw s.phase comp pos bytes content bounds) (hin : input <+: bytes) :
    (inflate flush s input room).output <+: content := by
  induction s, input, room using inflate_induct flush generalizing comp pos bytes content bounds with
  | stop s input room hstop =>
    rw [inflate_stop hstop, (stop_fields s).2.2.1]
    exact List.nil_prefix
  | boundary s b input room last hflush hreads hb =>
    subst hflush
    obtain ⟨rest, rfl⟩ := hin
    obtain ⟨content', -, rfl, -, -⟩ := readByte_ahead h
    rw [inflate_boundary hreads hb]
    exact List.prefix_append _ _
  | on s b input room hreads hb ih =>
    obtain ⟨rest, rfl⟩ := hin
    obtain ⟨content', bounds', rfl, hahead, -⟩ := readByte_ahead h
    rw [inflate_on hreads hb]
    exact (List.prefix_append_right_inj _).mpr (ih hahead (List.prefix_append _ _))

/-- What a call does to what is ahead: it stops at a boundary, at the end of the stream, or
with the input or the room used up. -/
def Advances (flush : Flush) (s : Stream) (comp pos : ℕ) (bytes content : List UInt8)
    (bounds : List Boundary) (input : List UInt8) (room : ℕ) (r : Inflated Stream) : Prop :=
  ∃ passed bounds', bounds = passed ++ bounds' ∧
    Ahead s.raw r.state.phase (comp + r.consumed) (pos + r.output.length)
      (bytes.drop r.consumed) (content.drop r.output.length) bounds' ∧
    (flush = .block ∧ r.ret = .ok ∧ r.dataType = (128 + if bounds'.isEmpty then 64 else 0) ∧
        passed = [⟨comp + r.consumed, 0, pos + r.output.length⟩] ∨
      (flush = .block → passed = []) ∧ r.dataType = 0 ∧
        (r.ret = .streamEnd ∧ r.state.phase = .done ∨
          r.ret = .ok ∧ r.state.phase ≠ .done ∧
            (r.consumed = input.length ∨ r.output.length = room)))

theorem Advances.behind {flush : Flush} {s : Stream} {b : UInt8} {rest : List UInt8}
    {bounds' : List Boundary} {input output : List UInt8} {room : ℕ} {r : Inflated Stream}
    (h : Advances flush (s.next b) (comp + 1) (pos + output.length) rest content bounds input
      (room - output.length) r) (hle : output.length ≤ room)
    (hpassed : ∃ passed, bounds' = passed ++ bounds ∧ (flush = .block → passed = [])) :
    Advances flush s comp pos (b :: rest) (output ++ content) bounds' (b :: input) room
      { r with consumed := r.consumed + 1, output := output ++ r.output } := by
  obtain ⟨first, rfl, hfirst⟩ := hpassed
  obtain ⟨passed, bounds, rfl, hahead, hcase⟩ := h
  have hcomp : comp + 1 + r.consumed = comp + (r.consumed + 1) := by omega
  have hpos : pos + output.length + r.output.length = pos + (output ++ r.output).length := by
    rw [List.length_append]
    omega
  rw [hcomp, hpos] at hahead hcase
  refine ⟨first ++ passed, bounds, (List.append_assoc _ _ _).symm, ?_, ?_⟩
  · have hcontent : (output ++ content).drop (output ++ r.output).length =
        content.drop r.output.length := by
      rw [List.length_append, ← List.drop_drop, List.drop_left]
    rw [List.drop_succ_cons, hcontent]
    exact hahead
  · rcases hcase with ⟨hflush, hret, hdata, rfl⟩ | ⟨hnone, hdata, hend⟩
    · exact Or.inl ⟨hflush, hret, hdata, by rw [hfirst hflush, List.nil_append]⟩
    · refine Or.inr ⟨fun hflush => by rw [hfirst hflush, hnone hflush]; rfl, hdata, ?_⟩
      refine hend.imp_right fun ⟨hret, hphase, hused⟩ =>
        ⟨hret, hphase, hused.imp (congrArg (· + 1)) fun hroom => ?_⟩
      rw [List.length_append]
      omega

theorem inflate_advances (flush : Flush) {s : Stream} {input : List UInt8} (room : ℕ)
    (h : Ahead s.raw s.phase comp pos bytes content bounds) (hin : input <+: bytes) :
    Advances flush s comp pos bytes content bounds input room (inflate flush s input room) := by
  induction s, input, room using inflate_induct flush generalizing comp pos bytes content bounds with
  | stop s input room hstop =>
    obtain ⟨hstate, hconsumed, houtput, hdata⟩ := stop_fields s
    rw [inflate_stop hstop]
    refine ⟨[], bounds, rfl, ?_, Or.inr ⟨fun _ => rfl, hdata, ?_⟩⟩
    · rw [hstate, hconsumed, houtput]
      exact h
    by_cases hdone : s.phase = .done
    · refine Or.inl ⟨?_, by rw [hstate, hdone]⟩
      rw [stop, hdone]
    · rw [h.stop_ok hdone]
      refine Or.inr ⟨rfl, hdone, ?_⟩
      rcases hstop with rfl | hreads
      · exact Or.inl rfl
      · obtain ⟨hroom, -⟩ := (h.stops hreads).resolve_left fun hd => hdone hd.1
        exact Or.inr hroom.symm
  | boundary s b input room last hflush hreads hb =>
    subst hflush
    obtain ⟨rest, rfl⟩ := hin
    obtain ⟨content', bounds', rfl, hahead, hbounds⟩ := readByte_ahead h
    rw [hb] at hbounds
    obtain ⟨hlast, rfl⟩ := hbounds.resolve_left fun hn => by simp at hn
    cases hlast
    rw [inflate_boundary hreads hb]
    refine ⟨[_], bounds', rfl, ?_, Or.inl ⟨rfl, rfl, rfl, rfl⟩⟩
    rw [List.drop_left]
    exact hahead
  | on s b input room hreads hb ih =>
    obtain ⟨rest, rfl⟩ := hin
    obtain ⟨content', bounds', rfl, hahead, hbounds⟩ := readByte_ahead h
    have hle := readByte_output_le (b := b) hreads
    rw [inflate_on hreads hb]
    refine (ih hahead (List.prefix_append _ _)).behind hle ?_
    rcases hbounds with ⟨-, rfl⟩ | ⟨hsome, rfl⟩
    · exact ⟨[], rfl, fun _ => rfl⟩
    · refine ⟨[_], rfl, fun hflush => ?_⟩
      rw [hsome, hflush] at hb
      simp at hb

theorem ahead_boundary (raw : Bool) (hsized : Sized blocks) (htrailer : trailer.length = 8)
    {i : ℕ} {b : Boundary} (hb : (boundsFrom comp pos blocks)[i]? = some b)
    (hi : i < blocks.length) :
    Ahead raw (.blockHead []) b.comp b.raw ((encodeBlocks blocks ++ trailer).drop (b.comp - comp))
      (blocks.flatten.drop (b.raw - pos)) ((boundsFrom comp pos blocks).drop (i + 1)) := by
  induction blocks generalizing comp pos i with
  | nil => exact absurd hi (Nat.not_lt_zero i)
  | cons block blocks ih =>
    cases i with
    | zero =>
      cases hb
      obtain ⟨bounds, hbounds, -, hahead⟩ := ahead_endOfBlock raw comp pos hsized htrailer
      rw [hbounds]
      simp only [Nat.sub_self, List.drop_zero, List.drop_succ_cons]
      exact hahead
    | succ i =>
      rw [boundsFrom, List.getElem?_cons_succ] at hb
      have hlt : i < blocks.length := Nat.lt_of_succ_lt_succ hi
      have hahead := ih (fun c hc => hsized c (List.mem_cons_of_mem _ hc)) hb hlt
      obtain ⟨hcomp, hpos, -⟩ := boundsFrom_ge b (List.mem_of_getElem? hb)
      have hbytes : (encodeBlocks (block :: blocks) ++ trailer).drop (b.comp - comp) =
          (encodeBlocks blocks ++ trailer).drop (b.comp - (comp + 5 + block.length)) := by
        have hsplit : b.comp - comp =
            (encodeBlockHead blocks.isEmpty block.length ++ block).length +
              (b.comp - (comp + 5 + block.length)) := by
          rw [List.length_append, length_encodeBlockHead]
          omega
        rw [hsplit, ← List.drop_drop, encodeBlocks, ← List.append_assoc, List.append_assoc,
          List.drop_left]
      have hcontent : (block :: blocks).flatten.drop (b.raw - pos) =
          blocks.flatten.drop (b.raw - (pos + block.length)) := by
        have hsplit : b.raw - pos = block.length + (b.raw - (pos + block.length)) := by omega
        rw [hsplit, ← List.drop_drop, List.flatten_cons, List.drop_left]
      rw [hbytes, hcontent, boundsFrom, List.drop_succ_cons]
      exact hahead

end

def File.At (f : File) (st : Stream) (p : Pos) : Prop :=
  Ahead st.raw st.phase p.comp p.raw (f.member.file.drop p.comp) (f.member.content.drop p.raw)
    (f.member.bounds.drop p.next)

variable {f : File} {st : Stream} {p : Pos} {input : List UInt8} {room : ℕ}

theorem File.at_start (f : File) : f.At (library.inflateInit2 gzipWindowBits) ⟨0, 0, 0⟩ := by
  have hahead : Ahead false _ _ _ _ _ _ := .header (k := 0) 0 0 (by norm_num) f.name_nonzero
    f.blocks_nonempty f.sized (length_encodeTrailer f.blocks.flatten)
  rw [show 0 + (10 - 0) + f.name.length + 1 = 11 + f.name.length by omega] at hahead
  exact hahead

theorem File.at_boundary (f : File) {i : ℕ} {b : Boundary} (hb : f.member.bounds[i]? = some b)
    (hi : i + 1 < f.member.bounds.length) : f.At ⟨true, .blockHead []⟩ ⟨b.comp, b.raw, i + 1⟩ := by
  have hlt : i < f.blocks.length := by
    have hlen := boundsFrom_length (11 + f.name.length) 0 f.blocks
    change i + 1 < (boundsFrom (11 + f.name.length) 0 f.blocks).length at hi
    omega
  have hahead := ahead_boundary true f.sized (length_encodeTrailer f.blocks.flatten) hb hlt
  have hle := (boundsFrom_ge b (List.mem_of_getElem? hb)).1
  have hbytes : f.member.file.drop b.comp = (encodeBlocks f.blocks ++
      encodeTrailer f.blocks.flatten).drop (b.comp - (11 + f.name.length)) := by
    have hsplit : b.comp = (fixedHeader ++ f.name ++ [0]).length +
        (b.comp - (11 + f.name.length)) := by
      simp only [List.length_append, show fixedHeader.length = 10 from rfl, List.length_singleton]
      omega
    have hfile : f.member.file = (fixedHeader ++ f.name ++ [0]) ++
        (encodeBlocks f.blocks ++ encodeTrailer f.blocks.flatten) := by
      simp [File.member, encodeFile]
    conv_lhs => rw [hsplit]
    rw [← List.drop_drop, hfile, List.drop_left]
  rw [File.At, hbytes]
  exact hahead

theorem drop_next (hlt : p.next < f.member.bounds.length) : ∃ b,
    f.member.bounds[p.next]? = some b ∧
      f.member.bounds.drop p.next = b :: f.member.bounds.drop (p.next + 1) :=
  ⟨_, List.getElem?_eq_getElem hlt, List.drop_eq_getElem_cons hlt⟩

theorem File.at_behind {flush : Flush} {k : ℕ}
    (h : Ahead st.raw (inflate flush st input room).state.phase
      (p.comp + (inflate flush st input room).consumed)
      (p.raw + (inflate flush st input room).output.length)
      ((f.member.file.drop p.comp).drop (inflate flush st input room).consumed)
      ((f.member.content.drop p.raw).drop (inflate flush st input room).output.length)
      (f.member.bounds.drop k)) :
    f.At (inflate flush st input room).state ⟨p.comp + (inflate flush st input room).consumed,
      p.raw + (inflate flush st input room).output.length, k⟩ := by
  rw [List.drop_drop, List.drop_drop] at h
  rw [File.At, inflate_raw]
  exact h

theorem File.At.output_le (h : f.At st p) (flush : Flush) (room : ℕ)
    (hin : input <+: f.member.file.drop p.comp) :
    (inflate flush st input room).output.length ≤ f.member.content.length - p.raw := by
  have hle := (inflate_output flush room h hin).length_le
  rwa [List.length_drop] at hle

theorem File.At.block (h : f.At st p) (hlt : p.next < f.member.bounds.length)
    (hin : input <+: f.member.file.drop p.comp) :
    (inflate .block st input room).ret = .ok ∧
      BlockStep f.member (f.At (inflate .block st input room).state) p input room
        (inflate .block st input room) := by
  obtain ⟨b, hb, hdrop⟩ := drop_next hlt
  obtain ⟨passed, bounds', hbounds, hahead, hcase⟩ := inflate_advances .block room h hin
  rw [hdrop] at hbounds
  rcases hcase with ⟨-, hret, hdata, rfl⟩ | ⟨hnone, hdata, hend⟩
  · rw [List.singleton_append, List.cons.injEq] at hbounds
    obtain ⟨rfl, rfl⟩ := hbounds
    have hlast : (f.member.bounds.drop (p.next + 1)).isEmpty =
        decide (p.next + 1 = f.member.bounds.length) := by
      rw [Bool.eq_iff_iff, List.isEmpty_iff, List.drop_eq_nil_iff, decide_eq_true_iff]
      omega
    refine ⟨hret, .boundary _ hb rfl rfl ?_ (File.at_behind hahead)⟩
    rw [hdata, hlast]
    simp
  · rw [hnone rfl, List.nil_append] at hbounds
    subst hbounds
    obtain ⟨hret, -, hused⟩ := hend.resolve_left fun ⟨_, hdone⟩ => by
      rw [hdone] at hahead
      exact List.cons_ne_nil _ _ hahead.nil_of_done
    obtain ⟨hcomp, hraw, -⟩ := hahead.le b List.mem_cons_self
    rw [← hdrop] at hahead
    exact ⟨hret, .inside b hb hcomp.le hraw (by rw [hdata]; rfl)
      (hused.imp_left fun hall => ⟨hall, hcomp⟩) (File.at_behind hahead)⟩

theorem File.At.trailer (h : f.At st p) (hend : p.next = f.member.bounds.length)
    (hin : input <+: f.member.file.drop p.comp) (hroom : 0 < room) :
    TrailerStep f.member (f.At (inflate .block st input room).state)
      ((inflate .block st input room).state.phase = .done) p input
      (inflate .block st input room) := by
  have hdrop : f.member.bounds.drop p.next = [] := List.drop_eq_nil_of_le hend.ge
  have hcontent : f.member.content.drop p.raw = [] := by
    apply (Ahead.content_eq_nil h).mpr hdrop
  have houtput : (inflate .block st input room).output = [] := by
    have hout := inflate_output .block room h hin
    rwa [hcontent, List.prefix_nil] at hout
  obtain ⟨passed, bounds', hbounds, hahead, hcase⟩ := inflate_advances .block room h hin
  rw [hdrop] at hbounds
  obtain ⟨rfl, rfl⟩ := List.append_eq_nil_iff.mp hbounds.symm
  rcases hcase with ⟨-, -, -, hpassed⟩ | ⟨-, hdata, ⟨hret, hdone⟩ | ⟨hret, -, hused⟩⟩
  · cases hpassed
  · exact .stop hret houtput hdone
  · have hconsumed := hused.resolve_right fun hfull => by
      rw [houtput] at hfull
      exact hroom.ne hfull
    have hat : f.At (inflate .block st input room).state
        ⟨p.comp + (inflate .block st input room).consumed,
          p.raw + (inflate .block st input room).output.length, p.next⟩ :=
      File.at_behind (by rw [hdrop]; exact hahead)
    rw [houtput] at hat
    exact .more hret houtput (by rw [hdata]; rfl) hconsumed hat

theorem File.At.flow (h : f.At st p) (hraw : st.raw = true)
    (hlt : p.raw < f.member.content.length) (hin : input <+: f.member.file.drop p.comp) :
    FlowStep f.member (f.At (inflate .noFlush st input room).state) p input room
      (inflate .noFlush st input room) := by
  have hle := h.output_le .noFlush room hin
  obtain ⟨passed, bounds', hbounds, hahead, hcase⟩ :=
    inflate_advances .noFlush room h hin
  have hcontent := hahead.content_eq_nil
  rw [List.drop_drop, List.drop_eq_nil_iff] at hcontent
  rcases hcase with ⟨hflush, -⟩ | ⟨-, -, ⟨hret, hdone⟩ | ⟨hret, hdone, hused⟩⟩
  · cases hflush
  · rw [hdone] at hahead
    have := hcontent.mpr hahead.nil_of_done
    exact .stop hret (by omega)
  · cases hb : bounds' with
    | nil =>
      rw [hraw] at hahead
      exact absurd (hahead.done_of_nil hb) hdone
    | cons b rest =>
      have hb' : f.member.bounds.drop (p.next + passed.length) = b :: rest := by
        rw [← List.drop_drop, hbounds, List.drop_left, hb]
      have hless : ¬f.member.content.length ≤ p.raw + (inflate .noFlush st input room).output.length := by
        rw [hcontent, hb]
        exact List.cons_ne_nil b rest
      refine .more hret (by omega) hused (p.next + passed.length) b ?_ ?_ ?_
      · rw [← Nat.add_zero (p.next + passed.length), ← List.getElem?_drop, hb']
        rfl
      · exact (hahead.le b (by rw [hb]; exact List.mem_cons_self)).1.le
      · rw [hb, ← hb'] at hahead
        exact File.at_behind hahead

/-- The library does with a file of stored blocks what is relied on. -/
def decompresses (f : File) : Decompresses library f.member where
  At st p _ := f.At st p
  Done st := st.phase = .done
  Raw st := st.raw = true
  start := f.at_start
  resume i b window byte hb hi _ _ := by
    have hat := f.at_boundary hb hi
    have hstate : library.primed rawInflateBits b.bits byte = (⟨true, .blockHead []⟩ : Stream) := by
      unfold Library.primed
      split_ifs <;> rfl
    rw [hstate]
    exact hat
  raw_resume bits byte window := by
    unfold Library.primed
    split_ifs <;> rfl
  raw_inflate st flush input room hraw := (inflate_raw flush st input room).trans hraw
  consumed_le st flush input room := inflate_consumed_le flush st input room
  output_le st flush input room := inflate_output_le flush st input room
  exact st p _ flush input room hat _ hin := by
    obtain ⟨rest, hrest⟩ := inflate_output flush room hat hin
    rw [Continues, slice, ← hrest]
    exact (List.take_left).symm
  block st p _ input room hat hlt _ _ hin := hat.block hlt hin
  trailer st p _ input room hat hend _ hroom hin := hat.trailer hend hin hroom
  done st flush input room hdone := by
    have hstop : library.inflate st flush input room = stop st :=
      inflate_stop (Or.inr (by rw [hdone]; rfl))
    have hret : (stop st).ret = .streamEnd := by
      unfold stop
      rw [hdone]
    obtain ⟨hstate, -, houtput, -⟩ := stop_fields st
    rw [hstop]
    exact ⟨hret, houtput, by rw [hstate]; exact hdone⟩
  flow st p _ input room hat hraw _ hlt _ _ hin := hat.flow hraw hlt hin

/-- The phases of a header that is not at its end. -/
inductive Phase.InHeader : Phase → Prop
  | header (seen : List UInt8) : InHeader (.header seen)
  | name : InHeader .name

lemma readByte_inHeader {phase : Phase} (h : phase.InHeader) (raw : Bool) (b : UInt8) :
    (readByte raw phase b).output = [] ∧
      ((readByte raw phase b).boundary = some false ∨
        (readByte raw phase b).boundary = none ∧
          ((readByte raw phase b).phase.InHeader ∨ (readByte raw phase b).phase = .failed)) := by
  cases h with
  | header seen =>
    simp only [readByte]
    split_ifs
    · exact ⟨rfl, .inr ⟨rfl, .inr rfl⟩⟩
    · exact ⟨rfl, .inr ⟨rfl, .inl (.header _)⟩⟩
    · exact ⟨rfl, .inr ⟨rfl, .inl .name⟩⟩
    · exact ⟨rfl, .inr ⟨rfl, .inr rfl⟩⟩
  | name =>
    simp only [readByte]
    split_ifs
    · exact ⟨rfl, .inl rfl⟩
    · exact ⟨rfl, .inr ⟨rfl, .inl .name⟩⟩

lemma Phase.InHeader.reads {phase : Phase} (h : phase.InHeader) (room : ℕ) :
    phase.Reads room = true := by
  cases h <;> rfl

lemma inflate_inHeader (s : Stream) (input : List UInt8) (room : ℕ) (h : s.phase.InHeader) :
    HeaderStep (fun s : Stream => s.phase.InHeader) input (inflate .block s input room) := by
  induction s, input, room using inflate_induct .block with
  | stop s input room hstop =>
    have hempty : input = [] := hstop.resolve_right (by simp [h.reads])
    rw [inflate_stop hstop, hempty]
    obtain ⟨hstate, hconsumed, hout, htype⟩ := stop_fields s
    have hret : (stop s).ret = .ok := by
      rcases s with ⟨raw, phase⟩
      cases h <;> rfl
    exact .more hret hout (by rw [htype, Nat.zero_and]) hconsumed (hstate.symm ▸ h)
  | boundary s b input room last hflush hreads hb =>
    obtain ⟨houtput, hboundary⟩ := readByte_inHeader h s.raw b
    rw [hb] at hboundary
    obtain rfl : last = false := by
      rcases hboundary with hlast | ⟨hnone, -⟩
      · exact Option.some.inj hlast
      · cases hnone
    rw [inflate_boundary hreads hb]
    have htype : (128 + if false = true then 64 else 0) &&& 128 ≠ 0 ∧
        (128 + if false = true then 64 else 0) &&& 64 = 0 := by decide
    exact .boundary rfl houtput htype
  | on s b input room hreads hb ih =>
    obtain ⟨houtput, hboundary⟩ := readByte_inHeader h s.raw b
    have hnone := hb.resolve_left fun hflush => by cases hflush
    rw [hnone] at hboundary
    rw [inflate_on hreads hb]
    simp only [houtput, List.length_nil, Nat.sub_zero, List.nil_append] at ih ⊢
    rcases hboundary with hlast | ⟨-, hin | hfailed⟩
    · cases hlast
    · rcases ih hin with ⟨hret, hout⟩ | ⟨hret, hout, htype⟩ | ⟨hret, hout, htype, hall, hahead⟩
      · exact .failed hret hout
      · exact .boundary hret hout htype
      · exact .more hret hout htype (congrArg (· + 1) hall) hahead
    · have hphase : (s.next b).phase = .failed := hfailed
      have hstopped : inflate .block (s.next b) input room =
          ⟨s.next b, .dataError, 0, [], 0⟩ := by
        rw [inflate_stop (.inr (by rw [hphase]; rfl)), stop, hphase]
      rw [hstopped]
      exact .failed (.inr (.inl rfl)) rfl

/-- The headers of stored files, and whatever is taken for one. -/
def headers : Headers library where
  Ahead s := Phase.InHeader s.phase
  start := .header []
  header s input room h _ _ := inflate_inHeader s input room h

def twoBlocks : File where
  name := []
  blocks := [[1, 2, 3], [4, 5]]
  name_nonzero := by simp
  blocks_nonempty := by simp
  sized := by simp [Sized]

end Spotlight.Stored
