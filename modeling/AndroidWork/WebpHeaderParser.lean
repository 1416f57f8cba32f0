import Mathlib.Tactic

/-!
# The header of a WebP file

`WebpHeaderParser.getType` and its three readers. The parser asks a reader for its
bytes and does not see the end of the data, where `getByte` gives -1.
-/
namespace WebpHeaderParser

abbrev Byte := BitVec 8

inductive WebpImageType where
  | simple
  | lossless
  | losslessWithAlpha
  | extended
  | extendedWithAlpha
  | extendedAnimated
  | noneWebp
  deriving DecidableEq

namespace WebpImageType

def hasAlpha : WebpImageType → Bool
  | .losslessWithAlpha | .extendedWithAlpha => true
  | _ => false

def hasAnimation : WebpImageType → Bool
  | .extendedAnimated => true
  | _ => false

end WebpImageType

def riffHeader : BitVec 32 := 0x52494646
def webpHeader : BitVec 32 := 0x57454250
def webpVp8Header : BitVec 32 := 0x56503820
def webpVp8lHeader : BitVec 32 := 0x5650384C
def webpVp8xHeader : BitVec 32 := 0x56503858
def webpExtendedAlphaFlag : BitVec 32 := 1 <<< 4
def webpExtendedAnimFlag : BitVec 32 := 1 <<< 1
def webpLosslessAlphaFlag : BitVec 32 := 1 <<< 3

/-- What the parser calls of a reader, which is 4 bytes at most for `skip`. -/
structure Reader (σ : Type) where
  getUInt16 : StateM σ (BitVec 32)
  skip : Nat → StateM σ Nat
  getByte : StateM σ (BitVec 32)

variable {σ : Type}

def getFourBytes (reader : Reader σ) : StateM σ (BitVec 32) := do
  let high ← reader.getUInt16
  let low ← reader.getUInt16
  return high <<< 16 &&& 0xFFFF0000 ||| low &&& 0xFFFF

def getType (reader : Reader σ) : StateM σ WebpImageType := do
  let firstFourBytes ← getFourBytes reader
  if firstFourBytes ≠ riffHeader then return .noneWebp
  let _ ← reader.skip 4
  let thirdFourBytes ← getFourBytes reader
  if thirdFourBytes ≠ webpHeader then return .noneWebp
  let fourthFourBytes ← getFourBytes reader
  if fourthFourBytes = webpVp8Header then return .simple
  if fourthFourBytes = webpVp8lHeader then
    let _ ← reader.skip 4
    let flags ← reader.getByte
    return if flags &&& webpLosslessAlphaFlag ≠ 0 then .losslessWithAlpha else .lossless
  if fourthFourBytes = webpVp8xHeader then
    let _ ← reader.skip 4
    let flags ← reader.getByte
    if flags &&& webpExtendedAnimFlag ≠ 0 then return .extendedAnimated
    else if flags &&& webpExtendedAlphaFlag ≠ 0 then return .extendedWithAlpha
    return .extended
  return .noneWebp

/-- `getUInt16` has the same text in all the readers. -/
def uInt16 (getByte : StateM σ (BitVec 32)) : StateM σ (BitVec 32) := do
  let high ← getByte
  let low ← getByte
  return high <<< 8 &&& 0xFF00 ||| low &&& 0xFF

structure ByteArrayReader where
  data : List Byte
  offset : Nat
  size : Nat
  pos : Nat
  size_le : offset + size ≤ data.length

namespace ByteArrayReader

def getByte : StateM ByteArrayReader (BitVec 32) := fun s =>
  if h : s.pos ≥ s.offset + s.size then (-1, s)
  else ((s.data.get ⟨s.pos, by have := s.size_le; omega⟩).signExtend 32,
    { s with pos := s.pos + 1 })

def skip (total : Nat) : StateM ByteArrayReader Nat := fun s =>
  let toSkip := min (s.offset + s.size - s.pos) total
  (toSkip, { s with pos := s.pos + toSkip })

def reader : Reader ByteArrayReader := ⟨uInt16 getByte, skip, getByte⟩

end ByteArrayReader

structure ByteBuffer where
  bytes : List Byte
  position : Nat
  limit : Nat
  limit_le : limit ≤ bytes.length

namespace ByteBuffer

def remaining (b : ByteBuffer) : Nat := b.limit - b.position

def getByte : StateM ByteBuffer (BitVec 32) := fun b =>
  if h : b.remaining < 1 then (-1, b)
  else
    ((b.bytes.get ⟨b.position, by have := b.limit_le; unfold remaining at h; omega⟩).signExtend 32,
    { b with position := b.position + 1 })

def skip (total : Nat) : StateM ByteBuffer Nat := fun b =>
  let toSkip := min b.remaining total
  (toSkip, { b with position := b.position + toSkip })

def reader : Reader ByteBuffer := ⟨uInt16 getByte, skip, getByte⟩

end ByteBuffer

/-- What the stream still gives, and how many bytes each of its skips goes ahead if
it is asked for that many. -/
structure InputStream where
  rest : List Byte
  skips : Nat → Nat
  calls : Nat := 0

namespace InputStream

def read (is : InputStream) : BitVec 32 × InputStream :=
  match is.rest with
  | [] => (-1, is)
  | b :: rest => (b.zeroExtend 32, { is with rest })

def skip (n : Nat) (is : InputStream) : Nat × InputStream :=
  let skipped := min (is.skips is.calls) n
  (skipped, { is with rest := is.rest.drop skipped, calls := is.calls + 1 })

end InputStream

namespace StreamReader

/-- The loop of `skip`, and what it leaves of `toSkip`. -/
def skipLoop (toSkip : Nat) (is : InputStream) : Nat × InputStream :=
  if h : toSkip = 0 then (0, is)
  else
    let skipped := is.skip toSkip
    if skipped.1 > 0 then skipLoop (toSkip - skipped.1) skipped.2
    else
      let testEofByte := skipped.2.read
      if testEofByte.1 = -1 then (toSkip, testEofByte.2)
      else skipLoop (toSkip - 1) testEofByte.2
termination_by toSkip
decreasing_by
  · exact Nat.sub_lt (Nat.pos_of_ne_zero h) ‹skipped.1 > 0›
  · exact Nat.sub_lt (Nat.pos_of_ne_zero h) Nat.one_pos

def skip (total : Nat) (is : InputStream) : Nat × InputStream :=
  let loop := skipLoop total is
  (total - loop.1, loop.2)

def reader : Reader InputStream := ⟨uInt16 InputStream.read, skip, InputStream.read⟩

end StreamReader

/-- Beyond the end every byte is the low byte of -1. -/
def byteAt (bytes : List Byte) (i : Nat) : Byte := bytes.getD i 0xFF

def fourAt (bytes : List Byte) (i : Nat) : BitVec 32 :=
  byteAt bytes i ++ byteAt bytes (i + 1) ++ byteAt bytes (i + 2) ++ byteAt bytes (i + 3)

/-- What the parser makes of the bytes. -/
def typeOf (bytes : List Byte) : WebpImageType :=
  if fourAt bytes 0 ≠ riffHeader ∨ fourAt bytes 8 ≠ webpHeader then .noneWebp
  else if fourAt bytes 12 = webpVp8Header then .simple
  else if fourAt bytes 12 = webpVp8lHeader then
    if byteAt bytes 20 &&& 0x08 ≠ 0 then .losslessWithAlpha else .lossless
  else if fourAt bytes 12 = webpVp8xHeader then
    if byteAt bytes 20 &&& 0x02 ≠ 0 then .extendedAnimated
    else if byteAt bytes 20 &&& 0x10 ≠ 0 then .extendedWithAlpha
    else .extended
  else .noneWebp

theorem byteAt_drop (bytes : List Byte) (k i : Nat) :
    byteAt (bytes.drop k) i = byteAt bytes (k + i) := by
  simp [byteAt, List.getD_eq_getElem?_getD]

theorem fourAt_drop (bytes : List Byte) (k i : Nat) :
    fourAt (bytes.drop k) i = fourAt bytes (k + i) := by
  simp only [fourAt, byteAt_drop, Nat.add_assoc]

/-- The reader gives the bytes of `rest` one after another. -/
structure Reads (reader : Reader σ) (rest : σ → List Byte) : Prop where
  getUInt16 : reader.getUInt16 = uInt16 reader.getByte
  getByte : ∀ s, (reader.getByte s).1.setWidth 8 = byteAt (rest s) 0
  rest_getByte : ∀ s, rest (reader.getByte s).2 = (rest s).drop 1
  rest_skip : ∀ n s, rest (reader.skip n s).2 = (rest s).drop n

/-- Only the low bytes of what is read come into the two numbers. -/
theorem join_bytes (a b c d : BitVec 32) :
    (a <<< 8 &&& (0xFF00 : BitVec 32) ||| b &&& 0xFF) <<< 16 &&& (0xFFFF0000 : BitVec 32) |||
      (c <<< 8 &&& (0xFF00 : BitVec 32) ||| d &&& 0xFF) &&& 0xFFFF =
      a.setWidth 8 ++ b.setWidth 8 ++ c.setWidth 8 ++ d.setWidth 8 := by
  ext i hi
  simp only [BitVec.getElem_or, BitVec.getElem_and, BitVec.getElem_shiftLeft, BitVec.getElem_append,
    BitVec.getElem_setWidth]
  interval_cases i <;> simp

/-- A flag of the low byte. -/
theorem flag_eq_zero (a flag : BitVec 32) (h : flag.toNat < 256) :
    a &&& flag = 0 ↔ a.setWidth 8 &&& flag.setWidth 8 = 0 := by
  have hlt : (a &&& flag).toNat < 256 :=
    lt_of_le_of_lt (by rw [BitVec.toNat_and]; exact Nat.and_le_right) h
  rw [← BitVec.setWidth_and, ← BitVec.toNat_inj, ← BitVec.toNat_inj, BitVec.toNat_setWidth,
    Nat.mod_eq_of_lt hlt]
  rfl

section Parser

variable {α β : Type}

theorem run_bind (x : StateM σ α) (f : α → StateM σ β) (s : σ) :
    (x >>= f) s = f (x s).1 (x s).2 := rfl

theorem run_pure (a : α) (s : σ) : (pure a : StateM σ α) s = (a, s) := rfl

variable {reader : Reader σ} {rest : σ → List Byte}

theorem getFourBytes_eq (h : Reads reader rest) (s : σ) :
    (getFourBytes reader s).1 = fourAt (rest s) 0 ∧ rest (getFourBytes reader s).2 =
      (rest s).drop 4 := by
  simp only [getFourBytes, h.getUInt16, uInt16, run_bind, run_pure]
  constructor
  · rw [join_bytes, h.getByte, h.getByte, h.getByte, h.getByte]
    simp only [h.rest_getByte, List.drop_drop, byteAt_drop, fourAt]
  · simp only [h.rest_getByte, List.drop_drop]

/-- A flag of the byte behind the length of the chunk. -/
theorem flag_skipped (h : Reads reader rest) (t : σ) (flag : BitVec 32) (hflag : flag.toNat < 256) :
    (reader.getByte (reader.skip 4 t).2).1 &&& flag = 0 ↔
    byteAt (rest t) 4 &&& flag.setWidth 8 = 0 := by
  rw [flag_eq_zero _ _ hflag, h.getByte, h.rest_skip, byteAt_drop]

/-- Where the parsers are once they have read the code of the chunk. -/
def behindCode (reader : Reader σ) (s : σ) : σ :=
  (getFourBytes reader (getFourBytes reader (reader.skip 4 (getFourBytes reader s).2).2).2).2

theorem header_eq (h : Reads reader rest) (s : σ) :
    (getFourBytes reader s).1 = fourAt (rest s) 0 ∧
      (getFourBytes reader (reader.skip 4 (getFourBytes reader s).2).2).1 = fourAt (rest s) 8 ∧
      (getFourBytes reader (getFourBytes reader (reader.skip 4 (getFourBytes reader s).2).2).2).1 =
        fourAt (rest s) 12 ∧
      rest (behindCode reader s) = (rest s).drop 16 := by
  obtain ⟨hfirst, hfirst_rest⟩ := getFourBytes_eq h s
  obtain ⟨hthird, hthird_rest⟩ := getFourBytes_eq h (reader.skip 4 (getFourBytes reader s).2).2
  obtain ⟨hfourth, hfourth_rest⟩ :=
    getFourBytes_eq h (getFourBytes reader (reader.skip 4 (getFourBytes reader s).2).2).2
  simp only [hthird_rest, h.rest_skip, hfirst_rest, List.drop_drop, fourAt_drop,
    Nat.reduceAdd] at hthird hfourth hfourth_rest
  exact ⟨hfirst, hthird, hfourth, hfourth_rest⟩

/-- The three flags that the parsers look for. -/
theorem flags_eq (h : Reads reader rest) (s : σ) :
    ((reader.getByte (reader.skip 4 (behindCode reader s)).2).1 &&& webpExtendedAnimFlag = 0 ↔
      byteAt (rest s) 20 &&& 0x02 = 0) ∧
      ((reader.getByte (reader.skip 4 (behindCode reader s)).2).1 &&& webpExtendedAlphaFlag = 0 ↔
        byteAt (rest s) 20 &&& 0x10 = 0) ∧
      ((reader.getByte (reader.skip 4 (behindCode reader s)).2).1 &&& webpLosslessAlphaFlag = 0 ↔
        byteAt (rest s) 20 &&& 0x08 = 0) := by
  have hflag (flag : BitVec 32) (hlt : flag.toNat < 256) :
      (reader.getByte (reader.skip 4 (behindCode reader s)).2).1 &&& flag = 0 ↔
      byteAt (rest s) 20 &&& flag.setWidth 8 = 0 := by
    rw [flag_skipped h _ flag hlt, (header_eq h s).2.2.2, byteAt_drop]
  exact ⟨hflag webpExtendedAnimFlag (by decide), hflag webpExtendedAlphaFlag (by decide),
    hflag webpLosslessAlphaFlag (by decide)⟩

theorem getType_eq (h : Reads reader rest) (s : σ) : (getType reader s).1 = typeOf (rest s) := by
  obtain ⟨hfirst, hthird, hfourth, -⟩ := header_eq h s
  obtain ⟨hanim, halpha, hlossless⟩ := flags_eq h s
  rw [behindCode] at hanim halpha hlossless
  rw [getType, run_bind, hfirst, typeOf]
  by_cases hriff : fourAt (rest s) 0 = riffHeader
  · by_cases hwebp : fourAt (rest s) 8 = webpHeader
    · simp only [hriff, hwebp, ne_eq, not_true_eq_false, if_false, or_self,
        run_bind, hthird, hfourth]
      by_cases hvp8 : fourAt (rest s) 12 = webpVp8Header
      · rw [if_pos hvp8, if_pos hvp8, run_pure]
      rw [if_neg hvp8, if_neg hvp8]
      by_cases hvp8l : fourAt (rest s) 12 = webpVp8lHeader
      · rw [if_pos hvp8l, if_pos hvp8l]
        simp only [run_bind, run_pure, hlossless]
      rw [if_neg hvp8l, if_neg hvp8l]
      by_cases hvp8x : fourAt (rest s) 12 = webpVp8xHeader
      · rw [if_pos hvp8x, if_pos hvp8x]
        simp only [run_bind, hanim, halpha]
        split_ifs <;> rfl
      · rw [if_neg hvp8x, if_neg hvp8x, run_pure]
    · simp [hriff, hwebp, run_bind, hthird, run_pure]
  · simp [hriff, run_pure]

end Parser

theorem low_signExtend (b : Byte) : (b.signExtend 32).setWidth 8 = b := by
  ext i hi
  rw [BitVec.getElem_setWidth, BitVec.getLsbD_signExtend]
  simp [hi, show i < 32 by omega]

theorem low_end : (-1 : BitVec 32).setWidth 8 = 0xFF := by decide

/-- A slice up to `n`, read at `pos`. -/
theorem byteAt_slice (data : List Byte) (n pos : Nat) :
    byteAt ((data.take n).drop pos) 0 = if h : pos < n ∧ pos < data.length then
      data.get ⟨pos, h.2⟩ else 0xFF := by
  rw [byteAt_drop, byteAt, List.getD_eq_getElem?_getD, Nat.add_zero, List.getElem?_take]
  split_ifs <;> simp_all

theorem drop_min (l : List Byte) (n : Nat) : l.drop (min l.length n) = l.drop n := by
  rcases Nat.le_total l.length n with h | h
  · rw [Nat.min_eq_left h, List.drop_length, List.drop_of_length_le h]
  · rw [Nat.min_eq_right h]

namespace ByteArrayReader

def rest (s : ByteArrayReader) : List Byte := (s.data.take (s.offset + s.size)).drop s.pos

theorem length_rest (s : ByteArrayReader) : s.rest.length = s.offset + s.size - s.pos := by
  have := s.size_le
  simp [rest, this]

theorem reads : Reads reader rest where
  getUInt16 := rfl
  getByte s := by
    have hle := s.size_le
    show (getByte s).1.setWidth 8 = _
    rw [rest, byteAt_slice]
    by_cases h : s.pos ≥ s.offset + s.size
    · rw [getByte, dif_pos h, dif_neg (by omega)]
      exact low_end
    · rw [getByte, dif_neg h, dif_pos (by omega)]
      exact low_signExtend _
  rest_getByte s := by
    show rest (getByte s).2 = _
    by_cases h : s.pos ≥ s.offset + s.size
    · have hnil : s.rest = [] := List.eq_nil_of_length_eq_zero (by rw [length_rest]; omega)
      rw [getByte, dif_pos h, hnil]
      rfl
    · rw [getByte, dif_neg h, rest, rest, List.drop_drop]
  rest_skip n s := by
    rw [← drop_min s.rest, length_rest]
    exact List.drop_drop.symm

end ByteArrayReader

namespace ByteBuffer

def rest (b : ByteBuffer) : List Byte := (b.bytes.take b.limit).drop b.position

theorem length_rest (b : ByteBuffer) : b.rest.length = b.remaining := by
  have := b.limit_le
  simp [rest, remaining, this]

theorem reads : Reads reader rest where
  getUInt16 := rfl
  getByte b := by
    have hle := b.limit_le
    have hremaining : b.remaining = b.limit - b.position := rfl
    show (getByte b).1.setWidth 8 = _
    rw [rest, byteAt_slice]
    by_cases h : b.remaining < 1
    · rw [getByte, dif_pos h, dif_neg (by omega)]
      exact low_end
    · rw [getByte, dif_neg h, dif_pos (by omega)]
      exact low_signExtend _
  rest_getByte b := by
    show rest (getByte b).2 = _
    by_cases h : b.remaining < 1
    · have hnil : b.rest = [] := List.eq_nil_of_length_eq_zero (by rw [length_rest]; omega)
      rw [getByte, dif_pos h, hnil]
      rfl
    · rw [getByte, dif_neg h, rest, rest, List.drop_drop]
  rest_skip n b := by
    rw [← drop_min b.rest, length_rest]
    exact List.drop_drop.symm

end ByteBuffer

namespace InputStream

theorem low_read (is : InputStream) : is.read.1.setWidth 8 = byteAt is.rest 0 := by
  rw [read]
  cases is.rest with
  | nil => exact low_end
  | cons b rest => exact BitVec.setWidth_setWidth_of_le b (by decide)

theorem rest_read (is : InputStream) : is.read.2.rest = is.rest.drop 1 := by
  rw [read]
  cases hrest : is.rest with
  | nil => exact hrest
  | cons b rest => rfl

theorem read_end (is : InputStream) : is.read.1 = -1 ↔ is.rest = [] := by
  rw [read]
  cases hrest : is.rest with
  | nil => simp
  | cons b rest =>
    simp only [reduceCtorEq, iff_false]
    bv_omega

theorem rest_skip (is : InputStream) (n : Nat) : (is.skip n).2.rest = is.rest.drop (is.skip n).1 :=
  rfl

theorem skip_le (is : InputStream) (n : Nat) : (is.skip n).1 ≤ n := Nat.min_le_right _ _

end InputStream

namespace StreamReader

/-- However few bytes each skip goes ahead, the loop goes ahead by all of them. -/
theorem rest_skipLoop (toSkip : Nat) (is : InputStream) :
    (skipLoop toSkip is).2.rest = is.rest.drop toSkip := by
  fun_induction skipLoop toSkip is with
  | case1 is => rfl
  | case2 toSkip is h skipped hskipped ih =>
    have hle : skipped.1 ≤ toSkip := is.skip_le toSkip
    rw [ih, is.rest_skip toSkip, List.drop_drop]
    congr 1
    exact Nat.add_sub_of_le hle
  | case3 toSkip is h skipped hskipped testEofByte hend =>
    have hzero : skipped.1 = 0 := by omega
    have hrest : skipped.2.rest = is.rest := by rw [is.rest_skip toSkip, hzero, List.drop_zero]
    rw [skipped.2.read_end, hrest] at hend
    rw [skipped.2.rest_read, hrest, hend, List.drop_nil, List.drop_nil]
  | case4 toSkip is h skipped hskipped testEofByte hend ih =>
    have hzero : skipped.1 = 0 := by omega
    have hrest : skipped.2.rest = is.rest := by rw [is.rest_skip toSkip, hzero, List.drop_zero]
    rw [ih, skipped.2.rest_read, hrest, List.drop_drop]
    congr 1
    omega

theorem reads : Reads reader InputStream.rest where
  getUInt16 := rfl
  getByte := InputStream.low_read
  rest_getByte := InputStream.rest_read
  rest_skip := rest_skipLoop

end StreamReader

/-- `getType(byte[] headers, int offset, int headerSize)`. -/
def getTypeOfArray (headers : List Byte) (offset headerSize : Nat)
    (h : offset + headerSize ≤ headers.length) : WebpImageType :=
  (getType ByteArrayReader.reader ⟨headers, offset, headerSize, offset, h⟩).1

def getTypeOfBuffer (byteBuffer : ByteBuffer) : WebpImageType :=
  (getType ByteBuffer.reader byteBuffer).1

/-- The stream is put back to where it was. -/
def getTypeOfStream (is : InputStream) : WebpImageType := (getType StreamReader.reader is).1

/-- The three readers give the parser the same bytes, wherever the sequence stands in
its array or buffer and however the stream skips: the type is the one of the bytes. -/
theorem getType_readers (bytes : List Byte) (skips : Nat → Nat)
    (before after before' after' : List Byte) :
    getTypeOfArray (before ++ bytes ++ after) before.length bytes.length (by simp) =
      getTypeOfStream ⟨bytes, skips, 0⟩ ∧
      getTypeOfBuffer ⟨before' ++ bytes ++ after', before'.length,
        before'.length + bytes.length, by simp⟩ =
        getTypeOfStream ⟨bytes, skips, 0⟩ ∧
      getTypeOfStream ⟨bytes, skips, 0⟩ = typeOf bytes := by
  have hstream : getTypeOfStream ⟨bytes, skips, 0⟩ = typeOf bytes := getType_eq StreamReader.reads _
  refine ⟨?_, ?_, hstream⟩
  · rw [hstream, getTypeOfArray, getType_eq ByteArrayReader.reads]
    simp [ByteArrayReader.rest, List.take_append]
  · rw [hstream, getTypeOfBuffer, getType_eq ByteBuffer.reads]
    simp [ByteBuffer.rest, List.take_append]

end WebpHeaderParser
