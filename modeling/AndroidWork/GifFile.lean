import AndroidWork.BaseGifDecoder
import AndroidWork.GifLzwStream

/-!
# GIF89a files

A file as its screen descriptor, a global colour table and blocks, the bytes it
consists of, and what the readers of BaseGifDecoder make of them.
-/
namespace GifFile

open BaseGifDecoder
open BitPacking (toBytes)
open GifLzwDecoder (Byte Reader Source Spelled)
open SubBlocks (Blocks)

/-- Bit 7 of a packed byte: a colour table follows. -/
def hasTable (packed : Byte) : Prop := packed &&& 0x80 ≠ 0

instance (packed : Byte) : Decidable (hasTable packed) := inferInstanceAs (Decidable (_ ≠ _))

/-- The number of colours, from the low bits of a packed byte. -/
def tableSize (packed : Byte) : Nat := 2 <<< (packed &&& 7).toNat

/-- A graphic control extension. -/
structure Control where
  packed : Byte
  delay : BitVec 16
  transIndex : Byte

/-- An image, its data complete: they spell a pixel for every place. -/
structure Image where
  left : BitVec 16
  top : BitVec 16
  width : BitVec 16
  height : BitVec 16
  packed : Byte
  lct : List Byte
  rootBits : Nat
  data : List Byte
  pixels : List Byte
  table : lct.length = if hasTable packed then 3 * tableSize packed else 0
  spelled : ∀ rest, Spelled rootBits (data ++ rest) rest pixels
  complete : pixels.length = width.toNat * height.toNat

/-- Any other extension; that of an application starts with a block for its name. -/
structure Extension where
  label : Byte
  bytes : List Byte
  other : label ≠ 0xf9
  blocks : ∃ content, (label = 0xff → content ≠ []) ∧ ∀ rest, Blocks (bytes ++ rest) content rest

inductive Block where
  | control (c : Control)
  | image (i : Image)
  | extension (e : Extension)

def Control.bytes (c : Control) : List Byte :=
  [4, c.packed] ++ toBytes 2 c.delay.toNat ++ [c.transIndex, 0]

def Image.descriptor (i : Image) : List Byte :=
  toBytes 2 i.left.toNat ++ (toBytes 2 i.top.toNat ++
    (toBytes 2 i.width.toNat ++ (toBytes 2 i.height.toNat ++ i.packed :: i.lct)))

def Block.bytes : Block → List Byte
  | .control c => [0x21, 0xf9] ++ c.bytes
  | .image i => 0x2C :: (i.descriptor ++ i.data)
  | .extension e => [0x21, e.label] ++ e.bytes

/-- A file in which every image has a colour table. -/
structure File where
  width : BitVec 16
  height : BitVec 16
  packed : Byte
  bgIndex : Byte
  aspect : Byte
  gct : List Byte
  blocks : List Block
  table : gct.length = if hasTable packed then 3 * tableSize packed else 0
  coloured : ∀ i, .image i ∈ blocks → hasTable i.packed ∨ hasTable packed

def File.header (f : File) : List Byte :=
  [0x47, 0x49, 0x46, 0x38, 0x39, 0x61] ++ (toBytes 2 f.width.toNat ++ (toBytes 2 f.height.toNat ++
    ([f.packed, f.bgIndex, f.aspect] ++ f.gct)))

/-- The bytes of a file, up to the trailer. -/
def File.bytes (f : File) : List Byte := f.header ++ (f.blocks.flatMap Block.bytes ++ [0x3b])

/-- A field of two bytes, as the source gives it. -/
def short (source : Source) (v : BitVec 16) : Int :=
  match source with
  | .stream => v.toNat
  | .rawData => v.toInt

variable (source : Source)

/-- The frame data that a graphic control extension makes. -/
def Control.frame (c : Control) : GifFrameData :=
  newFrameData.controlled c.packed.toNat (short source c.delay) c.transIndex.toNat

/-- Frame data with what an image descriptor and a local colour table say. -/
def Image.describe (i : Image) (frame : GifFrameData) : GifFrameData :=
  { frame with
    ix := short source i.left
    iy := short source i.top
    iw := short source i.width
    ih := short source i.height
    lctFlag := decide (hasTable i.packed)
    interlace := decide (i.packed &&& 0x40 ≠ 0)
    lctSize := tableSize i.packed
    lct := if hasTable i.packed then some (colorAt i.lct (tableSize i.packed)) else none }

variable {source} {post : List Byte}

theorem field_toNat : ∀ packed : Byte, (field packed.toNat 0x80 ≠ 0 ↔ hasTable packed) ∧
    (field packed.toNat 0x40 ≠ 0 ↔ packed &&& 0x40 ≠ 0) ∧ 2 <<< (field packed.toNat 7).toNat =
      tableSize packed := by
  decide +kernel

theorem or_shift (low high : Byte) :
    (BitVec.ofInt 32 low.toNat ||| BitVec.ofInt 32 high.toNat <<< 8).toInt =
      low.toNat + 2 ^ 8 * high.toNat := by
  have hlow := low.isLt
  have hhigh := high.isLt
  have hnat : (BitVec.ofInt 32 low.toNat ||| BitVec.ofInt 32 high.toNat <<< 8).toNat =
      low.toNat + 2 ^ 8 * high.toNat := by
    rw [BitVec.ofInt_natCast, BitVec.ofInt_natCast, BitVec.toNat_or, BitVec.toNat_shiftLeft,
      BitVec.toNat_ofNat,
      BitVec.toNat_ofNat, Nat.mod_eq_of_lt (by omega),
      Nat.mod_eq_of_lt (by omega), Nat.shiftLeft_eq,
      Nat.mod_eq_of_lt (by omega), Nat.or_comm, ← Nat.shiftLeft_eq,
      ← Nat.shiftLeft_add_eq_or_of_lt hlow,
      Nat.shiftLeft_eq]
    omega
  rw [BitVec.toInt_eq_toNat_of_lt (by omega), hnat]
  push_cast
  rfl

theorem readShort_at (v : BitVec 16) :
    readShort ⟨source, toBytes 2 v.toNat ++ post, false⟩ =
      .ok (short source v, ⟨source, post, false⟩) := by
  have hv := v.isLt
  have hlow : (BitVec.ofNat 8 v.toNat).toNat = v.toNat % 2 ^ 8 := BitVec.toNat_ofNat _ _
  have hhigh : (BitVec.ofNat 8 (v.toNat / 2 ^ 8)).toNat = v.toNat / 2 ^ 8 := by
    rw [BitVec.toNat_ofNat, Nat.mod_eq_of_lt (by omega)]
  cases source with
  | stream =>
    simp only [readShort, toBytes, List.cons_append, List.nil_append, Reader.read, short]
    rw [or_shift, hlow, hhigh]
    congr 2
    omega
  | rawData =>
    have hvalue : BitVec.ofNat 8 (v.toNat / 2 ^ 8) ++ BitVec.ofNat 8 v.toNat = v := by
      rw [← BitVec.toNat_inj, BitVec.toNat_append, hlow, hhigh,
        ← Nat.shiftLeft_add_eq_or_of_lt (Nat.mod_lt _ (by decide)),
        Nat.shiftLeft_eq]
      omega
    simp only [readShort, toBytes, List.cons_append, List.nil_append, hvalue, short]

theorem readColorTable_at {c : List Byte} {ncolors : Nat} (h : c.length = 3 * ncolors) :
    readColorTable ncolors ⟨source, c ++ post, false⟩ =
      (some (colorAt c ncolors), ⟨source, post, false⟩) := by
  have hlen : ¬ (c ++ post).length < c.length := by
    rw [List.length_append]
    omega
  cases source with
  | stream => simp only [readColorTable, ← h, if_neg hlen, List.take_left, List.drop_left]
  | rawData => simp only [readColorTable, ← h, if_neg hlen, List.take_left, List.drop_left]

theorem readDescriptor_fields (frame : GifFrameData) (left top width height : BitVec 16)
    (packed : Byte) {lct : List Byte}
    (htable : lct.length = if hasTable packed then 3 * tableSize packed else 0) :
    readDescriptor frame ⟨source, toBytes 2 left.toNat ++
      (toBytes 2 top.toNat ++ (toBytes 2 width.toNat ++
        (toBytes 2 height.toNat ++ packed :: (lct ++ post)))), false⟩ =
      .ok ({ frame with
        ix := short source left
        iy := short source top
        iw := short source width
        ih := short source height
        lctFlag := decide (hasTable packed)
        interlace := decide (packed &&& 0x40 ≠ 0)
        lctSize := tableSize packed
        lct := if hasTable packed then some (colorAt lct (tableSize packed)) else none },
          ⟨source, post, false⟩) := by
  obtain ⟨hflag, hinterlace, hsize⟩ := field_toNat packed
  simp only [readDescriptor, readShort_at, ok_bind, Reader.read, hflag, hinterlace, hsize]
  by_cases h : hasTable packed
  · rw [if_pos h] at htable
    simp only [h, decide_true, if_true, readColorTable_at htable]
  · rw [if_neg h] at htable
    have hnil := List.eq_nil_of_length_eq_zero htable
    simp only [h, decide_false, if_false, hnil, List.nil_append]
    rfl

/-- A stream that ends inside the colour table. -/
theorem readDescriptor_cutOff (frame : GifFrameData) (left top width height : BitVec 16)
    {packed : Byte} {lct : List Byte}
    (htable : hasTable packed) (hlength : lct.length < 3 * tableSize packed) :
    ∃ frame', readDescriptor frame ⟨.stream,
      toBytes 2 left.toNat ++ (toBytes 2 top.toNat ++ (toBytes 2 width.toNat ++
        (toBytes 2 height.toNat ++ packed :: lct))), false⟩ = .ok (frame', ⟨.stream, [], true⟩) ∧
      frame'.lctFlag = true ∧ frame'.lct = none := by
  obtain ⟨hflag, -, hsize⟩ := field_toNat packed
  have hread : readColorTable (tableSize packed) ⟨.stream, lct, false⟩ =
      (none, ⟨.stream, [], true⟩) := by
    simp only [readColorTable, if_pos hlength, List.drop_eq_nil_of_le hlength.le]
  simp only [readDescriptor, readShort_at, ok_bind, Reader.read, hflag, hsize, htable,
    decide_true, if_true, hread]
  exact ⟨_, rfl, rfl, rfl⟩

theorem readDescriptor_at (i : Image) (frame : GifFrameData) :
    readDescriptor frame ⟨source, i.descriptor ++ post, false⟩ =
      .ok (i.describe source frame, ⟨source, post, false⟩) := by
  simp only [Image.descriptor, List.append_assoc, List.cons_append]
  exact readDescriptor_fields frame i.left i.top i.width i.height i.packed i.table

theorem readGraphicControlExt_at (c : Control) :
    readGraphicControlExt newFrameData ⟨source, c.bytes ++ post, false⟩ =
      .ok (c.frame source, ⟨source, post, false⟩) := by
  simp only [readGraphicControlExt, Control.bytes, List.append_assoc, List.cons_append,
    List.nil_append, Reader.read,
    readShort_at, ok_bind, Control.frame]

theorem readBlock_stop (rest : List Byte) :
    (⟨source, 0 :: rest, false⟩ : Reader).readBlock = ([], ⟨source, rest, false⟩) := rfl

/-- Blocks are skipped with their terminator. -/
theorem skip_blocks (source : Source) {bytes data rest : List Byte} (h : Blocks bytes data rest) :
    ∃ n, ∀ turns ≥ n, skip turns ⟨source, bytes, false⟩ = .ok ⟨source, rest, false⟩ := by
  induction h with
  | stop rest =>
    refine ⟨1, fun turns hturns => ?_⟩
    obtain ⟨turns, rfl⟩ : ∃ t, turns = t + 1 := ⟨turns - 1, by omega⟩
    rw [skip, readBlock_stop]
    exact if_neg fun h => lt_irrefl (0 : Int) h.1
  | @block bytes data rest size chunk hpos hsize h ih =>
    obtain ⟨n, hn⟩ := ih
    refine ⟨n + 1, fun turns hturns => ?_⟩
    obtain ⟨turns, rfl⟩ : ∃ t, turns = t + 1 := ⟨turns - 1, by omega⟩
    have hsize' : 0 < ((⟨source, size :: (chunk ++ bytes), false⟩ : Reader).read).1 := by
      have := List.length_pos_iff.mpr hpos
      show 0 < (size.toNat : Int)
      omega
    rw [skip, GifLzwDecoder.readBlock_block hpos hsize, if_pos ⟨hsize', rfl⟩]
    exact hn turns (by omega)

end GifFile
