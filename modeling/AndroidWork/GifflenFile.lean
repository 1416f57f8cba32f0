import AndroidWork.GifExport
import AndroidWork.GifGraphics
import AndroidWork.GifInputStream
import AndroidWork.GifLzwImages

/-!
# The files of Gifflen

`init`, `addFrame` and `close` write a file byte by byte. `quantise` stands for
the quantiser, whose palette and indices are what is written. The file is held
against what BaseGifDecoder reads from it as a stream.
-/
namespace GifflenFile

open BaseGifDecoder
open BaseGifDecoder.InputStream (forImage)
open GifExport (cutOff transparentColorIndex)
open GifLzwDecoder (Byte imagePhrases)
open GifLzwEncoder (DIB maxBits gifLzwCompressor rastersFor)

abbrev Pixel := BitVec 32

/-- What `quantise` leaves in `outDIB`. -/
structure Quantised where
  palette : Nat → Byte
  bits : Nat → Byte

/-- What `init` keeps, `rasters` of the compressor, and the bytes of the file. -/
structure Gifflen where
  imgw : Nat
  imgh : Nat
  optCol : Nat
  size_lt : imgw * imgh < 2 ^ 31
  rasters : Nat → Nat
  file : List Byte

/-- The arguments of `init`, as far as the file depends on them. -/
structure Settings where
  w : Nat
  h : Nat
  numColors : Nat
  loopNum : Int
  width : 0 < w ∧ w ≤ 65535
  height : 0 < h ∧ h ≤ 768
  colours : 2 ≤ numColors ∧ numColors ≤ 256

theorem Settings.small (g : Settings) : g.w * g.h < 2 ^ 30 :=
  calc g.w * g.h ≤ 65535 * 768 := Nat.mul_le_mul g.width.2 g.height.2
    _ < 2 ^ 30 := by decide

theorem Settings.size_lt (g : Settings) : g.w * g.h < 2 ^ 31 := g.small.trans (by decide)

/-- The GIF header and the Netscape extension. -/
def init (g : Settings) (rasters : Nat → Nat) : Gifflen where
  imgw := g.w
  imgh := g.h
  optCol := g.numColors
  size_lt := g.size_lt
  rasters := rasters
  file := [0x47, 0x49, 0x46, 0x38, 0x39, 0x61] ++ (cutOff g.w ++ (cutOff g.h ++
    ([0x50 + BitVec.ofNat 8 (maxBits g.numColors) - 1, 0, 0] ++
      ([0x21, 0xff, 0x0b] ++ netscape ++ [3, 1] ++
      cutOff g.loopNum ++ [0]))))

section

variable (quantise : List Pixel → Quantised)

/-- The quantised image. -/
def outDIB (g : Gifflen) (data : List Pixel) : DIB :=
  ⟨g.imgw, g.imgh, g.size_lt, (quantise (data.take (g.imgw * g.imgh))).bits⟩

/-- The palette entries that are written. -/
def paletteBytes (q : Quantised) (optCol : Nat) : List Byte :=
  (List.range (optCol * 3)).map q.palette

/-- `addFrame`, with its result. -/
def Gifflen.addFrame (g : Gifflen) (data : List Pixel) (delay : Int) : Option (Int × Gifflen) :=
  if data.length < g.imgw * g.imgh then some (-1, g)
  else
    (gifLzwCompressor (outDIB quantise g data) g.optCol g.rasters).map fun codes =>
      (0, { g with
        rasters := rastersFor (outDIB quantise g data) g.rasters
        file := g.file ++ ([0x21, 0xf9, 4, 9] ++ cutOff delay ++ [transparentColorIndex, 0] ++
          (0x2c :: ([0, 0, 0, 0] ++ cutOff g.imgw ++ cutOff g.imgh ++
            [0x80 + BitVec.ofNat 8 (maxBits g.optCol) - 1] ++
            paletteBytes (quantise (data.take (g.imgw * g.imgh))) g.optCol ++ codes))) })

def Gifflen.close (g : Gifflen) : List Byte := g.file ++ [0x3b]

/-- Pixels enough for an image, shown for a hundredth of a second or more. -/
structure Frame (total : Nat) where
  data : List Pixel
  delay : Int
  enough : total ≤ data.length
  shown : 0 < delay

def Gifflen.addFrames {total : Nat} : Gifflen → List (Frame total) → Option Gifflen
  | g, [] => some g
  | g, frame :: frames =>
    (g.addFrame quantise frame.data frame.delay).bind fun r => r.2.addFrames frames

/-- The file with these frames. -/
def writeFile (g : Settings) (rasters : Nat → Nat) (frames : List (Frame (g.w * g.h))) :
    Option (List Byte) :=
  ((init g rasters).addFrames quantise frames).map Gifflen.close

end

end GifflenFile

namespace BaseGifDecoder

open GifLzwDecoder (Byte)
open InputStream (forImage)

/-- The frame data and the pixels of the image that a turn comes to. -/
def Decoder.imageRead (turns : Nat) (s : Decoder) : Option (GifFrameData × (Nat × (Int → Byte))) :=
  match (forImage s).header.currentFrame.bind fun ref => (forImage s).objects[ref]? with
  | none => none
  | some object =>
    match readDescriptor object (forImage s).reader with
    | .error _ => none
    | .ok (frame, r) =>
      match Decoder.decodeImageData turns frame { forImage s with reader := r } with
      | .error _ => none
      | .ok s => s.buffers.pixels.map fun pixels => (frame, pixels)

variable (argb4444 : Color → Color)

/-- The images that the turns of `readContents` come to. -/
def Decoder.imagesRead (turns : Nat) : Nat → Decoder → List (GifFrameData × (Nat × (Int → Byte)))
  | 0, _ => []
  | n + 1, s =>
    if s.reader.formatError then []
    else
      match s.readContent argb4444 turns with
      | .ok (false, s') =>
        (if s.reader.read.1 = 0x2C then (s.imageRead turns).toList else []) ++ s'.imagesRead turns n
      | _ => []

def imagesOf (turns : Nat) (data : List Byte) : List (GifFrameData × (Nat × (Int → Byte))) :=
  match readHeader (initial .stream data) with
  | .error _ => []
  | .ok s => if s.reader.formatError then [] else s.imagesRead argb4444 turns turns

end BaseGifDecoder

namespace GifflenFile

open BaseGifDecoder
open GifLzwDecoder (Byte imagePhrases)
open GifLzwEncoder (DIB maxBits rootBits)

section

variable (argb4444 : Color → Color) (quantise : List Pixel → Quantised) (g : Settings)

/-- Entry `i` of a palette, as a colour. -/
def entry (palette : Nat → Byte) (i : Nat) : Color :=
  0xff000000 ||| (palette (3 * i)).setWidth 32 <<< 16 |||
    (palette (3 * i + 1)).setWidth 32 <<< 8 |||
    (palette (3 * i + 2)).setWidth 32

/-- What the quantiser makes of a frame. -/
def Frame.quantised {total : Nat} (frame : Frame total) : Quantised :=
  quantise (frame.data.take total)

/-- The image that is read is the frame that was written. -/
structure Frame.ReadAs (frame : Frame (g.w * g.h))
    (p : GifFrameData × (Nat × (Int → Byte))) : Prop where
  width : p.1.iw = g.w
  height : p.1.ih = g.h
  delay : p.1.delay = 10 * frame.delay
  palette : ∃ lct, p.1.lct = some lct ∧ ∀ i < g.numColors,
    lct i = entry (frame.quantised quantise).palette i
  pixels : ∀ i < g.w * g.h, p.2.2 i = (frame.quantised quantise).bits i

/-- The file is read to its end, frame after frame. -/
def ReadsBack (rasters : Nat → Nat) (frames : List (Frame (g.w * g.h))) : Prop :=
  ∃ bytes, writeFile quantise g rasters frames = some bytes ∧ ∃ n, ∀ turns ≥ n,
    (readStream argb4444 turns bytes).fault = none ∧
    (readStream argb4444 turns bytes).decoder.reader = ⟨.stream, [], false⟩ ∧
    (readStream argb4444 turns bytes).decoder.screen.frames.map GifFrame.delay =
      frames.map (fun frame => 10 * frame.delay) ∧
    List.Forall₂ (Frame.ReadAs quantise g) frames (imagesOf argb4444 turns bytes)

/-- The codes at the end are three bits wide and leave half a byte, which three
more bits do not fill. -/
def CutShort (img : DIB) (numColors : Nat) : Prop :=
  numColors ≤ 4 ∧ ((imagePhrases img 2).length - 1) % 4091 < 3 ∧
    ((imagePhrases img 2).length - 1) % 4091 % 8 =
      (((imagePhrases img 2).length - 1) / 4091 + 1) % 8

/-- The frame's table is as long as it is said to be, its delay has two bytes,
its indices have codes, and its last codes are written. -/
structure Frame.Writable (frame : Frame (g.w * g.h)) : Prop where
  table : g.numColors = 2 ^ maxBits g.numColors
  delay : frame.delay < 65536
  indices : ∀ i < g.w * g.h, ((frame.quantised quantise).bits i).toNat < 2 ^ rootBits g.numColors
  flushed : ¬ CutShort ⟨g.w, g.h, g.size_lt, (frame.quantised quantise).bits⟩ g.numColors

end

end GifflenFile
