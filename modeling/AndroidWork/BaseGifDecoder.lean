import AndroidWork.GifLzwDecoder

/-!
# BaseGifDecoder over whole files

A stream is played while it is read. Raw data is listed first, and its frames are
played by index then. No size is required, there is memory for every bitmap and
none is recycled. `argb4444` is what a bitmap keeps of a colour. Frame data are
objects that are shared: a frame is given by its place in the list of them all.
-/
namespace BaseGifDecoder

open GifLzwDecoder (Byte Reader Source Buffers)

abbrev Color := BitVec 32

/-- Where Java throws; `cutOff` stands for a run that was given too few turns. -/
inductive Fault where
  | lzw (f : GifLzwDecoder.Fault)
  | bufferUnderflow
  | nullPointer
  | frameIndex
  | negativeArraySize
  | actIndex
  | destIndex
  | pixelsIndex
  | bitmapSize
  | cutOff
  deriving DecidableEq, Repr

/-- An `int`, from the number that it is the low bits of. -/
def int (x : Int) : Int := (BitVec.ofInt 32 x).toInt

/-- A colour table of 256 entries. -/
abbrev Table := Int → Color

structure Bitmap where
  width : Int
  height : Int
  pixels : Int → Color

structure GifFrame where
  image : Option Bitmap
  delay : Int
  index : Nat

structure GifFrameData where
  ix : Int
  iy : Int
  iw : Int
  ih : Int
  lctFlag : Bool
  interlace : Bool
  lctSize : Int
  lct : Option Table
  bufferFrameStart : Nat
  dispose : Int
  transparency : Bool
  delay : Int
  transIndex : Int

/-- `new GifFrameData()`. -/
def newFrameData : GifFrameData := ⟨0, 0, 0, 0, false, false, 0, none, 0, 0, false, 0, 0⟩

structure GifHeaderData where
  width : Int
  height : Int
  gctFlag : Bool
  gctSize : Int
  bgIndex : Int
  pixelAspect : Int
  frameCount : Nat
  gct : Option Table
  currentFrame : Option Nat
  frames : List Nat

/-- What playing a frame reads and writes, but for its data; `frames` is the list
from `mGifFrame` on. -/
structure Screen where
  width : Int
  height : Int
  bgColor : Color
  lastBgColor : Color
  image : Option Bitmap
  lrx : Int
  lry : Int
  lrw : Int
  lrh : Int
  lastImage : Option Bitmap
  lastDispose : Int
  frameCount : Nat
  frames : List GifFrame

structure Decoder where
  reader : Reader
  data : List Byte
  header : GifHeaderData
  objects : List GifFrameData
  screen : Screen
  buffers : Buffers
  loopCount : Int

theorem ok_bind {α β : Type} (a : α) (f : α → Except Fault β) : (Except.ok a >>= f) = f a := rfl

theorem error_bind {α β : Type} (e : Fault) (f : α → Except Fault β) :
    (Except.error e >>= f) = .error e := rfl

theorem bind_eq_ok {α β : Type} {x : Except Fault α} {f : α → Except Fault β} {b : β}
    (h : x >>= f = .ok b) :
    ∃ a, x = .ok a ∧ f a = .ok b := by
  cases x with
  | error e => cases h
  | ok a => exact ⟨a, rfl, h⟩

theorem bind_ne_error {α β : Type} {x : Except Fault α} {f : α → Except Fault β} {e : Fault}
    (hx : x ≠ .error e)
    (hf : ∀ a, f a ≠ .error e) : x >>= f ≠ .error e := by
  cases x with
  | error e' =>
    rintro ⟨⟩
    exact hx rfl
  | ok a => exact hf a

/-- `read() | (read() << 8)`, or the signed `getShort` of a byte buffer. -/
def readShort (r : Reader) : Except Fault (Int × Reader) :=
  match r.source with
  | .stream =>
    let high := r.read.2.read
    .ok ((BitVec.ofInt 32 r.read.1 ||| BitVec.ofInt 32 high.1 <<< 8).toInt, high.2)
  | .rawData =>
    match r.bytes with
    | low :: high :: bytes => .ok ((high ++ low).toInt, { r with bytes := bytes })
    | _ => .error .bufferUnderflow

/-- `skip`, at most `turns` blocks. -/
def skip : Nat → Reader → Except Fault Reader
  | 0, _ => .error .cutOff
  | turns + 1, r =>
    if 0 < r.read.1 ∧ r.readBlock.2.formatError = false then
      skip turns r.readBlock.2 else .ok r.readBlock.2

/-- Entry `i` of a colour table with these bytes. -/
def colorAt (c : List Byte) (ncolors : Nat) : Table := fun i =>
  if 0 ≤ i ∧ i < ncolors then
    0xff000000 ||| (c.getD (3 * i.toNat) 0).setWidth 32 <<< 16 |||
      (c.getD (3 * i.toNat + 1) 0).setWidth 32 <<< 8 |||
      (c.getD (3 * i.toNat + 2) 0).setWidth 32
  else 0

/-- A byte buffer that is too short leaves the bytes of the table zero. -/
def readColorTable (ncolors : Nat) (r : Reader) : Option Table × Reader :=
  match r.source with
  | .stream =>
    if r.bytes.length < 3 * ncolors then
      (none, { r with bytes := r.bytes.drop (3 * ncolors), formatError := true })
    else (some (colorAt (r.bytes.take (3 * ncolors)) ncolors),
      { r with bytes := r.bytes.drop (3 * ncolors) })
  | .rawData =>
    if r.bytes.length < 3 * ncolors then (some (colorAt [] ncolors), r)
    else (some (colorAt (r.bytes.take (3 * ncolors)) ncolors),
      { r with bytes := r.bytes.drop (3 * ncolors) })

def Decoder.withReader (s : Decoder) (r : Reader) : Decoder := { s with reader := r }

/-- `mStatus = STATUS_FORMAT_ERROR`. -/
def Decoder.fail (s : Decoder) : Decoder := s.withReader { s.reader with formatError := true }

/-- `currentFrame = new GifFrameData()`. -/
def Decoder.newFrame (s : Decoder) : Decoder :=
  { s with
    objects := s.objects ++ [newFrameData]
    header := { s.header with currentFrame := some s.objects.length } }

/-- A bit field of a byte that was read, which is -1 at the end of a stream. -/
def field (packed : Int) (mask : BitVec 32) : BitVec 32 := BitVec.ofInt 32 packed &&& mask

/-- The frame data with the fields of a graphic control extension. -/
def GifFrameData.controlled (frame : GifFrameData) (packed delay transIndex : Int) : GifFrameData :=
  let dispose := ((field packed 0x1c) >>> 2).toInt
  { frame with
    dispose := if dispose = 0 then 1 else dispose
    transparency := decide (field packed 1 ≠ 0)
    delay := if int (delay * 10) = 0 then 100 else int (delay * 10)
    transIndex := transIndex }

def readGraphicControlExt (frame : GifFrameData) (r : Reader) :
    Except Fault (GifFrameData × Reader) := do
  let r := r.read.2
  let packed := r.read
  let (delay, r) ← readShort packed.2
  let transIndex := r.read
  .ok (frame.controlled packed.1 delay transIndex.1, transIndex.2.read.2)

/-- The fields of an image descriptor, and the local colour table behind it. -/
def readDescriptor (frame : GifFrameData) (r : Reader) : Except Fault (GifFrameData × Reader) := do
  let (ix, r) ← readShort r
  let (iy, r) ← readShort r
  let (iw, r) ← readShort r
  let (ih, r) ← readShort r
  let packed := r.read
  let lctFlag := decide (field packed.1 0x80 ≠ 0)
  let lctSize := 2 <<< (field packed.1 7).toNat
  let (lct, r) := if lctFlag then readColorTable lctSize packed.2 else (none, packed.2)
  .ok ({ frame with
    ix := ix
    iy := iy
    iw := iw
    ih := ih
    lctFlag := lctFlag
    interlace := decide (field packed.1 0x40 ≠ 0)
    lctSize := lctSize
    lct := lct }, r)

/-- `dest[k] = c` for `n` places from `k` on. -/
def fillRow (size : Int) (c : Color) : Nat → Int → (Int → Color) → Except Fault (Int → Color)
  | 0, _, dest => .ok dest
  | n + 1, k, dest =>
    if 0 ≤ k ∧ k < size then fillRow size c n (k + 1) (Function.update dest k c)
      else .error .destIndex

/-- Fill the last image rectangle, `n` rows from row `i` on. -/
def Screen.fillRows (s : Screen) (size : Int) (c : Color) :
    Nat → Int → (Int → Color) → Except Fault (Int → Color)
  | 0, _, dest => .ok dest
  | n + 1, i, dest => do
    let n1 := int ((s.lry + i) * s.width + s.lrx)
    let dest ← fillRow size c (int (n1 + s.lrw) - n1).toNat n1 dest
    s.fillRows size c n (i + 1) dest

/-- `getFrameImage(n)`. -/
def Screen.getFrameImage (s : Screen) (n : Int) : Option Bitmap :=
  if n < 0 then none else s.frames[n.toNat]?.bind GifFrame.image

/-- The image that is looked up for a disposal of 3. -/
def Screen.beforeLast (s : Screen) : Option Bitmap :=
  if 0 < (s.frameCount : Int) - 2 then s.getFrameImage ((s.frameCount : Int) - 2 - 1) else none

/-- The screen with `mLastImage` as the last image's disposal wants it. -/
def Screen.recall (s : Screen) : Screen :=
  if s.lastDispose = 3 then { s with lastImage := s.beforeLast } else s

/-- Fill in starting image contents based on the last image's dispose code. -/
def Screen.startingContents (s : Screen) (frame : GifFrameData) (size : Int) :
    Except Fault (Int → Color) :=
  if 0 < s.lastDispose then
    match s.lastImage with
    | none => .ok fun _ => 0
    | some last =>
      if s.lastDispose = 2 then
        s.fillRows size (if frame.transparency then 0 else s.lastBgColor) s.lrh.toNat 0 last.pixels
      else .ok last.pixels
  else .ok fun _ => 0

structure Pass where
  pass : Int
  inc : Int
  iline : Int

/-- A pass over an interlaced image is over when its next line is not in it. -/
def Pass.turn (p : Pass) (ih : Int) : Pass :=
  if ih ≤ p.iline then
    if p.pass + 1 = 2 then ⟨2, p.inc, 4⟩
    else if p.pass + 1 = 3 then ⟨3, 4, 2⟩
    else if p.pass + 1 = 4 then ⟨4, 2, 1⟩
    else ⟨p.pass + 1, p.inc, p.iline⟩
  else p

/-- The line that row `i` of the data goes to, and the pass behind it. -/
def GifFrameData.lineOf (frame : GifFrameData) (i : Int) (p : Pass) : Int × Pass :=
  if frame.interlace then ((p.turn frame.ih).iline,
    { p.turn frame.ih with iline := (p.turn frame.ih).iline + (p.turn frame.ih).inc })
  else (i, p)

/-- Map `n` colours and insert them in the destination. -/
def copyRow (act : Table) (pixels : Nat × (Int → Byte)) (size : Int) :
    Nat → Int → Int → (Int → Color) → Except Fault (Int → Color)
  | 0, _, _, dest => .ok dest
  | n + 1, dx, sx, dest =>
    if 0 ≤ sx ∧ sx < pixels.1 then
      if act (pixels.2 sx).toNat = 0 then copyRow act pixels size n (dx + 1) (sx + 1) dest
      else if 0 ≤ dx ∧ dx < size then
        copyRow act pixels size n (dx + 1) (sx + 1)
          (Function.update dest dx (act (pixels.2 sx).toNat))
      else .error .destIndex
    else .error .pixelsIndex

/-- Copy a source line to the appropriate place. -/
def Screen.paintRow (s : Screen) (frame : GifFrameData) (act : Table) (pixels : Nat × (Int → Byte))
    (size i line : Int)
    (dest : Int → Color) : Except Fault (Int → Color) :=
  if line + frame.iy < s.height then
    let k := int ((line + frame.iy) * s.width)
    let dx := int (k + frame.ix)
    let dlim := if int (k + s.width) < int (dx + frame.iw) then
      int (k + s.width) else int (dx + frame.iw)
    copyRow act pixels size (dlim - dx).toNat dx (int (i * frame.iw)) dest
  else .ok dest

def Screen.paintRows (s : Screen) (frame : GifFrameData) (act : Table)
    (pixels : Nat × (Int → Byte)) (size : Int) :
    Nat → Int → Pass → (Int → Color) → Except Fault (Int → Color)
  | 0, _, _, dest => .ok dest
  | n + 1, i, p, dest => do
    let dest ← s.paintRow frame act pixels size i (frame.lineOf i p).1 dest
    s.paintRows frame act pixels size n (i + 1) (frame.lineOf i p).2 dest

variable (argb4444 : Color → Color)

/-- `Bitmap.createBitmap`, which refuses an empty bitmap. -/
def createBitmap (dest : Int → Color) (width height : Int) : Except Fault Bitmap :=
  if width ≤ 0 ∨ height ≤ 0 then .error .bitmapSize
    else .ok ⟨width, height, fun i => argb4444 (dest i)⟩

def Screen.setPixels (s : Screen) (frame : GifFrameData) (act : Table)
    (pixels : Nat × (Int → Byte)) :
    Except Fault Screen := do
  let size := int (s.width * s.height)
  if size < 0 then .error .negativeArraySize
  else
    let s := s.recall
    let dest ← s.startingContents frame size
    let dest ← s.paintRows frame act pixels size frame.ih.toNat 0 ⟨1, 8, 0⟩ dest
    let image ← createBitmap argb4444 dest s.width s.height
    .ok { s with image := some image }

/-- A frame at the end of the list. -/
def Screen.append (s : Screen) (delay : Int) (index : Nat) : Screen :=
  { s with frames := s.frames ++ [⟨s.image, delay, index⟩] }

/-- The frame is linked behind the last one. -/
def Screen.link (s : Screen) (delay : Int) : Except Fault Screen :=
  match s.frames.getLast? with
  | none => .ok (s.append delay 0)
  | some f => .ok (s.append delay (f.index + 1))

/-- The frame is linked behind the one before its index, or its image is put
into the frame that is there. -/
def Screen.linkAt (s : Screen) (frameIndex : Nat) (delay : Int) : Except Fault Screen :=
  match s.frames with
  | [] => .ok (s.append delay 0)
  | _ :: _ =>
    if frameIndex = 0 ∨ s.frames.length < frameIndex then .error .nullPointer
    else if s.frames.length = frameIndex then .ok (s.append delay frameIndex)
    else .ok { s with frames := s.frames.modify frameIndex fun f => { f with image := s.image } }

/-- The part of `resetFrame` that is about the screen. -/
def Screen.resetFrame (s : Screen) (frame : GifFrameData) : Screen :=
  { s with
    lastDispose := frame.dispose
    lrx := frame.ix
    lry := frame.iy
    lrw := frame.iw
    lrh := frame.ih
    lastImage := s.image
    lastBgColor := s.bgColor }

/-- And the part about the frame, which streams reuse. -/
def GifFrameData.reset (frame : GifFrameData) : GifFrameData :=
  { frame with dispose := 0, transparency := false, delay := 0, lct := none }

/-- From the pixels of a frame to the list of frames. -/
def Screen.showFrame (link : Screen → Int → Except Fault Screen) (s : Screen)
    (frame : GifFrameData) (act : Table)
    (pixels : Nat × (Int → Byte)) : Except Fault Screen := do
  let s ← Screen.setPixels argb4444 { s with frameCount := s.frameCount + 1 } frame act pixels
  let s ← link s frame.delay
  .ok (s.resetFrame frame)

/-- The active colour table with the transparent colour taken out, until the
frame is shown. -/
def GifFrameData.activeTable (frame : GifFrameData) (act : Table) : Except Fault Table :=
  if frame.transparency then
    if 0 ≤ frame.transIndex ∧ frame.transIndex < 256 then
      .ok (Function.update act frame.transIndex 0)
    else .error .actIndex
  else .ok act

/-- Where image data is read: raw data from the position of the frame on. -/
def Decoder.imageReader (s : Decoder) (frame : GifFrameData) : Reader :=
  match s.reader.source with
  | .stream => s.reader
  | .rawData => { s.reader with bytes := s.data.drop frame.bufferFrameStart }

/-- `decodeImageData(frame)`. -/
def Decoder.decodeImageData (turns : Nat) (frame : GifFrameData) (s : Decoder) :
    Except Fault Decoder :=
  match GifLzwDecoder.decodeImageData (BitVec.ofInt 32 frame.iw).toNat
    (BitVec.ofInt 32 frame.ih).toNat s.buffers
      (s.imageReader frame) turns with
  | .error f => .error (.lzw f)
  | .ok none => .error .cutOff
  | .ok (some (r, buffers)) => .ok { s with reader := r, buffers := buffers }

def Decoder.resetObject (s : Decoder) (ref : Nat) (frame : GifFrameData) : List GifFrameData :=
  match s.reader.source with
  | .stream => s.objects.set ref frame.reset
  | .rawData => s.objects

/-- What is left of the image data is skipped, `if (!mUseRawData)`. -/
def Decoder.leaveImage (turns : Nat) (s : Decoder) : Except Fault Reader :=
  match s.reader.source with
  | .stream => skip turns s.reader
  | .rawData => .ok s.reader

/-- With the global table, a background colour that is the transparent one is dropped. -/
def Screen.chooseBackground (s : Screen) (frame : GifFrameData) (bgIndex : Int) : Screen :=
  if frame.lctFlag = false ∧ bgIndex = frame.transIndex then { s with bgColor := 0 } else s

/-- What both `playSingleFrame` do, up to how the frame is linked. -/
def Decoder.playFrame (turns : Nat) (link : Screen → Int → Except Fault Screen)
    (ref : Nat) (s : Decoder) :
    Except Fault Decoder :=
  match s.objects[ref]? with
  | none => .error .nullPointer
  | some frame =>
    let s := { s with screen := s.screen.chooseBackground frame s.header.bgIndex }
    match if frame.lctFlag then frame.lct else s.header.gct with
    | none => .ok s.fail
    | some act =>
      if s.reader.formatError then .ok s
      else do
        let act ← frame.activeTable act
        let s ← s.decodeImageData turns frame
        let r ← s.leaveImage turns
        if r.formatError then .ok (s.withReader r)
        else
          match s.buffers.pixels with
          | none => .error .nullPointer
          | some pixels => do
            let screen ← Screen.showFrame argb4444 link s.screen frame act pixels
            .ok { s with reader := r, screen := screen, objects := s.resetObject ref frame }

def Decoder.playSingleFrame (turns ref : Nat) (s : Decoder) : Except Fault Decoder :=
  s.playFrame argb4444 turns Screen.link ref

def Decoder.playSingleFrameAt (turns ref frameIndex : Nat) (s : Decoder) : Except Fault Decoder :=
  s.playFrame argb4444 turns (fun screen delay => screen.linkAt frameIndex delay) ref

/-- Raw data: the frame is listed with the place of its image data. -/
def Decoder.listFrame (turns ref : Nat) (s : Decoder) : Except Fault Decoder := do
  let s := { s with objects := s.objects.modify ref fun frame =>
    { frame with bufferFrameStart := s.data.length - s.reader.bytes.length } }
  if s.reader.formatError then .ok s
  else
    let r ← skip turns s.reader.read.2
    .ok { s with
      reader := r
      header := { s.header with frameCount := s.header.frameCount + 1, frames :=
        s.header.frames ++ [ref] } }

def Decoder.readImage (turns ref : Nat) (s : Decoder) : Except Fault Decoder :=
  match s.objects[ref]? with
  | none => .error .nullPointer
  | some frame => do
    let (frame, r) ← readDescriptor frame s.reader
    let s := { s with reader := r, objects := s.objects.set ref frame }
    match r.source with
    | .rawData => s.listFrame turns ref
    | .stream => s.playSingleFrame argb4444 turns ref

/-- The loop count of a NETSCAPE block that has one. Behind a shorter block the source reads what
earlier blocks have left in `mBlock`, which is not modelled: nothing but the loop count depends on
it. -/
def loopCountOf (block : List Byte) (loopCount : Int) : Int :=
  match block with
  | b0 :: b1 :: b2 :: _ => if b0 = 1 then (b2 ++ b1).toNat else loopCount
  | _ => loopCount

/-- `readNetscapeExt`, at most `turns` blocks. -/
def Decoder.readNetscapeExt : Nat → Decoder → Except Fault Decoder
  | 0, _ => .error .cutOff
  | turns + 1, s =>
    let s' :=
      { s with reader := s.reader.readBlock.2, loopCount :=
        loopCountOf s.reader.readBlock.1 s.loopCount }
    if 0 < s.reader.read.1 ∧ s'.reader.formatError = false then s'.readNetscapeExt turns else .ok s'

/-- "NETSCAPE2.0" -/
def netscape : List Byte := [0x4e, 0x45, 0x54, 0x53, 0x43, 0x41, 0x50, 0x45, 0x32, 0x2e, 0x30]

/-- An extension, behind its introducer. -/
def Decoder.readExtension (turns : Nat) (s : Decoder) : Except Fault Decoder :=
  let code := s.reader.read.1
  let s := s.withReader s.reader.read.2
  if code = 0xf9 then
    let s := s.newFrame
    (readGraphicControlExt newFrameData s.reader).map fun p =>
      { s with reader := p.2, objects := s.objects.set (s.objects.length - 1) p.1 }
  else if code = 0xff then
    let (block, r) := s.reader.readBlock
    -- a block of fewer than eleven bytes is no NETSCAPE block here, whatever `mBlock` has behind it
    if block.take 11 = netscape then (s.withReader r).readNetscapeExt turns
    else (skip turns r).map s.withReader
  else (skip turns s.reader).map s.withReader

/-- One turn of `readContents`; `true` is its `done`. -/
def Decoder.readContent (turns : Nat) (s : Decoder) : Except Fault (Bool × Decoder) :=
  let code := s.reader.read.1
  let s := s.withReader s.reader.read.2
  if code = 0x2C then
    let s := if s.header.currentFrame = none then s.newFrame else s
    match s.header.currentFrame with
    | none => .error .nullPointer
    | some ref => (s.readImage argb4444 turns ref).map fun s => (false, s)
  else if code = 0x21 then (s.readExtension turns).map fun s => (false, s)
  else if code = 0x3b then .ok (true, s)
  else if code = 0 then .ok (false, s)
  else .ok (false, s.fail)

/-- How a run ends: the decoder, and what was thrown. -/
structure Ended where
  decoder : Decoder
  fault : Option Fault

/-- The turns of `readContents`; every part of one has `turns` turns too. -/
def Decoder.readContents (turns : Nat) : Nat → Decoder → Ended
  | 0, s => ⟨s, some .cutOff⟩
  | n + 1, s =>
    if s.reader.formatError then ⟨s, none⟩
    else
      match s.readContent argb4444 turns with
      | .error e => ⟨s, some e⟩
      | .ok (true, s) => ⟨s, none⟩
      | .ok (false, s) => s.readContents turns n

def readLSD (s : Decoder) : Except Fault Decoder := do
  let (width, r) ← readShort s.reader
  let (height, r) ← readShort r
  let packed := r.read
  let bgIndex := packed.2.read
  let pixelAspect := bgIndex.2.read
  .ok { s with
    reader := pixelAspect.2
    screen := { s.screen with width := width, height := height }
    header := { s.header with
      width := width
      height := height
      gctFlag := decide (field packed.1 0x80 ≠ 0)
      gctSize := 2 <<< (field packed.1 7).toNat
      bgIndex := bgIndex.1
      pixelAspect := pixelAspect.1 } }

/-- `n` bytes one by one. -/
def readId : Nat → Reader → List Int × Reader
  | 0, r => ([], r)
  | n + 1, r => (r.read.1 :: (readId n r.read.2).1, (readId n r.read.2).2)

def readHeader (s : Decoder) : Except Fault Decoder :=
  let (id, r) := readId 6 s.reader
  let s := s.withReader r
  if id.take 3 = [0x47, 0x49, 0x46] then do
    let s ← readLSD s
    if s.header.gctFlag = true ∧ s.reader.formatError = false then
      match readColorTable s.header.gctSize.toNat s.reader with
      | (none, r) => .ok (s.withReader { r with formatError := true })
      | (some gct, r) =>
        if 0 ≤ s.header.bgIndex ∧ s.header.bgIndex < 256 then
          .ok { s with
            reader := r
            header := { s.header with gct := some gct }
            screen := { s.screen with bgColor := gct s.header.bgIndex } }
        else .error .actIndex
    else .ok s
  else .ok s.fail

/-- A new decoder behind `init`. -/
def initial (source : Source) (data : List Byte) : Decoder where
  reader := ⟨source, data, false⟩
  data := data
  header := ⟨0, 0, false, 0, 0, 0, 0, none, none, []⟩
  objects := []
  screen := ⟨0, 0, 0, 0, none, 0, 0, 0, 0, none, 0, 0, []⟩
  buffers := ⟨none, fun _ => 0, fun _ => 0⟩
  loopCount := 1

/-- The header and the contents of a file. -/
def readFile (turns : Nat) (source : Source) (data : List Byte) : Ended :=
  match readHeader (initial source data) with
  | .error e => ⟨initial source data, some e⟩
  | .ok s => if s.reader.formatError then ⟨s, none⟩ else s.readContents argb4444 turns turns

def readStream (turns : Nat) (data : List Byte) : Ended := readFile argb4444 turns .stream data

/-- The frames at these places of the list, played one after the other. -/
def Decoder.playIndices (turns : Nat) : List Nat → Decoder → Ended
  | [], s => ⟨s, none⟩
  | index :: indices, s =>
    match s.header.frames[index]? with
    | none => ⟨s, some .frameIndex⟩
    | some ref =>
      match s.playSingleFrameAt argb4444 turns ref index with
      | .error e => ⟨s, some e⟩
      | .ok s => s.playIndices turns indices

/-- What `playImages` starts a round with. -/
def Decoder.beginRound (s : Decoder) : Decoder :=
  { s with
    reader := { s.reader with formatError := false }
    screen := { s.screen with
      lastBgColor := 0
      lastImage := none
      lastDispose := 0
      frameCount := 0
      frames := [] } }

/-- `playImages`, for a round that takes every index once and in order. -/
def Decoder.playImages (turns : Nat) (s : Decoder) : Ended :=
  if s.header.frameCount = 0 then ⟨s.fail, none⟩
  else s.beginRound.playIndices argb4444 turns (List.range s.header.frameCount)

/-- The frames are listed, and one round is played. -/
def readRawData (turns : Nat) (data : List Byte) : Ended :=
  let listed := readFile argb4444 turns .rawData data
  if listed.fault.isSome ∨ listed.decoder.reader.formatError then listed
  else listed.decoder.playImages argb4444 turns

end BaseGifDecoder
