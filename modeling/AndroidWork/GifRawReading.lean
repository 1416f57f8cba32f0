import AndroidWork.GifCanvasPlaces
import AndroidWork.SteppedRuns

/-!
# Reading raw data that may be dropped

`readHeader` and `readContents` of BaseGifDecoder for raw data, one read at a
time: between two reads `free` may drop the data. A machine stands at the place
of its next read, with the local variables that are used behind it.
-/
namespace GifRawReading

open BaseGifDecoder
open GifLzwDecoder (Byte Reader)

inductive Thrown where
  | bufferUnderflow
  | arithmetic
  deriving DecidableEq, Repr

/-- The loops over blocks: `skip` behind an extension and behind the image data, and
`readNetscapeExt`. -/
inductive Blocks where
  | extension
  | netscape
  | image
  deriving DecidableEq, Repr

/-- The next read. -/
inductive Point where
  -- readHeader
  | id (chars : List Byte)
  -- readLSD
  | width
  | height (width : Int)
  | lsdPacked
  | bgIndex
  | pixelAspect
  | globalTable
  -- readContents
  | code
  | label
  -- readGraphicControlExt
  | gceBlockSize
  | gcePacked
  | gceDelay (packed : Byte)
  | transIndex (packed : Byte) (delay : Int)
  | gceTerminator
  -- readBlock, of an application extension and in a loop
  | appBlockSize
  | appBlock (size : Byte)
  | blockSize (blocks : Blocks)
  | block (blocks : Blocks) (size : Byte)
  -- readImage
  | ix
  | iy
  | iw
  | ih
  | imagePacked
  | localTable (lctSize : Nat)
  | position
  | codeSize
  | finished
  deriving DecidableEq, Repr

/-- How far it is from a point to the loop of `readContents`. -/
def Point.rank : Point → Nat
  | .id chars => 8 + (6 - chars.length)
  | .width => 7
  | .height _ => 6
  | .lsdPacked => 5
  | .bgIndex => 4
  | .pixelAspect => 3
  | .globalTable => 2
  | .code => 1
  | .label => 7
  | .gceBlockSize => 6
  | .gcePacked => 5
  | .gceDelay _ => 4
  | .transIndex _ _ => 3
  | .gceTerminator => 2
  | .appBlockSize => 5
  | .appBlock _ => 4
  | .blockSize _ => 3
  | .block _ _ => 2
  | .ix => 11
  | .iy => 10
  | .iw => 9
  | .ih => 8
  | .imagePacked => 7
  | .localTable _ => 6
  | .position => 5
  | .codeSize => 4
  | .finished => 0

/-- A decoder that reads raw data; `block` is `mBlock`. `dropped` stands for `mRawData == null`, and
`recycled` tells whether `free` has recycled the header too by the time it is looked at. `ranOut`
when
the data had too few bytes for a read that went on. -/
structure Machine where
  point : Point
  decoder : Decoder
  block : List Byte
  dropped : Bool
  recycled : Bool
  ranOut : Bool
  thrown : Option Thrown

namespace Machine

def bytes (m : Machine) : List Byte := m.decoder.reader.bytes

def err (m : Machine) : Bool := m.decoder.reader.formatError

def goto (m : Machine) (p : Point) : Machine := { m with point := p }

def withDecoder (m : Machine) (d : Decoder) : Machine := { m with decoder := d }

def withBytes (m : Machine) (bytes : List Byte) : Machine :=
  m.withDecoder (m.decoder.withReader { m.decoder.reader with bytes := bytes })

/-- `mStatus = STATUS_FORMAT_ERROR` -/
def fail (m : Machine) : Machine := m.withDecoder m.decoder.fail

/-- Too few bytes are left, which is an error of the format. -/
def failShort (m : Machine) : Machine := { m.fail with ranOut := true }

def throw (m : Machine) (e : Thrown) : Machine := { m with thrown := some e, point := .finished }

def read (m : Machine) : Byte × Machine :=
  if m.dropped then (0, m)
  else
    match m.bytes with
    | [] => (0, m.failShort)
    | b :: bs => (b, m.withBytes bs)

/-- `readShort`, and what is done with the number. -/
def readShort (m : Machine) (k : Int → Machine → Machine) : Machine :=
  if m.dropped then k 0 m
  else
    match m.bytes with
    | low :: high :: bs => k (high ++ low).toInt (m.withBytes bs)
    | _ => m.throw .bufferUnderflow

/-- `mRawData.get(mBlock, 0, size)` -/
def getBlock (m : Machine) (size : Byte) : Machine :=
  if m.dropped then m
  else if m.bytes.length < size.toNat then m.failShort
  else
    { m.withBytes (m.bytes.drop size.toNat) with
      block := m.bytes.take size.toNat ++ m.block.drop size.toNat }

/-- Too few bytes for a colour table are no error. -/
def readColorTable (m : Machine) (ncolors : Nat) : Option Table × Machine :=
  if m.dropped then (none, m)
  else if m.bytes.length < 3 * ncolors then (some (colorAt [] ncolors), { m with ranOut := true })
  else (some (colorAt (m.bytes.take (3 * ncolors)) ncolors),
    m.withBytes (m.bytes.drop (3 * ncolors)))

def updateHeader (m : Machine) (f : GifHeaderData → GifHeaderData) : Machine :=
  m.withDecoder { m.decoder with header := f m.decoder.header }

/-- The fields of `currentFrame` change. -/
def updateFrame (m : Machine) (f : GifFrameData → GifFrameData) : Machine :=
  match m.decoder.header.currentFrame with
  | none => m
  | some ref => m.withDecoder { m.decoder with objects := m.decoder.objects.modify ref f }

/-- `while (!(done || err()))` -/
def loop (m : Machine) : Machine := m.goto (if m.err then .finished else .code)

/-- The frame is listed, if there is still a list. -/
def listFrame (m : Machine) : Machine :=
  if m.dropped ∧ m.recycled then m
  else
    match m.decoder.header.currentFrame with
    | none => m
    | some ref => m.updateHeader fun header =>
      { header with frameCount := header.frameCount + 1, frames := header.frames ++ [ref] }

/-- Behind a loop over blocks. -/
def leaveBlocks (m : Machine) : Blocks → Machine
  | .extension => m.loop
  | .netscape => m.loop
  | .image => m.listFrame.loop

/-- A block of `readNetscapeExt` may have the loop count. -/
def count (m : Machine) (blocks : Blocks) : Machine :=
  if blocks = .netscape then m.withDecoder
    { m.decoder with loopCount := loopCountOf m.block m.decoder.loopCount } else m

/-- Behind a block of a loop: `while ((mBlockSize > 0) && !err())`. -/
def nextBlock (m : Machine) (blocks : Blocks) (size : Byte) : Machine :=
  let m := m.count blocks
  if 0 < size.toNat ∧ m.err = false then m.goto (.blockSize blocks) else m.leaveBlocks blocks

/-- Behind the block of an application extension, as in `Decoder.readExtension`. -/
def application (m : Machine) : Machine :=
  if m.block.take 11 = netscape then m.goto (.blockSize .netscape)
    else m.goto (.blockSize .extension)

/-- `gctFlag`, as it is seen. -/
def gctFlag (m : Machine) : Bool := m.decoder.header.gctFlag && !(m.dropped && m.recycled)

/-- Behind `readLSD`. -/
def leaveLSD (m : Machine) : Machine :=
  if m.gctFlag = true ∧ m.err = false then m.goto .globalTable else m.loop

/-- A new frame becomes `currentFrame`. -/
def newFrame (m : Machine) : Machine := m.withDecoder m.decoder.newFrame

variable (requireWidth requireHeight : Int)

/-- The size of the screen is known. -/
def setScreen (m : Machine) (width height : Int) : Machine :=
  match screenSize requireWidth requireHeight width height with
  | none => m.throw .arithmetic
  | some (width, height) =>
    let m := m.updateHeader fun header => { header with width := width, height := height }
    (m.withDecoder { m.decoder with screen :=
      { m.decoder.screen with width := width, height := height } }).goto .lsdPacked

/-- One read, and what is done up to the next one. -/
def step (m : Machine) : Machine :=
  match m.point with
  | .finished => m
  | .id chars =>
    let (c, m) := m.read
    if (chars ++ [c]).length < 6 then m.goto (.id (chars ++ [c]))
    else if (chars ++ [c]).take 3 = [0x47, 0x49, 0x46] then m.goto .width
    else m.fail.goto .finished
  | .width => m.readShort fun width m => m.goto (.height width)
  | .height width => m.readShort fun height m => m.setScreen requireWidth requireHeight width height
  | .lsdPacked =>
    let (packed, m) := m.read
    (m.updateHeader fun header => { header with
      gctFlag := decide (field packed.toNat 0x80 ≠ 0)
      gctSize := 2 <<< (field packed.toNat 7).toNat }).goto .bgIndex
  | .bgIndex =>
    let (b, m) := m.read
    (m.updateHeader fun header => { header with bgIndex := b.toNat }).goto .pixelAspect
  | .pixelAspect =>
    let (b, m) := m.read
    (m.updateHeader fun header => { header with pixelAspect := b.toNat }).leaveLSD
  | .globalTable =>
    match m.readColorTable m.decoder.header.gctSize.toNat with
    | (none, m) => m.fail.goto .finished
    | (some gct, m) =>
      let m := m.updateHeader fun header => { header with gct := some gct }
      (m.withDecoder { m.decoder with screen :=
        { m.decoder.screen with bgColor := gct m.decoder.header.bgIndex } }).loop
  | .code =>
    let (code, m) := m.read
    if code = 0x2c then (if m.decoder.header.currentFrame = none then m.newFrame else m).goto .ix
    else if code = 0x21 then m.goto .label
    else if code = 0x3b then m.goto .finished
    else if code = 0 then m.loop
    else m.fail.loop
  | .label =>
    let (label, m) := m.read
    if label = 0xf9 then m.newFrame.goto .gceBlockSize
    else if label = 0xff then m.goto .appBlockSize
    else m.goto (.blockSize .extension)
  | .gceBlockSize => m.read.2.goto .gcePacked
  | .gcePacked =>
    let (packed, m) := m.read
    m.goto (.gceDelay packed)
  | .gceDelay packed => m.readShort fun delay m => m.goto (.transIndex packed delay)
  | .transIndex packed delay =>
    let (transIndex, m) := m.read
    (m.updateFrame fun frame => frame.controlled packed.toNat delay transIndex.toNat).goto
      .gceTerminator
  | .gceTerminator => m.read.2.loop
  | .appBlockSize =>
    let (size, m) := m.read
    if 0 < size.toNat then m.goto (.appBlock size) else m.application
  | .appBlock size => (m.getBlock size).application
  | .blockSize blocks =>
    let (size, m) := m.read
    if 0 < size.toNat then m.goto (.block blocks size) else m.nextBlock blocks size
  | .block blocks size => (m.getBlock size).nextBlock blocks size
  | .ix => m.readShort fun ix m => (m.updateFrame fun frame => { frame with ix := ix }).goto .iy
  | .iy => m.readShort fun iy m => (m.updateFrame fun frame => { frame with iy := iy }).goto .iw
  | .iw => m.readShort fun iw m => (m.updateFrame fun frame => { frame with iw := iw }).goto .ih
  | .ih =>
    m.readShort fun ih m => (m.updateFrame fun frame => { frame with ih := ih }).goto .imagePacked
  | .imagePacked =>
    let (packed, m) := m.read
    let lctFlag := decide (field packed.toNat 0x80 ≠ 0)
    let lctSize := 2 <<< (field packed.toNat 7).toNat
    let m := m.updateFrame fun frame => { frame with
      lctFlag := lctFlag
      interlace := decide (field packed.toNat 0x40 ≠ 0)
      lctSize := lctSize
      lct := none }
    m.goto (if lctFlag then .localTable lctSize else .position)
  | .localTable lctSize =>
    let (lct, m) := m.readColorTable lctSize
    (m.updateFrame fun frame => { frame with lct := lct }).goto .position
  | .position =>
    if m.dropped then m.loop
    else
      let m := m.updateFrame fun frame =>
        { frame with bufferFrameStart := m.decoder.data.length - m.bytes.length }
      if m.err then m.loop else m.goto .codeSize
  | .codeSize => m.read.2.goto (.blockSize .image)

/-- `free` drops the data. -/
def free (recycled : Bool) (m : Machine) : Machine :=
  { m with dropped := true, recycled := recycled }

end Machine

/-- A decoder behind `init`. -/
def start (data : List Byte) : Machine where
  point := .id []
  decoder := initial .rawData data
  block := List.replicate 256 0
  dropped := false
  recycled := false
  ranOut := false
  thrown := none

namespace Machine

/-- The number that is read next, and the decoder behind it. -/
def nextNumber (m : Machine) : Int :=
  if m.dropped then 0
  else
    match m.bytes with
    | low :: high :: _ => (high ++ low).toInt
    | _ => 0

def behindNumber (m : Machine) : Machine := if m.dropped then m else m.withBytes (m.bytes.drop 2)

/-- There are too few bytes for a number. -/
def Cut (m : Machine) : Prop := m.dropped = false ∧ m.bytes.length < 2

instance (m : Machine) : Decidable m.Cut := inferInstanceAs (Decidable (_ ∧ _))

/-- The read is one of `readShort`. -/
def TakesNumber (m : Machine) : Prop :=
  match m.point with
  | .width => True
  | .height _ => True
  | .gceDelay _ => True
  | .ix => True
  | .iy => True
  | .iw => True
  | .ih => True
  | _ => False

end Machine

structure Core where
  bytes : List Byte
  err : Bool
  dropped : Bool
  recycled : Bool
  ranOut : Bool
  thrown : Option Thrown

namespace Machine

def core (m : Machine) : Core := ⟨m.bytes, m.err, m.dropped, m.recycled, m.ranOut, m.thrown⟩

section

variable (m : Machine)

@[simp] theorem core_err : m.core.err = m.err := rfl
@[simp] theorem core_dropped : m.core.dropped = m.dropped := rfl
@[simp] theorem core_recycled : m.core.recycled = m.recycled := rfl
@[simp] theorem core_ranOut : m.core.ranOut = m.ranOut := rfl
@[simp] theorem core_thrown : m.core.thrown = m.thrown := rfl

@[simp] theorem goto_core (p : Point) : (m.goto p).core = m.core := rfl
@[simp] theorem goto_point (p : Point) : (m.goto p).point = p := rfl

@[simp] theorem updateHeader_core (f : GifHeaderData → GifHeaderData) :
    (m.updateHeader f).core = m.core := rfl

@[simp] theorem updateFrame_core (f : GifFrameData → GifFrameData) :
    (m.updateFrame f).core = m.core := by
  rw [updateFrame]
  split <;> rfl

@[simp] theorem newFrame_core : m.newFrame.core = m.core := rfl

@[simp] theorem loop_core : m.loop.core = m.core := rfl

theorem loop_point : m.loop.point = if m.err then .finished else .code := rfl

@[simp] theorem listFrame_core : m.listFrame.core = m.core := by
  rw [listFrame]
  split
  · rfl
  · split <;> rfl

@[simp] theorem leaveBlocks_core (blocks : Blocks) : (m.leaveBlocks blocks).core = m.core := by
  cases blocks <;> simp [leaveBlocks]

theorem leaveBlocks_point (blocks : Blocks) : (m.leaveBlocks blocks).point = if m.err then
    .finished else .code := by
  have hlist : m.listFrame.err = m.err := congrArg Core.err m.listFrame_core
  cases blocks <;> simp [leaveBlocks, loop_point, hlist]

@[simp] theorem count_core (blocks : Blocks) : (m.count blocks).core = m.core := by
  rw [count]
  split <;> rfl

@[simp] theorem nextBlock_core (blocks : Blocks) (size : Byte) :
    (m.nextBlock blocks size).core = m.core := by
  simp only [nextBlock]
  split <;> simp

theorem nextBlock_point (blocks : Blocks) (size : Byte) : (m.nextBlock blocks size).point =
    if m.err then .finished else if 0 < size.toNat then .blockSize blocks else .code := by
  have herr : (m.count blocks).err = m.err := congrArg Core.err (m.count_core blocks)
  simp only [nextBlock, herr]
  by_cases hmore : 0 < size.toNat ∧ m.err = false
  · simp [hmore]
  · rw [if_neg hmore, leaveBlocks_point, herr]
    cases herr : m.err with
    | true => rfl
    | false =>
      have hempty : ¬ 0 < size.toNat := fun hpos => hmore ⟨hpos, herr⟩
      simp only [Bool.false_eq_true, if_false, if_neg hempty]

@[simp] theorem application_core : m.application.core = m.core := by
  rw [application]
  split <;> rfl

@[simp] theorem leaveLSD_core : m.leaveLSD.core = m.core := by
  rw [leaveLSD]
  split <;> rfl

theorem read_cases : m.dropped = true ∧ m.read = (0, m) ∨ m.dropped = false ∧ m.bytes = [] ∧
    m.read = (0, m.failShort) ∨
    ∃ b bs, m.dropped = false ∧ m.bytes = b :: bs ∧ m.read = (b, m.withBytes bs) := by
  rw [read]
  cases m.dropped with
  | true => exact .inl ⟨rfl, rfl⟩
  | false =>
    cases m.bytes with
    | nil => exact .inr (.inl ⟨rfl, rfl, rfl⟩)
    | cons b bs => exact .inr (.inr ⟨b, bs, rfl, rfl, rfl⟩)

theorem readShort_cases (k : Int → Machine → Machine) : m.dropped = true ∧ m.readShort k = k 0 m ∨
    m.dropped = false ∧ m.bytes.length < 2 ∧ m.readShort k = m.throw .bufferUnderflow ∨
    ∃ low high bs, m.dropped = false ∧ m.bytes = low :: high :: bs ∧
      m.readShort k = k (high ++ low).toInt (m.withBytes bs) := by
  rw [readShort]
  cases m.dropped with
  | true => exact .inl ⟨rfl, rfl⟩
  | false =>
    match m.bytes with
    | [] => exact .inr (.inl ⟨rfl, by decide, rfl⟩)
    | [b] => exact .inr (.inl ⟨rfl, by simp, rfl⟩)
    | low :: high :: bs => exact .inr (.inr ⟨low, high, bs, rfl, rfl, rfl⟩)

variable {m} {requireWidth requireHeight : Int}

theorem readShort_eq (k : Int → Machine → Machine) :
    m.readShort k = if m.Cut then m.throw .bufferUnderflow else k m.nextNumber m.behindNumber := by
  obtain ⟨hdropped, hread⟩ | ⟨hdropped, hshort, hread⟩ | ⟨low, high, bs, hdropped, hbytes, hread⟩ :=
    m.readShort_cases k
  · have hcut : ¬ m.Cut := fun hcut => absurd (hcut.1.symm.trans hdropped) (by decide)
    rw [hread, if_neg hcut, nextNumber, if_pos hdropped, behindNumber, if_pos hdropped]
  · rw [hread, if_pos ⟨hdropped, hshort⟩]
  · have hcut : ¬ m.Cut := by
      rintro ⟨-, hshort⟩
      rw [hbytes, List.length_cons, List.length_cons] at hshort
      omega
    have hhere : ¬ m.dropped = true := by
      rw [hdropped]
      decide
    rw [hread, if_neg hcut, nextNumber, if_neg hhere, behindNumber, if_neg hhere, hbytes]
    rfl

/-- What is read further: nothing comes back, and of dropped data nothing is read. -/
structure Onward (c c' : Core) : Prop where
  bytes : c'.bytes.length ≤ c.bytes.length
  err : c.err = true → c'.err = true
  dropped : c'.dropped = c.dropped
  recycled : c'.recycled = c.recycled
  ranOut : c.ranOut = true → c'.ranOut = true
  gone : c.dropped = true → c'.bytes = c.bytes ∧ c'.ranOut = c.ranOut

theorem Onward.refl (c : Core) : Onward c c := ⟨le_rfl, id, rfl, rfl, id, fun _ => ⟨rfl, rfl⟩⟩

theorem Onward.trans {c c' c'' : Core} (h : Onward c c') (h' : Onward c' c'') : Onward c c'' where
  bytes := h'.bytes.trans h.bytes
  err herr := h'.err (h.err herr)
  dropped := h'.dropped.trans h.dropped
  recycled := h'.recycled.trans h.recycled
  ranOut hran := h'.ranOut (h.ranOut hran)
  gone hdropped := by
    obtain ⟨hbytes, hran⟩ := h.gone hdropped
    obtain ⟨hbytes', hran'⟩ := h'.gone (h.dropped.trans hdropped)
    exact ⟨hbytes'.trans hbytes, hran'.trans hran⟩

theorem onward_fail (m : Machine) : Onward m.core m.fail.core :=
  ⟨le_rfl, fun _ => rfl, rfl, rfl, id, fun _ => ⟨rfl, rfl⟩⟩

theorem onward_throw (m : Machine) (e : Thrown) : Onward m.core (m.throw e).core :=
  ⟨le_rfl, id, rfl, rfl, id, fun _ => ⟨rfl, rfl⟩⟩

theorem onward_withBytes {bytes : List Byte} (hdropped : ¬ m.dropped = true)
    (hbytes : bytes.length ≤ m.bytes.length) :
    Onward m.core (m.withBytes bytes).core :=
  ⟨hbytes, id, rfl, rfl, id, fun h => absurd h hdropped⟩

/-- The decoder behind a read. -/
inductive ReadTo (m : Machine) : Machine → Prop where
  | nothing : ReadTo m m
  | byte : ReadTo m m.read.2
  | number : ReadTo m m.behindNumber
  | block (size : Byte) : ReadTo m (m.getBlock size)
  | table (ncolors : Nat) : ReadTo m (m.readColorTable ncolors).2

theorem ReadTo.onward {t : Machine} (h : m.ReadTo t) : Onward m.core t.core := by
  cases h with
  | nothing => exact .refl _
  | byte =>
    obtain ⟨-, hread⟩ | ⟨hdropped, -, hread⟩ | ⟨b, bs, hdropped, hbytes, hread⟩ := m.read_cases
    · rw [hread]
      exact .refl _
    · rw [hread]
      exact ⟨le_rfl, fun _ => rfl, rfl, rfl, fun _ => rfl,
        fun h => absurd (hdropped.symm.trans h) (by decide)⟩
    · rw [hread]
      apply onward_withBytes (by simp [hdropped])
      rw [hbytes]
      exact Nat.le_succ _
  | number =>
    rw [behindNumber]
    split
    · exact .refl _
    · rename_i hdropped
      exact onward_withBytes hdropped (List.drop_sublist _ _).length_le
  | block size =>
    rw [getBlock]
    split
    · exact .refl _
    · rename_i hdropped
      split
      · exact ⟨le_rfl, fun _ => rfl, rfl, rfl, fun _ => rfl, fun h => absurd h hdropped⟩
      · exact onward_withBytes hdropped (List.drop_sublist _ _).length_le
  | table ncolors =>
    rw [readColorTable]
    split
    · exact .refl _
    · rename_i hdropped
      split
      · exact ⟨le_rfl, id, rfl, rfl, fun _ => rfl, fun h => absurd h hdropped⟩
      · exact onward_withBytes hdropped (List.drop_sublist _ _).length_le

theorem ReadTo.thrown {t : Machine} (h : m.ReadTo t) : t.thrown = m.thrown := by
  cases h with
  | nothing => rfl
  | byte =>
    obtain ⟨-, hread⟩ | ⟨-, -, hread⟩ | ⟨b, bs, -, -, hread⟩ := m.read_cases
    · rw [hread]
    · rw [hread]
      rfl
    · rw [hread]
      rfl
  | number =>
    rw [behindNumber]
    split <;> rfl
  | block size =>
    rw [getBlock]
    split
    · rfl
    · split <;> rfl
  | table ncolors =>
    rw [readColorTable]
    split
    · rfl
    · split <;> rfl

variable (requireWidth requireHeight m) in
/-- What a step comes to: it reads and goes on, finds an error, or throws. -/
inductive StepsTo (u : Machine) : Prop where
  | on (t : Machine) (hread : m.ReadTo t) (hcore : u.core = t.core)
  | fail (t : Machine) (hread : m.ReadTo t) (hcore : u.core = t.fail.core)
  | cut (hnumber : m.TakesNumber) (hcut : m.Cut) (hthrow : u = m.throw .bufferUnderflow)
  | undivided (width : Int) (hpoint : m.point = .height width) (hcut : ¬ m.Cut)
    (hnone : screenSize requireWidth requireHeight width m.nextNumber = none)
      (hthrow : u = m.behindNumber.throw .arithmetic)

theorem stepsTo_readShort {k : Int → Machine → Machine} (hnumber : m.TakesNumber)
    (hk : ∀ v t, (k v t).core = t.core) :
    m.StepsTo requireWidth requireHeight (m.readShort k) := by
  rw [readShort_eq]
  split
  · rename_i hcut
    exact .cut hnumber hcut rfl
  · exact .on _ .number (hk _ _)

theorem stepsTo_id {chars : List Byte} (hpoint : m.point = .id chars) :
    m.StepsTo requireWidth requireHeight (m.step requireWidth requireHeight) := by
  simp only [step, hpoint]
  split
  · exact .on _ .byte rfl
  · split
    · exact .on _ .byte rfl
    · exact .fail _ .byte rfl

theorem stepsTo_height {width : Int} (hpoint : m.point = .height width) :
    m.StepsTo requireWidth requireHeight (m.step requireWidth requireHeight) := by
  simp only [step, hpoint, readShort_eq]
  split
  · rename_i hcut
    exact .cut (by simp only [TakesNumber, hpoint]) hcut rfl
  · rename_i hcut
    rw [setScreen]
    split
    · rename_i hnone
      exact .undivided width hpoint hcut hnone rfl
    · exact .on _ .number rfl

theorem stepsTo_globalTable (hpoint : m.point = .globalTable) :
    m.StepsTo requireWidth requireHeight (m.step requireWidth requireHeight) := by
  have htable := @ReadTo.table m m.decoder.header.gctSize.toNat
  simp only [step, hpoint]
  split
  · rename_i hnone
    rw [hnone] at htable
    exact .fail _ htable rfl
  · rename_i hsome
    rw [hsome] at htable
    exact .on _ htable rfl

theorem stepsTo_code (hpoint : m.point = .code) :
    m.StepsTo requireWidth requireHeight (m.step requireWidth requireHeight) := by
  simp only [step, hpoint]
  split
  · split <;> exact .on _ .byte rfl
  · split
    · exact .on _ .byte rfl
    · split
      · exact .on _ .byte rfl
      · split
        · exact .on _ .byte rfl
        · exact .fail _ .byte rfl

theorem stepsTo_label (hpoint : m.point = .label) :
    m.StepsTo requireWidth requireHeight (m.step requireWidth requireHeight) := by
  simp only [step, hpoint]
  split
  · exact .on _ .byte rfl
  · split <;> exact .on _ .byte rfl

theorem stepsTo_appBlockSize (hpoint : m.point = .appBlockSize) :
    m.StepsTo requireWidth requireHeight (m.step requireWidth requireHeight) := by
  simp only [step, hpoint]
  split
  · exact .on _ .byte rfl
  · exact .on _ .byte (application_core _)

theorem stepsTo_blockSize {blocks : Blocks} (hpoint : m.point = .blockSize blocks) :
    m.StepsTo requireWidth requireHeight (m.step requireWidth requireHeight) := by
  simp only [step, hpoint]
  split
  · exact .on _ .byte rfl
  · exact .on _ .byte (nextBlock_core _ _ _)

theorem stepsTo_position (hpoint : m.point = .position) :
    m.StepsTo requireWidth requireHeight (m.step requireWidth requireHeight) := by
  simp only [step, hpoint]
  split
  · exact .on _ .nothing rfl
  · split <;> exact .on _ .nothing (updateFrame_core _ _)

theorem step_to (m : Machine) : m.StepsTo requireWidth requireHeight
    (m.step requireWidth requireHeight) := by
  cases hpoint : m.point with
  | finished =>
    simp only [step, hpoint]
    exact .on _ .nothing rfl
  | id chars => exact stepsTo_id hpoint
  | height width => exact stepsTo_height hpoint
  | globalTable => exact stepsTo_globalTable hpoint
  | code => exact stepsTo_code hpoint
  | label => exact stepsTo_label hpoint
  | appBlockSize => exact stepsTo_appBlockSize hpoint
  | blockSize blocks => exact stepsTo_blockSize hpoint
  | position => exact stepsTo_position hpoint
  | pixelAspect =>
    simp only [step, hpoint]
    exact .on _ .byte (leaveLSD_core _)
  | appBlock size =>
    simp only [step, hpoint]
    exact .on _ (.block size) (application_core _)
  | block blocks size =>
    simp only [step, hpoint]
    exact .on _ (.block size) (nextBlock_core _ _ _)
  | localTable lctSize =>
    simp only [step, hpoint]
    exact .on _ (.table lctSize) (updateFrame_core _ _)
  -- behind a byte, with a field of the frame or without
  | lsdPacked | bgIndex | gceBlockSize | gcePacked | gceTerminator | codeSize =>
    simp only [step, hpoint]
    exact .on _ .byte rfl
  | transIndex packed delay | imagePacked =>
    simp only [step, hpoint]
    exact .on _ .byte (updateFrame_core _ _)
  -- behind a number
  | width | gceDelay packed =>
    simp only [step, hpoint]
    exact stepsTo_readShort (by simp only [TakesNumber, hpoint]) fun _ _ => rfl
  | ix | iy | iw | ih =>
    simp only [step, hpoint]
    exact stepsTo_readShort (by simp only [TakesNumber, hpoint]) fun _ _ => updateFrame_core _ _

/-- A step reads on. -/
theorem step_onward (m : Machine) : Onward m.core (m.step requireWidth requireHeight).core := by
  cases @step_to requireWidth requireHeight m with
  | on t hread hcore => exact hcore ▸ hread.onward
  | fail t hread hcore => exact hcore ▸ hread.onward.trans (onward_fail t)
  | cut _ _ hthrow =>
    rw [hthrow]
    exact onward_throw m _
  | undivided _ _ _ _ hthrow =>
    rw [hthrow]
    exact ReadTo.number.onward.trans (onward_throw _ _)

end

end Machine

end GifRawReading
