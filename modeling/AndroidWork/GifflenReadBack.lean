import AndroidWork.GifflenFile

/-!
# What Gifflen writes is read back

A frame that Gifflen can write is a control block and an image of the whole
screen, and the next blocks start where its codes end.
-/
namespace GifLzwDecoder

/-- The pixel array has room for the image. -/
theorem start_length {iw ih : Nat} {buf : Buffers} {r : Reader} {k : Params} {s : Decoder}
    (h : start iw ih buf r = .ok (k, s)) :
    npixOf iw ih ≤ k.pixelsLength := by
  rw [start] at h
  obtain ⟨p, hp, h⟩ := eq_ok_of_bind h
  have hle : npixOf iw ih ≤ p.1 := by
    rcases pixelsFor_cases (npixOf iw ih) buf.pixels with ⟨-, hfor⟩ | ⟨-, n, pixels, hfor, hn⟩
    · rw [hfor] at hp
      cases hp
    · rw [hfor] at hp
      cases hp
      exact hn
  simp only at h
  split at h
  · cases h
  · cases h
    exact hle

theorem Decodes.leaves {iw ih : Nat} {buf : Buffers} {r r' : Reader} {xs data rest : List Byte}
    (h : Decodes iw ih buf r xs r')
    (hsize : iw * ih < 2 ^ 31) (herror : r'.formatError = false)
    (hblocks : SubBlocks.Blocks r'.bytes data rest) :
    Leaves iw ih buf r xs rest := by
  obtain ⟨turns, n, pixels, prefixes, suffixes, hdecode, hpixels⟩ := h
  refine ⟨turns, r', n, pixels, prefixes, suffixes, hdecode, ?_, hpixels,
    (decodeImageData_further hdecode).source, herror, data,
    hblocks⟩
  have hnpix : npixOf iw ih = (iw * ih : Nat) := by
    rw [npixOf, BitVec.toInt_eq_toNat_of_lt (by rw [BitVec.toNat_ofNat]; omega), BitVec.toNat_ofNat]
    omega
  rw [decodeImageData] at hdecode
  cases hstart : start iw ih buf r with
  | error e =>
    simp only [hstart] at hdecode
    cases hdecode
  | ok p =>
    obtain ⟨k, s⟩ := p
    have hlength := start_length hstart
    simp only [hstart] at hdecode
    cases hloop : loop k turns s with
    | error e =>
      simp only [hloop] at hdecode
      cases hdecode
    | ok t =>
      simp only [hloop] at hdecode
      cases t with
      | none => cases hdecode
      | some t =>
        cases hdecode
        omega

end GifLzwDecoder

namespace GifflenFile

open BaseGifDecoder
open BaseGifDecoder.InputStream (forImage)
open BitPacking (toBytes)
open Compositing (Canvas)
open GifExport (cutOff transparentColorIndex)
open GifFile (Control Reading SamePixels hasTable nextRef pixelArray published tableSize)
open GifLzwDecoder (Byte Leaves imagePhrases)
open GifLzwEncoder (DIB gifLzwCompressor maxBits pixelsFrom rootBits)

/-- The compressor's bytes are decoded up to the end of their blocks; at most a
zero is left behind them. -/
theorem compressor_leaves (img : DIB) {numColors : Nat} (hw : 0 < img.width) (hh : 0 < img.height)
    (hmax : img.height ≤ 768)
    (hlo : 2 ≤ numColors) (hhi : numColors ≤ 256)
    (hroots : ∀ i < img.width * img.height, (img.bits i).toNat < 2 ^ rootBits numColors)
    (hflushed : ¬ CutShort img numColors)
    (old : Nat → Nat) :
    ∃ bytes, gifLzwCompressor img numColors old = some bytes ∧ ∀ buf post, ∃ rest,
      (∀ b ∈ rest, b = 0) ∧
      Leaves img.width img.height buf ⟨.stream, bytes ++ post, false⟩
        (pixelsFrom img 0 (img.width * img.height)) (rest ++ post) := by
  obtain ⟨hm, hm8⟩ := GifLzwEncoder.rootBits_bounds hlo hhi
  have hpos : 0 < img.width * img.height := Nat.mul_pos hw hh
  rcases (show img.width * img.height = 1 ∨ 2 ≤ img.width * img.height by omega) with hone | hmany
  · have hw' : img.width = 1 := Nat.eq_one_of_mul_eq_one_right hone
    have hh' : img.height = 1 := Nat.eq_one_of_mul_eq_one_left hone
    obtain ⟨bytes, behind, hbytes, henc⟩ :=
      GifLzwEncoder.gifLzwCompressor_single hlo hhi hw' hh' old
    refine ⟨bytes, hbytes, fun buf post => ?_⟩
    obtain ⟨r', hdecodes, herror, data, rest, hblocks, hzero⟩ :=
      GifLzwDecoder.single_outcome hm hm8 hw' hh' (hroots 0 hpos) henc buf .stream post
    exact ⟨rest, hzero, hdecodes.leaves img.size_lt herror hblocks⟩
  · obtain ⟨bytes, hbytes, henc⟩ :=
      GifLzwEncoder.gifLzwCompressor_encodes hlo hhi hw hh hmax hroots hmany old
    refine ⟨bytes, hbytes, fun buf post => ?_⟩
    rcases GifLzwDecoder.image_outcome hm hm8 hmany hroots henc buf .stream post with
      ⟨-, r', hdecodes, herror, data, rest, hblocks, hzero⟩ | ⟨hlost, -⟩
    · exact ⟨rest, hzero, hdecodes.leaves img.size_lt herror hblocks⟩
    · have htwo : rootBits numColors = 2 := by
        have hmono := GifLzwEncoder.width_mono (2 ^ rootBits numColors)
          (Nat.zero_le (GifLzwEncoder.imageLength img (rootBits numColors)))
        rw [GifLzwEncoder.width_zero hm, hlost.1] at hmono
        omega
      rw [htwo] at hlost
      exact absurd ⟨(GifLzwDecoder.rootBits_eq_two_iff hlo hhi).mp htwo,
        (GifLzwDecoder.short_iff img).mp hlost⟩ hflushed

section

variable {argb4444 : Color → Color} {w h : Nat} {s : Screen} {frame : GifFrameData}

/-- A screen whose last image, if there is one, is as large as it and to be cleared. -/
structure Full (w h : Nat) (s : Screen) : Prop where
  width : s.width = w
  height : s.height = h
  last : s.lastDispose = 0 ∨
    s.lastDispose = 2 ∧ (∃ b, s.lastImage = some b) ∧ s.lrx = 0 ∧ s.lry = 0 ∧ s.lrw = w ∧ s.lrh = h

/-- Frame data of an image that is as large as the screen and to be cleared. -/
structure Whole (w h : Nat) (frame : GifFrameData) : Prop where
  place : frame.ix = 0 ∧ frame.iy = 0 ∧ frame.iw = w ∧ frame.ih = h
  interlace : frame.interlace = false
  dispose : frame.dispose = 2

theorem Full.start (hw : 0 < w) (hsize : w * h < 2 ^ 30) (hs : Full w h s) :
    ∃ dest, s.recall.startingContents frame (s.width * s.height) = .ok dest := by
  rcases hs.last with hnone | ⟨hdispose, ⟨b, hb⟩, hlrx, hlry, hlrw, hlrh⟩
  · exact ⟨_, startingContents_none hnone⟩
  · have hwidth := hs.width
    have hheight := hs.height
    have hsmall : s.width * s.height < 2 ^ 31 := by
      rw [hwidth, hheight]
      exact_mod_cast hsize.trans (by decide)
    obtain ⟨dest, hdest, -⟩ := cleared_depicts (s := s) ⟨by omega, by omega, by omega, by omega⟩
      (fun _ _ => by omega)
      (by omega) hsmall (if frame.transparency then 0 else s.lastBgColor)
      (fun _ _ _ _ _ _ => rfl : Depicts s b.pixels fun x y => b.pixels (y * s.width + x))
    exact ⟨dest, (startingContents_background hdispose hb).trans hdest⟩

/-- A whole image is shown. -/
theorem Full.shows (argb4444 : Color → Color) (hw : 0 < w ∧ w < 2 ^ 16) (hh : 0 < h)
    (hsize : w * h < 2 ^ 30) (hs : Full w h s)
    (hframe : Whole w h frame) (act : Table) {xs : List Byte} (hlen : xs.length = w * h) :
    ∃ s', Screen.showFrame argb4444 Screen.link s frame act (pixelArray xs) = .ok s' ∧ Full w h s' ∧
      s'.frames.map GifFrame.delay = s.frames.map GifFrame.delay ++ [frame.delay] := by
  obtain ⟨⟨hix, hiy, hiw, hih⟩, hinterlace, hdispose⟩ := hframe
  have hwidth := hs.width
  have hheight := hs.height
  have hcounted : Full w h { s with frameCount := s.frameCount + 1 } := ⟨hwidth, hheight, hs.last⟩
  obtain ⟨dest, hdest⟩ : ∃ dest, Screen.startingContents
      (Screen.recall { s with frameCount := s.frameCount + 1 }) frame
      (s.width * s.height) = .ok dest := hcounted.start hw.1 hsize
  have hdata : frame.iw * frame.ih = (w * h : Nat) := by
    rw [hiw, hih]
    push_cast
    rfl
  have hroom : Room { s with frameCount := s.frameCount + 1 } frame (pixelArray xs) := by
    refine ⟨by simp only; omega, by simp only; omega, ?_, by omega, by omega, by omega, by
      omega, by omega, ?_⟩
    · show s.width * s.height + 2 ^ 17 ≤ 2 ^ 31
      rw [hwidth, hheight, ← Nat.cast_mul]
      omega
    · show frame.iw * frame.ih ≤ xs.length
      omega
  obtain ⟨b, hset, -⟩ :=
    setPixels_depicts act hroom (fun h => by rw [hinterlace] at h; cases h) hdest
    (fun _ _ _ _ _ _ => rfl : Depicts _ dest fun x y => dest (y * s.width + x))
      (fun _ _ => rfl : Alike argb4444 _ _)
  obtain ⟨last, hrecall⟩ := recall_eq { s with frameCount := s.frameCount + 1 }
  rw [hrecall] at hset
  obtain ⟨index, hlink⟩ := link_eq
    { s with frameCount := s.frameCount + 1, lastImage := last, image := some b } frame.delay
  refine ⟨published s s.bgColor last b index frame, ?_,
    ⟨hwidth, hheight, .inr ⟨hdispose, ⟨b, rfl⟩, hix, hiy, hiw, hih⟩⟩, ?_⟩
  · rw [Screen.showFrame, hset, ok_bind, hlink, ok_bind]
    rfl
  · exact List.map_append

end

section

variable {argb4444 : Color → Color} {f : GifFile.File} {s : Decoder} {current : Option GifFrameData}
    {frame : GifFrameData}
  {desc data post xs : List Byte} {w h : Nat}

/-- Behind the separator of an image. -/
theorem forImage_eq (hs : Reading .stream f s current (0x2C :: post)) :
    forImage s = { s with
      reader := ⟨.stream, post, false⟩
      header := { s.header with currentFrame := some (nextRef s) }
      objects := GifFile.readied s } := by
  simp only [forImage, Decoder.withReader, hs.reader, GifLzwDecoder.Reader.read]
  rw [GifFile.readied, nextRef]
  cases hcurrent : s.header.currentFrame with
  | none => simp only [Decoder.newFrame, if_true, Option.getD_none]
  | some ref =>
    simp only [reduceCtorEq, if_false, Option.getD_some]
    rw [← hcurrent]

theorem imageRead_leaves (hs : Reading .stream f s current (0x2C :: (desc ++ data)))
    (hdesc : readDescriptor (current.getD newFrameData) ⟨.stream, desc ++ data, false⟩ =
      .ok (frame, ⟨.stream, data, false⟩))
    (hw : w < 2 ^ 16) (hh : h < 2 ^ 16) (hframe : Whole w h frame) (hlen : xs.length = w * h)
    (hleaves : Leaves w h s.buffers ⟨.stream, data, false⟩ xs post) :
    ∃ n pixels, (∀ turns ≥ n, s.imageRead turns = some (frame, pixels)) ∧
      SamePixels (w * h) pixels (pixelArray xs) := by
  have hobject := hs.readied
  obtain ⟨n, r, buffers, pixels, hpixels, hsame, -, -, -, hdecode⟩ := GifFile.decodeImageData_leaves
    (s := { s with
      reader := ⟨.stream, data, false⟩
      header := { s.header with currentFrame := some (nextRef s) }
      objects := GifFile.readied s }) rfl hframe.place.2.2.1 hframe.place.2.2.2 hw hh hlen hleaves
  refine ⟨n, pixels, fun turns hturns => ?_, hsame⟩
  have hdecoded := hdecode turns hturns s.screen
  simp only [Decoder.imageRead, forImage_eq hs, Option.bind_some, hobject, hdesc, hdecoded,
    hpixels, Option.map_some]

variable (argb4444) in
/-- An image whose pixels the decoder leaves is shown. -/
theorem readContent_leaves (hs : Reading .stream f s current (0x2C :: (desc ++ data)))
    (hdesc : readDescriptor (current.getD newFrameData) ⟨.stream, desc ++ data, false⟩ =
      .ok (frame, ⟨.stream, data, false⟩))
    (hw : 0 < w ∧ w < 2 ^ 16) (hh : 0 < h ∧ h < 2 ^ 16) (hsize : w * h < 2 ^ 30)
    (hframe : Whole w h frame) (hlen : xs.length = w * h)
    {act act' : Table} (hflag : frame.lctFlag = true) (hlct : frame.lct = some act)
    (hactive : frame.activeTable act = .ok act')
    (hfull : Full w h s.screen) (hleaves : Leaves w h s.buffers ⟨.stream, data, false⟩ xs post) :
    ∃ n s', (∀ turns ≥ n, s.readContent argb4444 turns = .ok (false, s')) ∧
      Reading .stream f s' (some frame.reset) post ∧ Full w h s'.screen ∧
      s'.screen.frames.map GifFrame.delay =
        s.screen.frames.map GifFrame.delay ++ [frame.delay] := by
  have hdescribed := hs.described data frame
  obtain ⟨ref, href, hobject⟩ := hdescribed.object _ rfl
  obtain rfl : nextRef s = ref := Option.some.inj href
  have hact : (if frame.lctFlag then frame.lct
      else (GifFile.described s frame ⟨.stream, data, false⟩).header.gct) = some act := by
    rw [hflag, if_pos rfl, hlct]
  obtain ⟨n, r, buffers, hsource, hformat, hbytes, hplay⟩ :=
    GifFile.playFrame_leaves argb4444 Screen.link hobject rfl rfl rfl
    hframe.place.2.2.1 hframe.place.2.2.2 hw.2 hh.2 (by omega) hlen hleaves hact
  have hchoose : s.screen.chooseBackground frame s.header.bgIndex = s.screen := by
    rw [Screen.chooseBackground, hflag]
    rfl
  obtain ⟨screen, hshow, hfull', hdelays⟩ := hfull.shows argb4444 hw hh.1 hsize hframe act' hlen
  refine ⟨n, GifFile.shownWith (GifFile.described s frame ⟨.stream, data, false⟩)
    (nextRef s) frame r buffers screen,
    fun turns hturns => ?_, ?_, hfull', hdelays⟩
  · have hshown : Screen.showFrame argb4444 Screen.link (Screen.chooseBackground
        (GifFile.described s frame ⟨.stream, data, false⟩).screen frame s.header.bgIndex) frame act'
          (pixelArray xs) = .ok screen :=
      (congrArg (fun t => Screen.showFrame argb4444 Screen.link t frame act' (pixelArray xs))
        hchoose).trans hshow
    have hplayed := hplay turns hturns
    rw [hactive, ok_bind] at hplayed
    refine (hs.readContent_described hdesc rfl turns).trans ?_
    refine (congrArg (Except.map fun s => (false, s)) hplayed).trans ?_
    exact congrArg (fun t => Except.map (fun s => (false, s)) (Except.map _ t)) hshown
  · have hlt := (List.getElem?_eq_some_iff.mp hobject).1
    exact GifFile.reading_some (GifFile.reader_eq hsource hformat (hbytes rfl)) hs.gct hs.bgIndex
      rfl (List.getElem?_set_self hlt)

end

section

variable {w h : Nat}

theorem cutOff_eq {n : Int} (hn : 0 ≤ n) : cutOff n = toBytes 2 (BitVec.ofInt 16 n).toNat := by
  have hlow : BitVec.ofInt 8 n = BitVec.ofNat 8 (BitVec.ofInt 16 n).toNat := by
    rw [← BitVec.toNat_inj, BitVec.toNat_ofInt, BitVec.toNat_ofNat, BitVec.toNat_ofInt]
    omega
  have hhigh : BitVec.ofInt 8 (n.tdiv 0x100) =
      BitVec.ofNat 8 ((BitVec.ofInt 16 n).toNat / 2 ^ 8) := by
    rw [← BitVec.toNat_inj, BitVec.toNat_ofInt, BitVec.toNat_ofNat, BitVec.toNat_ofInt,
      Int.tdiv_eq_ediv_of_nonneg hn]
    omega
  rw [cutOff, hlow, hhigh]
  rfl

/-- The packed byte of a descriptor with a table for this many colours. -/
def packedByte (numColors : Nat) : Byte := 0x80 + BitVec.ofNat 8 (maxBits numColors) - 1

theorem packedByte_eq {numColors : Nat} (hlo : 2 ≤ numColors) (hhi : numColors ≤ 256) :
    hasTable (packedByte numColors) ∧ packedByte numColors &&& 0x40 = 0 ∧
      tableSize (packedByte numColors) = 2 ^ maxBits numColors := by
  have h : ∀ n : Fin 257, 2 ≤ n.val → hasTable (packedByte n.val) ∧ packedByte n.val &&& 0x40 = 0 ∧
      tableSize (packedByte n.val) = 2 ^ maxBits n.val := by decide +kernel
  exact h ⟨numColors, by omega⟩ hlo

/-- The control extension of a frame. -/
def controlOf (delay : Int) : Control := ⟨9, BitVec.ofInt 16 delay, transparentColorIndex⟩

/-- The frame data that the frame's blocks are read to. -/
def frameData (w h : Nat) (delay : Int) (lct : Table) (size : Int) : GifFrameData :=
  { (controlOf delay).frame .stream with
    ix := 0
    iy := 0
    iw := w
    ih := h
    lctFlag := true
    interlace := false
    lctSize := size
    lct := some lct }

/-- The image is to be cleared, and has a transparent colour. -/
theorem controlOf_frame (delay : Int) : ((controlOf delay).frame .stream).dispose = 2 ∧
    ((controlOf delay).frame .stream).transparency = true := by
  have hdispose : ((field (9 : Byte).toNat 0x1c) >>> 2).toInt = 2 := by decide
  have htransparency : decide (field (9 : Byte).toNat 1 ≠ 0) = true := by decide
  simp only [Control.frame, controlOf, GifFrameData.controlled, hdispose]
  exact ⟨rfl, htransparency⟩

theorem whole_frameData (delay : Int) (lct : Table) (size : Int) :
    Whole w h (frameData w h delay lct size) :=
  ⟨⟨rfl, rfl, rfl, rfl⟩, rfl, (controlOf_frame delay).1⟩

theorem frameData_delay {delay : Int} (hpos : 0 < delay) (hlt : delay < 65536)
    (lct : Table) (size : Int) :
    (frameData w h delay lct size).delay = 10 * delay := by
  have hshort : GifFile.short .stream (controlOf delay).delay = delay := by
    show ((BitVec.ofInt 16 delay).toNat : Int) = delay
    rw [BitVec.toNat_ofInt]
    omega
  have hint : int (delay * 10) = delay * 10 := by apply GifFile.int_eq <;> omega
  show (if int (GifFile.short .stream (controlOf delay).delay * 10) = 0 then 100
    else int (GifFile.short .stream (controlOf delay).delay * 10)) = _
  rw [hshort, hint, if_neg (by omega), mul_comm]

theorem frameData_active (delay : Int) (lct : Table) (size : Int) (act : Table) :
    ∃ act', (frameData w h delay lct size).activeTable act = .ok act' := by
  have htransparency : (frameData w h delay lct size).transparency = true :=
    (controlOf_frame delay).2
  have hindex : (frameData w h delay lct size).transIndex = 255 := rfl
  rw [GifFrameData.activeTable, htransparency, if_pos rfl, hindex, if_pos (by decide)]
  exact ⟨_, rfl⟩

theorem colorAt_palette (q : Quantised) {n i : Nat} (hi : i < n) :
    colorAt (paletteBytes q n) n i = entry q.palette i := by
  have hbyte (k : Nat) (hk : k < 3) :
      (paletteBytes q n).getD (3 * (i : Int).toNat + k) 0 = q.palette (3 * i + k) := by
    rw [paletteBytes, Int.toNat_natCast, List.getD_eq_getElem?_getD, List.getElem?_map,
      List.getElem?_range (by omega)]
    rfl
  rw [colorAt, if_pos (by omega)]
  have h0 := hbyte 0 (by decide)
  rw [Nat.add_zero, Nat.add_zero] at h0
  rw [h0, hbyte 1 (by decide), hbyte 2 (by decide), entry]

end

section

variable (argb4444 : Color → Color) (quantise : List Pixel → Quantised) (g : Settings)

/-- From here a run comes to the end with these delays, and reads these frames. -/
def Finishes (s : Decoder) (delays : List Int) (frames : List (Frame (g.w * g.h))) : Prop :=
  ∃ n, ∀ turns ≥ n, ∀ fuel ≥ n, ∃ s', s.readContents argb4444 turns fuel = ⟨s', none⟩ ∧ s'.reader =
    ⟨.stream, [], false⟩ ∧
    s'.screen.frames.map GifFrame.delay = delays ∧
    List.Forall₂ (Frame.ReadAs quantise g) frames (s.imagesRead argb4444 turns fuel)

variable {argb4444} {quantise} {g} {f : GifFile.File} {s s' : Decoder} {delays : List Int}
    {frames : List (Frame (g.w * g.h))}
  {current : Option GifFrameData} {n : Nat}

theorem Finishes.trailer (hs : Reading .stream f s current [0x3b]) :
    Finishes argb4444 quantise g s (s.screen.frames.map GifFrame.delay) [] := by
  refine ⟨1, fun turns _ fuel hfuel => ?_⟩
  obtain ⟨fuel, rfl⟩ : ∃ k, fuel = k + 1 := ⟨fuel - 1, by omega⟩
  have hturn : s.readContent argb4444 turns = _ := hs.trailer turns
  refine ⟨s.withReader ⟨.stream, [], false⟩, ?_, rfl, rfl, ?_⟩
  · rw [Decoder.readContents, hs.reader, hturn]
    rfl
  · rw [Decoder.imagesRead, hs.reader, hturn]
    exact .nil

/-- A turn that does not come to an image. -/
theorem Finishes.turn (h : Finishes argb4444 quantise g s' delays frames)
    (herror : s.reader.formatError = false)
    (hcode : s.reader.read.1 ≠ 0x2C) (hturn : ∀ turns ≥ n, s.readContent argb4444 turns =
      .ok (false, s')) :
    Finishes argb4444 quantise g s delays frames := by
  obtain ⟨m, hm⟩ := h
  refine ⟨max n m + 1, fun turns hturns fuel hfuel => ?_⟩
  obtain ⟨fuel, rfl⟩ : ∃ k, fuel = k + 1 := ⟨fuel - 1, by omega⟩
  obtain ⟨t, hrun, ht⟩ := hm turns (by omega) fuel (by omega)
  refine ⟨t, ?_, ?_⟩
  · rw [Decoder.readContents, herror, hturn turns (by omega)]
    exact hrun
  · rw [Decoder.imagesRead, herror, hturn turns (by omega)]
    simp only [hcode, if_false, Bool.false_eq_true, List.nil_append]
    exact ht

/-- A turn that comes to an image. -/
theorem Finishes.image (h : Finishes argb4444 quantise g s' delays frames)
    (herror : s.reader.formatError = false)
    (hcode : s.reader.read.1 = 0x2C) (hturn : ∀ turns ≥ n,
      s.readContent argb4444 turns = .ok (false, s'))
    {m : Nat} {p : GifFrameData × (Nat × (Int → Byte))}
    (hread : ∀ turns ≥ m, s.imageRead turns = some p)
    {frame : Frame (g.w * g.h)} (hp : frame.ReadAs quantise g p) :
    Finishes argb4444 quantise g s delays (frame :: frames) := by
  obtain ⟨k, hk⟩ := h
  refine ⟨max n (max m k) + 1, fun turns hturns fuel hfuel => ?_⟩
  obtain ⟨fuel, rfl⟩ : ∃ k, fuel = k + 1 := ⟨fuel - 1, by omega⟩
  obtain ⟨t, hrun, hreader, hdelays, himages⟩ := hk turns (by omega) fuel (by omega)
  refine ⟨t, ?_, hreader, hdelays, ?_⟩
  · rw [Decoder.readContents, herror, hturn turns (by omega)]
    exact hrun
  · rw [Decoder.imagesRead, herror, hturn turns (by omega), hread turns (by omega)]
    simp only [hcode, if_true, Bool.false_eq_true, if_false]
    exact .cons hp himages

/-- Zeros between the blocks are passed over. -/
theorem Finishes.zeros {rest post : List Byte} (hzero : ∀ b ∈ rest, b = 0)
    (hs : Reading .stream f s current (rest ++ post))
    (h : ∀ s', Reading .stream f s' current post → s'.screen = s.screen →
      Finishes argb4444 quantise g s' delays frames) :
    Finishes argb4444 quantise g s delays frames := by
  induction rest generalizing s with
  | nil => exact h s hs rfl
  | cons b rest ih =>
    obtain rfl : b = 0 := hzero b List.mem_cons_self
    have hnext : Reading .stream f (s.withReader ⟨.stream, rest ++ post, false⟩)
        current (rest ++ post) :=
      ⟨rfl, hs.gct, hs.bgIndex, hs.fresh, hs.object⟩
    have hturn : ∀ turns ≥ 0, s.readContent argb4444 turns =
        .ok (false, s.withReader ⟨.stream, rest ++ post, false⟩) := by
      intro turns _
      simp only [Decoder.readContent, hs.reader, List.cons_append, GifLzwDecoder.Reader.read]
      rw [if_neg (by decide), if_neg (by decide), if_neg (by decide), if_pos (by decide)]
    refine Finishes.turn (ih (fun b hb => hzero b (List.mem_cons_of_mem _ hb)) hnext h) ?_ ?_ hturn
    · rw [hs.reader]
    · rw [hs.reader]
      exact (by decide : ((0 : Byte).toNat : Int) ≠ 0x2C)

/-- A descriptor of a whole image with a table. -/
def descriptorBytes (w h numColors : Nat) (lct : List Byte) : List Byte :=
  [0, 0, 0, 0] ++ (cutOff w ++ (cutOff h ++ packedByte numColors :: lct))

theorem descriptorBytes_append (w h numColors : Nat) (lct post : List Byte) :
    descriptorBytes w h numColors lct ++ post = descriptorBytes w h numColors (lct ++ post) := by
  simp only [descriptorBytes, List.append_assoc, List.cons_append]

theorem length_paletteBytes (q : Quantised) (n : Nat) : (paletteBytes q n).length = 3 * n := by
  rw [paletteBytes, List.length_map, List.length_range, Nat.mul_comm]

/-- The file ends inside the table. -/
theorem readDescriptor_short (delay : Int) (lct : List Byte)
    (hlength : lct.length < 3 * 2 ^ maxBits g.numColors) :
    ∃ frame, readDescriptor ((controlOf delay).frame .stream)
      ⟨.stream, descriptorBytes g.w g.h g.numColors lct, false⟩ =
        .ok (frame, ⟨.stream, [], true⟩) ∧ frame.lctFlag = true ∧ frame.lct = none := by
  obtain ⟨hhas, -, hsize⟩ := packedByte_eq g.colours.1 g.colours.2
  rw [descriptorBytes, cutOff_eq (Int.natCast_nonneg _), cutOff_eq (Int.natCast_nonneg _)]
  exact GifFile.readDescriptor_cutOff ((controlOf delay).frame .stream) 0 0 (BitVec.ofInt 16 g.w)
    (BitVec.ofInt 16 g.h) hhas
    (hsize.symm ▸ hlength)

theorem readDescriptor_whole (delay : Int) (q : Quantised)
    (htable : g.numColors = 2 ^ maxBits g.numColors) (data : List Byte) :
    readDescriptor ((controlOf delay).frame .stream)
        ⟨.stream, descriptorBytes g.w g.h g.numColors (paletteBytes q g.numColors) ++ data, false⟩ =
      .ok (frameData g.w g.h delay (colorAt (paletteBytes q g.numColors) g.numColors) g.numColors,
        ⟨.stream, data, false⟩) := by
  obtain ⟨hhas, hline, hsize⟩ := packedByte_eq g.colours.1 g.colours.2
  rw [← htable] at hsize
  have hw := g.width
  have hh := g.height
  have hshort (n : Nat) (hn : n < 2 ^ 16) : GifFile.short .stream (BitVec.ofInt 16 n) = n := by
    show ((BitVec.ofInt 16 n).toNat : Int) = n
    rw [BitVec.toNat_ofInt]
    omega
  have hlength : (paletteBytes q g.numColors).length = if hasTable (packedByte g.numColors) then
      3 * tableSize (packedByte g.numColors)
      else 0 := by
    rw [if_pos hhas, hsize, length_paletteBytes]
  have hread (post : List Byte) : readDescriptor ((controlOf delay).frame .stream)
      ⟨.stream, _ ++ (_ ++ (_ ++ (_ ++ _ :: (_ ++ post)))), _⟩ = _ :=
    GifFile.readDescriptor_fields ((controlOf delay).frame .stream) 0 0 (BitVec.ofInt 16 g.w)
      (BitVec.ofInt 16 g.h)
      (packedByte g.numColors) hlength
  rw [descriptorBytes, cutOff_eq (Int.natCast_nonneg _), cutOff_eq (Int.natCast_nonneg _)]
  simp only [List.append_assoc, List.cons_append]
  refine (hread data).trans ?_
  simp only [hhas, hsize, hline, hshort g.w (by omega), hshort g.h (by omega), decide_true, if_true,
    ne_eq, not_true_eq_false,
    decide_false]
  rfl

/-- The bytes of a frame around its codes. -/
def frameBytes (w h numColors : Nat) (delay : Int) (q : Quantised)
    (codes : List Byte) : List Byte :=
  (GifFile.Block.control (controlOf delay)).bytes ++ 0x2C ::
    (descriptorBytes w h numColors (paletteBytes q numColors) ++ codes)

/-- The bytes of the export's `addFrame`. -/
theorem addFrameNative_eq (w h numColors : Nat) {delay : Int} (hdelay : 0 ≤ delay) (q : Quantised)
    (codes : List Byte)
    (data : Canvas GifExport.Color8888) :
    GifExport.Gifflen.addFrameNative ⟨w, h, numColors,
      fun _ => paletteBytes q numColors ++ codes⟩ data delay =
      frameBytes w h numColors delay q codes := by
  simp only [GifExport.Gifflen.addFrameNative, frameBytes, GifFile.Block.bytes, Control.bytes,
    controlOf, descriptorBytes,
    cutOff_eq hdelay, packedByte, List.append_assoc, List.cons_append, List.nil_append]

/-- `addFrame` adds to the file what the export's `addFrame` gives for these codes. -/
theorem addFrame_eq {G : Gifflen} (frame : Frame (G.imgw * G.imgh)) {codes : List Byte}
    (hcodes : gifLzwCompressor (outDIB quantise G frame.data) G.optCol G.rasters = some codes)
    (data : Canvas GifExport.Color8888) :
    ∃ rasters, G.addFrame quantise frame.data frame.delay = some (0, { G with
      rasters := rasters
      file := G.file ++ GifExport.Gifflen.addFrameNative
        ⟨G.imgw, G.imgh, G.optCol, fun _ => paletteBytes (frame.quantised quantise) G.optCol ++
          codes⟩ data frame.delay }) := by
  have hpos : 0 ≤ frame.delay := frame.shown.le
  refine ⟨GifLzwEncoder.rastersFor (outDIB quantise G frame.data) G.rasters, ?_⟩
  rw [Gifflen.addFrame, if_neg frame.enough.not_gt, hcodes, addFrameNative_eq _ _ _ hpos]
  simp only [Option.map_some, frameBytes, GifFile.Block.bytes, Control.bytes, controlOf,
    descriptorBytes, cutOff_eq hpos, packedByte,
    Frame.quantised, List.append_assoc, List.cons_append, List.nil_append]

theorem pixelArray_pixelsFrom (img : DIB) {n i : Nat} (hi : i < n) :
    (GifFile.pixelArray (pixelsFrom img 0 n)).2 i = img.bits i := by
  show (pixelsFrom img 0 n).getD (i : Int).toNat 0 = img.bits i
  rw [pixelsFrom, Int.toNat_natCast, List.getD_eq_getElem?_getD, List.getElem?_map,
    List.getElem?_range' hi, Nat.zero_add,
    Nat.one_mul]
  rfl

variable (argb4444) in
/-- A frame that is written is read as it was, and the run goes on behind it. -/
theorem addFrame_finishes (f : GifFile.File) {frame : Frame (g.w * g.h)}
    (hframe : frame.Writable quantise g) (old : Nat → Nat) :
    ∃ codes, gifLzwCompressor ⟨g.w, g.h, g.size_lt, (frame.quantised quantise).bits⟩ g.numColors
      old = some codes ∧
      ∀ s current post delays frames,
        Reading .stream f s current (frameBytes g.w g.h g.numColors frame.delay
          (frame.quantised quantise) codes ++ post) →
        Full g.w g.h s.screen →
        (∀ s' current', Reading .stream f s' current' post → Full g.w g.h s'.screen →
          s'.screen.frames.map GifFrame.delay =
            s.screen.frames.map GifFrame.delay ++ [10 * frame.delay] →
          Finishes argb4444 quantise g s' delays frames) →
        Finishes argb4444 quantise g s delays (frame :: frames) := by
  obtain ⟨hlo, hhi⟩ := g.colours
  obtain ⟨codes, hcodes, hleaves⟩ :=
    compressor_leaves ⟨g.w, g.h, g.size_lt, (frame.quantised quantise).bits⟩
    g.width.1 g.height.1 g.height.2 hlo hhi hframe.indices hframe.flushed old
  refine ⟨codes, hcodes, fun s current post delays frames hs hfull hrest => ?_⟩
  simp only [frameBytes, List.append_assoc, List.cons_append] at hs
  have hturn (turns : Nat) : s.readContent argb4444 turns = _ :=
    GifFile.readContent_control (controlOf frame.delay) turns hs.reader
  have himage := hs.control
  refine Finishes.turn ?_ ?_ ?_ (n := 0) fun turns _ => hturn turns
  · obtain ⟨rest, hzero, hread⟩ := hleaves s.buffers post
    have hdesc :=
      readDescriptor_whole frame.delay (frame.quantised quantise) hframe.table (codes ++ post)
    have hact {i : Nat} (hi : i < g.numColors) := colorAt_palette (frame.quantised quantise) hi
    generalize colorAt (paletteBytes (frame.quantised quantise) g.numColors)
      g.numColors = lct at hdesc hact
    have hwhole : Whole g.w g.h (frameData g.w g.h frame.delay lct g.numColors) :=
      whole_frameData frame.delay lct g.numColors
    have hdelay : (frameData g.w g.h frame.delay lct g.numColors).delay = 10 * frame.delay :=
      frameData_delay frame.shown hframe.delay lct g.numColors
    obtain ⟨act, hactive⟩ := frameData_active (w := g.w) (h := g.h) frame.delay lct g.numColors lct
    have hw : 0 < g.w ∧ g.w < 2 ^ 16 := ⟨g.width.1, by have := g.width.2; omega⟩
    have hh : 0 < g.h ∧ g.h < 2 ^ 16 := ⟨g.height.1, by have := g.height.2; omega⟩
    have hlen : (pixelsFrom ⟨g.w, g.h, g.size_lt, (frame.quantised quantise).bits⟩ 0
        (g.w * g.h)).length = g.w * g.h :=
      GifLzwDecoder.length_pixelsFrom _ _ _
    obtain ⟨m, pixels, himageRead, hsame⟩ :=
      imageRead_leaves himage hdesc hw.2 hh.2 hwhole hlen hread
    obtain ⟨n, s', hcontent, hreading, hfull', hdelays⟩ :=
      readContent_leaves argb4444 himage hdesc hw hh
      g.small hwhole hlen rfl rfl hactive hfull hread
    rw [hdelay] at hdelays
    refine Finishes.image (Finishes.zeros hzero hreading fun s'' hs'' hscreen => ?_) ?_ ?_
      hcontent himageRead
      ⟨rfl, rfl, hdelay, ⟨lct, rfl, fun i hi => hact hi⟩, fun i hi => ?_⟩
    · refine hrest s'' _ hs'' ?_ ?_
      · rw [hscreen]
        exact hfull'
      · rw [hscreen]
        exact hdelays
    · rw [himage.reader]
    · rw [himage.reader]
      rfl
    · have hi' : (i : Int) < (g.w * g.h : Nat) := by exact_mod_cast hi
      exact (hsame.same i (Int.natCast_nonneg i) hi').trans (pixelArray_pixelsFrom _ hi)
  · rw [hs.reader]
  · rw [hs.reader]
    exact (by decide : ((0x21 : Byte).toNat : Int) ≠ 0x2C)

variable (argb4444) in
theorem addFrames_finishes (f : GifFile.File) (frames : List (Frame (g.w * g.h)))
    (hframes : ∀ frame ∈ frames, frame.Writable quantise g)
    (rasters : Nat → Nat) (file : List Byte) :
    ∃ G body, Gifflen.addFrames quantise ⟨g.w, g.h, g.numColors, g.size_lt, rasters, file⟩ frames =
      some G ∧ G.file = file ++ body ∧
      ∀ s current, Reading .stream f s current (body ++ [0x3b]) → Full g.w g.h s.screen →
        Finishes argb4444 quantise g s (s.screen.frames.map GifFrame.delay ++
          frames.map fun frame => 10 * frame.delay) frames := by
  induction frames generalizing rasters file with
  | nil =>
    refine ⟨_, [], rfl, (List.append_nil _).symm, fun s current hs hfull => ?_⟩
    rw [List.map_nil, List.append_nil]
    exact Finishes.trailer hs
  | cons frame frames ih =>
    obtain ⟨codes, hcodes, hfinish⟩ :=
      addFrame_finishes argb4444 f (hframes frame List.mem_cons_self) rasters
    obtain ⟨rasters', hadd⟩ :=
      addFrame_eq (G := ⟨g.w, g.h, g.numColors, g.size_lt, rasters, file⟩) frame hcodes fun _ => 0
    rw [addFrameNative_eq _ _ _ frame.shown.le] at hadd
    obtain ⟨G, body, hG, hfile, hrun⟩ :=
      ih (fun frame hframe => hframes frame (List.mem_cons_of_mem _ hframe)) rasters'
      (file ++ frameBytes g.w g.h g.numColors frame.delay (frame.quantised quantise) codes)
    refine ⟨G, frameBytes g.w g.h g.numColors frame.delay (frame.quantised quantise) codes ++ body,
      ?_, ?_, fun s current hs hfull => ?_⟩
    · rw [Gifflen.addFrames, hadd]
      exact hG
    · rw [hfile, List.append_assoc]
    · rw [List.append_assoc] at hs
      refine hfinish s current (body ++ [0x3b]) _ frames hs hfull fun s' current' hs'
        hfull' hdelays => ?_
      have hrest := hrun s' current' hs' hfull'
      rw [hdelays, List.append_assoc] at hrest
      exact hrest

/-- The packed byte of the header has no table. -/
theorem headerByte_eq {numColors : Nat} (hlo : 2 ≤ numColors) (hhi : numColors ≤ 256) :
    ¬ hasTable (0x50 + BitVec.ofNat 8 (maxBits numColors) - 1) := by
  have h : ∀ n : Fin 257, 2 ≤ n.val → ¬ hasTable (0x50 + BitVec.ofNat 8 (maxBits n.val) - 1) := by
    decide +kernel
  exact h ⟨numColors, by omega⟩ hlo

/-- The header, as that of a file. -/
def headerOf (g : Settings) : GifFile.File where
  width := BitVec.ofInt 16 g.w
  height := BitVec.ofInt 16 g.h
  packed := 0x50 + BitVec.ofNat 8 (maxBits g.numColors) - 1
  bgIndex := 0
  aspect := 0
  gct := []
  blocks := []
  table := by rw [if_neg (headerByte_eq g.colours.1 g.colours.2), List.length_nil]
  coloured := nofun

theorem loop_blocks (loopNum : Int) (rest : List Byte) :
    SubBlocks.Blocks (0x0b :: (netscape ++ 3 :: (1 :: cutOff loopNum ++ [0])) ++ rest)
    (netscape ++ (1 :: cutOff loopNum ++ [])) rest := by
  have hloop := @SubBlocks.Blocks.block _ _ _ 3 (1 :: cutOff loopNum) nofun rfl (.stop rest)
  exact @SubBlocks.Blocks.block _ _ _ 0x0b netscape nofun rfl hloop

/-- The Netscape extension. -/
def loopExtension (loopNum : Int) : GifFile.Extension where
  label := 0xff
  bytes := 0x0b :: (netscape ++ 3 :: (1 :: cutOff loopNum ++ [0]))
  other := by decide
  blocks := ⟨netscape ++ (1 :: cutOff loopNum ++ []), fun _ => nofun, loop_blocks loopNum⟩

theorem init_file (g : Settings) (rasters : Nat → Nat) :
    (init g rasters).file = (headerOf g).header ++
      (GifFile.Block.extension (loopExtension g.loopNum)).bytes := by
  simp only [init, GifFile.File.header, headerOf, GifFile.Block.bytes, loopExtension,
    cutOff_eq (Int.natCast_nonneg _),
    List.append_assoc, List.cons_append, List.nil_append, List.append_nil]

theorem full_screen (g : Settings) : Full g.w g.h ((headerOf g).screen .stream) := by
  have hw := g.width
  have hh := g.height
  refine ⟨?_, ?_, .inl rfl⟩
  · show ((BitVec.ofInt 16 g.w).toNat : Int) = g.w
    rw [BitVec.toNat_ofInt]
    omega
  · show ((BitVec.ofInt 16 g.h).toNat : Int) = g.h
    rw [BitVec.toNat_ofInt]
    omega

variable (argb4444) in
/-- The first turn passes over the Netscape extension. -/
theorem readStream_close {G : Gifflen} {rasters : Nat → Nat} {body : List Byte}
    (hfile : G.file = (init g rasters).file ++ body) :
    ∃ (s s' : Decoder) (n : Nat), (∀ turns, readStream argb4444 turns G.close =
      s.readContents argb4444 turns turns ∧
        imagesOf argb4444 turns G.close = s.imagesRead argb4444 turns turns) ∧
      s.reader.formatError = false ∧ s.reader.read.1 ≠ 0x2C ∧
      (∀ turns ≥ n, s.readContent argb4444 turns = .ok (false, s')) ∧
      Reading .stream (headerOf g) s' none (body ++ [0x3b]) ∧ Full g.w g.h s'.screen ∧
      s'.screen.frames = [] := by
  have hbytes : G.close = (headerOf g).header ++
      ((GifFile.Block.extension (loopExtension g.loopNum)).bytes ++ (body ++ [0x3b])) := by
    rw [Gifflen.close, hfile, init_file, List.append_assoc, List.append_assoc]
  have hheader := GifFile.readHeader_at (headerOf g) .stream
    ((GifFile.Block.extension (loopExtension g.loopNum)).bytes ++ (body ++ [0x3b]))
  rw [← hbytes] at hheader
  have hopened := GifFile.reading_opened .stream (headerOf g) G.close
    ((GifFile.Block.extension (loopExtension g.loopNum)).bytes ++ (body ++ [0x3b]))
  obtain ⟨n, count, hturn⟩ := @GifFile.readContent_extension argb4444 _ _ _
    (loopExtension g.loopNum) hopened.reader
  refine ⟨_, _, n, fun turns => ⟨?_, ?_⟩, rfl, ?_, hturn, hopened.extension count,
    full_screen g, rfl⟩
  · rw [readStream, readFile, hheader]
    rfl
  · rw [imagesOf, hheader]
    rfl
  · rw [hopened.reader]
    exact (by decide : ((0x21 : Byte).toNat : Int) ≠ 0x2C)

/-- What is written is read back, when every frame can be written. -/
theorem readsBack_of_writable (rasters : Nat → Nat)
    (hframes : ∀ frame ∈ frames, frame.Writable quantise g) :
    ReadsBack argb4444 quantise g rasters frames := by
  obtain ⟨G, body, hG, hfile, hrun⟩ :=
    addFrames_finishes argb4444 (headerOf g) frames hframes rasters
    (init g rasters).file
  obtain ⟨s, s', n, hread, herror, hcode, hturn, hs', hfull, hnone⟩ :=
    readStream_close argb4444 hfile
  have hrest := hrun s' none hs' hfull
  rw [hnone] at hrest
  obtain ⟨m, hm⟩ := hrest.turn herror hcode hturn
  refine ⟨G.close, congrArg (Option.map Gifflen.close) hG, m, fun turns hturns => ?_⟩
  obtain ⟨t, hend, hreader, hdelays, himages⟩ := hm turns hturns turns hturns
  rw [(hread turns).1, (hread turns).2, hend]
  exact ⟨rfl, hreader, hdelays, himages⟩

end

section

variable (argb4444 : Color → Color)

/-- From here a run comes to a format error. -/
def Fails (s : Decoder) : Prop :=
  ∃ n, ∀ turns ≥ n, ∀ fuel ≥ n, (s.readContents argb4444 turns fuel).decoder.reader.formatError =
    true

variable {argb4444} {quantise : List Pixel → Quantised} {g : Settings} {s s' : Decoder} {n : Nat}

theorem Fails.now (h : s.reader.formatError = true) : Fails argb4444 s := by
  refine ⟨1, fun turns _ fuel hfuel => ?_⟩
  obtain ⟨fuel, rfl⟩ : ∃ k, fuel = k + 1 := ⟨fuel - 1, by omega⟩
  rw [Decoder.readContents, if_pos h]
  exact h

theorem Fails.turn (h : Fails argb4444 s') (herror : s.reader.formatError = false)
    (hturn : ∀ turns ≥ n, s.readContent argb4444 turns = .ok (false, s')) : Fails argb4444 s := by
  obtain ⟨m, hm⟩ := h
  refine ⟨max n m + 1, fun turns hturns fuel hfuel => ?_⟩
  obtain ⟨fuel, rfl⟩ : ∃ k, fuel = k + 1 := ⟨fuel - 1, by omega⟩
  rw [Decoder.readContents, herror, hturn turns (by omega)]
  exact hm turns (by omega) fuel (by omega)

/-- One frame whose codes do not fill what its table leaves open is not read. -/
theorem not_readsBack_of_table (rasters : Nat → Nat) (frame : Frame (g.w * g.h)) {codes : List Byte}
    (hcodes : gifLzwCompressor (outDIB quantise (init g rasters) frame.data) g.numColors
      rasters = some codes)
    (hshort : 3 * g.numColors + codes.length + 1 < 3 * 2 ^ maxBits g.numColors) :
    ¬ ReadsBack argb4444 quantise g rasters [frame] := by
  rintro ⟨bytes, hwrite, k, hreads⟩
  obtain ⟨G, hadd, hfile⟩ : ∃ G, (init g rasters).addFrame quantise frame.data
      frame.delay = some (0, G) ∧
      G.file = (init g rasters).file ++ frameBytes g.w g.h g.numColors frame.delay
        (frame.quantised quantise) codes := by
    obtain ⟨rasters', hadd⟩ := addFrame_eq (G := init g rasters) frame hcodes fun _ => 0
    rw [addFrameNative_eq _ _ _ frame.shown.le] at hadd
    exact ⟨_, hadd, rfl⟩
  have hwritten : writeFile quantise g rasters [frame] = some G.close := by
    rw [writeFile, Gifflen.addFrames, hadd]
    rfl
  obtain rfl : G.close = bytes := Option.some.inj (hwritten.symm.trans hwrite)
  obtain ⟨s, s', n, hread, herror, -, hturn, hs', -⟩ := readStream_close argb4444 hfile
  simp only [frameBytes, List.append_assoc, List.cons_append] at hs'
  have hcontrol (turns : Nat) : s'.readContent argb4444 turns = _ :=
    GifFile.readContent_control (controlOf frame.delay) turns hs'.reader
  obtain ⟨frame', hdesc, hflag, hlct⟩ := readDescriptor_short (g := g) frame.delay
    (paletteBytes (frame.quantised quantise) g.numColors ++ (codes ++ [0x3b])) (by
      rw [List.length_append, List.length_append, length_paletteBytes, List.length_singleton]
      omega)
  have himage := hs'.control
  rw [descriptorBytes_append] at himage
  obtain ⟨t, hnone, hfailed⟩ :
      ∃ t, (∀ turns, Decoder.readContent argb4444 turns _ = .ok (false, t)) ∧
      t.reader.formatError = true := himage.readContent_noTable hdesc rfl hflag hlct
  have hfails : Fails argb4444 _ :=
    (Fails.now hfailed).turn (n := 0) (congrArg _ himage.reader) fun turns _ => hnone turns
  have hfails' : Fails argb4444 s' :=
    hfails.turn (n := 0) (congrArg _ hs'.reader) fun turns _ => hcontrol turns
  obtain ⟨m, hm⟩ := hfails'.turn herror hturn
  have hreader := (hreads (max k m) (le_max_left k m)).2.1
  have herror' := hm (max k m) (le_max_right k m) (max k m) (le_max_right k m)
  rw [(hread (max k m)).1] at hreader
  rw [hreader] at herror'
  cases herror'

end

def black : Frame (10 * 10) := ⟨List.replicate 100 0xff000000, 10, by decide, by decide⟩

def square (numColors : Nat) (h : 2 ≤ numColors ∧ numColors ≤ 256) : Settings :=
  ⟨10, 10, numColors, 0, by decide, by decide, h⟩

/-- Greys, the first for every pixel. -/
def greys (levels : List Nat) : Quantised :=
  ⟨fun i => BitVec.ofNat 8 (levels.getD (i / 3) 0), fun _ => 0⟩

theorem readsBack_fourGreys :
    ReadsBack id (fun _ => greys [0, 64, 128, 192]) (square 4 (by decide))
    (fun _ => 0) [black] := by
  refine readsBack_of_writable _ fun frame hframe => ?_
  obtain rfl : frame = black := List.mem_singleton.mp hframe
  refine ⟨by decide, by decide, fun i _ => ?_, ?_⟩
  · exact (by decide : (0 : Byte).toNat < 2 ^ GifLzwEncoder.rootBits 4)
  · rintro ⟨-, hfew, -⟩
    have hmany :
        ¬ ((GifLzwDecoder.imagePhrases ⟨10, 10, (square 4 (by decide)).size_lt, fun _ => 0⟩
          2).length - 1) % 4091 < 3 := by
      decide +kernel
    exact hmany hfew

/-- The nine colours do not fill the table of sixteen, and the codes are too short for the rest. -/
theorem not_readsBack_nineGreys :
    ¬ ReadsBack id (fun _ => greys [0, 17, 57, 85, 114, 142, 171, 199, 228]) (square 9 (by decide))
    (fun _ => 0) [black] := by
  have hcodes : gifLzwCompressor (outDIB (fun _ => greys [0, 17, 57, 85, 114, 142, 171, 199, 228])
      (init (square 9 (by decide)) fun _ => 0) black.data) 9 (fun _ => 0) =
      some [4, 10, 16, 200, 73, 171, 189, 56, 235, 205, 123, 142, 0] := by
    decide +kernel
  exact not_readsBack_of_table (g := square 9 (by decide)) _ black hcodes (by decide)

end GifflenFile
