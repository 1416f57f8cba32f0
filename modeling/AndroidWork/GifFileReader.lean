import AndroidWork.GifFile

/-!
# Reading the blocks of a file

What `readHeader` and one turn of `readContents` make of a file, for either
source, and what playing an image does to the screen.
-/
namespace GifFile

open BaseGifDecoder
open BitPacking (toBytes)
open GifLzwDecoder (Byte Reader Source Buffers)
open SubBlocks (Blocks)

theorem int_le {x : Int} (h : -2 ^ 31 ≤ x) : int x ≤ x := by
  rw [int, BitVec.toInt_ofInt, Int.bmod_def]
  split <;> omega

theorem int_eq {x : Int} (h : -2 ^ 31 ≤ x) (h' : x < 2 ^ 31) : int x = x := by
  rw [int, BitVec.toInt_ofInt]
  exact Int.bmod_eq_of_le (by omega) (by omega)

theorem int_bounds (x : Int) : -2 ^ 31 ≤ int x ∧ int x < 2 ^ 31 :=
  ⟨BitVec.le_toInt _, BitVec.toInt_lt⟩

section

variable {act : Table} {size : Int} {p q : Nat × (Int → Byte)} {n : Nat} {frame : GifFrameData}

/-- The two pixel arrays have the same `n` elements. -/
structure SamePixels (n : Nat) (p q : Nat × (Int → Byte)) : Prop where
  left : n ≤ p.1
  right : n ≤ q.1
  same : ∀ i : Int, 0 ≤ i → i < n → p.2 i = q.2 i

theorem copyRow_congr (h : SamePixels n p q) (k : Nat) (dx sx : Int)
    (dest : Int → Color) (hlow : 0 ≤ sx)
    (hhigh : sx + k ≤ n) : copyRow act p size k dx sx dest = copyRow act q size k dx sx dest := by
  induction k generalizing dx sx dest with
  | zero => rfl
  | succ k ih =>
    have hp := h.left
    have hq := h.right
    have hleft : 0 ≤ sx ∧ sx < p.1 := by omega
    have hright : 0 ≤ sx ∧ sx < q.1 := by omega
    have hrest (dest : Int → Color) := ih (dx + 1) (sx + 1) dest (by omega) (by omega)
    rw [copyRow, copyRow, if_pos hleft, if_pos hright, h.same sx hlow (by omega)]
    simp only [hrest]

theorem paintRow_congr (h : SamePixels n p q) (s : Screen) {iw ih i : Nat}
    (hiw : frame.iw = iw) (hi : i < ih)
    (hn : iw * ih ≤ n) (hsize : iw * ih < 2 ^ 31) (line : Int) (dest : Int → Color) :
    s.paintRow frame act p size i line dest = s.paintRow frame act q size i line dest := by
  have hrow : i * iw + iw ≤ iw * ih := by
    calc i * iw + iw = (i + 1) * iw := by ring
      _ ≤ ih * iw := Nat.mul_le_mul_right _ hi
      _ = iw * ih := Nat.mul_comm _ _
  have hsx : int (i * frame.iw) = (i * iw : Nat) := by
    rw [hiw]
    exact int_eq (by omega) (by push_cast; omega)
  rw [Screen.paintRow, Screen.paintRow]
  split
  · simp only [hsx]
    refine copyRow_congr h _ _ _ _ (by omega) ?_
    have hdx := int_bounds (int ((line + frame.iy) * s.width) + frame.ix)
    have hdlim :=
      int_le (x := int (int ((line + frame.iy) * s.width) + frame.ix) + frame.iw) (by omega)
    split <;> omega
  · rfl

theorem paintRows_congr (h : SamePixels n p q) (s : Screen) {iw ih : Nat} (hiw : frame.iw = iw)
    (hn : iw * ih ≤ n) (hsize : iw * ih < 2 ^ 31) (k i : Nat) (hk : i + k ≤ ih) (pass : Pass)
    (dest : Int → Color) :
    s.paintRows frame act p size k i pass dest = s.paintRows frame act q size k i pass dest := by
  induction k generalizing i pass dest with
  | zero => rfl
  | succ k ih' =>
    rw [Screen.paintRows, Screen.paintRows, paintRow_congr h s hiw (by omega) hn hsize]
    refine congrArg _ (funext fun dest => ?_)
    exact ih' (i + 1) (by omega) _ _

variable {argb4444 : Color → Color} {link : Screen → Int → Except Fault Screen}

theorem showFrame_congr (h : SamePixels n p q) (s : Screen) {iw ih : Nat} (hiw : frame.iw = iw)
    (hih : frame.ih = ih)
    (hn : iw * ih ≤ n) (hsize : iw * ih < 2 ^ 31) :
    Screen.showFrame argb4444 link s frame act p =
      Screen.showFrame argb4444 link s frame act q := by
  have hrows (t : Screen) (size : Int) (dest : Int → Color) :
      t.paintRows frame act p size frame.ih.toNat 0 ⟨1, 8, 0⟩ dest =
        t.paintRows frame act q size frame.ih.toNat 0 ⟨1, 8, 0⟩ dest :=
    paintRows_congr h t hiw hn hsize frame.ih.toNat 0 (by omega) _ _
  simp only [Screen.showFrame, Screen.setPixels, hrows]

end

def File.globalTable (f : File) : Option Table :=
  if hasTable f.packed then some (colorAt f.gct (tableSize f.packed)) else none

/-- The screen before the first frame. -/
def File.screen (f : File) (source : Source) : Screen where
  width := short source f.width
  height := short source f.height
  bgColor := (f.globalTable.map fun gct => gct f.bgIndex.toNat).getD 0
  lastBgColor := 0
  image := none
  lrx := 0
  lry := 0
  lrw := 0
  lrh := 0
  lastImage := none
  lastDispose := 0
  frameCount := 0
  frames := []

/-- The decoder behind the header, with the bytes that are still to be read. -/
def File.opened (f : File) (source : Source) (data post : List Byte) : Decoder where
  reader := ⟨source, post, false⟩
  data := data
  header := ⟨short source f.width, short source f.height, decide (hasTable f.packed),
    tableSize f.packed, f.bgIndex.toNat,
    f.aspect.toNat, 0, f.globalTable, none, []⟩
  objects := []
  screen := f.screen source
  buffers := ⟨none, fun _ => 0, fun _ => 0⟩
  loopCount := 1

theorem readHeader_at (f : File) (source : Source) (post : List Byte) :
    readHeader (initial source (f.header ++ post)) =
      .ok (f.opened source (f.header ++ post) post) := by
  obtain ⟨htable, -, hsize⟩ := field_toNat f.packed
  have hgct := f.table
  have hindex : (0 : Int) ≤ f.bgIndex.toNat ∧ (f.bgIndex.toNat : Int) < 256 := by
    have := f.bgIndex.isLt
    omega
  simp only [readHeader, initial, File.header, List.cons_append, List.nil_append, List.append_assoc,
    readId, Reader.read,
    Decoder.withReader]
  rw [if_pos (by decide)]
  simp only [readLSD, readShort_at, ok_bind, Reader.read, htable, hsize, File.opened,
    File.screen, File.globalTable]
  by_cases h : hasTable f.packed
  · rw [if_pos h] at hgct
    simp only [h, decide_true, and_self, if_true, Int.toNat_natCast, readColorTable_at hgct,
      if_pos hindex, Option.map_some,
      Option.getD_some]
  · rw [if_neg h] at hgct
    have hnil := List.eq_nil_of_length_eq_zero hgct
    simp only [h, decide_false, hnil, List.nil_append]
    rfl

/-- The pixel array that holds these pixels and nothing else. -/
def pixelArray (xs : List Byte) : Nat × (Int → Byte) := (xs.length, fun k => xs.getD k.toNat 0)

def Image.shown (i : Image) : Nat × (Int → Byte) :=
  (i.pixels.length, fun k => i.pixels.getD k.toNat 0)

/-- What playing an image does to the screen. -/
def playImage (argb4444 : Color → Color) (link : Screen → Int → Except Fault Screen)
    (gct : Option Table) (bgIndex : Int)
    (s : Screen) (frame : GifFrameData) (i : Image) : Except Fault Screen :=
  match if frame.lctFlag then frame.lct else gct with
  | none => .error .nullPointer
  | some act => do
    let act ← frame.activeTable act
    Screen.showFrame argb4444 link (s.chooseBackground frame bgIndex) frame act i.shown

section

variable {s : Decoder} {post : List Byte} {frame : GifFrameData} {ref : Nat}

/-- The image data is decoded, and its blocks are left behind. -/
theorem decodeImageData_leaves {r₀ : Reader} {iw ih : Nat} {xs : List Byte}
    (hreader : s.imageReader frame = r₀)
    (hiw : frame.iw = iw) (hih : frame.ih = ih) (hw : iw < 2 ^ 16) (hh : ih < 2 ^ 16)
    (hlen : xs.length = iw * ih)
    (h : GifLzwDecoder.Leaves iw ih s.buffers r₀ xs post) :
    ∃ n r buffers pixels, buffers.pixels = some pixels ∧
      SamePixels (iw * ih) pixels (pixelArray xs) ∧
      r.source = r₀.source ∧ r.formatError = false ∧ (∃ data, Blocks r.bytes data post) ∧
      ∀ turns ≥ n, ∀ screen, Decoder.decodeImageData turns frame { s with screen := screen } =
        .ok { s with screen := screen, reader := r, buffers := buffers } := by
  have hiw' : (BitVec.ofInt 32 frame.iw).toNat = iw := by
    rw [hiw, BitVec.ofInt_natCast, BitVec.toNat_ofNat, Nat.mod_eq_of_lt (by omega)]
  have hih' : (BitVec.ofInt 32 frame.ih).toNat = ih := by
    rw [hih, BitVec.ofInt_natCast, BitVec.toNat_ofNat, Nat.mod_eq_of_lt (by omega)]
  obtain ⟨turns, r, n, pixels, prefixes, suffixes, hdecode, hn, hpixels, hsource,
      hformat, hblocks⟩ := h
  refine ⟨turns, r, ⟨some (n, pixels), prefixes, suffixes⟩, (n, pixels), rfl,
    ⟨hn, hlen.ge, ?_⟩, hsource, hformat,
    hblocks, fun turns' hturns screen => ?_⟩
  · intro k hk hlt
    have hlt' : k.toNat < xs.length := by
      rw [hlen]
      omega
    have hpixel := hpixels k.toNat _ (List.getElem?_eq_getElem hlt')
    rw [Int.toNat_of_nonneg hk] at hpixel
    show pixels k = xs.getD k.toNat 0
    rw [hpixel, List.getD_eq_getElem?_getD, List.getElem?_eq_getElem hlt']
    rfl
  · have hscreen : Decoder.imageReader { s with screen := screen } frame = r₀ := hreader
    rw [Decoder.decodeImageData]
    simp only [hscreen, hiw', hih', GifLzwDecoder.decodeImageData_more hdecode hturns]

/-- The decoder once an image was shown. -/
def shownWith (s : Decoder) (ref : Nat) (frame : GifFrameData) (r : Reader) (buffers : Buffers)
    (screen : Screen) : Decoder :=
  { s with reader := r, buffers := buffers, screen := screen, objects := s.resetObject ref frame }

/-- What `leaveImage` leaves behind the data of an image. -/
theorem leaveImage_blocks {r : Reader} {data : List Byte} (hblocks : Blocks r.bytes data post)
    (hformat : r.formatError = false) :
    ∃ n r', r'.source = r.source ∧ r'.formatError = false ∧ (r.source = .stream → r'.bytes = post) ∧
      ∀ turns ≥ n, ∀ s : Decoder, s.reader = r → s.leaveImage turns = .ok r' := by
  obtain ⟨source, bytes, error⟩ := r
  cases hformat
  cases source with
  | stream =>
    obtain ⟨n, hskip⟩ := skip_blocks .stream hblocks
    refine ⟨n, ⟨.stream, post, false⟩, rfl, rfl, fun _ => rfl, fun turns hturns s hreader => ?_⟩
    simp only [Decoder.leaveImage, hreader]
    exact hskip turns hturns
  | rawData =>
    refine ⟨0, ⟨.rawData, bytes, false⟩, rfl, rfl, ?_, fun turns _ s hreader => ?_⟩
    · rintro ⟨⟩
    · simp only [Decoder.leaveImage, hreader]

/-- Pixels that are left by the decoder are shown. -/
theorem playFrame_leaves (argb4444 : Color → Color) (link : Screen → Int → Except Fault Screen)
    {r₀ : Reader} {iw ih : Nat}
    {xs : List Byte} (hobject : s.objects[ref]? = some frame) (hreader : s.imageReader frame = r₀)
    (hsource₀ : r₀.source = s.reader.source) (herr : s.reader.formatError = false)
    (hiw : frame.iw = iw) (hih : frame.ih = ih)
    (hw : iw < 2 ^ 16) (hh : ih < 2 ^ 16) (hsize : iw * ih < 2 ^ 31) (hlen : xs.length = iw * ih)
    (h : GifLzwDecoder.Leaves iw ih s.buffers r₀ xs post) {act : Table}
    (hact : (if frame.lctFlag then frame.lct else s.header.gct) = some act) :
    ∃ n r buffers, r.source = s.reader.source ∧ r.formatError = false ∧
      (s.reader.source = .stream → r.bytes = post) ∧
      ∀ turns ≥ n, s.playFrame argb4444 turns link ref =
        (frame.activeTable act >>= fun act => Screen.showFrame argb4444 link
          (s.screen.chooseBackground frame s.header.bgIndex) frame act (pixelArray xs)).map
            (shownWith s ref frame r buffers) := by
  obtain ⟨n, r, buffers, pixels, hpixels, hsame, hsource, hformat, ⟨data, hblocks⟩, hdecode⟩ :=
    decodeImageData_leaves hreader hiw hih hw hh hlen h
  rw [hsource₀] at hsource
  obtain ⟨n', r', hsource', hformat', hbytes, hleave⟩ := leaveImage_blocks hblocks hformat
  refine ⟨max n n', r', buffers, hsource'.trans hsource, hformat',
    fun hstream => hbytes (hsource.trans hstream), ?_⟩
  intro turns hturns
  have hdecode' := hdecode turns (le_trans (le_max_left _ _) hturns)
    (s.screen.chooseBackground frame s.header.bgIndex)
  have hleave' (t : Decoder) (ht : t.reader = r) :=
    hleave turns (le_trans (le_max_right _ _) hturns) t ht
  rw [Decoder.playFrame, hobject]
  simp only [hact, herr]
  cases frame.activeTable act with
  | error e => rfl
  | ok act' =>
    simp only [Bool.false_eq_true, if_false, ok_bind, hdecode', hleave', hformat', hpixels]
    rw [showFrame_congr hsame _ hiw hih le_rfl hsize]
    cases Screen.showFrame argb4444 link (s.screen.chooseBackground frame s.header.bgIndex) frame
      act' (pixelArray xs) with
    | error e => rfl
    | ok screen => simp only [ok_bind, Except.map, shownWith, Decoder.resetObject, hsource]

theorem playFrame_at (argb4444 : Color → Color) (link : Screen → Int → Except Fault Screen)
    (i : Image) (hobject : s.objects[ref]? = some frame)
    (hreader : s.imageReader frame = ⟨s.reader.source, i.data ++ post, false⟩)
    (herr : s.reader.formatError = false)
    (hiw : frame.iw = i.width.toNat) (hih : frame.ih = i.height.toNat)
    (hsize : i.width.toNat * i.height.toNat < 2 ^ 31)
    {act : Table} (hact : (if frame.lctFlag then frame.lct else s.header.gct) = some act) :
    ∃ n r buffers, r.source = s.reader.source ∧ r.formatError = false ∧
      (s.reader.source = .stream → r.bytes = post) ∧
      ∀ turns ≥ n, s.playFrame argb4444 turns link ref =
        (playImage argb4444 link s.header.gct s.header.bgIndex s.screen frame i).map
          (shownWith s ref frame r buffers) := by
  obtain ⟨n, r, buffers, hsource, hformat, hbytes, hplay⟩ :=
    playFrame_leaves argb4444 link hobject hreader rfl
    herr hiw hih i.width.isLt i.height.isLt hsize i.complete
    (GifLzwDecoder.decodeImageData_spelled (i.spelled post) i.complete hsize s.buffers
      s.reader.source) hact
  refine ⟨n, r, buffers, hsource, hformat, hbytes, fun turns hturns => ?_⟩
  rw [hplay turns hturns, playImage, hact]
  rfl

end

section

variable {argb4444 : Color → Color} {source : Source} {s : Decoder} {post : List Byte}

/-- A graphic control extension starts a new frame. -/
def controlled (s : Decoder) (c : Control) (r : Reader) : Decoder :=
  { s.newFrame with reader := r, objects := s.objects ++ [c.frame r.source] }

theorem readContent_control (c : Control) (turns : Nat)
    (hreader : s.reader = ⟨source, (Block.control c).bytes ++ post, false⟩) :
    s.readContent argb4444 turns = .ok (false, controlled s c ⟨source, post, false⟩) := by
  have hset : (s.objects ++ [newFrameData]).set ((s.objects ++ [newFrameData]).length - 1)
      (c.frame source) =
      s.objects ++ [c.frame source] := by
    simp
  simp only [Decoder.readContent, hreader, Block.bytes, List.cons_append,
    List.nil_append, Reader.read,
    Decoder.withReader]
  rw [if_neg (by decide), if_pos (by decide)]
  have hcode : ((0xf9 : Byte).toNat : Int) = 0xf9 := rfl
  simp only [Decoder.readExtension, Reader.read, Decoder.withReader, hcode,
    if_true, Decoder.newFrame,
    readGraphicControlExt_at, Except.map, hset, controlled]

/-- The loop count is all that the blocks of a NETSCAPE extension change. -/
theorem readNetscapeExt_blocks {bytes data rest : List Byte} (h : Blocks bytes data rest)
    (hreader : s.reader = ⟨source, bytes, false⟩) :
    ∃ n count, ∀ turns ≥ n, s.readNetscapeExt turns =
      .ok { s with reader := ⟨source, rest, false⟩, loopCount := count } := by
  induction h generalizing s with
  | stop rest =>
    refine ⟨1, s.loopCount, fun turns hturns => ?_⟩
    obtain ⟨turns, rfl⟩ : ∃ t, turns = t + 1 := ⟨turns - 1, by omega⟩
    rw [Decoder.readNetscapeExt, hreader, readBlock_stop]
    exact if_neg fun h => lt_irrefl (0 : Int) h.1
  | @block bytes data rest size chunk hpos hsize h ih =>
    have hread : (⟨source, size :: (chunk ++ bytes), false⟩ : Reader).readBlock = _ :=
      GifLzwDecoder.readBlock_block hpos hsize
    obtain ⟨n, count, hn⟩ := ih
      (s := { s with reader := ⟨source, bytes, false⟩, loopCount := loopCountOf chunk s.loopCount })
      rfl
    refine ⟨n + 1, count, fun turns hturns => ?_⟩
    obtain ⟨turns, rfl⟩ : ∃ t, turns = t + 1 := ⟨turns - 1, by omega⟩
    have hsize' : 0 < ((⟨source, size :: (chunk ++ bytes), false⟩ : Reader).read).1 := by
      have := List.length_pos_iff.mpr hpos
      show 0 < (size.toNat : Int)
      omega
    rw [Decoder.readNetscapeExt, hreader, hread]
    exact (if_pos ⟨hsize', rfl⟩).trans (hn turns (by omega))

theorem readContent_extension (e : Extension)
    (hreader : s.reader = ⟨source, (Block.extension e).bytes ++ post, false⟩) :
    ∃ n count, ∀ turns ≥ n, s.readContent argb4444 turns =
      .ok (false, { s with reader := ⟨source, post, false⟩, loopCount := count }) := by
  obtain ⟨content, happ, hblocks⟩ := e.blocks
  have hblocks := hblocks post
  have hlabel : (e.label.toNat : Int) ≠ 0xf9 := by
    have := e.other
    rw [ne_eq, ← BitVec.toNat_inj] at this
    exact_mod_cast this
  have hcontent (turns : Nat) : s.readContent argb4444 turns =
      (({ s with reader := ⟨source, e.label :: (e.bytes ++ post), false⟩ } :
        Decoder).readExtension turns).map
        fun s => (false, s) := by
    simp only [Decoder.readContent, hreader, Block.bytes, List.cons_append,
      List.nil_append, Reader.read,
      Decoder.withReader]
    rw [if_neg (by decide), if_pos (by decide)]
  by_cases happlication : e.label = 0xff
  · have hcode : ((0xff : Byte).toNat : Int) = 0xff := rfl
    obtain ⟨block, rest, bytes, hread, hmore⟩ : ∃ block rest bytes,
        (⟨source, e.bytes ++ post, false⟩ : Reader).readBlock = (block, ⟨source, bytes, false⟩) ∧
        Blocks bytes rest post := by
      rcases GifLzwDecoder.readBlock_blocks (r := ⟨source, e.bytes ++ post, false⟩) hblocks rfl with
        ⟨hnil, -⟩ | ⟨chunk, more, bytes, -, -, hmore, hread⟩
      · exact absurd hnil (happ happlication)
      · exact ⟨chunk, more, bytes, hread, hmore⟩
    obtain ⟨n, hskip⟩ := skip_blocks source hmore
    obtain ⟨n', count, hnetscape⟩ :=
      readNetscapeExt_blocks (s := s.withReader ⟨source, bytes, false⟩) hmore rfl
    by_cases hname : block.take 11 = netscape
    · refine ⟨n', count, fun turns hturns => ?_⟩
      rw [hcontent]
      simp only [Decoder.readExtension, happlication, Reader.read, Decoder.withReader, hcode, hread]
      rw [if_neg (by decide), if_pos trivial, if_pos hname]
      exact congrArg _ (hnetscape turns hturns)
    · refine ⟨n, s.loopCount, fun turns hturns => ?_⟩
      rw [hcontent]
      simp only [Decoder.readExtension, happlication, Reader.read, Decoder.withReader, hcode, hread]
      rw [if_neg (by decide), if_pos trivial, if_neg hname, hskip turns hturns]
      rfl
  · have hlabel' : (e.label.toNat : Int) ≠ 0xff := by
      rw [← BitVec.toNat_inj] at happlication
      exact_mod_cast happlication
    obtain ⟨n, hn⟩ := skip_blocks source hblocks
    refine ⟨n, s.loopCount, fun turns hturns => ?_⟩
    rw [hcontent]
    simp only [Decoder.readExtension, Reader.read, Decoder.withReader, if_neg hlabel,
      if_neg hlabel', hn turns hturns,
      Except.map]

end

end GifFile
