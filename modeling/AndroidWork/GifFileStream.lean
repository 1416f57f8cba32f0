import AndroidWork.GifFileReader

/-!
# A whole file read as a stream

Every image is played with the frame data that the blocks before it leave, and
the frames are those that playing the images one after the other gives.
-/
namespace GifFile

open BaseGifDecoder
open GifLzwDecoder (Byte Reader Source Buffers)

/-- The images of a stream with their frame data. An image leaves its frame
object, reset, to the next one. -/
def streamFrames : Option GifFrameData → List Block → List (GifFrameData × Image)
  | _, [] => []
  | _, .control c :: blocks => streamFrames (some (c.frame .stream)) blocks
  | current, .image i :: blocks =>
    let frame := i.describe .stream (current.getD newFrameData)
    (frame, i) :: streamFrames (some frame.reset) blocks
  | current, .extension _ :: blocks => streamFrames current blocks

/-- Images played one after the other, until something is thrown. -/
def playAll (play : Screen → GifFrameData → Image → Except Fault Screen) :
    Screen → List (GifFrameData × Image) → Screen × Option Fault
  | s, [] => (s, none)
  | s, (frame, i) :: images =>
    match play s frame i with
    | .error e => (s, some e)
    | .ok s => playAll play s images

/-- An image of a file, played as a stream plays it. -/
def File.play (f : File) (argb4444 : Color → Color) :
    Screen → GifFrameData → Image → Except Fault Screen :=
  playImage argb4444 Screen.link f.globalTable f.bgIndex.toNat

/-- The image has no more pixels than an array can have. -/
def Image.Fits (i : Image) : Prop := i.width.toNat * i.height.toNat < 2 ^ 31

section

variable {argb4444 : Color → Color} {f : File} {source : Source} {s : Decoder}
    {current : Option GifFrameData}
  {post : List Byte}

/-- The decoder between two blocks. -/
structure Reading (source : Source) (f : File) (s : Decoder) (current : Option GifFrameData)
    (post : List Byte) : Prop where
  reader : s.reader = ⟨source, post, false⟩
  gct : s.header.gct = f.globalTable
  bgIndex : s.header.bgIndex = f.bgIndex.toNat
  fresh : current = none → s.header.currentFrame = none
  object : ∀ frame, current = some frame → ∃ ref, s.header.currentFrame = some ref ∧
    s.objects[ref]? = some frame

theorem reading_opened (source : Source) (f : File) (data post : List Byte) :
    Reading source f (f.opened source data post) none post :=
  ⟨rfl, rfl, rfl, fun _ => rfl, fun _ => nofun⟩

theorem reading_some {t : Decoder} {ref : Nat} {frame : GifFrameData}
    (hreader : t.reader = ⟨source, post, false⟩)
    (hgct : t.header.gct = f.globalTable) (hbgIndex : t.header.bgIndex = f.bgIndex.toNat)
    (hcurrent : t.header.currentFrame = some ref) (hobject : t.objects[ref]? = some frame) :
    Reading source f t (some frame) post := by
  refine ⟨hreader, hgct, hbgIndex, by rintro ⟨⟩, ?_⟩
  rintro frame ⟨⟩
  exact ⟨ref, hcurrent, hobject⟩

theorem reader_eq {r : Reader} (hsource : r.source = source) (hformat : r.formatError = false)
    (hbytes : r.bytes = post) :
    r = ⟨source, post, false⟩ := by
  obtain ⟨src, bytes, error⟩ := r
  cases hsource
  cases hformat
  cases hbytes
  rfl

theorem Reading.control (c : Control)
    (h : Reading source f s current ((Block.control c).bytes ++ post)) :
    Reading source f (controlled s c ⟨source, post, false⟩) (some (c.frame source)) post :=
  reading_some rfl h.gct h.bgIndex rfl List.getElem?_concat_length

theorem Reading.extension (count : Int) {pre : List Byte} (h : Reading source f s current pre) :
    Reading source f { s with reader := ⟨source, post, false⟩, loopCount := count } current post :=
  ⟨rfl, h.gct, h.bgIndex, h.fresh, h.object⟩

/-- The place of the object that the next image is described in. -/
def nextRef (s : Decoder) : Nat := s.header.currentFrame.getD s.objects.length

/-- The objects with one for the next image. -/
def readied (s : Decoder) : List GifFrameData :=
  if s.header.currentFrame = none then s.objects ++ [newFrameData] else s.objects

/-- The decoder behind an image descriptor. -/
def described (s : Decoder) (frame : GifFrameData) (r : Reader) : Decoder :=
  { s with
    reader := r
    header := { s.header with currentFrame := some (nextRef s) }
    objects := (readied s).set (nextRef s) frame }

theorem Reading.readied (h : Reading source f s current post) :
    (readied s)[nextRef s]? = some (current.getD newFrameData) := by
  rw [GifFile.readied, nextRef]
  cases hcurrent : current with
  | none =>
    rw [h.fresh hcurrent, if_pos rfl]
    exact List.getElem?_concat_length
  | some frame =>
    obtain ⟨ref, href, hobject⟩ := h.object frame hcurrent
    rw [href, if_neg nofun]
    exact hobject

theorem Reading.described {pre : List Byte} (h : Reading source f s current pre) (post : List Byte)
    (frame : GifFrameData) :
    Reading source f (described s frame ⟨source, post, false⟩) (some frame) post := by
  have hlt := (List.getElem?_eq_some_iff.mp h.readied).1
  exact reading_some rfl h.gct h.bgIndex rfl (List.getElem?_set_self hlt)

/-- What is described is then listed or played. -/
theorem Reading.readContent_described {bytes : List Byte} {frame : GifFrameData} {r : Reader}
    (h : Reading source f s current (0x2C :: bytes))
    (hdesc : readDescriptor (current.getD newFrameData) ⟨source, bytes, false⟩ = .ok (frame, r))
    (hsource : r.source = source)
    (turns : Nat) :
    s.readContent argb4444 turns =
      (match source with
        | .rawData => (GifFile.described s frame r).listFrame turns (nextRef s)
        | .stream => (GifFile.described s frame r).playSingleFrame argb4444 turns (nextRef s)).map
          fun s => (false, s) := by
  have hobject := h.readied
  have hclaim : (if s.header.currentFrame = none then
        ({ s with reader := ⟨source, bytes, false⟩ } : Decoder).newFrame
      else { s with reader := ⟨source, bytes, false⟩ }) =
      { s with
        reader := ⟨source, bytes, false⟩
        header := { s.header with currentFrame := some (nextRef s) }
        objects := GifFile.readied s } := by
    rw [GifFile.readied, nextRef]
    cases hcurrent : s.header.currentFrame with
    | none => simp only [Decoder.newFrame, if_true, Option.getD_none]
    | some ref =>
      simp only [reduceCtorEq, if_false, Option.getD_some]
      rw [← hcurrent]
  have hcode : ((0x2C : Byte).toNat : Int) = 0x2C := rfl
  simp only [Decoder.readContent, h.reader, Reader.read, Decoder.withReader, hcode, if_true, hclaim,
    Decoder.readImage,
    hobject, hdesc, ok_bind, hsource]
  cases source <;> rfl

/-- An image whose colour table is missing is not played. -/
theorem Reading.readContent_noTable {bytes : List Byte} {frame : GifFrameData} {r : Reader}
    (h : Reading .stream f s current (0x2C :: bytes))
    (hdesc : readDescriptor (current.getD newFrameData) ⟨.stream, bytes, false⟩ = .ok (frame, r))
    (hsource : r.source = .stream)
    (hflag : frame.lctFlag = true) (hlct : frame.lct = none) :
    ∃ s', (∀ turns, s.readContent argb4444 turns = .ok (false, s')) ∧
      s'.reader.formatError = true := by
  obtain ⟨ref, href, hobject⟩ := (h.described [] frame).object _ rfl
  obtain rfl : nextRef s = ref := Option.some.inj href
  have hobject' : (GifFile.described s frame r).objects[nextRef s]? = some frame := hobject
  refine ⟨Decoder.fail { GifFile.described s frame
    r with screen := s.screen.chooseBackground frame s.header.bgIndex },
    fun turns => ?_, rfl⟩
  rw [h.readContent_described hdesc hsource turns]
  simp only [Decoder.playSingleFrame, Decoder.playFrame, hobject', hflag, if_true, hlct]
  rfl

/-- An image is described, and then listed or played. -/
theorem Reading.readContent_image (i : Image)
    (h : Reading source f s current ((Block.image i).bytes ++ post)) (turns : Nat) :
    s.readContent argb4444 turns =
      (match source with
        | .rawData => (GifFile.described s (i.describe source (current.getD newFrameData))
          ⟨source, i.data ++ post, false⟩).listFrame turns (nextRef s)
        | .stream => (GifFile.described s (i.describe source (current.getD newFrameData))
          ⟨source, i.data ++ post, false⟩).playSingleFrame argb4444 turns (nextRef s)).map fun s =>
            (false, s) := by
  rw [Block.bytes, List.cons_append, List.append_assoc] at h
  exact h.readContent_described (readDescriptor_at i _) rfl turns

/-- Every image of a file has a colour table. -/
theorem File.activeTable {f : File} {i : Image}
    (h : hasTable i.packed ∨ hasTable f.packed) (source : Source)
    (frame : GifFrameData) : ∃ act, (if (i.describe source frame).lctFlag then
      (i.describe source frame).lct
      else f.globalTable) = some act := by
  rw [Image.describe]
  by_cases hlocal : hasTable i.packed
  · simp only [hlocal, decide_true, if_true]
    exact ⟨_, rfl⟩
  · have hglobal := h.resolve_left hlocal
    simp only [hlocal, decide_false, Bool.false_eq_true, if_false,
      File.globalTable, hglobal, if_true]
    exact ⟨_, rfl⟩

/-- An image is played, and its frame object is left to the next one. -/
theorem Reading.image (i : Image) (h : Reading .stream f s current ((Block.image i).bytes ++ post))
    (hfits : i.Fits)
    (htable : hasTable i.packed ∨ hasTable f.packed) :
    ∃ n, match f.play argb4444 s.screen (i.describe .stream (current.getD newFrameData)) i with
      | .error e => ∀ turns ≥ n, s.readContent argb4444 turns = .error e
      | .ok screen => ∃ s', (∀ turns ≥ n, s.readContent argb4444 turns = .ok (false, s')) ∧
          s'.screen = screen ∧
          Reading .stream f s' (some (i.describe .stream (current.getD newFrameData)).reset)
            post := by
  obtain ⟨act, hact⟩ := File.activeTable htable .stream (current.getD newFrameData)
  have hread (turns : Nat) : s.readContent argb4444 turns = _ := h.readContent_image i turns
  have hdescribed := h.described (i.data ++ post) (i.describe .stream (current.getD newFrameData))
  have hiw : (i.describe .stream (current.getD newFrameData)).iw = i.width.toNat := rfl
  have hih : (i.describe .stream (current.getD newFrameData)).ih = i.height.toNat := rfl
  generalize i.describe .stream (current.getD newFrameData) = frame at *
  obtain ⟨ref, href, hobject⟩ := hdescribed.object _ rfl
  obtain rfl : nextRef s = ref := Option.some.inj href
  obtain ⟨n, r, buffers, hsource, hformat, hbytes, hplay⟩ :=
    playFrame_at argb4444 Screen.link i hobject rfl rfl hiw hih hfits
    ((if_congr Iff.rfl rfl h.gct).trans hact)
  rw [hdescribed.gct, hdescribed.bgIndex] at hplay
  have hturn : ∀ turns ≥ n, s.readContent argb4444 turns = ((f.play argb4444 s.screen frame i).map
      (shownWith (GifFile.described s frame ⟨.stream, i.data ++ post, false⟩)
        (nextRef s) frame r buffers)).map
        fun s => (false, s) :=
    fun turns hturns => (hread turns).trans (congrArg _ (hplay turns hturns))
  refine ⟨n, ?_⟩
  cases hresult : f.play argb4444 s.screen frame i with
  | error e =>
    rw [hresult] at hturn
    exact hturn
  | ok screen =>
    rw [hresult] at hturn
    have hlt := (List.getElem?_eq_some_iff.mp hobject).1
    exact ⟨_, hturn, rfl, reading_some (reader_eq hsource hformat (hbytes rfl)) h.gct h.bgIndex rfl
      (List.getElem?_set_self hlt)⟩

/-- Every image fits, and has a colour table. -/
def Playable (f : File) (blocks : List Block) : Prop :=
  ∀ i, .image i ∈ blocks → i.Fits ∧ (hasTable i.packed ∨ hasTable f.packed)

/-- What a run leaves on the screen, and what was thrown. -/
def Ended.outcome (e : Ended) : Screen × Option Fault := (e.decoder.screen, e.fault)

theorem Reading.trailer (h : Reading source f s current (0x3b :: post)) (turns : Nat) :
    s.readContent argb4444 turns = .ok (true, s.withReader ⟨source, post, false⟩) := by
  simp only [Decoder.readContent, h.reader, Reader.read]
  rw [if_neg (by decide), if_neg (by decide), if_pos (by decide)]

/-- The blocks that are left are read, and their images played. -/
theorem Reading.readContents (blocks : List Block)
    (h : Reading .stream f s current (blocks.flatMap Block.bytes ++ 0x3b :: post))
    (hplayable : Playable f blocks) :
    ∃ n, ∀ turns ≥ n, ∀ fuel ≥ n, Ended.outcome (s.readContents argb4444 turns fuel) =
      playAll (f.play argb4444) s.screen (streamFrames current blocks) := by
  -- on the blocks that are still to be read, one turn each
  induction blocks generalizing s current with
  | nil =>
    refine ⟨1, fun turns _ fuel hfuel => ?_⟩
    obtain ⟨fuel, rfl⟩ : ∃ k, fuel = k + 1 := ⟨fuel - 1, by omega⟩
    rw [Decoder.readContents, h.reader, h.trailer turns]
    rfl
  | cons block blocks ih =>
    have hrest : Playable f blocks := fun i hi => hplayable i (List.mem_cons_of_mem _ hi)
    rw [List.flatMap_cons, List.append_assoc] at h
    -- a turn that reads the block and goes on
    have hgoes (n : Nat) (s' : Decoder) (current' : Option GifFrameData)
        (hturn : ∀ turns ≥ n, s.readContent argb4444 turns = .ok (false, s'))
        (h' : Reading .stream f s' current' (blocks.flatMap Block.bytes ++ 0x3b :: post)) :
        ∃ n, ∀ turns ≥ n, ∀ fuel ≥ n, Ended.outcome (s.readContents argb4444 turns fuel) =
          playAll (f.play argb4444) s'.screen (streamFrames current' blocks) := by
      obtain ⟨m, hm⟩ := ih h' hrest
      refine ⟨max n m + 1, fun turns hturns fuel hfuel => ?_⟩
      obtain ⟨fuel, rfl⟩ : ∃ k, fuel = k + 1 := ⟨fuel - 1, by omega⟩
      rw [Decoder.readContents, h.reader, hturn turns (by omega)]
      exact hm turns (by omega) fuel (by omega)
    cases block with
    | control c =>
      exact hgoes 0 (controlled s c ⟨.stream, _, false⟩) _
        (fun turns _ => readContent_control c turns h.reader) h.control
    | extension e =>
      obtain ⟨n, count, hn⟩ := readContent_extension (s := s) e h.reader
      exact hgoes n { s with reader := ⟨.stream, _, false⟩, loopCount := count } _ hn
        (h.extension count)
    | image i =>
      obtain ⟨hfits, htable⟩ := hplayable i List.mem_cons_self
      obtain ⟨n, hn⟩ := h.image i hfits htable
      rw [streamFrames, playAll]
      cases hplay : f.play argb4444 s.screen (i.describe .stream (current.getD newFrameData)) i with
      | error e =>
        rw [hplay] at hn
        refine ⟨n + 1, fun turns hturns fuel hfuel => ?_⟩
        obtain ⟨fuel, rfl⟩ : ∃ k, fuel = k + 1 := ⟨fuel - 1, by omega⟩
        rw [Decoder.readContents, h.reader, hn turns (by omega)]
        rfl
      | ok screen =>
        rw [hplay] at hn
        obtain ⟨s', hturn, rfl, h'⟩ := hn
        exact hgoes n s' _ hturn h'

theorem readStream_at (argb4444 : Color → Color) (f : File) (hplayable : Playable f f.blocks) :
    ∃ n, ∀ turns ≥ n, Ended.outcome (readStream argb4444 turns f.bytes) =
      playAll (f.play argb4444) (f.screen .stream) (streamFrames none f.blocks) := by
  obtain ⟨n, hn⟩ :=
    (reading_opened .stream f f.bytes (f.blocks.flatMap Block.bytes ++ [0x3b])).readContents
      f.blocks hplayable
  refine ⟨n, fun turns hturns => ?_⟩
  rw [readStream, readFile, File.bytes, readHeader_at]
  exact hn turns hturns turns hturns

end

end GifFile
