import AndroidWork.GifFileListing

/-!
# Raw data and streams

A round over a listed file plays its images in order, with the data that their
objects have in the end. With a graphic control extension between any two images,
and no field that is negative as a `short`, this is what a stream plays.
-/
namespace GifFile

open BaseGifDecoder
open GifLzwDecoder (Byte Reader Source Buffers)

section

variable {argb4444 : Color → Color} {s t : Screen} {frame : GifFrameData} {act : Table}
    {pixels : Nat × (Int → Byte)}

/-- Painting does not ask where the image data is. -/
theorem paintRows_bare (size : Int) (n : Nat) (i : Int) (p : Pass) (dest : Int → Color) :
    s.paintRows (bare frame) act pixels size n i p dest =
      s.paintRows frame act pixels size n i p dest := by
  induction n generalizing i p dest with
  | zero => rfl
  | succ n ih =>
    simp only [Screen.paintRows, ih]
    rfl

theorem playImage_bare {link : Screen → Int → Except Fault Screen} {gct : Option Table}
    {bgIndex : Int} (i : Image) :
    playImage argb4444 link gct bgIndex s (bare frame) i =
      playImage argb4444 link gct bgIndex s frame i := by
  have hset (s : Screen) (act : Table) : Screen.setPixels argb4444 s (bare frame) act i.shown =
      Screen.setPixels argb4444 s frame act i.shown := by
    simp only [Screen.setPixels, paintRows_bare]
    rfl
  simp only [playImage, Screen.showFrame, hset]
  rfl

theorem setPixels_frames (h : Screen.setPixels argb4444 s frame act pixels = .ok t) :
    t.frames = s.frames := by
  have hrecall : s.recall.frames = s.frames := by
    rw [Screen.recall]
    split <;> rfl
  rw [Screen.setPixels] at h
  split at h
  · cases h
  · obtain ⟨start, -, h⟩ := bind_eq_ok h
    obtain ⟨dest, -, h⟩ := bind_eq_ok h
    obtain ⟨image, -, h⟩ := bind_eq_ok h
    cases h
    exact hrecall

/-- The last frame of the list knows its place. -/
def Numbered (s : Screen) : Prop :=
  ∀ frame, s.frames.getLast? = some frame → frame.index + 1 = s.frames.length

theorem numbered_of_nil (h : s.frames = []) : Numbered s := by
  intro frame hlast
  rw [h] at hlast
  cases hlast

theorem linkAt_eq (h : Numbered s) (delay : Int) :
    s.linkAt s.frames.length delay = s.link delay := by
  rw [Screen.linkAt, Screen.link]
  cases hframes : s.frames with
  | nil => rfl
  | cons head tail =>
    obtain ⟨last, hlast⟩ : ∃ last, s.frames.getLast? = some last := by
      rw [hframes]
      exact ⟨_, List.getLast?_eq_some_getLast (List.cons_ne_nil head tail)⟩
    have hindex := h last hlast
    rw [hframes] at hlast hindex
    simp only [hlast, List.length_cons, hindex, lt_irrefl, or_false, if_true]
    rw [if_neg (Nat.succ_ne_zero _)]

theorem Numbered.link (h : Numbered s) {delay : Int} (hlink : s.link delay = .ok t) :
    Numbered t ∧ t.frames.length = s.frames.length + 1 := by
  have happend (index : Nat) (hindex : index = s.frames.length) :
      Numbered (s.append delay index) ∧ (s.append delay index).frames.length =
        s.frames.length + 1 := by
    have hlength : (s.append delay index).frames.length = s.frames.length + 1 := List.length_append
    refine ⟨fun frame hlast => ?_, hlength⟩
    rw [Screen.append, List.getLast?_concat, Option.some.injEq] at hlast
    rw [hlength, ← hlast, hindex]
  rw [Screen.link] at hlink
  cases hlast : s.frames.getLast? with
  | none =>
    rw [hlast] at hlink
    cases hlink
    exact happend 0 (by rw [List.getLast?_eq_none_iff.mp hlast]; rfl)
  | some frame =>
    rw [hlast] at hlink
    cases hlink
    exact happend (frame.index + 1) (h frame hlast)

variable {gct : Option Table} {bgIndex : Int}

theorem chooseBackground_frames (s : Screen) (frame : GifFrameData) (bgIndex : Int) :
    (s.chooseBackground frame bgIndex).frames = s.frames := by
  rw [Screen.chooseBackground]
  split <;> rfl

/-- A frame put at the end of the list is linked behind the last one. -/
theorem playImage_linkAt (h : Numbered s) (i : Image) :
    playImage argb4444 (fun screen delay => screen.linkAt s.frames.length delay) gct
      bgIndex s frame i =
      playImage argb4444 Screen.link gct bgIndex s frame i := by
  have hshow (act : Table) : Screen.showFrame argb4444
      (fun screen delay => screen.linkAt s.frames.length delay)
      (s.chooseBackground frame bgIndex) frame act i.shown =
      Screen.showFrame argb4444 Screen.link
        (s.chooseBackground frame bgIndex) frame act i.shown := by
    rw [Screen.showFrame, Screen.showFrame]
    cases hset : Screen.setPixels argb4444 { s.chooseBackground frame bgIndex with
      frameCount := (s.chooseBackground frame bgIndex).frameCount + 1 } frame act i.shown with
    | error e => rfl
    | ok t =>
      have hframes : t.frames = s.frames :=
        (setPixels_frames hset).trans (chooseBackground_frames s frame bgIndex)
      have hnumbered : Numbered t := by rwa [Numbered, hframes]
      simp only [ok_bind, ← hframes, linkAt_eq hnumbered]
  simp only [playImage, hshow]

theorem playImage_numbered {i : Image} (h : Numbered s)
    (hplay : playImage argb4444 Screen.link gct bgIndex s frame i = .ok t) :
    Numbered t ∧ t.frames.length = s.frames.length + 1 := by
  rw [playImage] at hplay
  split at hplay
  · cases hplay
  · obtain ⟨act, -, hplay⟩ := bind_eq_ok hplay
    obtain ⟨shown, hset, hplay⟩ := bind_eq_ok hplay
    obtain ⟨linked, hlink, hplay⟩ := bind_eq_ok hplay
    cases hplay
    have hframes : shown.frames = s.frames :=
      (setPixels_frames hset).trans (chooseBackground_frames s frame bgIndex)
    have hnumbered : Numbered shown := by rwa [Numbered, hframes]
    rw [← hframes]
    show Numbered linked ∧ linked.frames.length = shown.frames.length + 1
    exact hnumbered.link hlink

end

section

variable {argb4444 : Color → Color} {s : Screen} {frame : GifFrameData} {act : Table}
    {pixels : Nat × (Int → Byte)}
  {size : Int}

theorem fillRow_ne_cutOff (c : Color) (n : Nat) (k : Int) (dest : Int → Color) :
    fillRow size c n k dest ≠ .error .cutOff := by
  induction n generalizing k dest with
  | zero => simp [fillRow]
  | succ n ih =>
    rw [fillRow]
    split
    · exact ih _ _
    · simp

theorem fillRows_ne_cutOff (c : Color) (n : Nat) (i : Int) (dest : Int → Color) :
    s.fillRows size c n i dest ≠ .error .cutOff := by
  induction n generalizing i dest with
  | zero => simp [Screen.fillRows]
  | succ n ih => exact bind_ne_error (fillRow_ne_cutOff _ _ _ _) fun dest => ih _ dest

theorem copyRow_ne_cutOff (n : Nat) (dx sx : Int) (dest : Int → Color) :
    copyRow act pixels size n dx sx dest ≠ .error .cutOff := by
  induction n generalizing dx sx dest with
  | zero => simp [copyRow]
  | succ n ih =>
    rw [copyRow]
    split
    · split
      · exact ih _ _ _
      · split
        · exact ih _ _ _
        · simp
    · simp

theorem paintRows_ne_cutOff (n : Nat) (i : Int) (p : Pass) (dest : Int → Color) :
    s.paintRows frame act pixels size n i p dest ≠ .error .cutOff := by
  induction n generalizing i p dest with
  | zero => simp [Screen.paintRows]
  | succ n ih =>
    refine bind_ne_error ?_ fun dest => ih _ _ dest
    rw [Screen.paintRow]
    split
    · exact copyRow_ne_cutOff _ _ _ _
    · simp

theorem setPixels_ne_cutOff : Screen.setPixels argb4444 s frame act pixels ≠ .error .cutOff := by
  rw [Screen.setPixels]
  split
  · simp
  · refine bind_ne_error ?_ fun start => bind_ne_error (paintRows_ne_cutOff _ _ _ _) fun dest =>
      bind_ne_error ?_ fun _ => by simp
    · rw [Screen.startingContents]
      split
      · split
        · simp
        · split
          · exact fillRows_ne_cutOff _ _ _ _
          · simp
      · simp
    · rw [createBitmap]
      split <;> simp

theorem playImage_ne_cutOff {gct : Option Table} {bgIndex : Int} {i : Image} :
    playImage argb4444 Screen.link gct bgIndex s frame i ≠ .error .cutOff := by
  rw [playImage]
  split
  · simp
  · refine bind_ne_error ?_ fun act => bind_ne_error setPixels_ne_cutOff fun s =>
      bind_ne_error ?_ fun _ => by simp
    · rw [GifFrameData.activeTable]
      repeat' split
      all_goals simp
    · rw [Screen.link]
      split <;> simp

theorem playAll_ne_cutOff {f : File} (images : List (GifFrameData × Image)) :
    (playAll (f.play argb4444) s images).2 ≠ some .cutOff := by
  induction images generalizing s with
  | nil => simp [playAll]
  | cons p images ih =>
    obtain ⟨frame, i⟩ := p
    rw [playAll]
    cases hplay : f.play argb4444 s frame i with
    | error e =>
      rintro ⟨⟩
      exact playImage_ne_cutOff hplay
    | ok s => exact ih

end

/-- Frame data that an image of the file can be played with. -/
structure Plain (f : File) (p : GifFrameData × Image) : Prop where
  width : p.1.iw = p.2.width.toNat
  height : p.1.ih = p.2.height.toNat
  fits : p.2.Fits
  active : ∃ act, (if p.1.lctFlag then p.1.lct else f.globalTable) = some act

section

variable {argb4444 : Color → Color} {f : File} {s : Decoder}

/-- The decoder between two frames of a round. -/
structure Round (f : File) (s : Decoder) : Prop where
  source : s.reader.source = .rawData
  noError : s.reader.formatError = false
  gct : s.header.gct = f.globalTable
  bgIndex : s.header.bgIndex = f.bgIndex.toNat
  numbered : Numbered s.screen

theorem Round.playIndices (argb4444 : Color → Color) {refs : List Nat}
    {images : List (GifFrameData × Image)} (h : Round f s)
    (himages : List.Forall₂ (Holds s) refs images) (hplain : ∀ p ∈ images, Plain f p)
    (front : List Nat)
    (hframes : s.header.frames = front ++ refs) (hlength : s.screen.frames.length = front.length) :
    ∃ n, ∀ turns ≥ n,
      Ended.outcome (s.playIndices argb4444 turns (List.range' front.length refs.length)) =
      playAll (f.play argb4444) s.screen images := by
  induction images generalizing s refs front with
  | nil =>
    cases himages
    exact ⟨0, fun turns _ => rfl⟩
  | cons p images ih =>
    obtain ⟨frame, i⟩ := p
    cases himages with
    | @cons ref _ refs _ hholds himages =>
    obtain ⟨object, rest, hobject, rfl, hdata⟩ := hholds
    obtain ⟨hwidth, hheight, hfits, act, hact⟩ := hplain _ List.mem_cons_self
    have hreader : s.imageReader object = ⟨s.reader.source, i.data ++ rest, false⟩ := by
      rw [Decoder.imageReader, h.source]
      simp only [hdata, h.noError, h.source]
    obtain ⟨n, r, buffers, hsource, hformat, -, hplay⟩ := playFrame_at argb4444
      (fun screen delay => screen.linkAt front.length delay) i hobject hreader h.noError
        hwidth hheight hfits
      ((if_congr Iff.rfl rfl h.gct).trans hact)
    have hindex : s.header.frames[front.length]? = some ref := by
      rw [hframes, List.getElem?_append_right le_rfl, Nat.sub_self]
      rfl
    have hturn : ∀ turns ≥ n, s.playSingleFrameAt argb4444 turns ref front.length =
        (f.play argb4444 s.screen (bare object) i).map (shownWith s ref object r buffers) :=
          fun turns hturns => by
      rw [Decoder.playSingleFrameAt, hplay turns hturns, h.gct, h.bgIndex, ← hlength,
        playImage_linkAt h.numbered,
        ← playImage_bare]
      rfl
    simp only [List.length_cons, List.range'_succ, Decoder.playIndices, hindex, playAll]
    cases hresult : f.play argb4444 s.screen (bare object) i with
    | error e =>
      refine ⟨n, fun turns hturns => ?_⟩
      rw [hturn turns hturns, hresult]
      rfl
    | ok screen =>
      obtain ⟨hnumbered, hmore⟩ := playImage_numbered h.numbered hresult
      have hobjects : s.resetObject ref object = s.objects := by
        rw [Decoder.resetObject, h.source]
      have hround : Round f (shownWith s ref object r buffers screen) :=
        ⟨hsource.trans h.source, hformat, h.gct, h.bgIndex, hnumbered⟩
      have hkept : List.Forall₂ (Holds (shownWith s ref object r buffers screen)) refs images := by
        refine himages.imp fun k q hq => ?_
        rwa [Holds, shownWith, hobjects]
      obtain ⟨m, hm⟩ :=
        ih hround hkept (fun q hq => hplain q (List.mem_cons_of_mem _ hq)) (front ++ [ref])
        (by rw [List.append_assoc]; exact hframes)
          (by rw [List.length_append, ← hlength]; exact hmore)
      refine ⟨max n m, fun turns hturns => ?_⟩
      rw [hturn turns (le_trans (le_max_left _ _) hturns), hresult]
      have hrest := hm turns (le_trans (le_max_right _ _) hturns)
      rw [List.length_append] at hrest
      exact hrest

/-- What a settled object describes. -/
theorem settled_described (i : Image) (frame : GifFrameData) (blocks : List Block) :
    ∃ j frame', settled (i.describe .rawData frame, i) blocks = (j.describe .rawData frame', j) ∧
      (j = i ∨ .image j ∈ blocks) := by
  induction blocks generalizing i frame with
  | nil => exact ⟨i, frame, rfl, .inl rfl⟩
  | cons block blocks ih =>
    cases block with
    | control c => exact ⟨i, frame, rfl, .inl rfl⟩
    | image j =>
      obtain ⟨k, frame', hsettled, hk⟩ := ih j (i.describe .rawData frame)
      refine ⟨k, frame', hsettled, .inr ?_⟩
      rcases hk with rfl | hk
      · exact List.mem_cons_self
      · exact List.mem_cons_of_mem _ hk
    | extension e =>
      obtain ⟨k, frame', hsettled, hk⟩ := ih i frame
      exact ⟨k, frame', hsettled, hk.imp_right (List.mem_cons_of_mem _)⟩

theorem listed_described {p : GifFrameData × Image} {current : Option GifFrameData}
    {blocks : List Block}
    (h : p ∈ listedFrames current blocks) :
    (∃ frame, p.1 = p.2.describe .rawData frame) ∧ .image p.2 ∈ blocks := by
  induction blocks generalizing current with
  | nil => cases h
  | cons block blocks ih =>
    cases block with
    | control c => exact (ih h).imp_right (List.mem_cons_of_mem _)
    | extension e => exact (ih h).imp_right (List.mem_cons_of_mem _)
    | image i =>
      rcases List.mem_cons.mp h with rfl | h
      · obtain ⟨j, frame, hsettled, hj⟩ := settled_described i (current.getD newFrameData) blocks
        rw [hsettled]
        refine ⟨⟨frame, rfl⟩, ?_⟩
        rcases hj with rfl | hj
        · exact List.mem_cons_self
        · exact List.mem_cons_of_mem _ hj
      · exact (ih h).imp_right (List.mem_cons_of_mem _)

/-- A field is the same as a `short` as it is without a sign. -/
def Short (v : BitVec 16) : Prop := v.toNat < 2 ^ 15

instance (v : BitVec 16) : Decidable (Short v) := inferInstanceAs (Decidable (_ < _))

theorem short_eq {v : BitVec 16} (h : Short v) : short .rawData v = short .stream v :=
  BitVec.toInt_eq_toNat_of_lt (by rw [Short] at h; omega)

/-- All fields of two bytes are. -/
structure Short.All (f : File) : Prop where
  width : Short f.width
  height : Short f.height
  images : ∀ i, .image i ∈ f.blocks → Short i.left ∧ Short i.top ∧ Short i.width ∧ Short i.height
  delays : ∀ c, .control c ∈ f.blocks → Short c.delay

theorem Short.All.playable (h : Short.All f) : Playable f f.blocks := by
  intro i hi
  obtain ⟨-, -, hwidth, hheight⟩ := h.images i hi
  refine ⟨?_, f.coloured i hi⟩
  calc i.width.toNat * i.height.toNat ≤ 2 ^ 15 * 2 ^ 15 :=
    Nat.mul_le_mul (Nat.le_of_lt hwidth) (Nat.le_of_lt hheight)
    _ < 2 ^ 31 := by decide

theorem Short.All.plain (h : Short.All f) {p : GifFrameData × Image}
    (hp : p ∈ listedFrames none f.blocks) : Plain f p := by
  obtain ⟨⟨frame, hframe⟩, hmem⟩ := listed_described hp
  obtain ⟨-, -, hwidth, hheight⟩ := h.images p.2 hmem
  obtain ⟨hfits, htable⟩ := h.playable p.2 hmem
  refine ⟨?_, ?_, hfits, ?_⟩
  · rw [hframe]
    exact short_eq hwidth
  · rw [hframe]
    exact short_eq hheight
  · rw [hframe]
    exact File.activeTable htable .rawData frame

/-- A round plays the images as their objects end. -/
theorem readRawData_at (argb4444 : Color → Color) (h : Short.All f) :
    ∃ n, ∀ turns ≥ n, Ended.outcome (readRawData argb4444 turns f.bytes) =
      playAll (f.play argb4444) (f.screen .rawData) (listedFrames none f.blocks) := by
  obtain ⟨n, s, refs, hrun, hreader, hlisting⟩ :=
    (reading_opened .rawData f f.bytes (f.blocks.flatMap Block.bytes ++ [0x3b])).listContents
      f.blocks ⟨f.header, rfl⟩
  have hcount : s.header.frameCount = refs.length :=
    hlisting.grown.frameCount.trans (Nat.zero_add _)
  have hlisted : ∀ turns ≥ n, readFile argb4444 turns .rawData f.bytes = ⟨s, none⟩ :=
    fun turns hturns => by
    rw [readFile, File.bytes, readHeader_at]
    exact hrun turns hturns turns hturns
  have hround : Round f s.beginRound :=
    ⟨congrArg Reader.source hreader, rfl, hlisting.grown.gct, hlisting.grown.bgIndex,
      numbered_of_nil rfl⟩
  have hscreen : s.beginRound.screen = f.screen .rawData := by
    simp only [Decoder.beginRound, hlisting.grown.screen]
    rfl
  obtain ⟨m, hm⟩ := hround.playIndices argb4444 hlisting.images (fun p hp => h.plain hp)
    [] hlisting.grown.frames rfl
  refine ⟨max n m, fun turns hturns => ?_⟩
  rw [readRawData, hlisted turns (le_trans (le_max_left _ _) hturns)]
  simp only [hreader, Option.isSome_none, Bool.false_eq_true, or_self, if_false,
    Decoder.playImages, hcount]
  have hplay := hm turns (le_trans (le_max_right _ _) hturns)
  rw [hscreen] at hplay
  split
  · rename_i hnone
    have himages : listedFrames none f.blocks = [] :=
      List.eq_nil_of_length_eq_zero (hlisting.images.length_eq.symm.trans hnone)
    rw [himages]
    exact congrArg (·, none) hlisting.grown.screen
  · rw [List.range_eq_range']
    exact hplay

/-- Between any two images there is a graphic control extension; `fresh` tells
whether there was one behind the image before. -/
def OwnControl : Bool → List Block → Prop
  | _, [] => True
  | _, .control _ :: blocks => OwnControl true blocks
  | fresh, .image _ :: blocks => fresh = true ∧ OwnControl false blocks
  | fresh, .extension _ :: blocks => OwnControl fresh blocks

theorem settled_own {blocks : List Block} (h : OwnControl false blocks) (p : GifFrameData × Image) :
    settled p blocks = p := by
  induction blocks with
  | nil => rfl
  | cons block blocks ih =>
    cases block with
    | control c => rfl
    | image i => exact absurd h.1 Bool.false_ne_true
    | extension e => exact ih h

/-- Images with control extensions of their own are listed as a stream plays them. -/
theorem listedFrames_own {blocks : List Block} {fresh : Bool} {c c' : Option GifFrameData}
    (h : OwnControl fresh blocks)
    (hfresh : fresh = true → c = c')
    (himages : ∀ i, .image i ∈ blocks → Short i.left ∧ Short i.top ∧ Short i.width ∧ Short i.height)
    (hdelays : ∀ c, .control c ∈ blocks → Short c.delay) :
    listedFrames c blocks = streamFrames c' blocks := by
  induction blocks generalizing fresh c c' with
  | nil => rfl
  | cons block blocks ih =>
    have hih {fresh : Bool} {c c' : Option GifFrameData} (h : OwnControl fresh blocks)
        (hfresh : fresh = true → c = c') :=
      ih h hfresh (fun i hi => himages i (List.mem_cons_of_mem _ hi)) fun c hc =>
        hdelays c (List.mem_cons_of_mem _ hc)
    cases block with
    | control e =>
      have hframe : e.frame .rawData = e.frame .stream := by
        rw [Control.frame, Control.frame, short_eq (hdelays e List.mem_cons_self)]
      rw [listedFrames, streamFrames, hframe]
      exact hih h fun _ => rfl
    | extension e => exact hih h hfresh
    | image i =>
      obtain ⟨rfl, hown⟩ := h
      obtain ⟨hleft, htop, hwidth, hheight⟩ := himages i List.mem_cons_self
      have hframe (frame : GifFrameData) :
          i.describe .rawData frame = i.describe .stream frame := by
        simp only [Image.describe, short_eq hleft, short_eq htop, short_eq hwidth, short_eq hheight]
      rw [listedFrames, streamFrames, settled_own hown, hfresh rfl, hframe, hih hown (by simp)]

/-- The frames that a run ends with, given turns enough. -/
def Shows (run : Nat → Ended) (frames : List GifFrame) : Prop :=
  ∃ n, ∀ turns ≥ n, (run turns).decoder.screen.frames = frames ∧ (run turns).fault ≠ some .cutOff

/-- Both modes end with the same frames. -/
def SameFrames (argb4444 : Color → Color) (data : List Byte) : Prop :=
  ∃ frames, Shows (fun turns => readStream argb4444 turns data) frames ∧
    Shows (fun turns => readRawData argb4444 turns data) frames

theorem sameFrames_of_ownControl (argb4444 : Color → Color) (f : File) (h : Short.All f)
    (hown : OwnControl true f.blocks) :
    SameFrames argb4444 f.bytes := by
  have hscreen : f.screen .rawData = f.screen .stream := by
    simp only [File.screen, short_eq h.width, short_eq h.height]
  have himages : listedFrames none f.blocks = streamFrames none f.blocks :=
    listedFrames_own hown (fun _ => rfl) h.images h.delays
  obtain ⟨n, hstream⟩ := readStream_at argb4444 f h.playable
  obtain ⟨m, hraw⟩ := readRawData_at argb4444 h
  rw [hscreen, himages] at hraw
  refine ⟨(playAll (f.play argb4444) (f.screen .stream) (streamFrames none f.blocks)).1.frames,
    ⟨n, fun turns hturns => ?_⟩,
    m, fun turns hturns => ?_⟩
  · rw [← hstream turns hturns]
    exact ⟨rfl, (congrArg Prod.snd (hstream turns hturns)).trans_ne (playAll_ne_cutOff _)⟩
  · rw [← hraw turns hturns]
    exact ⟨rfl, (congrArg Prod.snd (hraw turns hturns)).trans_ne (playAll_ne_cutOff _)⟩

end

/-- A single pixel, the first of its colour table. -/
def dot : Image where
  left := 0
  top := 0
  width := 1
  height := 1
  packed := 0
  lct := []
  rootBits := 2
  data := [2, 2, 0x44, 1, 0]
  pixels := [0]
  table := rfl
  spelled rest := by
    have hcodes : LzwStream.Stream GifLzwDecoder.symbol (2 ^ 2) 12 [] none
        [(3, 4), (3, 0), (3, 5)] [0] :=
      .clear (.code (w := [0]) (by decide) rfl (.stop [] _))
    have hblocks : SubBlocks.Blocks (2 :: ([0x44, 1] ++ 0 :: rest)) ([0x44, 1] ++ []) rest :=
      .block 2 (List.cons_ne_nil _ _) rfl (.stop rest)
    exact ⟨le_rfl, by decide, [2, 0x44, 1, 0] ++ rest, [0x44, 1], _, rfl, hblocks, hcodes, by
      decide, by decide⟩
  complete := rfl

def dots (blocks : List Block) : File where
  width := 1
  height := 1
  packed := 0x80
  bgIndex := 0
  aspect := 0
  gct := [0, 0, 0, 255, 255, 255]
  blocks := blocks
  table := rfl
  coloured _ _ := .inr (by decide)

/-- Half a second between frames. -/
def pause : Control := ⟨0, 50, 0⟩

theorem short_dots {blocks : List Block} (himages : ∀ i, .image i ∈ blocks → i = dot)
    (hdelays : ∀ c, .control c ∈ blocks → c = pause) : Short.All (dots blocks) := by
  refine ⟨(by decide : Short 1), (by decide : Short 1), fun i hi => ?_, fun c hc => ?_⟩
  · rw [himages i hi]
    decide
  · rw [hdelays c hc]
    decide

theorem sameFrames_of_ownControl_dots :
    SameFrames id (dots [.control pause, .image dot, .control pause, .image dot]).bytes := by
  refine sameFrames_of_ownControl id _ (short_dots ?_ ?_) ⟨rfl, rfl, trivial⟩
  · intro i hi
    simpa using hi
  · intro c hc
    simpa using hc

/-- The second image has no control extension: a stream shows it for no time, raw
data as long as the first one. -/
theorem not_sameFrames_sharedControl :
    ¬ SameFrames id (dots [.control pause, .image dot, .image dot]).bytes := by
  have hshort : Short.All (dots [.control pause, .image dot, .image dot]) := by
    refine short_dots ?_ ?_
    · intro i hi
      simpa using hi
    · intro c hc
      simpa using hc
  rintro ⟨frames, ⟨n, hn⟩, m, hm⟩
  obtain ⟨n', hstream⟩ := readStream_at id _ hshort.playable
  obtain ⟨m', hraw⟩ := readRawData_at id hshort
  have hframes := congrArg (fun o => o.1.frames.map GifFrame.delay)
    (hstream (max n n') (le_max_right _ _))
  have hframes' := congrArg (fun o => o.1.frames.map GifFrame.delay)
    (hraw (max m m') (le_max_right _ _))
  simp only [Ended.outcome, (hn _ (le_max_left n n')).1] at hframes
  simp only [Ended.outcome, (hm _ (le_max_left m m')).1] at hframes'
  rw [hframes'] at hframes
  revert hframes
  decide +kernel

end GifFile
