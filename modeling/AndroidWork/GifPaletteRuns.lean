import AndroidWork.EventRuns
import AndroidWork.GifCanvasWrites
import AndroidWork.GifLzwFinds
import AndroidWork.GifPalette

/-!
# The colour tables over whole runs

What a frame meets before it puts its colour back: the codes of its data, the
rest of their chain, the canvas, and the list of frames. As long as nothing stands
in the way of any frame, the tables stay what they are.
-/
namespace BaseGifDecoder

open GifLzwDecoder (Byte Reader Source Buffers Readable LeftAs start)
open SubBlocks (Blocks)

/-- Which `playSingleFrame` it is. -/
inductive Version where
  | streamed
  | indexed (frameIndex : Nat)

def Version.link : Version → Screen → Int → Except Fault Screen
  | .streamed => Screen.link
  | .indexed frameIndex => fun screen delay => screen.linkAt frameIndex delay

/-- There is a frame to link it to: in a stream at the end, by an index behind the one before it. -/
def Version.Links : Version → Screen → Prop
  | .streamed, _ => True
  | .indexed frameIndex, s => s.frames = [] ∨ 0 < frameIndex ∧ frameIndex ≤ s.frames.length

/-- The bytes begin with whole blocks, up to an empty one or up to their end. -/
def HasChain (bytes : List Byte) : Prop := ∃ data rest, Blocks (bytes ++ [0]) data rest

/-- Each write has its place in the array, and every pixel that is asked for is there. -/
def Writes.Inside (size : Int) (w : Writes) : Prop :=
  (∀ x ∈ w.list, 0 ≤ x.place ∧ x.place < size) ∧ w.cut = false

/-- The last image is gone, and the frame is not painted. -/
def Screen.Abandons (around : Surroundings) (s : Screen) : Prop :=
  around.recycled = true ∧ 0 < s.lastDispose ∧ s.lastImage.isSome = true

instance (around : Surroundings) (s : Screen) : Decidable (s.Abandons around) :=
  inferInstanceAs (Decidable (_ ∧ _))

/-- The frame can be painted: the canvas is an array with a place for each of its writes, and a
bitmap if there
is memory for one. -/
structure Screen.Holds (around : Surroundings) (frame : GifFrameData) (act : Table)
    (pixels : Nat × (Int → Byte)) (s : Screen) :
    Prop where
  array : 0 ≤ int (s.width * s.height)
  places : ¬ s.recall.Abandons around →
    (s.recall.writes frame act pixels).Inside (int (s.width * s.height))
  bitmap : ¬ s.recall.Abandons around → around.memory = true → 0 < s.width ∧ 0 < s.height

/-- Nothing stands in the way of a frame: its data can be decoded; where the decoding ends, the rest
of a
stream's chain is whole and the canvas holds the pixels that are there; and there is a frame to link
it to. -/
structure Decoder.Admits (around : Surroundings) (version : Version) (frame : GifFrameData)
    (act : Table) (s : Decoder) : Prop where
  data : Readable (BitVec.ofInt 32 frame.iw).toNat (BitVec.ofInt 32 frame.ih).toNat s.buffers
    (s.imageReader frame)
  chain : ∀ k s₀, start (BitVec.ofInt 32 frame.iw).toNat (BitVec.ofInt 32 frame.ih).toNat s.buffers
    (s.imageReader frame) =
    .ok (k, s₀) → ∀ t, LeftAs k s₀ t → s.reader.source = .stream → HasChain t.reader.bytes
  canvas : ∀ k s₀, start (BitVec.ofInt 32 frame.iw).toNat (BitVec.ofInt 32 frame.ih).toNat s.buffers
    (s.imageReader frame) =
    .ok (k, s₀) → ∀ t, LeftAs k s₀ t → Screen.Holds around frame act
      (k.pixelsLength, GifLzwDecoder.cleared k t)
      { s.screen with frameCount := s.screen.frameCount + 1 }
  link : version.Links s.screen

/-- A frame that takes a colour out of its table is admitted. -/
def Player.Survives (around : Surroundings) (version : Version) (ref : Nat) (s : Player) : Prop :=
  ∀ frame act cleared, s.decoder.objects[ref]? = some frame →
    s.tableOf ref = some act → s.err = false →
    frame.activeTable act = .ok cleared → frame.transparency = true → act frame.transIndex ≠ 0 →
    (s.decoder.chosen frame).Admits around version frame cleared

section Chain

variable {turns : Nat} {bytes : List Byte} {r r' : Reader}

theorem hasChain_nil : HasChain [] := ⟨[], [], .stop []⟩

theorem hasChain_stop (bytes : List Byte) : HasChain (0 :: bytes) := by
  rw [HasChain, List.cons_append]
  exact ⟨[], bytes ++ [0], .stop _⟩

theorem hasChain_block_iff {size : Byte} (hsize : 0 < size.toNat) : HasChain (size :: bytes) ↔
    size.toNat ≤ bytes.length ∧ HasChain (bytes.drop size.toNat) := by
  constructor
  · rintro ⟨data, rest, h⟩
    generalize hall : size :: bytes ++ [0] = all at h
    cases h with
    | stop rest =>
      rw [(List.cons.inj hall).1] at hsize
      exact absurd hsize (lt_irrefl 0)
    | @block bytes' data rest size' chunk hpos hlength h =>
      obtain ⟨rfl, hbytes⟩ := List.cons.inj hall
      have hle : chunk.length ≤ bytes.length := by
        by_contra hlong
        have hwhole := congrArg List.length hbytes
        simp only [List.append_eq, List.length_append, List.length_singleton] at hwhole
        have hnone : bytes' = [] := List.eq_nil_of_length_eq_zero (by omega)
        rw [hnone] at h
        cases h
      refine ⟨hlength ▸ hle, data, rest, ?_⟩
      have hdrop : (bytes ++ [0]).drop chunk.length = bytes' := by
        rw [show bytes ++ [0] = chunk ++ bytes' from hbytes, List.drop_left]
      rw [List.drop_append_of_le_length hle, hlength] at hdrop
      rwa [hdrop]
  · rintro ⟨hle, data, rest, h⟩
    refine ⟨bytes.take size.toNat ++ data, rest, ?_⟩
    have hlength : (bytes.take size.toNat).length = size.toNat := List.length_take_of_le hle
    have hsplit : size :: bytes ++ [0] =
        size :: (bytes.take size.toNat ++ (bytes.drop size.toNat ++ [0])) := by
      rw [← List.append_assoc, List.take_append_drop]
      rfl
    rw [hsplit]
    exact .block size (List.ne_nil_of_length_pos (by omega)) hlength h

theorem skip_formatError (h : skip turns r = .ok r') (herror : r.formatError = true) :
    r'.formatError = true := by
  induction turns generalizing r with
  | zero => cases h
  | succ turns ih =>
    rw [skip] at h
    split at h
    · exact ih h (GifLzwDecoder.readBlock_formatError herror)
    · cases h
      exact GifLzwDecoder.readBlock_formatError herror

/-- Skipping leaves no format error if and only if the chain is whole. -/
theorem skip_chain_iff (hsource : r.source = .stream) (herror : r.formatError = false)
    (h : skip turns r = .ok r') :
    r'.formatError = false ↔ HasChain r.bytes := by
  obtain ⟨source, bytes, formatError⟩ := r
  subst hsource herror
  induction turns generalizing bytes with
  | zero => cases h
  | succ turns ih =>
    rw [skip] at h
    cases bytes with
    | nil =>
      cases h
      exact iff_of_true rfl hasChain_nil
    | cons size bytes =>
      by_cases hsize : 0 < size.toNat
      · have hread : (⟨.stream, size :: bytes, false⟩ : Reader).readBlock.2 =
            ⟨.stream, bytes.drop size.toNat, decide (bytes.length < size.toNat)⟩ := by
          simp [Reader.readBlock, Reader.read, hsize]
        have hfirst : 0 < (⟨.stream, size :: bytes, false⟩ : Reader).read.1 := by
          show 0 < (size.toNat : Int)
          omega
        rw [hread] at h
        rw [hasChain_block_iff hsize]
        by_cases hle : size.toNat ≤ bytes.length
        · have hshort : decide (bytes.length < size.toNat) = false := decide_eq_false (by omega)
          rw [hshort, if_pos ⟨hfirst, rfl⟩] at h
          rw [ih _ h]
          exact (and_iff_right hle).symm
        · have hshort : decide (bytes.length < size.toNat) = true := decide_eq_true (by omega)
          rw [hshort, if_neg (by simp)] at h
          cases h
          simp [hle]
      · have hzero : size = 0 := BitVec.eq_of_toNat_eq (show size.toNat = 0 by omega)
        subst hzero
        cases h
        exact iff_of_true rfl (hasChain_stop bytes)

end Chain

section Canvas

variable {argb4444 : Color → Color} {around : Surroundings} {frame : GifFrameData} {act : Table}
    {pixels : Nat × (Int → Byte)}
  {s : Screen} {size : Int} {dest : Int → Color}

theorem writes_inside_iff {list : List Write} :
    (∃ d, list.foldlM (Write.perform size) dest = .ok d) ↔
    ∀ w ∈ list, 0 ≤ w.place ∧ w.place < size := by
  induction list generalizing dest with
  | nil => exact iff_of_true ⟨dest, rfl⟩ fun w hw => absurd hw List.not_mem_nil
  | cons w list ih =>
    rw [List.foldlM_cons, Write.perform, List.forall_mem_cons]
    by_cases hin : 0 ≤ w.place ∧ w.place < size
    · rw [if_pos hin, ok_bind, ih, and_iff_right hin]
    · rw [if_neg hin, error_bind]
      apply iff_of_false
      · rintro ⟨d, h⟩
        cases h
      · exact fun h => hin h.1

theorem perform_inside_iff {w : Writes} : (∃ d, w.perform size dest = .ok d) ↔ w.Inside size := by
  rw [Writes.Inside, ← @writes_inside_iff size dest, Writes.perform]
  cases w.list.foldlM (Write.perform size) dest with
  | error e => simp [error_bind]
  | ok d =>
    rw [ok_bind]
    cases w.cut <;> simp

theorem painted_perform : s.painted frame act pixels size =
    (s.writes frame act pixels).perform size s.lastPixels := by
  rw [Screen.painted, Screen.writes, perform_append, ← startingContents_perform]
  congr 1
  funext dest
  exact paintRows_perform s frame act pixels size _ _ _ dest

/-- Painting a frame throws nothing if and only if the canvas holds it. -/
theorem setPixelsAmid_fault_iff : (Screen.setPixelsAmid argb4444 around s frame act pixels).fault =
    none ↔
    s.Holds around frame act pixels := by
  have hfields : s.recall.width = s.width ∧ s.recall.height = s.height := by
    rw [Screen.recall]
    split <;> exact ⟨rfl, rfl⟩
  rw [Screen.setPixelsAmid]
  by_cases hsize : int (s.width * s.height) < 0
  · simp only [hsize, if_true]
    exact iff_of_false (fun h => by cases h) fun h => absurd h.array hsize.not_ge
  · simp only [hsize, if_false]
    change (if s.recall.Abandons around then _ else _ : PixelsEnd).fault = none ↔ _
    by_cases hgone : s.recall.Abandons around
    · rw [if_pos hgone]
      exact iff_of_true rfl ⟨not_lt.mp hsize, fun h => absurd hgone h, fun h => absurd hgone h⟩
    · rw [if_neg hgone]
      have hiff : s.Holds around frame act pixels ↔
          (s.recall.writes frame act pixels).Inside (int (s.width * s.height)) ∧
          (around.memory = true → 0 < s.width ∧ 0 < s.height) :=
        ⟨fun h => ⟨h.places hgone, h.bitmap hgone⟩, fun h =>
          ⟨not_lt.mp hsize, fun _ => h.1, fun _ => h.2⟩⟩
      rw [hiff, ← @perform_inside_iff _ s.recall.lastPixels, ← painted_perform]
      cases s.recall.painted frame act pixels (int (s.width * s.height)) with
      | error e => simp
      | ok dest =>
        cases around.memory with
        | false => simp
        | true =>
          simp only [createBitmap, hfields.1, hfields.2, if_true]
          by_cases hempty : s.width ≤ 0 ∨ s.height ≤ 0
          · simp only [hempty, if_true, reduceCtorEq, Except.ok.injEq, exists_eq', true_and,
              forall_const, false_iff]
            omega
          · simp only [hempty, if_false, Except.ok.injEq, exists_eq', true_and,
              forall_const, true_iff]
            omega

theorem setPixelsAmid_frames :
    (Screen.setPixelsAmid argb4444 around s frame act pixels).screen.frames = s.frames := by
  have hrecall : s.recall.frames = s.frames := by
    rw [Screen.recall]
    split <;> rfl
  rw [Screen.setPixelsAmid]
  split
  · rfl
  · simp only
    split
    · exact hrecall
    · split
      · exact hrecall
      · split
        · split
          · exact hrecall
          · exact hrecall
        · exact hrecall

theorem link_iff (version : Version) (s : Screen) (delay : Int) :
    (∃ t, version.link s delay = .ok t) ↔ version.Links s := by
  cases version with
  | streamed =>
    rw [Version.link, Screen.link, Version.Links]
    split <;> simp
  | indexed frameIndex =>
    rw [Version.link, Version.Links]
    simp only [Screen.linkAt]
    cases s.frames with
    | nil => simp
    | cons f frames =>
      simp only [List.cons_ne_nil, false_or]
      split_ifs <;> simp_all <;> omega

theorem shows_iff (version : Version) : s.Shows argb4444 around version.link frame act pixels ↔
    Screen.Holds around frame act pixels { s with frameCount := s.frameCount + 1 } ∧
    version.Links s := by
  rw [Screen.Shows, setPixelsAmid_fault_iff, link_iff]
  have hframes :
      (Screen.setPixelsAmid argb4444 around { s with frameCount := s.frameCount + 1 } frame act
      pixels).screen.frames = s.frames := setPixelsAmid_frames
  cases version with
  | streamed => exact Iff.rfl
  | indexed frameIndex => rw [Version.Links, Version.Links, hframes]

end Canvas

section Admitted

variable {argb4444 : Color → Color} {turns ref : Nat} {around : Surroundings} {version : Version}
    {frame : GifFrameData}
  {cleared : Table} {save : Color}

/-- Behind the image data a frame gets through if and only if the chain is whole and the canvas
holds it. -/
theorem getsThrough_left {s : Decoder} {r' : Reader} {buf : Buffers}
    {pixels : Nat × (Int → Byte)} {r'' : Reader}
    (hdecode : s.decodeImageData turns frame = .ok { s with reader := r', buffers := buf })
    (hpixels : buf.pixels = some pixels)
    (hleave : Decoder.leaveImage turns { s with reader := r', buffers := buf } = .ok r'') :
    s.GetsThrough argb4444 turns around version.link frame cleared ↔
      r''.formatError = false ∧ s.screen.Shows argb4444 around version.link frame
        cleared pixels := by
  constructor
  · rintro ⟨t, r, pixels', hdecode', hleave', herror, hpixels', hshows⟩
    cases hdecode.symm.trans hdecode'
    cases hleave.symm.trans hleave'
    cases hpixels.symm.trans hpixels'
    exact ⟨herror, hshows⟩
  · exact fun h => ⟨_, r'', pixels, hdecode, hleave, h.1, hpixels, h.2⟩

theorem leaveImage_iff {s : Decoder} {r : Reader} (h : s.leaveImage turns = .ok r) :
    r.formatError = false ↔ s.reader.formatError = false ∧
    (s.reader.source = .stream → HasChain s.reader.bytes) := by
  rw [Decoder.leaveImage] at h
  cases hsource : s.reader.source with
  | stream =>
    simp only [hsource] at h
    cases herror : s.reader.formatError with
    | false =>
      rw [skip_chain_iff hsource herror h]
      simp
    | true =>
      rw [skip_formatError h herror]
      simp
  | rawData =>
    simp only [hsource] at h
    cases h
    simp

/-- A frame whose loops come to an end gets through if and only if it is admitted. -/
theorem admits_iff {s : Decoder} {p : FrameEnd} (herror : s.reader.formatError = false)
    (h : s.playData argb4444 turns around version.link ref frame cleared save = some p) :
    s.GetsThrough argb4444 turns around version.link frame cleared ↔
    s.Admits around version frame cleared := by
  have hreader : (s.imageReader frame).formatError = false := by
    rw [Decoder.imageReader]
    split <;> exact herror
  have hsource : (s.imageReader frame).source = s.reader.source := by
    rw [Decoder.imageReader]
    split <;> simp_all
  have hdata (hends : GifLzwDecoder.decodeImageData (BitVec.ofInt 32 frame.iw).toNat
      (BitVec.ofInt 32 frame.ih).toNat s.buffers
      (s.imageReader frame) turns ≠ .ok none) := GifLzwDecoder.readable_iff hreader hends
  rw [Decoder.playData, Decoder.decodeImageData] at h
  cases hdecode : GifLzwDecoder.decodeImageData (BitVec.ofInt 32 frame.iw).toNat
    (BitVec.ofInt 32 frame.ih).toNat s.buffers
      (s.imageReader frame) turns with
  | error f =>
    rw [hdecode] at hdata
    apply iff_of_false
    · rintro ⟨t, r, pixels, ht, -⟩
      rw [Decoder.decodeImageData, hdecode] at ht
      cases ht
    · intro hadmits
      obtain ⟨r', buf', hok, -⟩ := (hdata (by simp)).mpr hadmits.data
      cases hok
  | ok res =>
    cases res with
    | none =>
      simp only [hdecode] at h
      cases h
    | some res =>
      obtain ⟨r', buf'⟩ := res
      rw [hdecode] at hdata
      simp only [hdecode] at h
      have hdecode' : s.decodeImageData turns frame =
          .ok { s with reader := r', buffers := buf' } := by
        rw [Decoder.decodeImageData, hdecode]
      obtain ⟨k, s₀, t, hstart, hloop, hreader', hpixels⟩ :=
        GifLzwDecoder.decodeImageData_left hdecode
      have hleft (u : GifLzwDecoder.Decoder) : LeftAs k s₀ u ↔ u = t :=
        ⟨fun hu => hu.unique hloop, fun hu => hu ▸ GifLzwDecoder.leftAs_of_loop hloop⟩
      have hstarted (k' : GifLzwDecoder.Params) (s₀' : GifLzwDecoder.Decoder)
          (hstart' : start (BitVec.ofInt 32 frame.iw).toNat
            (BitVec.ofInt 32 frame.ih).toNat s.buffers (s.imageReader frame) =
            .ok (k', s₀')) : k' = k ∧ s₀' = s₀ := by
        cases hstart.symm.trans hstart'
        exact ⟨rfl, rfl⟩
      cases hleave : Decoder.leaveImage turns { s with reader := r', buffers := buf' } with
      | error e =>
        simp only [hleave] at h
        cases h
      | ok r'' =>
        have hsource' : r'.source = s.reader.source :=
          ((GifLzwDecoder.decodeImageData_further hdecode).source).trans hsource
        have hread : r'.formatError = false ↔
            Readable (BitVec.ofInt 32 frame.iw).toNat (BitVec.ofInt 32 frame.ih).toNat s.buffers
              (s.imageReader frame) := by
          rw [← hdata (by simp)]
          constructor
          · exact fun hnone => ⟨r', buf', rfl, hnone⟩
          · rintro ⟨r, buf, hok, hnone⟩
            cases hok
            exact hnone
        have hchain := leaveImage_iff hleave
        simp only [hsource'] at hchain
        rw [getsThrough_left hdecode' hpixels hleave, shows_iff, hchain, hread, hreader']
        constructor
        · rintro ⟨⟨hreadable, hwhole⟩, hholds, hlinks⟩
          constructor
          · exact hreadable
          · intro k' s₀' hstart' u hu
            obtain ⟨rfl, rfl⟩ := hstarted k' s₀' hstart'
            rw [(hleft u).mp hu]
            exact hwhole
          · intro k' s₀' hstart' u hu
            obtain ⟨rfl, rfl⟩ := hstarted k' s₀' hstart'
            rw [(hleft u).mp hu]
            exact hholds
          · exact hlinks
        · intro hadmits
          exact ⟨⟨hadmits.data, hadmits.chain k s₀ hstart t ((hleft t).mpr rfl)⟩,
            hadmits.canvas k s₀ hstart t ((hleft t).mpr rfl), hadmits.link⟩

theorem admits_setTable (s : Decoder) (act : Table) :
    (s.setTable ref frame act).Admits around version frame cleared ↔
    s.Admits around version frame cleared := by
  have hsame : (s.setTable ref frame act).imageReader frame = s.imageReader frame := by
    rw [Decoder.setTable]
    split <;> rfl
  constructor
  · intro h
    have hdata := h.data
    have hchain := h.chain
    have hcanvas := h.canvas
    have hlink := h.link
    rw [setTable_buffers, hsame] at hdata hchain hcanvas
    rw [setTable_reader] at hchain
    rw [setTable_screen] at hcanvas hlink
    exact ⟨hdata, hchain, hcanvas, hlink⟩
  · intro h
    constructor
    · rw [setTable_buffers, hsame]
      exact h.data
    · rw [setTable_buffers, hsame, setTable_reader]
      exact h.chain
    · rw [setTable_buffers, hsame, setTable_screen]
      exact h.canvas
    · rw [setTable_screen]
      exact h.link

/-- A frame that is played puts its colour back if and only if nothing stands in its way. -/
theorem putsBack_iff {s : Player} {p : FrameEnd}
    (h : s.play argb4444 turns around version.link ref = some p) :
    s.PutsBack argb4444 turns around version.link ref ↔ s.Survives around version ref := by
  rw [Player.PutsBack, Player.Survives]
  refine forall_congr' fun frame => forall_congr' fun act => forall_congr' fun cleared =>
    forall_congr' fun hobject =>
    forall_congr' fun htable => forall_congr' fun herr => forall_congr' fun hactive =>
      forall_congr' fun _ => forall_congr' fun _ => ?_
  have hact : frame.tableIn s.decoder.header = some act :=
    (tableOf_of_object hobject).symm.trans htable
  have herror : s.decoder.reader.formatError = false := (Bool.or_eq_false_iff.mp herr).1
  rw [Player.play] at h
  simp only [hobject, Decoder.chosen, Decoder.withScreen, hact, herr, Bool.false_eq_true,
    if_false, hactive] at h
  have hthrough := admits_iff (s := (s.decoder.chosen frame).setTable ref frame cleared)
    (by rw [setTable_reader]; exact herror) h
  rw [hthrough, admits_setTable]

/-- A frame that stands against one leaves a zero for its colour. -/
theorem survives_of_entry {s : Player} {p : FrameEnd}
    (h : s.play argb4444 turns around version.link ref = some p)
    (hentry : ∀ frame, s.decoder.objects[ref]? = some frame →
      p.table.map (fun act => act frame.transIndex) ≠ some 0) :
    s.Survives around version ref := by
  rw [← putsBack_iff h]
  intro frame act cleared hobject htable herr hactive htransparent _
  by_contra hnot
  have hact : frame.tableIn s.decoder.header = some act :=
    (tableOf_of_object hobject).symm.trans htable
  rw [Player.play] at h
  simp only [hobject, Decoder.chosen, Decoder.withScreen, hact, herr, Bool.false_eq_true,
    if_false, hactive] at h
  obtain ⟨hthrough, -⟩ | ⟨-, hend⟩ := playData_table h
  · exact hnot hthrough
  · apply hentry frame hobject
    rw [hend, Option.map_some, activeTable_cases hactive, if_pos htransparent, Function.update_self]

end Admitted

variable (argb4444 : Color → Color)

/-- What happens to the tables: a frame is played, or `playImages` begins a round. Between two
frames
a stream is read on, and the screen may change. -/
inductive Event where
  | play (version : Version) (around : Surroundings) (ref : Nat)
  | round
  | between (bytes : List Byte) (formatError : Bool) (objects : List GifFrameData) (screen : Screen)

/-- `playImages` sets the status back. -/
def Player.beginRound (s : Player) : Player := ⟨s.decoder.beginRound, false⟩

def Player.readOn (s : Player) (bytes : List Byte) (formatError : Bool)
    (objects : List GifFrameData) (screen : Screen) : Player where
  decoder := { s.decoder with
    reader := { s.decoder.reader with bytes := bytes, formatError := formatError }
    objects := match s.decoder.reader.source with
      | .stream => objects
      | .rawData => s.decoder.objects
    screen := screen }
  interrupted := s.interrupted

/-- The player after an event; `none` when a loop is cut off. -/
def next (turns : Nat) (s : Player) : Event → Option Player
  | .play version around ref => (s.play argb4444 turns around version.link ref).map FrameEnd.player
  | .round => some s.beginRound
  | .between bytes formatError objects screen => some (s.readOn bytes formatError objects screen)

/-- The frame of an event keeps its table. -/
def Keeps (turns : Nat) (s : Player) : Event → Prop
  | .play version around ref =>
    ∀ p, s.play argb4444 turns around version.link ref = some p → p.Kept s ref
  | .round => True
  | .between .. => True

/-- Nothing stands in the way of the frame of an event. -/
def Survives (s : Player) : Event → Prop
  | .play version around ref => s.Survives around version ref
  | .round => True
  | .between .. => True

section

open EventRuns (run Meets Reached)

variable {argb4444 : Color → Color} {turns : Nat} {s t : Player} {e : Event} {es : List Event}

theorem keeps_iff (h : next argb4444 turns s e = some t) :
    Keeps argb4444 turns s e ↔ Survives s e := by
  cases e with
  | play version around ref =>
    obtain ⟨p, hp, -⟩ := Option.map_eq_some_iff.mp h
    rw [Keeps, Survives, ← putsBack_iff hp, ← kept_iff hp]
    constructor
    · exact fun hkeeps => hkeeps p hp
    · intro hkept p' hp'
      rw [hp] at hp'
      cases hp'
      exact hkept
  | round => exact Iff.rfl
  | between => exact Iff.rfl

theorem next_sameTables (h : next argb4444 turns s e = some t) (hkeeps : Keeps argb4444 turns s e) :
    SameTables s.decoder t.decoder := by
  cases e with
  | play version around ref =>
    obtain ⟨p, hp, rfl⟩ := Option.map_eq_some_iff.mp h
    exact Kept.sameTables hp (hkeeps p hp)
  | round =>
    cases h
    exact ⟨rfl, rfl, fun _ => rfl⟩
  | between bytes formatError objects screen =>
    cases h
    refine ⟨rfl, rfl, fun hraw => ?_⟩
    simp only [Player.readOn, hraw]

/-- Where every frame keeps its table, the tables are in the end what they were. -/
theorem sameTables_of_reached (h : Reached (next argb4444 turns) (Keeps argb4444 turns) s t) :
    SameTables s.decoder t.decoder :=
  @Reached.invariant _ _ _ _ (fun t : Player => SameTables s.decoder t.decoder) s t h (.refl _)
    fun _ _ _ hsame hkeeps hnext => hsame.trans (next_sameTables hnext hkeeps)

theorem run_ends (s : Player) (es : List Event) :
    ∃ n t, ∀ turns ≥ n, run (next argb4444 turns) s es = some t := by
  induction es generalizing s with
  | nil => exact ⟨0, s, fun _ _ => rfl⟩
  | cons e es ih =>
    have hfirst : ∃ n u, ∀ turns ≥ n, next argb4444 turns s e = some u := by
      cases e with
      | play version around ref =>
        obtain ⟨n, p, hp⟩ := @play_ends argb4444 around version.link ref s
        exact ⟨n, p.player, fun turns hturns => by rw [next, hp turns hturns]; rfl⟩
      | round => exact ⟨0, _, fun _ _ => rfl⟩
      | between => exact ⟨0, _, fun _ _ => rfl⟩
    obtain ⟨n, u, hu⟩ := hfirst
    obtain ⟨m, t, ht⟩ := ih u
    refine ⟨max n m, t, fun turns hturns => ?_⟩
    rw [run, hu turns (le_trans (le_max_left n m) hturns), Option.bind_some]
    exact ht turns (le_trans (le_max_right n m) hturns)

/-- In a run all frames keep their tables if and only if nothing stands in the way of those that
take a
colour out of one, and then no table has changed. -/
theorem tables_kept_iff (hrun : run (next argb4444 turns) s es = some t) :
    (Meets (next argb4444 turns) (Keeps argb4444 turns) s es ↔
      Meets (next argb4444 turns) Survives s es) ∧
      (Meets (next argb4444 turns) Survives s es → SameTables s.decoder t.decoder) := by
  have hiff := EventRuns.meets_congr (fun s e t h => @keeps_iff argb4444 turns s t e h) hrun
  refine ⟨hiff, fun hmeets => ?_⟩
  exact sameTables_of_reached (EventRuns.reached_of_run hrun (hiff.mpr hmeets))

/-- Raw data with one frame of a transparent pixel, with this minimum code size. -/
def transparentPixel (dataSize : Byte) : List Byte :=
  [0x47, 0x49, 0x46, 0x38, 0x39, 0x61, 1, 0, 1, 0, 0x80, 0, 0, 0, 0, 0, 0xff, 0xff, 0xff] ++
    [0x21, 0xf9, 4, 1, 0, 0, 1, 0, 0x2c, 0, 0, 0, 0, 1, 0, 1, 0, 0, dataSize, 2, 0x44, 1, 0, 0x3b]

/-- The frame is listed. -/
def listedPixel (dataSize : Byte) : Player :=
  ⟨(readFile id 16 .rawData (transparentPixel dataSize)).decoder, false⟩

/-- It is played from a queue. -/
def playFirst : Event :=
  .play (.indexed 0) ⟨true, none, false, [], false, ⟨none, fun _ => 0, fun _ => 0⟩⟩ 0

theorem tables_kept_iff_pixel : Meets (next id 16) (Keeps id 16) (listedPixel 2)
    [playFirst, .round] ∧
    ∃ t, run (next id 16) (listedPixel 2) [playFirst, .round] = some t ∧
      SameTables (listedPixel 2).decoder t.decoder := by
  have hsome : (run (next id 16) (listedPixel 2) [playFirst, .round]).isSome = true := by
    decide +kernel
  obtain ⟨t, ht⟩ := Option.isSome_iff_exists.mp hsome
  obtain ⟨hiff, hsame⟩ := tables_kept_iff ht
  have hentry :
      ((listedPixel 2).play id 16 ⟨true, none, false, [], false, ⟨none, fun _ => 0, fun _ => 0⟩⟩
      (Version.indexed 0).link 0).map (fun p => p.table.map fun act => act 1) =
        some (some 0xffffffff) := by decide +kernel
  have hindex : (listedPixel 2).decoder.objects[0]?.map GifFrameData.transIndex = some 1 := by
    decide +kernel
  obtain ⟨p, hp, htable⟩ := Option.map_eq_some_iff.mp hentry
  have hmeets : Meets (next id 16) Survives (listedPixel 2) [playFirst, .round] := by
    refine ⟨survives_of_entry hp fun frame hobject => ?_, fun _ _ => ⟨trivial, fun _ _ => trivial⟩⟩
    rw [hobject, Option.map_some, Option.some.injEq] at hindex
    rw [hindex, htable]
    decide
  exact ⟨hiff.mpr hmeets, t, ht, hsame hmeets⟩

/-- With a code size that is too large an exception ends the frame, and in the next round its colour
is no longer in the table. -/
theorem color_lost : ¬ Meets (next id 16) (Keeps id 16) (listedPixel 13) [playFirst, .round] ∧
    (listedPixel 13).decoder.header.gct.map (fun act => act 1) = some 0xffffffff ∧
      (run (next id 16) (listedPixel 13) [playFirst, .round]).bind
        (fun t => t.decoder.header.gct.map fun act => act 1) = some 0 := by
  refine ⟨fun h => ?_, by decide +kernel, by decide +kernel⟩
  have hentry :
      ((listedPixel 13).play id 16 ⟨true, none, false, [], false, ⟨none, fun _ => 0, fun _ => 0⟩⟩
      (Version.indexed 0).link 0).map (fun p => p.table.map fun act => act 1) = some (some 0) := by
        decide +kernel
  have hbefore : ((listedPixel 13).tableOf 0).map (fun act => act 1) = some 0xffffffff := by
    decide +kernel
  obtain ⟨p, hp, htable⟩ := Option.map_eq_some_iff.mp hentry
  rw [h.1 p hp, hbefore] at htable
  exact absurd htable (by decide)

end

end BaseGifDecoder
