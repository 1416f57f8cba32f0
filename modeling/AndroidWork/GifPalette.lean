import AndroidWork.GifRunsEnd

/-!
# The colour table from frame to frame

`playSingleFrame` takes the transparent colour out of a table that is there for
other frames too, and puts it back before it leaves, if it gets that far. A frame
is played here with the table changed in place, with what an exception leaves
behind, and with the memory check that may interrupt the decoder.
-/
namespace BaseGifDecoder

open GifLzwDecoder (Byte Reader Source Buffers)
open Turns (Settles)

/-- What a frame meets: whether there is memory for the image, and what stands in for the image if
there is none; whether the last image is recycled between the two looks at it; and what an exception
in `decodeImageData` leaves to be read. -/
structure Surroundings where
  memory : Bool
  standIn : Option Bitmap
  recycled : Bool
  bytes : List Byte
  formatError : Bool
  buffers : Buffers

/-- A decoder, and whether `mStatus` is STATUS_INTERRUPT. -/
structure Player where
  decoder : Decoder
  interrupted : Bool

def Player.err (s : Player) : Bool := s.decoder.reader.formatError || s.interrupted

/-- How the play of a frame ends, and the entries of `mAct` then. -/
structure FrameEnd where
  player : Player
  table : Option Table
  fault : Option Fault

/-- How `setPixels` ends. -/
structure PixelsEnd where
  screen : Screen
  interrupted : Bool
  fault : Option Fault

variable (argb4444 : Color → Color)

/-- The canvas that is painted. -/
def Screen.painted (s : Screen) (frame : GifFrameData) (act : Table)
    (pixels : Nat × (Int → Byte)) (size : Int) :
    Except Fault (Int → Color) := do
  let dest ← s.startingContents frame size
  s.paintRows frame act pixels size frame.ih.toNat 0 ⟨1, 8, 0⟩ dest

/-- `setPixels` with the memory check. -/
def Screen.setPixelsAmid (around : Surroundings) (s : Screen) (frame : GifFrameData) (act : Table)
    (pixels : Nat × (Int → Byte)) : PixelsEnd :=
  let size := int (s.width * s.height)
  if size < 0 then ⟨s, false, some .negativeArraySize⟩
  else
    let s := s.recall
    if around.recycled ∧ 0 < s.lastDispose ∧ s.lastImage.isSome then ⟨s, false, none⟩
    else
      match s.painted frame act pixels size with
      | .error e => ⟨s, false, some e⟩
      | .ok dest =>
        if around.memory then
          match createBitmap argb4444 dest s.width s.height with
          | .error e => ⟨s, false, some e⟩
          | .ok image => ⟨{ s with image := some image }, false, none⟩
        else ⟨{ s with image := around.standIn.or s.image }, true, none⟩

/-- The table that becomes `mAct`. -/
def GifFrameData.tableIn (frame : GifFrameData) (header : GifHeaderData) : Option Table :=
  if frame.lctFlag then frame.lct else header.gct

def Player.tableOf (s : Player) (ref : Nat) : Option Table :=
  s.decoder.objects[ref]?.bind fun frame => frame.tableIn s.decoder.header

/-- The table of a frame changes, where it is. -/
def Decoder.setTable (s : Decoder) (ref : Nat) (frame : GifFrameData) (act : Table) : Decoder :=
  if frame.lctFlag then { s with objects := s.objects.set ref { frame with lct := some act } }
  else { s with header := { s.header with gct := some act } }

/-- `save` -/
def GifFrameData.saved (frame : GifFrameData) (act : Table) : Color :=
  if frame.transparency then act frame.transIndex else 0

/-- `mAct[frame.transIndex] = save` -/
def GifFrameData.restored (frame : GifFrameData) (act : Table) (save : Color) : Table :=
  if frame.transparency then Function.update act frame.transIndex save else act

def Decoder.withScreen (s : Decoder) (screen : Screen) : Decoder := { s with screen := screen }

/-- The decoder with `mAct` chosen. -/
def Decoder.chosen (s : Decoder) (frame : GifFrameData) : Decoder :=
  s.withScreen (s.screen.chooseBackground frame s.header.bgIndex)

/-- What an exception in `decodeImageData` leaves. -/
def Decoder.thrown (s : Decoder) (around : Surroundings) : Decoder :=
  { s with
    reader := { s.reader with bytes := around.bytes, formatError := around.formatError }
    buffers := around.buffers }

/-- From the pixels to the end of the frame. -/
def Decoder.show (around : Surroundings) (link : Screen → Int → Except Fault Screen) (ref : Nat)
    (frame : GifFrameData)
    (cleared : Table) (save : Color) (pixels : Nat × (Int → Byte)) (s : Decoder) : FrameEnd :=
  let shown := Screen.setPixelsAmid argb4444 around
    { s.screen with frameCount := s.screen.frameCount + 1 } frame cleared pixels
  let s := s.withScreen shown.screen
  match shown.fault with
  | some e => ⟨⟨s, shown.interrupted⟩, some cleared, some e⟩
  | none =>
    match link s.screen frame.delay with
    | .error e => ⟨⟨s, shown.interrupted⟩, some cleared, some e⟩
    | .ok screen =>
      let act := frame.restored cleared save
      let s := (s.setTable ref frame act).withScreen (screen.resetFrame frame)
      ⟨⟨{ s with objects := s.resetObject ref frame }, shown.interrupted⟩, some act, none⟩

/-- From the image data to the end of the frame. -/
def Decoder.finish (around : Surroundings) (link : Screen → Int → Except Fault Screen) (ref : Nat)
    (frame : GifFrameData)
    (cleared : Table) (save : Color) (s : Decoder) : FrameEnd :=
  if s.reader.formatError then ⟨⟨s, false⟩, some cleared, none⟩
  else
    match s.buffers.pixels with
    | none =>
      ⟨⟨s.withScreen { s.screen with frameCount := s.screen.frameCount + 1 }, false⟩, some cleared,
        some .nullPointer⟩
    | some pixels => s.show argb4444 around link ref frame cleared save pixels

/-- The image data, and what is shown of it; `none` when a loop is cut off. -/
def Decoder.playData (turns : Nat) (around : Surroundings)
    (link : Screen → Int → Except Fault Screen) (ref : Nat)
    (frame : GifFrameData) (cleared : Table) (save : Color) (s : Decoder) : Option FrameEnd :=
  match s.decodeImageData turns frame with
  | .error .cutOff => none
  | .error e => some ⟨⟨s.thrown around, false⟩, some cleared, some e⟩
  | .ok s =>
    match s.leaveImage turns with
    | .error _ => none
    | .ok r => some ((s.withReader r).finish argb4444 around link ref frame cleared save)

/-- What both `playSingleFrame` do, up to how the frame is linked. -/
def Player.play (turns : Nat) (around : Surroundings) (link : Screen → Int → Except Fault Screen)
    (ref : Nat) (s : Player) :
    Option FrameEnd :=
  match s.decoder.objects[ref]? with
  | none => some ⟨s, none, some .nullPointer⟩
  | some frame =>
    let d := s.decoder.chosen frame
    match frame.tableIn d.header with
    | none => some ⟨⟨d.fail, false⟩, none, none⟩
    | some act =>
      if s.err then some ⟨⟨d, s.interrupted⟩, some act, none⟩
      else
        match frame.activeTable act with
        | .error e => some ⟨⟨d, s.interrupted⟩, some act, some e⟩
        | .ok cleared =>
          (d.setTable ref frame cleared).playData argb4444 turns around link ref frame
            cleared (frame.saved act)

/-- The frame has left its table with the entries it found. -/
def FrameEnd.Kept (s : Player) (ref : Nat) (p : FrameEnd) : Prop := p.table = s.tableOf ref

/-- The pixels are painted, and the frame is linked. -/
def Screen.Shows (around : Surroundings) (link : Screen → Int → Except Fault Screen)
    (frame : GifFrameData) (cleared : Table)
    (pixels : Nat × (Int → Byte)) (s : Screen) : Prop :=
  let shown := Screen.setPixelsAmid argb4444 around { s with frameCount := s.frameCount + 1 }
    frame cleared pixels
  shown.fault = none ∧ ∃ screen, link shown.screen frame.delay = .ok screen

/-- The frame gets as far as to put its colour back. -/
def Decoder.GetsThrough (turns : Nat) (around : Surroundings)
    (link : Screen → Int → Except Fault Screen)
    (frame : GifFrameData) (cleared : Table) (s : Decoder) : Prop :=
  ∃ t r pixels, s.decodeImageData turns frame = .ok t ∧ t.leaveImage turns = .ok r ∧
    r.formatError = false ∧
    t.buffers.pixels = some pixels ∧ t.screen.Shows argb4444 around link frame cleared pixels

/-- So does every frame that takes one out. -/
def Player.PutsBack (turns : Nat) (around : Surroundings)
    (link : Screen → Int → Except Fault Screen) (ref : Nat)
    (s : Player) : Prop :=
  ∀ frame act cleared, s.decoder.objects[ref]? = some frame →
    s.tableOf ref = some act → s.err = false →
    frame.activeTable act = .ok cleared → frame.transparency = true → act frame.transIndex ≠ 0 →
    ((s.decoder.chosen frame).setTable ref frame cleared).GetsThrough argb4444 turns around
      link frame cleared

section

variable {argb4444 : Color → Color} {turns : Nat} {around : Surroundings}
    {link : Screen → Int → Except Fault Screen}
  {ref : Nat} {frame : GifFrameData} {act cleared : Table} {save : Color}

theorem activeTable_cases (h : frame.activeTable act = .ok cleared) :
    cleared = if frame.transparency then Function.update act frame.transIndex 0 else act := by
  rw [GifFrameData.activeTable] at h
  split at h
  · split at h
    · cases h
      rename_i htransparent _
      rw [if_pos htransparent]
    · cases h
  · cases h
    rename_i htransparent
    rw [if_neg htransparent]

/-- What is taken out is put back. -/
theorem restored_saved (h : frame.activeTable act = .ok cleared) :
    frame.restored cleared (frame.saved act) = act := by
  rw [activeTable_cases h, GifFrameData.restored, GifFrameData.saved]
  split
  · rw [Function.update_idem, Function.update_eq_self]
  · rfl

theorem cleared_eq_iff (h : frame.activeTable act = .ok cleared) :
    cleared = act ↔ (frame.transparency = true → act frame.transIndex = 0) := by
  rw [activeTable_cases h]
  cases htransparent : frame.transparency with
  | false => simp
  | true =>
    simp only [if_true, true_imp_iff]
    rw [Function.update_eq_self_iff]
    exact eq_comm

theorem show_table (s : Decoder) (pixels : Nat × (Int → Byte)) :
    s.screen.Shows argb4444 around link frame cleared pixels ∧
        (s.show argb4444 around link ref frame cleared save pixels).table =
          some (frame.restored cleared save) ∨
      ¬ s.screen.Shows argb4444 around link frame cleared pixels ∧
        (s.show argb4444 around link ref frame cleared save pixels).table = some cleared := by
  rw [Screen.Shows, Decoder.show]
  generalize Screen.setPixelsAmid argb4444 around _ frame cleared pixels = shown
  cases hfault : shown.fault with
  | some e =>
    refine .inr ⟨?_, rfl⟩
    rintro ⟨hnone, -⟩
    cases hnone
  | none =>
    simp only [Decoder.withScreen]
    cases hlink : link shown.screen frame.delay with
    | error e =>
      refine .inr ⟨?_, rfl⟩
      rintro ⟨-, screen, hok⟩
      cases hok
    | ok screen => exact .inl ⟨⟨trivial, screen, rfl⟩, rfl⟩

theorem finish_table (s : Decoder) :
    (s.reader.formatError = false ∧ ∃ pixels, s.buffers.pixels = some pixels ∧
          s.screen.Shows argb4444 around link frame cleared pixels) ∧
        (s.finish argb4444 around link ref frame cleared save).table =
          some (frame.restored cleared save) ∨
      ¬ (s.reader.formatError = false ∧ ∃ pixels, s.buffers.pixels = some pixels ∧
          s.screen.Shows argb4444 around link frame cleared pixels) ∧
        (s.finish argb4444 around link ref frame cleared save).table = some cleared := by
  rw [Decoder.finish]
  cases s.reader.formatError with
  | true =>
    refine .inr ⟨?_, rfl⟩
    rintro ⟨hfalse, -⟩
    cases hfalse
  | false =>
    simp only [Bool.false_eq_true, if_false, true_and]
    cases s.buffers.pixels with
    | none =>
      refine .inr ⟨?_, rfl⟩
      rintro ⟨pixels, hsome, -⟩
      cases hsome
    | some pixels =>
      obtain ⟨hshows, htable⟩ | ⟨hnot, htable⟩ := show_table s pixels
      · exact .inl ⟨⟨pixels, rfl, hshows⟩, htable⟩
      · refine .inr ⟨?_, htable⟩
        rintro ⟨pixels', hsome, hshows⟩
        cases hsome
        exact hnot hshows

/-- A frame that gets through puts its colour back, and no other does. -/
theorem playData_table {s : Decoder} {p : FrameEnd}
    (h : s.playData argb4444 turns around link ref frame cleared save = some p) :
    s.GetsThrough argb4444 turns around link frame cleared ∧
    p.table = some (frame.restored cleared save) ∨
      ¬ s.GetsThrough argb4444 turns around link frame cleared ∧ p.table = some cleared := by
  rw [Decoder.playData] at h
  cases hdecode : s.decodeImageData turns frame with
  | error e =>
    have hnot : ¬ s.GetsThrough argb4444 turns around link frame cleared := by
      rintro ⟨t, r, pixels, hok, -⟩
      rw [hdecode] at hok
      cases hok
    rw [hdecode] at h
    cases e <;> cases h <;> exact .inr ⟨hnot, rfl⟩
  | ok t =>
    simp only [hdecode] at h
    cases hleave : t.leaveImage turns with
    | error e =>
      simp only [hleave] at h
      cases h
    | ok r =>
      simp only [hleave, Option.some.injEq] at h
      subst h
      have hiff : s.GetsThrough argb4444 turns around link frame cleared ↔
          r.formatError = false ∧ ∃ pixels, t.buffers.pixels = some pixels ∧
            t.screen.Shows argb4444 around link frame cleared pixels := by
        constructor
        · rintro ⟨t', r', pixels, hdecode', hleave', hrest⟩
          rw [hdecode] at hdecode'
          cases hdecode'
          rw [hleave] at hleave'
          cases hleave'
          exact ⟨hrest.1, pixels, hrest.2⟩
        · rintro ⟨herror, pixels, hrest⟩
          exact ⟨t, r, pixels, hdecode, hleave, herror, hrest⟩
      rw [hiff]
      exact finish_table (t.withReader r)

theorem tableOf_of_object {s : Player} (hobject : s.decoder.objects[ref]? = some frame) :
    s.tableOf ref = frame.tableIn s.decoder.header := by
  rw [Player.tableOf, hobject, Option.bind_some]

/-- A frame that takes nothing out of its table. -/
theorem putsBack_of {s : Player} (h : ∀ frame act cleared, s.decoder.objects[ref]? = some frame →
    s.tableOf ref = some act →
    s.err = false → frame.activeTable act = .ok cleared → False) :
    s.PutsBack argb4444 turns around link ref :=
  fun frame act cleared hobject htable herr hactive =>
    absurd hactive (h frame act cleared hobject htable herr)

/-- A frame keeps its table if and only if it puts back what it takes out of it. -/
theorem kept_iff {s : Player} {p : FrameEnd} (h : s.play argb4444 turns around link ref = some p) :
    p.Kept s ref ↔ s.PutsBack argb4444 turns around link ref := by
  rw [Player.play] at h
  rw [FrameEnd.Kept]
  cases hobject : s.decoder.objects[ref]? with
  | none =>
    simp only [hobject, Option.some.injEq] at h
    subst h
    have hnone : s.tableOf ref = none := by rw [Player.tableOf, hobject, Option.bind_none]
    apply iff_of_true hnone.symm
    apply putsBack_of
    intro frame act cleared hsome
    rw [hobject] at hsome
    cases hsome
  | some frame =>
    have htable := tableOf_of_object hobject
    have hframe {frame' : GifFrameData} (hsome : s.decoder.objects[ref]? = some frame') :
        frame' = frame :=
      Option.some.inj (hsome.symm.trans hobject)
    simp only [hobject, Decoder.chosen, Decoder.withScreen] at h
    cases hact : frame.tableIn s.decoder.header with
    | none =>
      simp only [hact, Option.some.injEq] at h
      subst h
      rw [hact] at htable
      apply iff_of_true htable.symm
      apply putsBack_of
      intro frame act cleared _ hsome
      rw [htable] at hsome
      cases hsome
    | some act =>
      rw [hact] at htable
      simp only [hact] at h
      cases herr : s.err with
      | true =>
        simp only [herr, if_true, Option.some.injEq] at h
        subst h
        apply iff_of_true htable.symm
        apply putsBack_of
        intro frame act cleared _ _ hfalse
        rw [herr] at hfalse
        cases hfalse
      | false =>
        simp only [herr, Bool.false_eq_true, if_false] at h
        cases hactive : frame.activeTable act with
        | error e =>
          simp only [hactive, Option.some.injEq] at h
          subst h
          apply iff_of_true htable.symm
          apply putsBack_of
          intro frame' act' cleared hobject' htable' _ hok
          obtain rfl := hframe hobject'
          rw [htable, Option.some.injEq] at htable'
          rw [← htable', hactive] at hok
          cases hok
        | ok cleared =>
          simp only [hactive] at h
          have hthrough := playData_table h
          have hkept := cleared_eq_iff hactive
          have hiff : s.PutsBack argb4444 turns around link ref ↔
              (frame.transparency = true → act frame.transIndex ≠ 0 →
              ((s.decoder.chosen frame).setTable ref frame cleared).GetsThrough argb4444 turns
                around link frame cleared) := by
            constructor
            · intro hputs
              exact hputs frame act cleared hobject htable herr hactive
            · intro hthrough frame' act' cleared' hobject' htable' _ hactive'
              obtain rfl := hframe hobject'
              obtain rfl : act = act' := Option.some.inj (htable.symm.trans htable')
              obtain rfl : cleared = cleared' := Except.ok.inj (hactive.symm.trans hactive')
              exact hthrough
          rw [hiff, htable]
          obtain ⟨hthrough, hend⟩ | ⟨hnot, hend⟩ := hthrough
          · rw [hend, restored_saved hactive]
            exact iff_of_true rfl fun _ _ => hthrough
          · rw [hend, Option.some.injEq, hkept]
            constructor
            · intro hzero htransparent hne
              exact absurd (hzero htransparent) hne
            · intro h htransparent
              by_contra hne
              exact hnot (h htransparent hne)

end

/-- The global table is the same and, in raw data, so is every frame with its local table. -/
structure SameTables (s t : Decoder) : Prop where
  source : t.reader.source = s.reader.source
  global : t.header.gct = s.header.gct
  objects : s.reader.source = .rawData → t.objects = s.objects

theorem SameTables.refl (s : Decoder) : SameTables s s := ⟨rfl, rfl, fun _ => rfl⟩

theorem SameTables.trans {s t u : Decoder} (h : SameTables s t) (h' : SameTables t u) :
    SameTables s u where
  source := h'.source.trans h.source
  global := h'.global.trans h.global
  objects hraw := (h'.objects (h.source.trans hraw)).trans (h.objects hraw)

section

variable {argb4444 : Color → Color} {turns : Nat} {around : Surroundings}
    {link : Screen → Int → Except Fault Screen}
  {ref : Nat} {frame : GifFrameData} {act cleared : Table} {save : Color}

theorem setTable_setTable (s : Decoder) :
    (s.setTable ref frame cleared).setTable ref frame act = s.setTable ref frame act := by
  cases hlocal : frame.lctFlag <;> simp [Decoder.setTable, hlocal]

theorem setTable_setTable_with (s : Decoder) (r : Reader) (screen : Screen) :
    ({ (s.setTable ref frame cleared).withReader r with screen := screen } :
      Decoder).setTable ref frame act =
      { (s.setTable ref frame act).withReader r with screen := screen } := by
  cases hlocal : frame.lctFlag <;> simp [Decoder.setTable, Decoder.withReader, hlocal]

/-- A frame's own table. -/
theorem setTable_self {s : Decoder} (hobject : s.objects[ref]? = some frame)
    (htable : frame.tableIn s.header = some act) :
    s.setTable ref frame act = s := by
  rw [GifFrameData.tableIn] at htable
  rw [Decoder.setTable]
  split at htable
  · rename_i hlocal
    obtain ⟨hlt, hframe⟩ := List.getElem?_eq_some_iff.mp hobject
    have hsame : { frame with lct := some act } = frame := by rw [← htable]
    rw [if_pos hlocal, hsame, ← hframe, List.set_getElem_self]
  · rename_i hglobal
    rw [if_neg hglobal, ← htable]

@[simp] theorem setTable_reader (s : Decoder) : (s.setTable ref frame act).reader = s.reader := by
  rw [Decoder.setTable]
  split <;> rfl

@[simp] theorem setTable_screen (s : Decoder) : (s.setTable ref frame act).screen = s.screen := by
  rw [Decoder.setTable]
  split <;> rfl

theorem SameTables.setTable {s t : Decoder} (hheader : t.header = s.header)
    (hobjects : t.objects = s.objects)
    (hsource : t.reader.source = s.reader.source) : SameTables (s.setTable ref frame act)
    (t.setTable ref frame act) := by
  constructor
  · simpa using hsource
  · rw [Decoder.setTable, Decoder.setTable]
    split <;> simp [hheader]
  · intro
    rw [Decoder.setTable, Decoder.setTable]
    split <;> simp [hobjects]

theorem leaveImage_source {s : Decoder} {r : Reader} (h : s.leaveImage turns = .ok r) :
    r.source = s.reader.source := by
  rw [Decoder.leaveImage] at h
  split at h
  · exact ((skip_settles s.reader).sound turns h).source
  · cases h
    rfl

/-- The frame's table is at the end what `mAct` is. -/
theorem playData_tables {s : Decoder} {p : FrameEnd}
    (h : (s.setTable ref frame cleared).playData argb4444 turns around link ref frame
      cleared save = some p) :
    ∃ act, p.table = some act ∧ SameTables (s.setTable ref frame act) p.player.decoder := by
  rw [Decoder.playData] at h
  cases hdecode : (s.setTable ref frame cleared).decodeImageData turns frame with
  | error e =>
    have hthrown : SameTables (s.setTable ref frame cleared)
        ((s.setTable ref frame cleared).thrown around) :=
      ⟨rfl, rfl, fun _ => rfl⟩
    simp only [hdecode] at h
    cases e <;> cases h <;> exact ⟨cleared, rfl, hthrown⟩
  | ok t =>
    obtain ⟨hreader, hheader, -, hobjects⟩ := (decodeImageData_settles _ frame).sound turns hdecode
    have hsource : t.reader.source = (s.setTable ref frame cleared).reader.source := by
      rw [hreader.source, Decoder.imageReader]
      split <;> simp_all
    simp only [hdecode] at h
    cases hleave : t.leaveImage turns with
    | error e =>
      simp only [hleave] at h
      cases h
    | ok r =>
      have hsame : SameTables (s.setTable ref frame cleared) (t.withReader r) :=
        ⟨(leaveImage_source hleave).trans hsource, congrArg GifHeaderData.gct hheader,
          fun _ => hobjects⟩
      simp only [hleave, Option.some.injEq] at h
      subst h
      rw [Decoder.finish]
      split
      · exact ⟨cleared, rfl, hsame⟩
      · split
        · exact ⟨cleared, rfl, hsame.source, hsame.global, hsame.objects⟩
        · rw [Decoder.show]
          generalize Screen.setPixelsAmid argb4444 around _ frame cleared _ = shown
          simp only [Decoder.withScreen]
          cases shown.fault with
          | some e => exact ⟨cleared, rfl, hsame.source, hsame.global, hsame.objects⟩
          | none =>
            cases link shown.screen frame.delay with
            | error e => exact ⟨cleared, rfl, hsame.source, hsame.global, hsame.objects⟩
            | ok screen =>
              have hput := @SameTables.setTable ref frame (frame.restored cleared save) _
                { t with reader := r, screen := shown.screen } hheader hobjects
                  ((leaveImage_source hleave).trans hsource)
              rw [setTable_setTable] at hput
              refine ⟨frame.restored cleared save, rfl, hput.source, hput.global, fun hraw => ?_⟩
              rw [← hput.objects hraw]
              have hraw := hput.source.trans hraw
              simp only [Decoder.withReader, Decoder.resetObject, hraw]

/-- A frame that keeps its table keeps all of them. -/
theorem Kept.sameTables {s : Player} {p : FrameEnd}
    (h : s.play argb4444 turns around link ref = some p) (hkept : p.Kept s ref) :
    SameTables s.decoder p.player.decoder := by
  rw [Player.play] at h
  rw [FrameEnd.Kept] at hkept
  cases hobject : s.decoder.objects[ref]? with
  | none =>
    simp only [hobject, Option.some.injEq] at h
    subst h
    exact .refl _
  | some frame =>
    rw [tableOf_of_object hobject] at hkept
    simp only [hobject, Decoder.chosen, Decoder.withScreen] at h
    cases hact : frame.tableIn s.decoder.header with
    | none =>
      simp only [hact, Option.some.injEq] at h
      subst h
      exact ⟨rfl, rfl, fun _ => rfl⟩
    | some act =>
      rw [hact] at hkept
      simp only [hact] at h
      split at h
      · cases h
        exact ⟨rfl, rfl, fun _ => rfl⟩
      · split at h
        · cases h
          exact ⟨rfl, rfl, fun _ => rfl⟩
        · obtain ⟨act', htable, hsame⟩ := playData_tables h
          obtain rfl : act' = act := Option.some.inj (htable.symm.trans hkept)
          have hself : (s.decoder.chosen frame).setTable ref frame act' = s.decoder.chosen frame :=
            setTable_self hobject hact
          rw [Decoder.chosen, Decoder.withScreen] at hself
          rw [hself] at hsame
          exact ⟨hsame.source, hsame.global, hsame.objects⟩

theorem skip_error {r : Reader} {e : Fault} (h : skip turns r = .error e) : e = .cutOff := by
  induction turns generalizing r with
  | zero =>
    cases h
    rfl
  | succ turns ih =>
    rw [skip] at h
    split at h
    · exact ih h
    · cases h

theorem leaveImage_ends (s : Decoder) : ∃ n r, ∀ turns ≥ n, s.leaveImage turns = .ok r := by
  cases hsource : s.reader.source with
  | stream =>
    obtain ⟨n, res, hres, hn⟩ := (leaveImage_settles hsource).ends
    cases res with
    | error e =>
      have herror := hn n le_rfl
      simp only [Decoder.leaveImage, hsource] at herror
      rw [skip_error herror] at hres
      exact absurd rfl hres
    | ok r => exact ⟨n, r, hn⟩
  | rawData => exact ⟨0, s.reader, fun turns _ => by simp only [Decoder.leaveImage, hsource]⟩

theorem playData_ends (s : Decoder) :
    ∃ n p, ∀ turns ≥ n, s.playData argb4444 turns around link ref frame cleared save = some p := by
  obtain ⟨n, res, hres, hn⟩ := (decodeImageData_settles s frame).ends
  cases res with
  | error e =>
    refine ⟨n, ⟨⟨s.thrown around, false⟩, some cleared, some e⟩, fun turns hturns => ?_⟩
    rw [Decoder.playData, hn turns hturns]
    cases e <;> first | rfl | exact absurd rfl hres
  | ok t =>
    obtain ⟨m, r, hm⟩ := leaveImage_ends t
    refine ⟨max n m, (t.withReader r).finish argb4444 around link ref frame cleared save,
      fun turns hturns => ?_⟩
    rw [Decoder.playData, hn turns (le_trans (le_max_left n m) hturns)]
    simp only [hm turns (le_trans (le_max_right n m) hturns)]

/-- A frame comes to its end, however its data are cut short. -/
theorem play_ends (s : Player) : ∃ n p, ∀ turns ≥ n,
    s.play argb4444 turns around link ref = some p := by
  simp only [Player.play]
  cases s.decoder.objects[ref]? with
  | none => exact ⟨0, _, fun _ _ => rfl⟩
  | some frame =>
    simp only []
    cases frame.tableIn (s.decoder.chosen frame).header with
    | none => exact ⟨0, _, fun _ _ => rfl⟩
    | some act =>
      simp only []
      cases s.err with
      | true => exact ⟨0, _, fun _ _ => rfl⟩
      | false =>
        simp only [Bool.false_eq_true, if_false]
        cases frame.activeTable act with
        | error e => exact ⟨0, _, fun _ _ => rfl⟩
        | ok cleared =>
          simp only []
          exact playData_ends _

end

section

variable {argb4444 : Color → Color} {turns : Nat} {around : Surroundings}
    {link : Screen → Int → Except Fault Screen}
  {ref : Nat} {frame : GifFrameData} {act cleared : Table} {pixels : Nat × (Int → Byte)}

/-- `setPixels` where there is memory and no image is recycled. -/
theorem setPixelsAmid_eq (hmemory : around.memory = true)
    (hrecycled : around.recycled = false) (s : Screen) :
    Screen.setPixels argb4444 s frame act pixels =
      match (Screen.setPixelsAmid argb4444 around s frame act pixels).fault with
      | some e => .error e
      | none => .ok (Screen.setPixelsAmid argb4444 around s frame act pixels).screen := by
  rw [Screen.setPixels, Screen.setPixelsAmid]
  by_cases hsize : int (s.width * s.height) < 0
  · simp only [hsize, if_true]
  · have hpainted : s.recall.painted frame act pixels (int (s.width * s.height)) = (do
        let dest ← s.recall.startingContents frame (int (s.width * s.height))
        s.recall.paintRows frame act pixels (int (s.width * s.height)) frame.ih.toNat 0
          ⟨1, 8, 0⟩ dest) := rfl
    simp only [hsize, if_false, hmemory, hrecycled, Bool.false_eq_true, false_and, if_true,
      ← bind_assoc, ← hpainted]
    cases s.recall.painted frame act pixels (int (s.width * s.height)) with
    | error e => rfl
    | ok dest =>
      simp only [ok_bind]
      cases createBitmap argb4444 dest s.recall.width s.recall.height <;> rfl

theorem decodeImageData_setTable (s : Decoder) :
    (s.setTable ref frame act).decodeImageData turns frame =
    (s.decodeImageData turns frame).map fun t => t.setTable ref frame act := by
  rw [Decoder.setTable]
  split
  · rename_i hlocal
    simp only [Decoder.decodeImageData, Decoder.imageReader]
    split <;> simp [Except.map, Decoder.setTable, hlocal]
  · rename_i hglobal
    simp only [Decoder.decodeImageData, Decoder.imageReader]
    split <;> simp [Except.map, Decoder.setTable, hglobal]

@[simp] theorem setTable_buffers (s : Decoder) :
    (s.setTable ref frame act).buffers = s.buffers := by
  rw [Decoder.setTable]
  split <;> rfl

theorem leaveImage_setTable (s : Decoder) :
    (s.setTable ref frame act).leaveImage turns = s.leaveImage turns := by
  simp only [Decoder.leaveImage, setTable_reader]

/-- The outcome of `playFrame`, from how the frame ends. -/
def FrameEnd.Agrees (p : FrameEnd) (table : Option Table) (result : Except Fault Decoder) : Prop :=
  (∀ e, p.fault = some e → result = .error e) ∧
    (p.fault = none → p.table = table → result = .ok p.player.decoder)

theorem FrameEnd.Agrees.of_fault {p : FrameEnd} {table : Option Table}
    {result : Except Fault Decoder} {e : Fault}
    (h : p.fault = some e) (hresult : result = .error e) : p.Agrees table result := by
  constructor
  · intro e' he
    cases h.symm.trans he
    exact hresult
  · intro hnone
    cases h.symm.trans hnone

theorem FrameEnd.Agrees.of_done {p : FrameEnd} {table : Option Table}
    {result : Except Fault Decoder} (h : p.fault = none)
    (hresult : p.table = table → result = .ok p.player.decoder) : p.Agrees table result := by
  constructor
  · intro e he
    cases h.symm.trans he
  · exact fun _ => hresult

theorem finish_agrees (hmemory : around.memory = true) (hrecycled : around.recycled = false)
    {s : Decoder} {r : Reader}
    (hobject : s.objects[ref]? = some frame) (htable : frame.tableIn s.header = some act)
    (hactive : frame.activeTable act = .ok cleared) (hsource : r.source = s.reader.source) :
    (((s.setTable ref frame cleared).withReader r).finish argb4444 around link ref frame cleared
      (frame.saved act)).Agrees (some act)
      (if r.formatError then .ok (s.withReader r)
      else
        match s.buffers.pixels with
        | none => .error .nullPointer
        | some pixels => do
          let screen ← Screen.showFrame argb4444 link s.screen frame cleared pixels
          .ok { s with reader := r, screen := screen, objects := s.resetObject ref frame }) := by
  have hself : s.setTable ref frame act = s := setTable_self hobject htable
  have hreader : ((s.setTable ref frame cleared).withReader r).reader = r := rfl
  have hbuffers : ((s.setTable ref frame cleared).withReader r).buffers = s.buffers :=
    setTable_buffers s
  have hscreen : ((s.setTable ref frame cleared).withReader r).screen = s.screen :=
    setTable_screen s
  rw [Decoder.finish, hreader, hbuffers]
  cases r.formatError with
  | true =>
    refine .of_done rfl fun hkept => ?_
    obtain rfl : cleared = act := Option.some.inj hkept
    simp only [if_true, hself]
  | false =>
    simp only [Bool.false_eq_true, if_false]
    cases s.buffers.pixels with
    | none => exact .of_fault rfl rfl
    | some pixels =>
      simp only [Decoder.show, hscreen, Screen.showFrame, setPixelsAmid_eq hmemory hrecycled]
      generalize Screen.setPixelsAmid argb4444 around _ frame cleared pixels = shown
      cases shown.fault with
      | some e => exact .of_fault rfl rfl
      | none =>
        simp only [ok_bind, Decoder.withScreen]
        cases link shown.screen frame.delay with
        | error e => exact .of_fault rfl rfl
        | ok screen =>
          refine .of_done rfl fun _ => ?_
          have hput : ({ (s.setTable ref frame cleared).withReader r with screen := shown.screen } :
              Decoder).setTable ref frame act =
              { s.withReader r with screen := shown.screen } := by
            rw [setTable_setTable_with, hself]
          rw [restored_saved hactive, hput]
          simp only [Decoder.resetObject, Decoder.withReader, hsource]
          rfl

/-- Where there is memory and nothing is thrown, a frame that keeps its table is played as by
`playFrame`. -/
theorem play_agrees (hmemory : around.memory = true) (hrecycled : around.recycled = false)
    {s : Player} (hstatus : s.interrupted = false)
    {p : FrameEnd} (h : s.play argb4444 turns around link ref = some p) :
    p.Agrees (s.tableOf ref) (s.decoder.playFrame argb4444 turns link ref) := by
  have herr : s.err = s.decoder.reader.formatError := by rw [Player.err, hstatus, Bool.or_false]
  rw [Player.play, herr] at h
  rw [Decoder.playFrame]
  cases hobject : s.decoder.objects[ref]? with
  | none =>
    simp only [hobject, Option.some.injEq] at h
    subst h
    exact .of_fault rfl rfl
  | some frame =>
    have hheader : (s.decoder.chosen frame).header = s.decoder.header := rfl
    have hchoice : (if frame.lctFlag then frame.lct else s.decoder.header.gct) =
        frame.tableIn s.decoder.header := rfl
    rw [tableOf_of_object hobject]
    simp only [hobject, hheader] at h
    simp only [hchoice]
    cases htable : frame.tableIn s.decoder.header with
    | none =>
      simp only [htable, Option.some.injEq] at h
      subst h
      exact .of_done rfl fun _ => rfl
    | some act =>
      simp only [htable] at h
      simp only []
      split at h
      · rename_i herror
        cases h
        rw [if_pos herror]
        exact .of_done rfl fun _ => rfl
      · rename_i herror
        rw [if_neg herror]
        cases hactive : frame.activeTable act with
        | error e =>
          simp only [hactive, Option.some.injEq] at h
          subst h
          exact .of_fault rfl rfl
        | ok cleared =>
          simp only [hactive, Decoder.playData, decodeImageData_setTable] at h
          simp only [ok_bind]
          show p.Agrees (some act) ((s.decoder.chosen frame).decodeImageData turns frame >>= _)
          cases hdecode : (s.decoder.chosen frame).decodeImageData turns frame with
          | error e =>
            simp only [hdecode, Except.map] at h
            cases e <;> cases h <;> exact .of_fault rfl rfl
          | ok t =>
            obtain ⟨-, hheader, -, hobjects⟩ :=
              (decodeImageData_settles _ frame).sound turns hdecode
            simp only [hdecode, Except.map, leaveImage_setTable] at h
            cases hleave : t.leaveImage turns with
            | error e =>
              simp only [hleave] at h
              cases h
            | ok r =>
              simp only [hleave, Option.some.injEq] at h
              subst h
              simp only [ok_bind, hleave]
              apply finish_agrees hmemory hrecycled
              · rw [hobjects]
                exact hobject
              · rw [hheader]
                exact htable
              · exact hactive
              · exact leaveImage_source hleave

end

end BaseGifDecoder
