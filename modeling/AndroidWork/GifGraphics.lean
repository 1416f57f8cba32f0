import AndroidWork.GifPainting

/-!
# The frames that a stream publishes

A file as images with the graphic control extensions in front of them, and the
canvases that its images are painted on. In a run over a file every bitmap is
such a canvas.
-/
namespace GifFile

open BaseGifDecoder
open Compositing (Canvas Rect Layer Disposal Cel)
open GifLzwDecoder (Byte Reader Source)

/-- An image with the graphic control extension in front of it. -/
structure Graphic where
  control : Option Control
  image : Image

def graphics : Option Control → List Block → List Graphic
  | _, [] => []
  | _, .control c :: blocks => graphics (some c) blocks
  | control, .image i :: blocks => ⟨control, i⟩ :: graphics none blocks
  | control, .extension _ :: blocks => graphics control blocks

def File.graphics (f : File) : List Graphic := GifFile.graphics none f.blocks

def Control.disposal (c : Control) : Disposal :=
  match ((c.packed >>> 2) &&& 7).toNat with
  | 2 => .background
  | 3 => .previous
  | _ => .keep

def Graphic.disposal (g : Graphic) : Disposal := (g.control.map Control.disposal).getD .keep

/-- The index that is not painted. -/
def Graphic.transIndex (g : Graphic) : Option Byte :=
  g.control.bind fun c => if c.packed &&& 1 ≠ 0 then some c.transIndex else none

def Image.interlaced (i : Image) : Prop := i.packed &&& 0x40 ≠ 0

instance (i : Image) : Decidable i.interlaced := inferInstanceAs (Decidable (_ ≠ _))

/-- The bytes of the active colour table, and the number of its colours. -/
def File.colours (f : File) (g : Graphic) : List Byte × Nat :=
  if hasTable g.image.packed then (g.image.lct, tableSize g.image.packed)
    else (f.gct, tableSize f.packed)

/-- The colour that an index is painted with, if it is. -/
def File.colour (f : File) (g : Graphic) (v : Byte) : Option Color :=
  if g.transIndex = some v ∨ (f.colours g).2 ≤ v.toNat then none
  else some (colorAt (f.colours g).1 (f.colours g).2 v.toNat)

def File.cel (f : File) (g : Graphic) : Cel Color where
  rect := ⟨g.image.left.toNat, g.image.top.toNat, g.image.width.toNat, g.image.height.toNat⟩
  pixel x y :=
    ((lines g.image.interlaced g.image.height.toNat).idxOf? (y - g.image.top.toNat).toNat).bind
      fun i =>
    f.colour g (g.image.pixels.getD (i * g.image.width.toNat + (x - g.image.left.toNat)).toNat 0)
  disposal := g.disposal

/-- Behind the last image there is nothing. -/
def nothing : Cel Color := ⟨⟨⟨0, 0, 0, 0⟩, fun _ _ => none⟩, .keep⟩

def File.cels (f : File) (k : Nat) : Cel Color := (f.graphics[k]?.map f.cel).getD nothing

/-- The image takes the background colour away: it is transparent here. -/
def File.dropsBackground (f : File) (g : Graphic) : Bool :=
  !decide (hasTable g.image.packed) && decide (g.control.map Control.transIndex = some f.bgIndex)

/-- The background colour behind the first `k` images. -/
def File.background (f : File) (k : Nat) : Color :=
  if (f.graphics.take k).any f.dropsBackground then 0 else (f.screen .stream).bgColor

/-- What the rectangle of image `k` is filled with when the next one comes. -/
def File.restored (f : File) (k : Nat) : Color :=
  if (f.graphics[k + 1]?.bind Graphic.transIndex).isSome then 0 else f.background (k + 1)

/-- The canvas that image `k` is painted on: of one that is to be taken back,
what was shown before it stays. -/
def File.under (f : File) : Nat → Canvas Color
  | 0 => fun _ _ => 0
  | k + 1 =>
    match (f.cels k).disposal with
    | .keep => (f.cels k).over (f.under k)
    | .background => Compositing.fill (f.cels k).rect (f.restored k) ((f.cels k).over (f.under k))
    | .previous =>
      match k with
      | 0 => fun _ _ => 0
      | j + 1 => (f.cels j).over (f.under j)

/-- The canvas with image `k` painted. -/
def File.shown (f : File) (k : Nat) : Canvas Color := (f.cels k).over (f.under k)

theorem File.under_keep {f : File} {k : Nat} (h : (f.cels k).disposal = .keep) :
    f.under (k + 1) = f.shown k := by
  rw [File.under.eq_def]
  simp only [h, File.shown]

theorem File.under_background {f : File} {k : Nat} (h : (f.cels k).disposal = .background) :
    f.under (k + 1) = Compositing.fill (f.cels k).rect (f.restored k) (f.shown k) := by
  rw [File.under.eq_def]
  simp only [h, File.shown]

theorem File.under_previous_first {f : File} (h : (f.cels 0).disposal = .previous) :
    f.under 1 = fun _ _ => 0 := by
  rw [File.under, h]

theorem File.under_previous {f : File} {k : Nat} (h : (f.cels (k + 1)).disposal = .previous) :
    f.under (k + 2) = f.shown k := by
  rw [File.under, h, File.shown]

/-- These are the canvases of a compositor that clears rectangles and goes back
to the canvas before an image, where no background colour comes in and no image
is taken back behind one that is disposed of as well. -/
theorem File.under_eq {f : File} (hclear : ∀ k, (f.cels k).disposal =
    .background → f.restored k = 0)
    (hback : ∀ k, (f.cels (k + 1)).disposal = .previous → (f.cels k).disposal = .keep) (k : Nat) :
    f.under k = Compositing.under 0 f.cels k ∧ f.shown k = Compositing.shown 0 f.cels k := by
  induction k with
  | zero => exact ⟨rfl, rfl⟩
  | succ k ih =>
    have hunder : f.under (k + 1) = Compositing.under 0 f.cels (k + 1) := by
      rw [Compositing.under_succ, Cel.dispose]
      cases h : (f.cels k).disposal with
      | keep => rw [File.under_keep h, ih.2]
      | background => rw [File.under_background h, hclear k h, ih.2]
      | previous =>
        cases k with
        | zero => exact File.under_previous_first h
        | succ k =>
          rw [File.under_previous h, ← ih.1, File.under_keep (hback k h)]
    exact ⟨hunder, congrArg (f.cels (k + 1)).over hunder⟩

/-- The frame data that an image with this control extension is described in. -/
def Carries (control : Option Control) (frame : GifFrameData) : Prop :=
  match control with
  | some c => frame = c.frame .stream
  | none => frame.dispose = 0 ∧ frame.transparency = false

def Reads (g : Graphic) (p : GifFrameData × Image) : Prop :=
  ∃ frame, Carries g.control frame ∧ p = (g.image.describe .stream frame, g.image)

theorem streamFrames_reads {blocks : List Block} {control : Option Control}
    {current : Option GifFrameData}
    (h : Carries control (current.getD newFrameData)) :
    List.Forall₂ Reads (GifFile.graphics control blocks) (streamFrames current blocks) := by
  induction blocks generalizing control current with
  | nil => exact .nil
  | cons block blocks ih =>
    cases block with
    | control c =>
      have hnext : Carries (some c) ((some (c.frame .stream)).getD newFrameData) := rfl
      exact ih hnext
    | image i =>
      have hnext (frame : GifFrameData) : Carries none ((some frame.reset).getD newFrameData) :=
        ⟨rfl, rfl⟩
      exact .cons ⟨_, h, rfl⟩ (ih (hnext _))
    | extension e => exact ih h

theorem image_mem_iff {blocks : List Block} (control : Option Control) {i : Image} :
    .image i ∈ blocks ↔ ∃ g ∈ GifFile.graphics control blocks, g.image = i := by
  induction blocks generalizing control with
  | nil => simp [GifFile.graphics]
  | cons block blocks ih =>
    cases block with
    | control c => simpa [GifFile.graphics] using ih (some c)
    | image j => simp [GifFile.graphics, ih none, eq_comm]
    | extension e => simpa [GifFile.graphics] using ih control

/-- The disposal of a control extension with this packed byte, as the frame data have it. -/
def disposeOf (packed : Byte) : Int := (newFrameData.controlled packed.toNat 0 0).dispose

theorem disposeOf_eq : ∀ packed : Byte, 0 < disposeOf packed ∧
    (disposeOf packed = 2 ↔ Control.disposal ⟨packed, 0, 0⟩ = .background) ∧
    (disposeOf packed = 3 ↔ Control.disposal ⟨packed, 0, 0⟩ = .previous) ∧
    (field packed.toNat 1 ≠ 0 ↔ packed &&& 1 ≠ 0) := by
  decide +kernel

theorem dispose_eq (c : Control) : 0 < (c.frame .stream).dispose ∧
    ((c.frame .stream).dispose = 2 ↔ c.disposal = .background) ∧
    ((c.frame .stream).dispose = 3 ↔ c.disposal = .previous) := by
  obtain ⟨hpos, hbackground, hprevious, -⟩ := disposeOf_eq c.packed
  exact ⟨hpos, hbackground, hprevious⟩

theorem Carries.transparency {g : Graphic} {frame : GifFrameData} (h : Carries g.control frame) :
    frame.transparency = g.transIndex.isSome ∧ ∀ v, g.transIndex = some v →
    frame.transIndex = v.toNat := by
  obtain ⟨control, image⟩ := g
  cases control with
  | none => exact ⟨h.2, nofun⟩
  | some c =>
    obtain rfl : frame = c.frame .stream := h
    have htransparency : (c.frame .stream).transparency = decide (c.packed &&& 1 ≠ 0) :=
      decide_eq_decide.mpr (disposeOf_eq c.packed).2.2.2
    simp only [Graphic.transIndex, Option.bind_some, htransparency]
    by_cases ht : c.packed &&& 1 ≠ 0
    · rw [if_pos ht, decide_eq_true ht]
      refine ⟨rfl, ?_⟩
      rintro v ⟨⟩
      rfl
    · rw [if_neg ht, decide_eq_false ht]
      exact ⟨rfl, nofun⟩

theorem colorAt_eq_zero (c : List Byte) (n i : Nat) : colorAt c n i = 0 ↔ n ≤ i := by
  have hnonzero (r g b : Color) : 0xff000000 ||| r ||| g ||| b ≠ 0 := by
    intro h
    have hbit := congrArg (BitVec.getLsbD · 31) h
    simp at hbit
  rw [colorAt]
  by_cases hi : i < n
  · rw [if_pos (by omega)]
    exact iff_of_false (hnonzero _ _ _) (by omega)
  · rw [if_neg (by omega)]
    exact iff_of_true rfl (by omega)

section

variable {f : File} {g : Graphic} {frame : GifFrameData}

theorem File.colours_eq (hcoloured : hasTable g.image.packed ∨ hasTable f.packed) :
    (if (g.image.describe .stream frame).lctFlag then
      (g.image.describe .stream frame).lct else f.globalTable) =
      some (colorAt (f.colours g).1 (f.colours g).2) := by
  rw [File.colours, Image.describe]
  by_cases hlocal : hasTable g.image.packed
  · simp [hlocal]
  · simp [hlocal, File.globalTable, hcoloured.resolve_left hlocal]

/-- With the transparent colour taken out, 0 stands for what is not painted. -/
theorem activeTable_colour (f : File) (h : Carries g.control frame) :
    ∃ act, (g.image.describe .stream frame).activeTable
      (colorAt (f.colours g).1 (f.colours g).2) = .ok act ∧
      ∀ v : Byte, (if act v.toNat = 0 then none else some (act v.toNat)) = f.colour g v := by
  obtain ⟨htransparency, hindex⟩ := h.transparency
  show ∃ act, (if frame.transparency then _ else _) = _ ∧ _
  rw [htransparency]
  cases ht : g.transIndex with
  | none =>
    refine ⟨_, rfl, fun v => ?_⟩
    simp only [File.colour, ht, colorAt_eq_zero, reduceCtorEq, false_or]
  | some t =>
    have hframe : (g.image.describe .stream frame).transIndex = t.toNat := hindex t ht
    have hlt := t.isLt
    rw [hframe, Option.isSome_some, if_pos rfl, if_pos (by omega)]
    refine ⟨_, rfl, fun v => ?_⟩
    rw [File.colour, ht]
    by_cases hv : v = t
    · simp [hv]
    · have hne : (v.toNat : Int) ≠ t.toNat := by
        rw [← BitVec.toNat_inj] at hv
        exact_mod_cast hv
      have hne' : some t ≠ some v := by
        rintro ⟨⟩
        exact hv rfl
      rw [Function.update_of_ne hne]
      simp only [hne', false_or, colorAt_eq_zero]

/-- The layer that the decoder paints is that of the image. -/
theorem frameLayer_cel {act : Table}
    (hact : ∀ v : Byte, (if act v.toNat = 0 then none else some (act v.toNat)) = f.colour g v) :
    frameLayer (g.image.describe .stream frame) act g.image.shown.2 = (f.cel g).toLayer := by
  rw [frameLayer, File.cel]
  simp only [hact]
  rfl

end

/-- The canvas and the image data have arrays. An interlaced image has a line for
every pass, or a single one. One that another image follows has a control
extension, and if its rectangle is to be cleared, no pixel outside the canvas. -/
structure File.Composable (f : File) : Prop where
  width : 0 < f.width.toNat
  height : 0 < f.height.toNat
  size : f.width.toNat * f.height.toNat + 2 ^ 17 ≤ 2 ^ 31
  fits : ∀ g ∈ f.graphics, g.image.Fits
  passes : ∀ g ∈ f.graphics, g.image.interlaced → g.image.height.toNat ≤ 1 ∨
    5 ≤ g.image.height.toNat
  controlled : ∀ k g, f.graphics[k]? = some g → k + 1 < f.graphics.length → g.control ≠ none
  inside : ∀ k g, f.graphics[k]? = some g → k + 1 < f.graphics.length → g.disposal = .background →
    0 < g.image.width.toNat → 0 < g.image.height.toNat →
      g.image.left.toNat + g.image.width.toNat ≤ f.width.toNat ∧
      g.image.top.toNat + g.image.height.toNat ≤ f.height.toNat

/-- What an image leaves to the next one. -/
structure Left (s : Screen) (j : Nat) (g : Graphic) : Prop where
  image : s.lastImage = s.getFrameImage j
  place : s.lrx = g.image.left.toNat ∧ s.lry = g.image.top.toNat ∧ s.lrw = g.image.width.toNat ∧
    s.lrh = g.image.height.toNat
  background : s.lastBgColor = s.bgColor
  dispose : ∀ c, g.control = some c → s.lastDispose = (c.frame .stream).dispose

/-- The screen once `k` images are painted. -/
structure Painted (argb4444 : Color → Color) (f : File) (k : Nat) (s : Screen) : Prop where
  width : s.width = f.width.toNat
  height : s.height = f.height.toNat
  frameCount : s.frameCount = k
  length : s.frames.length = k
  pictures : ∀ j < k, ∃ b, s.getFrameImage j = some b ∧
    Pictures argb4444 f.width.toNat f.height.toNat (f.shown j) b
  background : k < f.graphics.length → s.bgColor = f.background k
  first : k = 0 → s.lastDispose = 0
  last : ∀ j g, k = j + 1 → f.graphics[j]? = some g → Left s j g

section

variable {argb4444 : Color → Color} {f : File} {g : Graphic} {frame : GifFrameData}
    {s : Screen} {k : Nat}

theorem File.Composable.room (h : f.Composable) (hg : g ∈ f.graphics)
    (hwidth : s.width = f.width.toNat)
    (hheight : s.height = f.height.toNat) :
    Room s (g.image.describe .stream frame) g.image.shown := by
  have hw := h.width
  have hh := h.height
  have hleft := g.image.left.isLt
  have hiw := g.image.width.isLt
  refine ⟨by omega, by omega, ?_, ⟨Int.natCast_nonneg _,
    ?_⟩, Int.natCast_nonneg _, ⟨Int.natCast_nonneg _, ?_⟩,
    Int.natCast_nonneg _, ?_, ?_⟩
  · rw [hwidth, hheight]
    exact_mod_cast h.size
  · show (g.image.left.toNat : Int) < 2 ^ 16
    omega
  · show (g.image.width.toNat : Int) < 2 ^ 16
    omega
  · show (g.image.width.toNat : Int) * g.image.height.toNat < 2 ^ 31
    exact_mod_cast h.fits g hg
  · show (g.image.width.toNat : Int) * g.image.height.toNat ≤ g.image.pixels.length
    exact_mod_cast g.image.complete.ge

theorem painted_zero : Painted argb4444 f 0 (f.screen .stream) := by
  refine ⟨rfl, rfl, rfl, rfl, nofun, fun _ => ?_, fun _ => rfl, nofun⟩
  rw [File.background, List.take_zero]
  rfl

theorem File.cels_eq (h : f.graphics[k]? = some g) : f.cels k = f.cel g := by
  rw [File.cels, h]
  rfl

/-- The rectangle that is to be cleared has no pixel outside the canvas. -/
theorem Left.inside (hfile : f.Composable) (h : Left s k g) (hg : f.graphics[k]? = some g)
    (hk : k + 1 < f.graphics.length)
    (hdisposal : g.disposal = .background) (hwidth : s.width = f.width.toNat)
    (hheight : s.height = f.height.toNat) :
    (0 ≤ s.lrx ∧ 0 ≤ s.lry ∧ 0 ≤ s.lrw ∧ 0 ≤ s.lrh) ∧
      (0 < s.lrw → 0 < s.lrh → s.lrx + s.lrw ≤ s.width ∧ s.lry + s.lrh ≤ s.height) := by
  obtain ⟨hlrx, hlry, hlrw, hlrh⟩ := h.place
  refine ⟨by omega, fun hw hh => ?_⟩
  have := hfile.inside k g hg hk hdisposal (by omega) (by omega)
  omega

/-- The colour that the next image clears with. -/
theorem Painted.restored (h : Painted argb4444 f (k + 1) s) {p : Graphic} (hleft : Left s k p)
    (hg : f.graphics[k + 1]? = some g) (hframe : Carries g.control frame) :
    (if (g.image.describe .stream frame).transparency then 0 else s.lastBgColor) =
      f.restored k := by
  have hk : k + 1 < f.graphics.length := (List.getElem?_eq_some_iff.mp hg).1
  rw [File.restored, hg, hleft.background, h.background hk, Option.bind_some,
    ← hframe.transparency.1]
  rfl

/-- An image starts from the canvas that it is to be painted on. -/
theorem Painted.start (hkept : ∀ c, argb4444 (argb4444 c) = argb4444 c) (hfile : f.Composable)
    (h : Painted argb4444 f k s)
    (hg : f.graphics[k]? = some g) (hframe : Carries g.control frame) (c : Color) :
    ∃ dest start, ({ s with bgColor := c, frameCount := s.frameCount + 1 } :
    Screen).recall.startingContents
        (g.image.describe .stream frame) (s.width * s.height) = .ok dest ∧
      Depicts s dest start ∧ Alike argb4444 start (f.under k) := by
  have hk : k < f.graphics.length := (List.getElem?_eq_some_iff.mp hg).1
  cases k with
  | zero =>
    exact ⟨_, _, startingContents_none (h.first rfl), fun _ _ _ _ _ _ => rfl, fun _ _ => rfl⟩
  | succ j =>
    obtain ⟨p, hp⟩ : ∃ p, f.graphics[j]? = some p := ⟨_, List.getElem?_eq_getElem (by omega)⟩
    have hleft := h.last j p rfl hp
    obtain ⟨control, hcontrol⟩ := Option.ne_none_iff_exists'.mp (hfile.controlled j p hp hk)
    have hdisposal : p.disposal = control.disposal := by
      rw [Graphic.disposal, hcontrol]
      rfl
    have hcel : (f.cels j).disposal = control.disposal := by
      rw [File.cels_eq hp]
      exact hdisposal
    obtain ⟨hpos, hbackground, hprevious⟩ := dispose_eq control
    rw [← hleft.dispose control hcontrol] at hpos hbackground hprevious
    have hpictured (i : Nat) (hi : i < j + 1) :
        ∃ b start, s.getFrameImage i = some b ∧ Depicts s b.pixels start ∧
        Alike argb4444 start (f.shown i) := by
      obtain ⟨b, hb, hpicture⟩ := h.pictures i hi
      rw [← h.width, ← h.height] at hpicture
      obtain ⟨start, hdepicts, halike⟩ := hpicture.depicts hkept
      exact ⟨b, start, hb, hdepicts, halike⟩
    obtain ⟨b, start, hb, hdepicts, halike⟩ := hpictured j (Nat.lt_succ_self j)
    have hlast : s.lastImage = some b := hleft.image.trans hb
    cases hd : control.disposal with
    | keep =>
      rw [hd] at hcel hbackground hprevious
      refine ⟨_, start, startingContents_keep hpos (by simpa using hbackground)
        (by simpa using hprevious) hlast, hdepicts, ?_⟩
      rwa [File.under_keep hcel]
    | background =>
      rw [hd] at hcel hbackground
      obtain ⟨hplace, hinside⟩ := hleft.inside hfile hp hk (hdisposal.trans hd) h.width h.height
      have hroom : Room s (g.image.describe .stream frame) g.image.shown :=
        hfile.room (List.mem_of_getElem? hg) h.width h.height
      have hsize : s.width * s.height < 2 ^ 31 := by
        have := hroom.size
        omega
      obtain ⟨dest, hdest, hcleared⟩ :=
        cleared_depicts (s := { s with bgColor := c, frameCount := s.frameCount + 1 })
        hplace hinside hroom.width hsize (f.restored j) hdepicts
      refine ⟨dest, _, ?_, hcleared, ?_⟩
      · refine Eq.trans (startingContents_background (hbackground.mpr rfl) hlast) ?_
        rw [← h.restored hleft hg hframe] at hdest
        exact hdest
      · obtain ⟨hlrx, hlry, hlrw, hlrh⟩ := hleft.place
        rw [File.under_background hcel, File.cels_eq hp, hlrx, hlry, hlrw, hlrh]
        exact halike.fill _ _
    | previous =>
      rw [hd] at hcel hprevious
      have hcount : s.frameCount = j + 1 := h.frameCount
      cases j with
      | zero =>
        have hbefore : Screen.beforeLast { s with bgColor := c, frameCount := s.frameCount + 1 } =
            none := by
          rw [Screen.beforeLast]
          simp only [hcount]
          rfl
        refine ⟨_, fun _ _ => 0, startingContents_previous_none (hprevious.mpr rfl) hbefore,
          fun _ _ _ _ _ _ => rfl, ?_⟩
        rw [File.under_previous_first hcel]
        exact fun _ _ => rfl
      | succ i =>
        obtain ⟨b, start, hb, hdepicts, halike⟩ := hpictured i (by omega)
        have hbefore : Screen.beforeLast { s with bgColor := c, frameCount := s.frameCount + 1 } =
            some b := by
          have hplace : ((i + 1 + 1 + 1 : Nat) : Int) - 2 - 1 = i := by omega
          rw [Screen.beforeLast]
          simp only [hcount, hplace]
          rw [if_pos (by omega)]
          exact hb
        rw [File.under_previous hcel]
        exact ⟨_, start, startingContents_previous (hprevious.mpr rfl) hbefore, hdepicts, halike⟩

/-- The background colour is dropped for good. -/
theorem Painted.chooseBackground (hfile : f.Composable) (h : Painted argb4444 f k s)
    (hg : f.graphics[k]? = some g)
    (hframe : Carries g.control frame) :
    ∃ c, s.chooseBackground (g.image.describe .stream frame) f.bgIndex.toNat =
      { s with bgColor := c } ∧
      (k + 1 < f.graphics.length → c = f.background (k + 1)) := by
  have hk : k < f.graphics.length := (List.getElem?_eq_some_iff.mp hg).1
  have hbefore := h.background hk
  have htake : (f.graphics.take (k + 1)).any f.dropsBackground =
      ((f.graphics.take k).any f.dropsBackground || f.dropsBackground g) := by
    rw [List.take_add_one, hg, List.any_append]
    simp
  -- the next image waits for one with a control extension
  have hdrop (hnext : k + 1 < f.graphics.length) : f.dropsBackground g = true ↔
      (g.image.describe .stream frame).lctFlag = false ∧ (f.bgIndex.toNat : Int) =
        frame.transIndex := by
    obtain ⟨control, hcontrol⟩ := Option.ne_none_iff_exists'.mp (hfile.controlled k g hg hnext)
    rw [hcontrol] at hframe
    obtain rfl : frame = control.frame .stream := hframe
    have hindex : control.transIndex = f.bgIndex ↔
        (f.bgIndex.toNat : Int) = (control.frame .stream).transIndex := by
      rw [eq_comm, ← BitVec.toNat_inj]
      exact Nat.cast_inj.symm
    rw [File.dropsBackground, hcontrol, Option.map_some, ← hindex]
    simp [Image.describe]
  rw [Screen.chooseBackground]
  split
  · rename_i h
    refine ⟨0, rfl, fun hnext => ?_⟩
    rw [File.background, htake, (hdrop hnext).mpr h, Bool.or_true, if_pos rfl]
  · rename_i h
    refine ⟨s.bgColor, rfl, fun hnext => ?_⟩
    have hkeep : f.dropsBackground g = false := by
      rw [← Bool.not_eq_true, hdrop hnext]
      exact h
    rw [File.background, htake, hkeep, Bool.or_false, hbefore, File.background]

/-- The screen behind an image that is published as this bitmap. -/
def published (s : Screen) (c : Color) (last : Option Bitmap) (b : Bitmap) (index : Nat)
    (frame : GifFrameData) : Screen :=
  (Screen.append
    { s with bgColor := c, frameCount := s.frameCount + 1, lastImage := last, image := some b }
    frame.delay
    index).resetFrame frame

theorem getFrameImage_published {c : Color} {last : Option Bitmap} {b : Bitmap}
    {index : Nat} (n : Nat) :
    (published s c last b index frame).getFrameImage n =
      if n < s.frames.length then s.getFrameImage n else if n = s.frames.length then
        some b else none := by
  have hn : ¬ ((n : Int) < 0) := by omega
  simp only [Screen.getFrameImage, published, Screen.append, Screen.resetFrame, hn, if_false,
    Int.toNat_natCast]
  split
  · rename_i hlt
    rw [List.getElem?_append_left hlt]
  · rename_i hlt
    rw [List.getElem?_append_right (Nat.le_of_not_lt hlt)]
    split
    · rename_i heq
      rw [heq, Nat.sub_self]
      rfl
    · rw [List.getElem?_eq_none]
      · rfl
      · simp only [List.length_singleton]
        omega

theorem Painted.next (h : Painted argb4444 f k s) (hg : f.graphics[k]? = some g)
    (hframe : Carries g.control frame) {c : Color}
    (hbackground : k + 1 < f.graphics.length → c = f.background (k + 1)) {b : Bitmap}
    (hpicture : Pictures argb4444 f.width.toNat f.height.toNat (f.shown k) b)
    (last : Option Bitmap) (index : Nat) :
    Painted argb4444 f (k + 1) (published s c last b index (g.image.describe .stream frame)) := by
  have hlength := h.length
  refine ⟨h.width, h.height, congrArg (· + 1) h.frameCount, ?_, ?_, hbackground, nofun, ?_⟩
  · exact List.length_append.trans (congrArg (· + 1) hlength)
  · intro j hj
    rw [getFrameImage_published, hlength]
    by_cases hjk : j < k
    · rw [if_pos hjk]
      exact h.pictures j hjk
    · obtain rfl : j = k := by omega
      rw [if_neg hjk, if_pos rfl]
      exact ⟨b, rfl, hpicture⟩
  · rintro j p hj hp
    obtain rfl : k = j := Nat.succ.inj hj
    obtain rfl : g = p := Option.some.inj (hg.symm.trans hp)
    refine ⟨?_, ⟨rfl, rfl, rfl, rfl⟩, rfl, fun control hcontrol => ?_⟩
    · rw [getFrameImage_published, hlength, if_neg (lt_irrefl _), if_pos rfl]
      rfl
    · rw [hcontrol] at hframe
      obtain rfl : frame = control.frame .stream := hframe
      rfl

/-- An image is published as the canvas with it painted. -/
theorem Painted.play (hkept : ∀ c, argb4444 (argb4444 c) = argb4444 c) (hfile : f.Composable)
    (h : Painted argb4444 f k s)
    (hg : f.graphics[k]? = some g) (hframe : Carries g.control frame) :
    ∃ s', f.play argb4444 s (g.image.describe .stream frame) g.image = .ok s' ∧
      Painted argb4444 f (k + 1) s' := by
  have hmem : g ∈ f.graphics := List.mem_of_getElem? hg
  have hcoloured := f.coloured g.image ((image_mem_iff none).mpr ⟨g, hmem, rfl⟩)
  obtain ⟨act, hactive, hact⟩ := activeTable_colour f hframe
  obtain ⟨c, hchoose, hbackground⟩ := h.chooseBackground hfile hg hframe
  obtain ⟨dest, start, hstart, hdepicts, halike⟩ := h.start hkept hfile hg hframe c
  have hroom : Room { s with bgColor := c, frameCount := s.frameCount + 1 }
      (g.image.describe .stream frame) g.image.shown :=
    hfile.room hmem h.width h.height
  have hpasses : (g.image.describe .stream frame).interlace = true →
      (g.image.describe .stream frame).ih ≤ 1 ∨ 5 ≤ (g.image.describe .stream frame).ih := by
    intro hinterlace
    have := hfile.passes g hmem (of_decide_eq_true hinterlace)
    show (g.image.height.toNat : Int) ≤ 1 ∨ 5 ≤ (g.image.height.toNat : Int)
    omega
  obtain ⟨b, hset, hpicture⟩ := setPixels_depicts act hroom hpasses hstart hdepicts halike
  obtain ⟨last, hrecall⟩ := recall_eq { s with bgColor := c, frameCount := s.frameCount + 1 }
  rw [hrecall] at hset
  obtain ⟨index, hlink⟩ := link_eq
    { s with bgColor := c, frameCount := s.frameCount + 1, lastImage := last, image := some b }
    (g.image.describe .stream frame).delay
  refine ⟨published s c last b index (g.image.describe .stream frame),
    ?_, h.next hg hframe hbackground ?_ last index⟩
  · rw [File.play, playImage, File.colours_eq hcoloured]
    simp only [hactive, ok_bind, hchoose, Screen.showFrame, hset, hlink]
    rfl
  · rw [frameLayer_cel hact, ← File.cels_eq hg] at hpicture
    rw [← h.width, ← h.height]
    exact hpicture

/-- The images that are left are published one after the other. -/
theorem Painted.playAll (hkept : ∀ c, argb4444 (argb4444 c) = argb4444 c) (hfile : f.Composable)
    {rest : List Graphic}
    {images : List (GifFrameData × Image)} (h : Painted argb4444 f k s) (hk : k ≤ f.graphics.length)
    (hrest : f.graphics.drop k = rest) (hreads : List.Forall₂ Reads rest images) :
    ∃ s', GifFile.playAll (f.play argb4444) s images = (s', none) ∧
      Painted argb4444 f f.graphics.length s' := by
  induction hreads generalizing s k with
  | nil =>
    obtain rfl : k = f.graphics.length := le_antisymm hk (List.drop_eq_nil_iff.mp hrest)
    exact ⟨s, rfl, h⟩
  | @cons g p rest images hread _ ih =>
    obtain ⟨frame, hframe, rfl⟩ := hread
    have hg : f.graphics[k]? = some g := by
      rw [← List.head?_drop, hrest]
      rfl
    obtain ⟨s', hplay, hpainted⟩ := h.play hkept hfile hg hframe
    have hdrop : f.graphics.drop (k + 1) = rest := by
      rw [← List.tail_drop, hrest]
      rfl
    rw [GifFile.playAll, hplay]
    exact ih hpainted (List.getElem?_eq_some_iff.mp hg).1 hdrop

/-- Every bitmap in the list of frames is the canvas of its image. -/
def Published (argb4444 : Color → Color) (f : File) (canvas : Nat → Canvas Color)
    (s : Screen) : Prop :=
  ∀ (j : Nat) b, s.getFrameImage j = some b →
    Pictures argb4444 f.width.toNat f.height.toNat (canvas j) b

theorem Painted.published (h : Painted argb4444 f k s) : Published argb4444 f f.shown s := by
  intro j b hb
  have hj : j < k := by
    by_contra hge
    have hlength := h.length
    have hnone : s.getFrameImage j = none := by
      rw [Screen.getFrameImage, if_neg (by omega), Int.toNat_natCast,
        List.getElem?_eq_none (by omega)]
      rfl
    rw [hnone] at hb
    cases hb
  obtain ⟨b', hb', hpicture⟩ := h.pictures j hj
  obtain rfl : b = b' := Option.some.inj (hb.symm.trans hb')
  exact hpicture

/-- A stream ends with every image painted. -/
theorem readStream_painted (hkept : ∀ c, argb4444 (argb4444 c) = argb4444 c)
    (hfile : f.Composable) :
    ∃ n s, Painted argb4444 f f.graphics.length s ∧
      ∀ turns ≥ n, Ended.outcome (readStream argb4444 turns f.bytes) = (s, none) := by
  have hplayable : Playable f f.blocks := by
    intro i hi
    obtain ⟨g, hg, rfl⟩ := (image_mem_iff none).mp hi
    exact ⟨hfile.fits g hg, f.coloured g.image hi⟩
  have hreads : List.Forall₂ Reads f.graphics (streamFrames none f.blocks) :=
    streamFrames_reads ⟨rfl, rfl⟩
  have hstart : Painted argb4444 f 0 (f.screen .stream) := painted_zero
  obtain ⟨s, hplay, hpainted⟩ := hstart.playAll hkept hfile (Nat.zero_le _) rfl hreads
  obtain ⟨n, hn⟩ := readStream_at argb4444 f hplayable
  exact ⟨n, s, hpainted, fun turns hturns => (hn turns hturns).trans hplay⟩

/-- Canvases that differ somewhere are not published. -/
theorem not_published_of_ne (hkept : ∀ c, argb4444 (argb4444 c) = argb4444 c) (hfile : f.Composable)
    {canvas : Nat → Canvas Color} {j : Nat} (hj : j < f.graphics.length) {x y : Nat}
    (hx : x < f.width.toNat)
    (hy : y < f.height.toNat) (hne : argb4444 (f.shown j x y) ≠ argb4444 (canvas j x y)) :
    ¬ ∃ n, ∀ turns ≥ n, Published argb4444 f canvas
      (readStream argb4444 turns f.bytes).decoder.screen := by
  rintro ⟨n, hn⟩
  obtain ⟨m, s, hpainted, hend⟩ := readStream_painted hkept hfile
  have hscreen : (readStream argb4444 (max n m) f.bytes).decoder.screen = s :=
    congrArg Prod.fst (hend (max n m) (le_max_right _ _))
  have hpublished := hn (max n m) (le_max_left _ _)
  rw [hscreen] at hpublished
  obtain ⟨b, hb, hpicture⟩ := hpainted.pictures j hj
  apply hne
  calc argb4444 (f.shown j x y) = b.pixels (y * f.width.toNat + x) :=
        (hpicture.pixels x y (by omega) (by omega) (by omega) (by omega)).symm
    _ = argb4444 (canvas j x y) := (hpublished j b hb).pixels x y (by omega) (by omega)
      (by omega) (by omega)

/-- A stream publishes every image as the canvas with it painted. -/
theorem readStream_published (argb4444 : Color → Color)
    (hkept : ∀ c, argb4444 (argb4444 c) = argb4444 c) (f : File)
    (hfile : f.Composable) :
    ∃ n, ∀ turns ≥ n, (readStream argb4444 turns f.bytes).fault = none ∧
      (readStream argb4444 turns f.bytes).decoder.screen.frames.length = f.graphics.length ∧
      (∀ j < f.graphics.length,
        ((readStream argb4444 turns f.bytes).decoder.screen.getFrameImage j).isSome) ∧
      Published argb4444 f f.shown (readStream argb4444 turns f.bytes).decoder.screen := by
  obtain ⟨n, s, hpainted, hend⟩ := readStream_painted hkept hfile
  refine ⟨n, fun turns hturns => ?_⟩
  have hscreen : (readStream argb4444 turns f.bytes).decoder.screen = s :=
    congrArg Prod.fst (hend turns hturns)
  rw [hscreen]
  refine ⟨congrArg Prod.snd (hend turns hturns), hpainted.length, fun j hj => ?_,
    hpainted.published⟩
  obtain ⟨b, hb, -⟩ := hpainted.pictures j hj
  rw [hb]
  rfl

end

/-- Two pixels side by side on a white background. -/
def strip (blocks : List Block) : File := { dots blocks with width := 2, bgIndex := 1 }

def dotAt (left : BitVec 16) : Image := { dot with left := left }

/-- A control extension of which only the packed byte matters. -/
def disposing (packed : Byte) : Control := ⟨packed, 0, 0⟩

theorem composable_strip {blocks : List Block}
    (h : ∀ g ∈ (strip blocks).graphics, g.control ≠ none ∧
      (g.image = dotAt 0 ∨ g.image = dotAt 1)) :
    (strip blocks).Composable := by
  refine ⟨(by decide : 0 < 2), (by decide : 0 < 1), (by decide : 2 * 1 + 2 ^ 17 ≤ 2 ^ 31),
    fun g hg => ?_, fun g hg => ?_,
    fun k g hg _ => (h g (List.mem_of_getElem? hg)).1, fun k g hg _ _ _ _ => ?_⟩
  · rcases (h g hg).2 with h | h
    all_goals
      rw [h]
      exact (by decide : 1 * 1 < 2 ^ 31)
  · rcases (h g hg).2 with h | h
    all_goals
      rw [h]
      decide
  · rcases (h g (List.mem_of_getElem? hg)).2 with h | h
    all_goals
      rw [h]
      simp [strip, dots, dotAt, dot]

/-- The left pixel is cleared, the right one is taken back and painted again. -/
def disposed : File :=
  strip [.control (disposing 8), .image (dotAt 0), .control (disposing 12), .image (dotAt 1),
  .control (disposing 0), .image (dotAt 1)]

theorem readStream_published_disposed :
    ∃ n, ∀ turns ≥ n, (readStream id turns disposed.bytes).fault = none ∧
    (readStream id turns disposed.bytes).decoder.screen.frames.length = disposed.graphics.length ∧
    (∀ j < disposed.graphics.length,
      ((readStream id turns disposed.bytes).decoder.screen.getFrameImage j).isSome) ∧
    Published id disposed disposed.shown (readStream id turns disposed.bytes).decoder.screen := by
  refine readStream_published id (fun _ => rfl) disposed (composable_strip ?_)
  simp [strip, dots, File.graphics, graphics]

/-- The left pixel is cleared. -/
def cleared : File :=
  strip [.control (disposing 8), .image (dotAt 0), .control (disposing 0), .image (dotAt 1)]

/-- Both pixels are taken back. -/
def takenBack : File :=
  strip [.control (disposing 12), .image (dotAt 0), .control (disposing 12), .image (dotAt 1),
  .control (disposing 0), .image (dotAt 1)]

/-- The cleared pixel is white, and the first pixel comes back. -/
theorem not_published_cleared :
    (¬ ∃ n, ∀ turns ≥ n, Published id cleared (Compositing.shown 0 cleared.cels)
      (readStream id turns cleared.bytes).decoder.screen) ∧
    ¬ ∃ n, ∀ turns ≥ n, Published id takenBack (Compositing.shown 0 takenBack.cels)
      (readStream id turns takenBack.bytes).decoder.screen := by
  constructor
  · have hfile : cleared.Composable :=
      composable_strip (by simp [strip, dots, File.graphics, graphics])
    exact not_published_of_ne (j := 1) (x := 0) (y := 0) (fun _ => rfl) hfile (by decide)
      (by decide) (by decide) (by decide +kernel)
  · have hfile : takenBack.Composable :=
      composable_strip (by simp [strip, dots, File.graphics, graphics])
    exact not_published_of_ne (j := 2) (x := 0) (y := 0) (fun _ => rfl) hfile (by decide)
      (by decide) (by decide) (by decide +kernel)

end GifFile
