import AndroidWork.Compositing

/-!
# Drawing a frame of a GIF sequence

`FrameSequence_gif` and `FrameSequenceState_gif::drawFrame`. The file is given
as giflib parses it, with the control block of every image. A buffer is a
function of the place, so that row strides do not appear.
-/
namespace GifCanvas

open Compositing (Canvas Rect fill copy AgreeOn Layer)

abbrev Color8888 := BitVec 32

def transparent : Color8888 := 0
def noTransparentColor : Int := -1
def disposeBackground : Nat := 2
def disposePrevious : Nat := 3

structure GifColorType where
  red : BitVec 8
  green : BitVec 8
  blue : BitVec 8
  deriving DecidableEq, Repr

def gifColorToColor8888 (color : GifColorType) : Color8888 :=
  0xff#32 <<< 24 ||| color.blue.setWidth 32 <<< 16 ||| color.green.setWidth 32 <<< 8 |||
    color.red.setWidth 32

structure ColorMapObject where
  colorCount : Int
  colors : Nat → GifColorType

structure GraphicsControlBlock where
  disposalMode : Nat
  transparentColor : Int
  delayTime : Int

/-- `SavedImage` with its `ImageDesc` and control block; `rasterBits` by place in
the image. -/
structure SavedImage where
  left : Int
  top : Int
  width : Int
  height : Int
  colorMap : Option ColorMapObject
  rasterBits : Int → Int → BitVec 8
  gcb : GraphicsControlBlock

def SavedImage.rect (f : SavedImage) : Rect := ⟨f.left, f.top, f.width, f.height⟩

structure GifFileType where
  sWidth : Int
  sHeight : Int
  sColorMap : Option ColorMapObject
  sBackGroundColor : Nat
  imageCount : Nat
  savedImages : Nat → SavedImage

def GifFileType.canvasRect (G : GifFileType) : Rect := ⟨0, 0, G.sWidth, G.sHeight⟩

def getDelayMs (gcb : GraphicsControlBlock) : Int := gcb.delayTime * 10

def willBeCleared (gcb : GraphicsControlBlock) : Bool :=
  gcb.disposalMode = disposeBackground || gcb.disposalMode = disposePrevious

/-- What the constructor's loop over the images computes. -/
structure PreserveInfo where
  lastUnclearedFrame : Int
  preservedFrames : Nat → Bool
  restoringFrames : Nat → Int

def preserveTurn (G : GifFileType) (s : PreserveInfo) (i : Nat) : PreserveInfo :=
  let gcb := (G.savedImages i).gcb
  let preserved := Function.update s.preservedFrames i false
  let restoring := Function.update s.restoringFrames i (-1)
  let needs : Bool := gcb.disposalMode = disposePrevious && decide (0 ≤ s.lastUnclearedFrame)
  { lastUnclearedFrame := if willBeCleared gcb then s.lastUnclearedFrame else i
    preservedFrames :=
      if needs then Function.update preserved s.lastUnclearedFrame.toNat true else preserved
    restoringFrames :=
      if needs then Function.update restoring i s.lastUnclearedFrame else restoring }

def preserveLoop (G : GifFileType) (n : Nat) : PreserveInfo :=
  (List.range n).foldl (preserveTurn G) ⟨-1, fun _ => false, fun _ => -1⟩

def GifFileType.preservedFrame (G : GifFileType) (i : Nat) : Bool :=
  (preserveLoop G G.imageCount).preservedFrames i
def GifFileType.restoringFrame (G : GifFileType) (i : Nat) : Int :=
  (preserveLoop G G.imageCount).restoringFrames i

/-- `mBgColor`. -/
def GifFileType.backgroundColor (G : GifFileType) : Color8888 :=
  match G.sColorMap with
  | none => transparent
  | some cmap =>
    if (G.savedImages 0).gcb.transparentColor = noTransparentColor then
      gifColorToColor8888 (cmap.colors G.sBackGroundColor)
    else transparent

/-- `checkIfCover`. -/
def checkIfCover (target covered : SavedImage) : Bool := decide (target.rect.Covers covered.rect)

/-- The image's corner with the size that `getCopySize` gives. -/
def GifFileType.copyRect (G : GifFileType) (f : SavedImage) : Rect where
  left := f.left
  top := f.top
  width := if f.left + f.width > G.sWidth then G.sWidth - f.left else f.width
  height := if f.top + f.height > G.sHeight then G.sHeight - f.top else f.height

/-- The rows that `copyLine` copies: an index is skipped when it is transparent
or has no colour. -/
def copyLines (r : Rect) (f : SavedImage) (cmap : ColorMapObject) (out : Canvas Color8888) :
    Canvas Color8888 :=
  fun x y =>
    if r.Contains x y then
      let src := f.rasterBits (x - f.left) (y - f.top)
      if (src.toNat : Int) ≠ f.gcb.transparentColor ∧ (src.toNat : Int) < cmap.colorCount then
        gifColorToColor8888 (cmap.colors src.toNat)
      else out x y
    else out x y

structure StateGif where
  preserveBuffer : Option (Canvas Color8888)
  preserveBufferFrame : Int

/-- A state as its constructor leaves it. -/
def StateGif.fresh : StateGif := ⟨none, -1⟩

def savePreserveBuffer (G : GifFileType) (st : StateGif) (out : Canvas Color8888)
    (frameNr : Nat) : StateGif :=
  if (frameNr : Int) = st.preserveBufferFrame then st
  else ⟨some (copy G.canvasRect out (st.preserveBuffer.getD fun _ _ => 0)), frameNr⟩

def restorePreserveBuffer (G : GifFileType) (st : StateGif) (out : Canvas Color8888) :
    Canvas Color8888 :=
  match st.preserveBuffer with
  | none => out
  | some b => copy G.canvasRect b out

/-- Image `i` leaves nothing to be seen of image `i - 1`, as the source judges. -/
def GifFileType.prevFrameCompletelyCovered (G : GifFileType) (i : Nat) : Bool :=
  (G.savedImages i).gcb.transparentColor = noTransparentColor &&
    checkIfCover (G.savedImages i) (G.savedImages (i - 1))

/-- One turn of the drawing loop. -/
def drawTurn (G : GifFileType) (frameNr i : Nat) (s : StateGif × Canvas Color8888) :
    StateGif × Canvas Color8888 :=
  let frame := G.savedImages i
  let s :=
    if i = 0 then (s.1, fill G.canvasRect G.backgroundColor s.2)
    else
      let prevFrame := G.savedImages (i - 1)
      let out :=
        if willBeCleared prevFrame.gcb ∧ !G.prevFrameCompletelyCovered i then
          if prevFrame.gcb.disposalMode = disposeBackground then
            fill (G.copyRect prevFrame) transparent s.2
          else if prevFrame.gcb.disposalMode = disposePrevious then restorePreserveBuffer G s.1 s.2
          else s.2
        else s.2
      (if G.preservedFrame (i - 1) then savePreserveBuffer G s.1 out (i - 1) else s.1, out)
  if i = frameNr ∨ !willBeCleared frame.gcb then
    match frame.colorMap.or G.sColorMap with
    | none => s
    | some cmap => (s.1, copyLines (G.copyRect frame) frame cmap s.2)
  else s

/-- `turns` turns from image `i` on. -/
def drawLoop (G : GifFileType) (frameNr : Nat) : Nat → Nat → StateGif × Canvas Color8888 →
    StateGif × Canvas Color8888
  | 0, _, s => s
  | turns + 1, i, s => drawLoop G frameNr turns (i + 1) (drawTurn G frameNr i s)

/-- Where drawing starts: behind the previous frame, or from scratch when an
image to be disposed of needs a frame preserved that is not. -/
def startFrame (G : GifFileType) (st : StateGif) (frameNr : Nat) (previousFrameNr : Int) : Nat :=
  let start := (max (previousFrameNr + 1) 0).toNat
  if (List.range frameNr).any fun i =>
      decide (start - 1 ≤ i ∧ 0 ≤ G.restoringFrame i ∧ st.preserveBufferFrame ≠ G.restoringFrame i)
  then 0 else start

/-- `drawFrame`: the returned delay, the state and the output buffer. -/
def drawFrame (G : GifFileType) (st : StateGif) (out : Canvas Color8888) (frameNr : Nat)
    (previousFrameNr : Int) : Int × StateGif × Canvas Color8888 :=
  let start := startFrame G st frameNr previousFrameNr
  let lastFrame := (frameNr + G.imageCount - 1) % G.imageCount
  (getDelayMs (G.savedImages lastFrame).gcb,
    drawLoop G frameNr (frameNr + 1 - start) start (st, out))

section

variable (G : GifFileType)

def GifFileType.cleared (i : Nat) : Bool := willBeCleared (G.savedImages i).gcb

/-- The last image before `i` that stays, or -1. -/
def GifFileType.lastUncleared : Nat → Int
  | 0 => -1
  | i + 1 => if G.cleared i then GifFileType.lastUncleared i else i

/-- An image as a layer. -/
def GifFileType.layer (i : Nat) : Layer Color8888 where
  rect := G.copyRect (G.savedImages i)
  pixel x y :=
    match (G.savedImages i).colorMap.or G.sColorMap with
    | none => none
    | some cmap =>
      let src := (G.savedImages i).rasterBits (x - (G.savedImages i).left)
        (y - (G.savedImages i).top)
      if (src.toNat : Int) ≠ (G.savedImages i).gcb.transparentColor ∧
        (src.toNat : Int) < cmap.colorCount then
        some (gifColorToColor8888 (cmap.colors src.toNat))
      else none

/-- The canvas that image `i` is painted on, and the canvas after the last image
before it that stays. An image that will be cleared is passed over unpainted. -/
def GifFileType.reference : Nat → Canvas Color8888 × Canvas Color8888
  | 0 => (fun _ _ => G.backgroundColor, fun _ _ => G.backgroundColor)
  | i + 1 =>
    let r := GifFileType.reference i
    let kept := if G.cleared i then r.1 else (G.layer i).over r.1
    (if G.cleared i ∧ !G.prevFrameCompletelyCovered (i + 1) then
        if (G.savedImages i).gcb.disposalMode = disposeBackground then
          fill (G.layer i).rect transparent kept
        else if 0 ≤ G.lastUncleared i then r.2 else kept
      else kept,
      if G.cleared i then r.2 else kept)

def GifFileType.under (i : Nat) : Canvas Color8888 := (G.reference i).1

/-- The canvas with image `i` painted. -/
def GifFileType.shown (i : Nat) : Canvas Color8888 := (G.layer i).over (G.under i)

/-- The canvas behind image `i` when a later one is drawn. -/
def GifFileType.kept (i : Nat) : Canvas Color8888 := if G.cleared i then G.under i else G.shown i

/-- A buffer that starts at image `start` may still hold, when image `i` comes,
pixels of the image it showed: every image since will be cleared and was covered
by the next one. -/
def GifFileType.Stale (start i : Nat) : Prop :=
  0 < start ∧ start ≤ i ∧ (∀ j, start ≤ j + 1 → j < i → G.cleared j = true) ∧
    ∀ j, start ≤ j → j < i → G.prevFrameCompletelyCovered j = true

def GifFileType.FullyPaints (i : Nat) : Prop :=
  ∀ x y, (G.layer i).rect.Contains x y → (G.layer i).pixel x y ≠ none

/-- What drawing images `start` to `n` needs of them. An image to be restored to
a previous canvas that no earlier image left is passed over only by a state that
has preserved nothing, and not while it can be seen in the buffer; an image that
covers what the buffer may still show of a cleared one paints all its pixels. -/
def GifFileType.Safe (st : StateGif) (start n : Nat) : Prop :=
  ∀ i, start ≤ i + 1 → i + 1 ≤ n →
    ((G.savedImages i).gcb.disposalMode = disposePrevious → G.lastUncleared i < 0 →
      G.prevFrameCompletelyCovered (i + 1) = false →
        st.preserveBuffer = none ∧ ¬ G.Stale start (i + 1)) ∧
    (G.Stale start (i + 1) → G.prevFrameCompletelyCovered (i + 1) = true →
      i + 1 = n ∨ G.cleared (i + 1) = false → G.FullyPaints (i + 1))

/-- The buffer shows what a fresh state draws of frame `i` from scratch. -/
def GifFileType.Shows (i : Nat) (b : Canvas Color8888) : Prop :=
  AgreeOn G.canvasRect b (drawFrame G .fresh (fun _ _ => 0) i (-1)).2.2

/-- A call on a state: the frame is in range, the buffer holds the frame it is
said to hold if that is an earlier one, and the images passed over are safe. -/
structure CallSafe (st : StateGif) (out : Canvas Color8888) (n : Nat) (p : Int) : Prop where
  inRange : n < G.imageCount
  holds : ∀ q : Nat, p = q → q < n → G.Shows q out
  safe : G.Safe st (startFrame G st n p) n

/-- The states that safe calls lead to. -/
inductive Reached : StateGif → Prop where
  | fresh : Reached .fresh
  | call {st : StateGif} {out : Canvas Color8888} {n : Nat} {p : Int} (h : Reached st)
      (hc : CallSafe G st out n p) : Reached (drawFrame G st out n p).2.1

variable {G} {i : Nat} {x y : Int}

theorem lastUncleared_eq {f : Nat} (h : G.lastUncleared i = f) :
    f < i ∧ G.cleared f = false ∧ ∀ j, f < j → j < i → G.cleared j = true := by
  induction i with
  | zero => cases h
  | succ i ih =>
    rw [GifFileType.lastUncleared] at h
    split at h
    · rename_i hcleared
      obtain ⟨hf, hno, hbetween⟩ := ih h
      refine ⟨by omega, hno, fun j hfj hj => ?_⟩
      rcases (by omega : j < i ∨ j = i) with hji | rfl
      · exact hbetween j hfj hji
      · exact hcleared
    · rename_i hcleared
      obtain rfl : i = f := by exact_mod_cast h
      exact ⟨by omega, by simpa using hcleared, fun j hfj hj => by omega⟩

theorem preserveLoop_succ (n : Nat) :
    preserveLoop G (n + 1) = preserveTurn G (preserveLoop G n) n := by
  rw [preserveLoop, List.range_succ, List.foldl_append]
  rfl

theorem preserveLoop_last (n : Nat) :
    (preserveLoop G n).lastUnclearedFrame = G.lastUncleared n := by
  induction n with
  | zero => rfl
  | succ n ih =>
    rw [preserveLoop_succ, GifFileType.lastUncleared, ← ih]
    rfl

/-- An image needs the last one before it that stays, if it is to be restored. -/
theorem preserveLoop_restoring (n : Nat) (hi : i < n) : (preserveLoop G n).restoringFrames i =
    if (G.savedImages i).gcb.disposalMode = disposePrevious ∧
    0 ≤ G.lastUncleared i then G.lastUncleared i
    else -1 := by
  induction n with
  | zero => omega
  | succ n ih =>
    rw [preserveLoop_succ, preserveTurn]
    simp only [preserveLoop_last, Bool.and_eq_true, decide_eq_true_eq]
    rcases (by omega : i < n ∨ i = n) with hlt | rfl
    · have hne : i ≠ n := by omega
      rw [← ih hlt]
      split
      · rw [Function.update_of_ne hne, Function.update_of_ne hne]
      · rw [Function.update_of_ne hne]
    · split
      · exact Function.update_self _ _ _
      · exact Function.update_self _ _ _

theorem preserveLoop_preserved (n : Nat) :
    (∀ f, f < n → (preserveLoop G n).preservedFrames f = true → G.cleared f = false) ∧
    ∀ f j : Nat, j < n → (preserveLoop G n).restoringFrames j = f →
      (preserveLoop G n).preservedFrames f = true := by
  induction n with
  | zero => exact ⟨fun f hf => by omega, fun f j hj => by omega⟩
  | succ n ih =>
    obtain ⟨hkeeps, hmarks⟩ := ih
    have hlast : ∀ f : Nat, G.lastUncleared n = f → f < n ∧ G.cleared f = false :=
      fun f hf => ⟨(lastUncleared_eq hf).1, (lastUncleared_eq hf).2.1⟩
    have hsaved : (preserveLoop G (n + 1)).preservedFrames =
        if (G.savedImages n).gcb.disposalMode = disposePrevious ∧ 0 ≤ G.lastUncleared n then
          Function.update (Function.update (preserveLoop G n).preservedFrames n false)
            (G.lastUncleared n).toNat true
        else Function.update (preserveLoop G n).preservedFrames n false := by
      rw [preserveLoop_succ, preserveTurn]
      simp only [preserveLoop_last, Bool.and_eq_true, decide_eq_true_eq]
    constructor
    · intro f hf hp
      rw [hsaved] at hp
      split at hp
      · rename_i hneeds
        by_cases hfl : f = (G.lastUncleared n).toNat
        · exact (hlast f (by omega)).2
        · rw [Function.update_of_ne hfl] at hp
          by_cases hfn : f = n
          · rw [hfn, Function.update_self] at hp
            cases hp
          · rw [Function.update_of_ne hfn] at hp
            exact hkeeps f (by omega) hp
      · by_cases hfn : f = n
        · rw [hfn, Function.update_self] at hp
          cases hp
        · rw [Function.update_of_ne hfn] at hp
          exact hkeeps f (by omega) hp
    · intro f j hj hr
      rw [preserveLoop_restoring (n + 1) hj] at hr
      split at hr
      · rename_i hneeds
        rw [hsaved]
        rcases (by omega : j < n ∨ j = n) with hlt | rfl
        · have hold :=
            hmarks f j hlt (by rw [preserveLoop_restoring n hlt, if_pos hneeds]; exact hr)
          have hfj := (lastUncleared_eq hr).1
          split
          · by_cases hfl : f = (G.lastUncleared n).toNat
            · rw [hfl, Function.update_self]
            · rw [Function.update_of_ne hfl, Function.update_of_ne (by omega)]
              exact hold
          · rw [Function.update_of_ne (by omega)]
            exact hold
        · have hfl : (G.lastUncleared j).toNat = f := by omega
          rw [if_pos hneeds, hfl, Function.update_self]
      · omega

theorem cleared_of_preserved {f : Nat} (hf : f < G.imageCount) (h : G.preservedFrame f = true) :
    G.cleared f = false := (preserveLoop_preserved G.imageCount).1 f hf h

theorem restoringFrame_eq {j : Nat} (hj : j < G.imageCount) : G.restoringFrame j =
    if (G.savedImages j).gcb.disposalMode = disposePrevious ∧
    0 ≤ G.lastUncleared j then G.lastUncleared j
    else -1 := preserveLoop_restoring G.imageCount hj

/-- A frame to be restored is the last one before that stays. -/
theorem lastUncleared_of_restoring {j f : Nat} (hj : j < G.imageCount)
    (h : G.restoringFrame j = f) :
    G.lastUncleared j = f := by
  rw [restoringFrame_eq hj] at h
  split at h
  · exact h
  · omega

theorem preserved_of_restoring {j f : Nat} (hj : j < G.imageCount) (h : G.restoringFrame j = f) :
    G.preservedFrame f = true := (preserveLoop_preserved G.imageCount).2 f j hj h

theorem under_zero : G.under 0 = fun _ _ => G.backgroundColor := rfl

theorem under_succ (i : Nat) : G.under (i + 1) =
    if G.cleared i ∧ !G.prevFrameCompletelyCovered (i + 1) then
      if (G.savedImages i).gcb.disposalMode = disposeBackground then
        fill (G.layer i).rect transparent (G.kept i)
      else if 0 ≤ G.lastUncleared i then (G.reference i).2 else G.kept i
    else G.kept i := rfl

theorem reference_saved_succ (i : Nat) :
    (G.reference (i + 1)).2 = if G.cleared i then (G.reference i).2 else G.kept i := by
  cases h : G.cleared i <;> simp [GifFileType.reference, GifFileType.kept, GifFileType.shown,
    GifFileType.under, h]

/-- The canvas carried along is that of the last image that stays. -/
theorem reference_saved {f : Nat} (h : G.lastUncleared i = f) : (G.reference i).2 = G.kept f := by
  induction i with
  | zero => cases h
  | succ i ih =>
    rw [GifFileType.lastUncleared] at h
    rw [reference_saved_succ]
    split at h
    · rename_i hcleared
      rw [if_pos hcleared]
      exact ih h
    · rename_i hcleared
      obtain rfl : i = f := by exact_mod_cast h
      rw [if_neg hcleared]

theorem kept_of_uncleared (h : G.cleared i = false) : G.kept i = G.shown i := by
  rw [GifFileType.kept, if_neg (by simp [h])]

theorem kept_of_cleared (h : G.cleared i = true) : G.kept i = G.under i := by
  rw [GifFileType.kept, if_pos h]

theorem copyRect_contains (f : SavedImage) (hc : G.canvasRect.Contains x y) :
    (G.copyRect f).Contains x y ↔ f.rect.Contains x y := by
  simp only [GifFileType.canvasRect, Rect.Contains, GifFileType.copyRect, SavedImage.rect] at *
  split <;> split <;> omega

/-- On the canvas a covering image reaches wherever the covered one does. -/
theorem contains_of_covered (h : G.prevFrameCompletelyCovered (i + 1) = true)
    (hc : G.canvasRect.Contains x y) (hr : (G.layer i).rect.Contains x y) :
    (G.layer (i + 1)).rect.Contains x y := by
  have hcover : (G.savedImages (i + 1)).rect.Covers (G.savedImages i).rect :=
    of_decide_eq_true (Bool.and_eq_true_iff.mp h).2
  exact (copyRect_contains _ hc).mpr (hcover.contains ((copyRect_contains _ hc).mp hr))

theorem paint_eq (i : Nat) (s : StateGif × Canvas Color8888) :
    (match (G.savedImages i).colorMap.or G.sColorMap with
      | none => s
      | some cmap => (s.1, copyLines (G.copyRect (G.savedImages i)) (G.savedImages i) cmap s.2)) =
      (s.1, (G.layer i).over s.2) := by
  cases hm : (G.savedImages i).colorMap.or G.sColorMap with
  | none =>
    have hover : (G.layer i).over s.2 = s.2 := by
      funext x y
      refine Layer.over_of_showsThrough (fun _ => ?_) _
      simp only [GifFileType.layer, hm]
    rw [hover]
  | some cmap =>
    have hover : copyLines (G.copyRect (G.savedImages i)) (G.savedImages i) cmap s.2 =
        (G.layer i).over s.2 := by
      funext x y
      simp only [copyLines, Layer.over, GifFileType.layer, hm]
      split
      · split <;> rfl
      · rfl
    exact congrArg (Prod.mk s.1) hover

/-- What a state keeps is the canvas of a frame that stays. -/
def Valid (G : GifFileType) (st : StateGif) : Prop :=
  (st.preserveBuffer = none ∧ st.preserveBufferFrame = -1) ∨
    ∃ (f : Nat) (b : Canvas Color8888), st.preserveBuffer = some b ∧ st.preserveBufferFrame = f ∧
      AgreeOn G.canvasRect b (G.kept f)

/-- What holds when images `start` to `i` have been passed over on the way to
`n`, from the state `st₀`. -/
structure Good (G : GifFileType) (st₀ : StateGif) (start n i : Nat)
    (s : StateGif × Canvas Color8888) :
    Prop where
  valid : Valid G s.1
  needed : ∀ j f : Nat, i ≤ j → j < n → G.restoringFrame j = f → f < i → s.1.preserveBufferFrame = f
  unsaved : s.1.preserveBuffer = st₀.preserveBuffer ∨ 0 ≤ G.lastUncleared i
  shows : ∀ x y, G.canvasRect.Contains x y → s.2 x y = G.kept i x y ∨
    (G.Stale start (i + 1) ∧ (G.layer i).rect.Contains x y)

/-- The buffer once image `i` has been disposed of. -/
def disposed (G : GifFileType) (i : Nat) (s : StateGif × Canvas Color8888) : Canvas Color8888 :=
  if willBeCleared (G.savedImages i).gcb ∧ !G.prevFrameCompletelyCovered (i + 1) then
    if (G.savedImages i).gcb.disposalMode = disposeBackground then
      fill (G.copyRect (G.savedImages i)) transparent s.2
    else if (G.savedImages i).gcb.disposalMode = disposePrevious then
      restorePreserveBuffer G s.1 s.2
    else s.2
  else s.2

/-- The state once image `i` has been preserved, if it is to be. -/
def preserved (G : GifFileType) (i : Nat) (s : StateGif × Canvas Color8888) : StateGif :=
  if G.preservedFrame i then savePreserveBuffer G s.1 (disposed G i s) i else s.1

theorem drawTurn_succ (n i : Nat) (s : StateGif × Canvas Color8888) : drawTurn G n (i + 1) s =
    (preserved G i s, if i + 1 = n ∨ G.cleared (i + 1) = false then
      (G.layer (i + 1)).over (disposed G i s)
      else disposed G i s) := by
  have hpaint := paint_eq (G := G) (i + 1) (preserved G i s, disposed G i s)
  have hturn : drawTurn G n (i + 1) s =
      if i + 1 = n ∨ (!G.cleared (i + 1)) = true then
        (match (G.savedImages (i + 1)).colorMap.or G.sColorMap with
          | none => (preserved G i s, disposed G i s)
          | some cmap => (preserved G i s, copyLines (G.copyRect (G.savedImages (i + 1)))
              (G.savedImages (i + 1)) cmap (disposed G i s)))
      else (preserved G i s, disposed G i s) := rfl
  rw [hturn]
  simp only [Bool.not_eq_true']
  by_cases h : i + 1 = n ∨ G.cleared (i + 1) = false
  · rw [if_pos h, if_pos h]
    exact hpaint
  · rw [if_neg h, if_neg h]

/-- Disposal makes the buffer the canvas below the next image, but for what that
image covers. -/
theorem disposed_under {st₀ : StateGif} {start n : Nat} {s : StateGif × Canvas Color8888}
    (hg : Good G st₀ start n i s) (hsafe : G.Safe st₀ start n)
    (hstart : start ≤ i + 1) (hi : i + 1 ≤ n)
    (hn : n < G.imageCount) (hc : G.canvasRect.Contains x y) :
    disposed G i s x y = G.under (i + 1) x y ∨
      (G.Stale start (i + 1) ∧ G.prevFrameCompletelyCovered (i + 1) = true ∧
        (G.layer i).rect.Contains x y) := by
  have hshows := hg.shows x y hc
  rw [disposed, under_succ]
  by_cases hcl : G.cleared i = true
  · cases hcov : G.prevFrameCompletelyCovered (i + 1) with
    | true =>
      rw [if_neg (by simp), if_neg (by simp)]
      exact hshows.imp_right fun ⟨hstale, hr⟩ => ⟨hstale, rfl, hr⟩
    | false =>
      left
      have hboth : G.cleared i = true ∧ (!false) = true := ⟨hcl, rfl⟩
      have hboth' : willBeCleared (G.savedImages i).gcb = true ∧ (!false) = true := hboth
      rw [if_pos hboth, if_pos hboth']
      by_cases hbg : (G.savedImages i).gcb.disposalMode = disposeBackground
      · rw [if_pos hbg, if_pos hbg]
        by_cases hr : (G.layer i).rect.Contains x y
        · rw [Compositing.fill_inside hr]
          exact Compositing.fill_inside hr _ _
        · rw [Compositing.fill_outside hr, ← hshows.resolve_right fun h => hr h.2]
          exact Compositing.fill_outside hr _ _
      · have hprev : (G.savedImages i).gcb.disposalMode = disposePrevious := by
          simpa [GifFileType.cleared, willBeCleared, hbg] using hcl
        rw [if_neg hbg, if_neg hbg, if_pos hprev]
        by_cases hlast : 0 ≤ G.lastUncleared i
        · obtain ⟨f, hf⟩ := Int.eq_ofNat_of_zero_le hlast
          have hrestoring : G.restoringFrame i = f := by
            rw [restoringFrame_eq (by omega), if_pos ⟨hprev, hlast⟩, hf]
          have hframe := hg.needed i f le_rfl (by omega) hrestoring (lastUncleared_eq hf).1
          rw [if_pos hlast, reference_saved hf, restorePreserveBuffer]
          rcases hg.valid with ⟨-, hnone⟩ | ⟨f', b, hb, hf', hagree⟩
          · omega
          · obtain rfl : f' = f := by omega
            rw [hb]
            exact (Compositing.copy_inside hc _ _).trans (hagree x y hc)
        · obtain ⟨hnone, hnot⟩ := (hsafe i hstart hi).1 hprev (by omega) hcov
          have hbuffer : s.1.preserveBuffer = none := (hg.unsaved.resolve_right hlast).trans hnone
          rw [if_neg hlast, restorePreserveBuffer, hbuffer]
          exact hshows.resolve_right fun h => hnot h.1
  · have hcl' : ¬ willBeCleared (G.savedImages i).gcb = true := hcl
    rw [if_neg fun h => hcl' h.1, if_neg fun h => hcl h.1]
    exact .inl (hshows.resolve_right fun h => hcl (h.1.2.2.1 i hstart (Nat.lt_succ_self i)))

/-- Preserving keeps the state valid and marks the frame. -/
theorem preserved_spec {st₀ : StateGif} {start n : Nat} {s : StateGif × Canvas Color8888}
    (hg : Good G st₀ start n i s) (hi : i < G.imageCount) (hstart : start ≤ i + 1) :
    Valid G (preserved G i s) ∧
    (G.preservedFrame i = true → (preserved G i s).preserveBufferFrame = i) ∧
    (G.preservedFrame i = false → preserved G i s = s.1) := by
  rw [preserved]
  cases hp : G.preservedFrame i with
  | false => exact ⟨hg.valid, (fun h => by cases h), fun _ => rfl⟩
  | true =>
    have hcl := cleared_of_preserved hi hp
    have hagree : AgreeOn G.canvasRect (disposed G i s) (G.kept i) := by
      intro x y hc
      have hcl' : ¬ willBeCleared (G.savedImages i).gcb = true := by
        have := hcl
        rw [GifFileType.cleared] at this
        simp [this]
      rw [disposed, if_neg fun h => hcl' h.1]
      exact (hg.shows x y hc).resolve_right fun h =>
        hcl' (h.1.2.2.1 i hstart (Nat.lt_succ_self i))
    simp only [if_true, savePreserveBuffer]
    by_cases hsame : (i : Int) = s.1.preserveBufferFrame
    · rw [if_pos hsame]
      exact ⟨hg.valid, fun _ => hsame.symm, (fun h => by cases h)⟩
    · rw [if_neg hsame]
      refine ⟨.inr ⟨i, _, rfl, rfl, fun x y hc => ?_⟩, fun _ => rfl, (fun h => by cases h)⟩
      rw [Compositing.copy_inside hc]
      exact hagree x y hc

/-- Painting on the disposed buffer. -/
theorem painted_shown {st₀ : StateGif} {start n : Nat} {s : StateGif × Canvas Color8888}
    (hg : Good G st₀ start n i s) (hsafe : G.Safe st₀ start n)
    (hstart : start ≤ i + 1) (hi : i + 1 ≤ n)
    (hn : n < G.imageCount) (hpainted : i + 1 = n ∨ G.cleared (i + 1) = false) :
    AgreeOn G.canvasRect ((G.layer (i + 1)).over (disposed G i s)) (G.shown (i + 1)) := by
  intro x y hc
  rw [GifFileType.shown]
  rcases disposed_under hg hsafe hstart hi hn hc with heq | ⟨hstale, hcov, hr⟩
  · simp only [Layer.over, heq]
  · have hr' := contains_of_covered hcov hc hr
    have hfull := (hsafe i hstart hi).2 hstale hcov hpainted x y hr'
    obtain ⟨v, hv⟩ := Option.ne_none_iff_exists'.mp hfull
    rw [Layer.over_of_pixel hr' hv, Layer.over_of_pixel hr' hv]

/-- What one turn of the loop preserves, and what the last one leaves. -/
theorem drawTurn_good {st₀ : StateGif} {start n : Nat} {s : StateGif × Canvas Color8888}
    (hg : Good G st₀ start n i s) (hsafe : G.Safe st₀ start n)
    (hstart : start ≤ i + 1) (hi : i + 1 ≤ n)
    (hn : n < G.imageCount) :
    Valid G (drawTurn G n (i + 1) s).1 ∧
      (i + 1 = n → AgreeOn G.canvasRect (drawTurn G n (i + 1) s).2 (G.shown n)) ∧
      (i + 1 < n → Good G st₀ start n (i + 1) (drawTurn G n (i + 1) s)) := by
  obtain ⟨hvalid, hmark, hsame⟩ := preserved_spec hg (by omega) hstart
  rw [drawTurn_succ]
  refine ⟨hvalid, ?_, ?_⟩
  · rintro rfl
    rw [if_pos (.inl rfl)]
    exact painted_shown hg hsafe hstart hi hn (.inl rfl)
  · intro hlt
    refine ⟨hvalid, ?_, ?_, ?_⟩
    · intro j f hij hj hr hf
      have hlast := lastUncleared_of_restoring (by omega) hr
      cases hp : G.preservedFrame i with
      | true =>
        -- the frame just preserved stays, so nothing before it is needed any more
        have hcl := cleared_of_preserved (by omega) hp
        have hfi : ¬ f < i := fun hlt' => by
          have := (lastUncleared_eq hlast).2.2 i hlt' (by omega)
          rw [hcl] at this
          cases this
        rw [hmark hp]
        omega
      | false =>
        rw [hsame hp]
        rcases (by omega : f < i ∨ f = i) with hfi | rfl
        · exact hg.needed j f (by omega) hj hr hfi
        · rw [preserved_of_restoring (by omega) hr] at hp
          cases hp
    · cases hp : G.preservedFrame i with
      | true =>
        right
        rw [GifFileType.lastUncleared, if_neg (by simp [cleared_of_preserved (by omega) hp])]
        omega
      | false =>
        rw [hsame hp, GifFileType.lastUncleared]
        refine hg.unsaved.imp_right fun h => ?_
        split <;> omega
    · intro x y hc
      by_cases hpainted : i + 1 = n ∨ G.cleared (i + 1) = false
      · left
        rw [if_pos hpainted, kept_of_uncleared (hpainted.resolve_left (by omega))]
        exact painted_shown hg hsafe hstart hi hn hpainted x y hc
      · rw [if_neg hpainted]
        push Not at hpainted
        have hcl : G.cleared (i + 1) = true := by simpa using hpainted.2
        rw [kept_of_cleared hcl]
        refine (disposed_under hg hsafe hstart hi hn hc).imp_right ?_
        rintro ⟨⟨hpos, hle, hall, hcovs⟩, hcov, hr⟩
        refine ⟨⟨hpos, by omega, fun j hj hji => ?_, fun j hj hji => ?_⟩,
          contains_of_covered hcov hc hr⟩
        · rcases (by omega : j < i + 1 ∨ j = i + 1) with hlt' | rfl
          · exact hall j hj hlt'
          · exact hcl
        · rcases (by omega : j < i + 1 ∨ j = i + 1) with hlt' | rfl
          · exact hcovs j hj hlt'
          · exact hcov

/-- The first image, on a cleared canvas. -/
theorem drawTurn_zero (n : Nat) (s : StateGif × Canvas Color8888) (hvalid : Valid G s.1) :
    Valid G (drawTurn G n 0 s).1 ∧
      (0 = n → AgreeOn G.canvasRect (drawTurn G n 0 s).2 (G.shown n)) ∧
      (0 < n → Good G s.1 0 n 0 (drawTurn G n 0 s)) := by
  have hpaint := paint_eq (G := G) 0 (s.1, fill G.canvasRect G.backgroundColor s.2)
  have hturn : drawTurn G n 0 s = (s.1, if 0 = n ∨ G.cleared 0 = false then
      (G.layer 0).over (fill G.canvasRect G.backgroundColor s.2)
      else fill G.canvasRect G.backgroundColor s.2) := by
    have : drawTurn G n 0 s = if 0 = n ∨ (!G.cleared 0) = true then
        (match (G.savedImages 0).colorMap.or G.sColorMap with
          | none => (s.1, fill G.canvasRect G.backgroundColor s.2)
          | some cmap => (s.1, copyLines (G.copyRect (G.savedImages 0)) (G.savedImages 0) cmap
              (fill G.canvasRect G.backgroundColor s.2)))
      else (s.1, fill G.canvasRect G.backgroundColor s.2) := rfl
    rw [this]
    simp only [Bool.not_eq_true']
    by_cases h : 0 = n ∨ G.cleared 0 = false
    · rw [if_pos h, if_pos h]
      exact hpaint
    · rw [if_neg h, if_neg h]
  have hover : AgreeOn G.canvasRect ((G.layer 0).over (fill G.canvasRect G.backgroundColor s.2))
      (G.shown 0) := by
    intro x y hc
    simp only [GifFileType.shown, Layer.over, Compositing.fill_inside hc, under_zero]
  rw [hturn]
  refine ⟨hvalid, ?_, fun hpos => ⟨hvalid,
    fun j f _ _ _ hf => by omega, .inl rfl, fun x y hc => .inl ?_⟩⟩
  · rintro rfl
    rw [if_pos (.inl rfl)]
    exact hover
  · by_cases hpainted : 0 = n ∨ G.cleared 0 = false
    · rw [if_pos hpainted, kept_of_uncleared (hpainted.resolve_left (by omega))]
      exact hover x y hc
    · rw [if_neg hpainted]
      push Not at hpainted
      rw [kept_of_cleared (by simpa using hpainted.2), under_zero]
      exact Compositing.fill_inside hc _ _

/-- The rest of a run. -/
theorem drawLoop_shows {st₀ : StateGif} {start n : Nat} (turns : Nat)
    (s : StateGif × Canvas Color8888)
    (hg : Good G st₀ start n i s) (hsafe : G.Safe st₀ start n) (hstart : start ≤ i + 1)
    (hturns : i + 1 + turns = n + 1) (hpos : 0 < turns) (hn : n < G.imageCount) :
    Valid G (drawLoop G n turns (i + 1) s).1 ∧
      AgreeOn G.canvasRect (drawLoop G n turns (i + 1) s).2 (G.shown n) := by
  induction turns generalizing i s with
  | zero => omega
  | succ turns ih =>
    obtain ⟨hvalid, hlast, hnext⟩ := drawTurn_good hg hsafe hstart (by omega) hn
    rw [drawLoop]
    rcases Nat.eq_zero_or_pos turns with rfl | hmore
    · exact ⟨hvalid, hlast (by omega)⟩
    · exact ih _ (hnext (by omega)) (by omega) (by omega) hmore

/-- Where a call starts behind a frame, every frame that it needs preserved is. -/
theorem startFrame_spec (st : StateGif) (n : Nat) (p : Int) :
    startFrame G st n p = 0 ∨ (startFrame G st n p = (max (p + 1) 0).toNat ∧
      ∀ j f : Nat, startFrame G st n p ≤ j + 1 → j < n → G.restoringFrame j = f →
        st.preserveBufferFrame = f) := by
  rw [startFrame]
  split
  · exact .inl rfl
  · rename_i hany
    right
    refine ⟨rfl, fun j f hj hjn hr => ?_⟩
    by_contra hne
    refine hany (List.any_eq_true.mpr ⟨j, List.mem_range.mpr hjn,
      decide_eq_true ⟨by omega, by omega, ?_⟩⟩)
    rw [hr]
    exact hne

/-- A call ends with the reference canvas and a valid state. -/
theorem drawFrame_reference {st : StateGif} {out : Canvas Color8888} {n : Nat} {p : Int}
    (hvalid : Valid G st) (hn : n < G.imageCount) (hsafe : G.Safe st (startFrame G st n p) n)
    (hholds : ∀ q : Nat, p = q → q < n → AgreeOn G.canvasRect out (G.shown q)) :
    Valid G (drawFrame G st out n p).2.1 ∧
      (p < n → AgreeOn G.canvasRect (drawFrame G st out n p).2.2 (G.shown n)) := by
  have hspec := startFrame_spec (G := G) st n p
  rw [drawFrame]
  generalize startFrame G st n p = start at *
  rcases Nat.eq_zero_or_pos start with rfl | hpos
  · obtain ⟨hv, hlast, hnext⟩ := drawTurn_zero n (st, out) hvalid
    rw [Nat.sub_zero, drawLoop]
    rcases Nat.eq_zero_or_pos n with rfl | hmore
    · exact ⟨hv, fun _ => hlast rfl⟩
    · obtain ⟨hv', hag⟩ := drawLoop_shows n _ (hnext hmore) hsafe (by omega) (by omega) hmore hn
      exact ⟨hv', fun _ => hag⟩
  · obtain ⟨heq, hneeded⟩ := hspec.resolve_left (by omega)
    obtain ⟨q, rfl⟩ : ∃ q : Nat, p = q := ⟨p.toNat, by omega⟩
    obtain rfl : start = q + 1 := by omega
    rcases Nat.lt_or_ge q n with hlt | hge
    · have hgood : Good G st (q + 1) n q (st, out) := by
        refine ⟨hvalid, fun j f hj hjn hr _ => hneeded j f (by omega) hjn hr,
          .inl rfl, fun x y hc => ?_⟩
        have hout := hholds q rfl hlt x y hc
        cases hcl : G.cleared q with
        | false => exact .inl (by rw [kept_of_uncleared hcl]; exact hout)
        | true =>
          by_cases hr : (G.layer q).rect.Contains x y
          · right
            refine ⟨⟨by omega, le_rfl, fun j hj hj' => ?_, fun j hj hj' => by omega⟩, hr⟩
            obtain rfl : j = q := by omega
            exact hcl
          · left
            rw [kept_of_cleared hcl]
            exact hout.trans (Layer.over_of_showsThrough (Layer.showsThrough_of_outside hr) _)
      obtain ⟨hv, hag⟩ := drawLoop_shows (n + 1 - (q + 1)) (st, out) hgood hsafe le_rfl (by omega)
        (by omega) hn
      exact ⟨hv, fun _ => hag⟩
    · have hnone : n + 1 - (q + 1) = 0 := by omega
      rw [hnone]
      exact ⟨hvalid, fun h => by omega⟩

theorem not_stale_zero (i : Nat) : ¬ G.Stale 0 i := fun h => absurd h.1 (lt_irrefl 0)

/-- A fresh state that starts from nothing draws the reference canvas. -/
theorem drawFrame_fresh (out : Canvas Color8888) {n : Nat} (hn : n < G.imageCount) :
    AgreeOn G.canvasRect (drawFrame G .fresh out n (-1)).2.2 (G.shown n) := by
  have hvalid : Valid G .fresh := .inl ⟨rfl, rfl⟩
  have hstart : startFrame G .fresh n (-1) = 0 := by
    rcases startFrame_spec (G := G) .fresh n (-1) with h | ⟨h, -⟩
    · exact h
    · exact h
  have hsafe : G.Safe .fresh (startFrame G .fresh n (-1)) n := by
    rw [hstart]
    exact fun i _ _ => ⟨fun _ _ _ => ⟨rfl, not_stale_zero _⟩, fun h => absurd h (not_stale_zero _)⟩
  exact (drawFrame_reference hvalid hn hsafe fun q hq => by omega).2 (by omega)

theorem Reached.valid {st : StateGif} (h : Reached G st) : Valid G st := by
  induction h with
  | fresh => exact .inl ⟨rfl, rfl⟩
  | call h hc ih =>
    refine (drawFrame_reference ih hc.inRange hc.safe fun q hq hqn => ?_).1
    exact (hc.holds q hq hqn).trans (drawFrame_fresh _ (by have := hc.inRange; omega))

/-- In every run of safe calls, each call leaves what a fresh state draws of the
same frame from scratch. -/
theorem drawFrame_eq_fresh {st : StateGif} {out : Canvas Color8888} {n : Nat} {p : Int}
    (h : Reached G st)
    (hc : CallSafe G st out n p) (hp : p < n) (out' : Canvas Color8888) :
    AgreeOn G.canvasRect (drawFrame G st out n p).2.2 (drawFrame G .fresh out' n (-1)).2.2 := by
  refine ((drawFrame_reference h.valid hc.inRange hc.safe fun q hq hqn => ?_).2 hp).trans
    (drawFrame_fresh out' hc.inRange).symm
  exact (hc.holds q hq hqn).trans (drawFrame_fresh _ (by have := hc.inRange; omega))

/-- One red pixel that is disposed of as given, then an image of one transparent
pixel. -/
def redThenNothing (disposal : Nat) : GifFileType where
  sWidth := 1
  sHeight := 1
  sColorMap := some ⟨2, fun i => if i = 0 then ⟨0, 0, 0⟩ else ⟨0xff, 0, 0⟩⟩
  sBackGroundColor := 0
  imageCount := 2
  savedImages i :=
    if i = 0 then ⟨0, 0, 1, 1, none, fun _ _ => 1, ⟨disposal, 0, 10⟩⟩
    else ⟨0, 0, 1, 1, none, fun _ _ => 0, ⟨0, 0, 10⟩⟩

/-- The first frame stays; the second is drawn on it. -/
theorem drawFrame_eq_fresh_redThenNothing :
    AgreeOn (redThenNothing 1).canvasRect
      (drawFrame (redThenNothing 1) .fresh
        (drawFrame (redThenNothing 1) .fresh (fun _ _ => 0) 0 (-1)).2.2 1 0).2.2
      (drawFrame (redThenNothing 1) .fresh (fun _ _ => 7) 1 (-1)).2.2 := by
  refine drawFrame_eq_fresh .fresh ⟨by decide, ?_, ?_⟩ (by decide) _
  · intro q hq _
    obtain rfl : q = 0 := by omega
    exact AgreeOn.refl _ _
  · intro i _ hi
    obtain rfl : i = 0 := by omega
    refine ⟨fun hprev => absurd hprev (by decide), fun hstale => ?_⟩
    exact absurd (hstale.2.2.1 0 (by decide) (by decide)) (by decide)

/-- A first frame that is to be restored to nothing stays on the buffer that
shows it, and is not there when the second frame is drawn from scratch. -/
theorem drawFrame_restore_first :
    let G := redThenNothing disposePrevious
    let first := (drawFrame G .fresh (fun _ _ => 0) 0 (-1)).2
    G.Shows 0 first.2 ∧ ¬ AgreeOn G.canvasRect (drawFrame G first.1 first.2 1 0).2.2
      (drawFrame G .fresh (fun _ _ => 0) 1 (-1)).2.2 := by
  refine ⟨AgreeOn.refl _ _, fun h => ?_⟩
  exact absurd (h 0 0 (by decide)) (by decide)

end

end GifCanvas
