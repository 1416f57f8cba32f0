import AndroidWork.Compositing

/-!
# Drawing a frame of a WebP animation

`FrameSequenceState_webp::drawFrame` and what it calls. A buffer is a function
of the place, so that row strides do not appear. The demuxer's answers and the
decoded pixels are data of the animation.
-/
namespace WebpCanvas

open Compositing (Canvas Rect fill copy AgreeOn Layer Cel under shown)

abbrev Color8888 := BitVec 32

def alphaMask : Color8888 := 0xff000000
def transparent : Color8888 := 0

inductive DisposeMethod where
  | none
  | background
  deriving DecidableEq, Repr

inductive BlendMethod where
  | blend
  | noBlend
  deriving DecidableEq, Repr

/-- `WebPIterator`. `fragment` is what `WebPDecode` makes of the fragment, by
place in the frame, or that it fails. -/
structure WebPIterator where
  frameNum : Nat
  xOffset : Int
  yOffset : Int
  width : Int
  height : Int
  hasAlpha : Bool
  disposeMethod : DisposeMethod
  blendMethod : BlendMethod
  duration : Int
  fragment : Option (Int → Int → Color8888)

def WebPIterator.rect (f : WebPIterator) : Rect := ⟨f.xOffset, f.yOffset, f.width, f.height⟩

/-- A frame sequence as the demuxer gives it. -/
structure FrameSequence where
  width : Int
  height : Int
  frameCount : Nat
  frame : Nat → WebPIterator

def FrameSequence.canvasRect (A : FrameSequence) : Rect := ⟨0, 0, A.width, A.height⟩

/-- `WebPDemuxGetFrame`, which counts from one; zero stands for the last frame. -/
def FrameSequence.getFrame (A : FrameSequence) (n : Nat) : WebPIterator :=
  if n = 0 then { A.frame (A.frameCount - 1) with frameNum := A.frameCount }
  else { A.frame (n - 1) with frameNum := n }

def isFullFrame (f : WebPIterator) (canvasWidth canvasHeight : Int) : Bool :=
  f.width = canvasWidth && f.height = canvasHeight

/-- `FrameContainsPixel`. -/
def frameContainsPixel (f : WebPIterator) (x y : Int) : Bool := decide (f.rect.Contains x y)

/-- `mIsKeyFrame`, as `constructDependencyChain` fills it. -/
def FrameSequence.isKeyFrame (A : FrameSequence) : Nat → Bool
  | 0 => true
  | i + 1 =>
    let prev := A.getFrame (i + 1)
    let curr := A.getFrame (i + 2)
    if (!curr.hasAlpha || curr.blendMethod = .noBlend) && isFullFrame curr A.width A.height then
      true
    else prev.disposeMethod = .background && (isFullFrame prev A.width A.height || A.isKeyFrame i)

def willBeCleared (f : WebPIterator) : Bool := f.disposeMethod = .background

/-- `checkIfCover`. -/
def checkIfCover (target covered : WebPIterator) : Bool := decide (target.rect.Covers covered.rect)

/-- The two buffers that take turns; for frame 0 both are the output. -/
inductive Slot where
  | output
  | preserved
  deriving DecidableEq, Repr

abbrev Buffers := Slot → Canvas Color8888

def initializeFrame (A : FrameSequence) (currIter : WebPIterator) (curr : Slot)
    (prevIter : WebPIterator)
    (prev : Slot) (mem : Buffers) : Buffers :=
  if A.isKeyFrame (currIter.frameNum - 1) then
    Function.update mem curr (fill A.canvasRect transparent (mem curr))
  else
    let currBuffer := copy A.canvasRect (mem prev) (mem curr)
    let prevFrameCompletelyCovered :=
      (!currIter.hasAlpha || currIter.blendMethod = .noBlend) && checkIfCover currIter prevIter
    if prevIter.disposeMethod = .background ∧ !prevFrameCompletelyCovered then
      Function.update mem curr (fill prevIter.rect transparent currBuffer)
    else Function.update mem curr currBuffer

/-- What the pixel loops of `decodeFrame` make of a pixel just decoded. -/
def restorePixel (currPixel prevPixel : Color8888) (keep : Bool) : Color8888 :=
  if currPixel &&& alphaMask = 0 ∧ !keep then prevPixel else currPixel

def decodeFrame (A : FrameSequence) (currIter : WebPIterator) (curr : Slot)
    (prevIter : WebPIterator)
    (prev : Slot) (mem : Buffers) : Bool × Buffers :=
  match currIter.fragment with
  | none => (false, mem)
  | some pixels =>
    let decoded :=
      copy currIter.rect (fun x y => pixels (x - currIter.xOffset) (y - currIter.yOffset))
        (mem curr)
    if currIter.blendMethod = .blend ∧ !A.isKeyFrame (currIter.frameNum - 1) then
      match prevIter.disposeMethod with
      | .none =>
        (true, Function.update mem curr
          (copy currIter.rect (fun x y => restorePixel (decoded x y) (mem prev x y) false) decoded))
      | .background =>
        (true, Function.update mem curr
          (copy currIter.rect
            (fun x y => restorePixel (decoded x y) (mem prev x y) (frameContainsPixel prevIter x y))
              decoded))
    else (true, Function.update mem curr decoded)

structure DrawState where
  currIter : WebPIterator
  prev : Slot
  curr : Slot
  mem : Buffers

/-- One turn of the loop over `i`: the buffers change places, and frame `i` is
produced unless it would be cleared again. -/
def drawTurn (A : FrameSequence) (frameNr i : Nat) (s : DrawState) : Bool × DrawState :=
  let prevIter := s.currIter
  let currIter := A.getFrame (i + 1)
  let mem := initializeFrame A currIter s.prev prevIter s.curr s.mem
  if i = frameNr ∨ !willBeCleared currIter then
    let r := decodeFrame A currIter s.prev prevIter s.curr mem
    (r.1, ⟨currIter, s.curr, s.prev, r.2⟩)
  else (true, ⟨currIter, s.curr, s.prev, mem⟩)

/-- `turns` turns from frame `i` on, until one fails. -/
def drawLoop (A : FrameSequence) (frameNr : Nat) : Nat → Nat → DrawState → Bool × DrawState
  | 0, _, s => (true, s)
  | turns + 1, i, s =>
    let r := drawTurn A frameNr i s
    if r.1 then drawLoop A frameNr turns (i + 1) r.2 else r

/-- The `while` loop over `earliestRequired`. -/
def findStart (A : FrameSequence) (start : Nat) : Nat → Nat
  | 0 => start
  | e + 1 =>
    if start < e + 1 then if A.isKeyFrame (e + 1) then e + 1 else findStart A start e else start

/-- `drawFrame`: the returned delay and both buffers afterwards. -/
def drawFrame (A : FrameSequence) (frameNr : Nat) (mem : Buffers)
    (previousFrameNr : Int) : Int × Buffers :=
  let start := findStart A (max (previousFrameNr + 1) 0).toNat frameNr
  let prev : Slot := if frameNr = 0 then .output else .preserved
  let r := drawLoop A frameNr (frameNr + 1 - start) start ⟨A.getFrame start, prev, .output, mem⟩
  if r.1 then
    let mem := if r.2.curr ≠ .output then
        Function.update r.2.mem .output (copy A.canvasRect (r.2.mem r.2.curr) (r.2.mem .output))
      else r.2.mem
    let lastFrame := (frameNr + A.frameCount - 1) % A.frameCount
    ((A.getFrame (lastFrame + 1)).duration, mem)
  else (-1, r.2.mem)

/-- What libwebp is taken to give: rectangles inside the canvas, pixels that are
premultiplied with alpha 0 or 255, and alpha 255 alone where `hasAlpha` is not
set. -/
structure Animation extends FrameSequence where
  inside : ∀ i, i < frameCount → (⟨0, 0, width, height⟩ : Rect).Covers (frame i).rect
  pixels : Nat → Int → Int → Color8888
  decodes : ∀ i, i < frameCount → (frame i).fragment = some (pixels i)
  alpha : ∀ i x y, i < frameCount → pixels i x y &&& alphaMask = alphaMask ∨
    pixels i x y = transparent
  opaque_alpha : ∀ i x y, i < frameCount → (frame i).hasAlpha = false →
    pixels i x y &&& alphaMask = alphaMask

/-- A frame as a cel: a transparent pixel lets the canvas show through if the
frame is blended, and overwrites it otherwise. -/
def Animation.layer (A : Animation) (i : Nat) : Cel Color8888 where
  rect := (A.frame i).rect
  pixel x y :=
    let p := A.pixels i (x - (A.frame i).xOffset) (y - (A.frame i).yOffset)
    if (A.frame i).blendMethod = .blend ∧ p &&& alphaMask = 0 then none else some p
  disposal :=
    match (A.frame i).disposeMethod with
    | .none => .keep
    | .background => .background

/-- The buffer shows the reference canvas of frame `i`. -/
def Animation.Shows (A : Animation) (i : Nat) (b : Canvas Color8888) : Prop :=
  AgreeOn A.canvasRect b (shown transparent A.layer i)

theorem getFrame_succ (A : FrameSequence) (i : Nat) :
    A.getFrame (i + 1) = { A.frame i with frameNum := i + 1 } := by
  rw [FrameSequence.getFrame, if_neg (Nat.succ_ne_zero i), Nat.add_sub_cancel]

section

variable (A : Animation) {i : Nat} {x y : Int}

/-- Every pixel of the frame replaces the canvas. -/
def Animation.Overwrites (i : Nat) : Prop :=
  (A.frame i).hasAlpha = false ∨ (A.frame i).blendMethod = .noBlend

theorem overwrites_iff : ((!(A.frame i).hasAlpha || (A.frame i).blendMethod = .noBlend) = true) ↔
    A.Overwrites i := by
  simp [Animation.Overwrites]

theorem pixel_eq_none (hi : i < A.frameCount) (h : (A.layer i).pixel x y = none) :
    (A.frame i).blendMethod = .blend ∧ ¬ A.Overwrites i ∧
      A.pixels i (x - (A.frame i).xOffset) (y - (A.frame i).yOffset) = transparent := by
  simp only [Animation.layer] at h
  split at h
  · rename_i hb
    have hnot : A.pixels i (x - (A.frame i).xOffset) (y - (A.frame i).yOffset) &&&
        alphaMask ≠ alphaMask := by
      rw [hb.2]
      decide
    refine ⟨hb.1, ?_, (A.alpha i _ _ hi).resolve_left hnot⟩
    rintro (hsolid | hno)
    · exact hnot (A.opaque_alpha i _ _ hi hsolid)
    · rw [hno] at hb
      cases hb.1
  · cases h

theorem pixel_eq_some {v : Color8888} (h : (A.layer i).pixel x y = some v) :
    v = A.pixels i (x - (A.frame i).xOffset) (y - (A.frame i).yOffset) ∧
      ((A.frame i).blendMethod = .blend → v &&& alphaMask ≠ 0) := by
  simp only [Animation.layer] at h
  split at h
  · cases h
  · rename_i hno
    cases h
    exact ⟨rfl, fun hb h0 => hno ⟨hb, h0⟩⟩

/-- Where a frame shows the canvas below, it does not both cover and overwrite. -/
theorem not_overwrites (hi : i < A.frameCount) (h : (A.layer i).ShowsThrough x y)
    (hr : (A.frame i).rect.Contains x y) : ¬ A.Overwrites i := (pixel_eq_none A hi (h hr)).2.1

theorem under_of_background (h : (A.frame i).disposeMethod = .background)
    (hr : (A.frame i).rect.Contains x y) : under transparent A.layer (i + 1) x y = transparent := by
  have hd : (A.layer i).disposal = .background := by simp only [Animation.layer, h]
  rw [Compositing.under_succ, Cel.dispose, hd]
  exact Compositing.fill_inside hr _ _

theorem under_of_kept (h : ¬ ((A.frame i).disposeMethod = .background ∧
    (A.frame i).rect.Contains x y)) :
    under transparent A.layer (i + 1) x y = shown transparent A.layer i x y := by
  rw [Compositing.under_succ, Cel.dispose]
  cases hm : (A.frame i).disposeMethod with
  | none =>
    have hd : (A.layer i).disposal = .keep := by simp only [Animation.layer, hm]
    rw [hd]
  | background =>
    have hd : (A.layer i).disposal = .background := by simp only [Animation.layer, hm]
    rw [hd]
    exact Compositing.fill_outside (fun hr => h ⟨hm, hr⟩) _ _

theorem isFullFrame_contains (hi : i < A.frameCount)
    (h : isFullFrame (A.getFrame (i + 1)) A.width A.height = true)
    (hc : A.canvasRect.Contains x y) :
    (A.frame i).rect.Contains x y := by
  rw [getFrame_succ, isFullFrame] at h
  have hw : (A.frame i).width = A.width := of_decide_eq_true (Bool.and_eq_true_iff.mp h).1
  have hh : (A.frame i).height = A.height := of_decide_eq_true (Bool.and_eq_true_iff.mp h).2
  obtain ⟨hl, hr, ht, hb⟩ := A.inside i hi
  obtain ⟨hx, hx', hy, hy'⟩ := hc
  simp only [WebPIterator.rect, FrameSequence.canvasRect] at *
  exact ⟨by simp only; omega, by simp only; omega, by simp only; omega, by simp only; omega⟩

theorem isKeyFrame_succ (h : A.isKeyFrame (i + 1) = true) :
    (A.Overwrites (i + 1) ∧ isFullFrame (A.getFrame (i + 2)) A.width A.height = true) ∨
    ((A.frame i).disposeMethod = .background ∧
      (isFullFrame (A.getFrame (i + 1)) A.width A.height = true ∨ A.isKeyFrame i = true)) := by
  rw [FrameSequence.isKeyFrame] at h
  split at h
  · rename_i hfull
    rw [Bool.and_eq_true_iff] at hfull
    left
    refine ⟨?_, hfull.2⟩
    have hover := hfull.1
    rw [getFrame_succ] at hover
    exact (overwrites_iff A).mp hover
  · right
    rw [Bool.and_eq_true_iff, Bool.or_eq_true_iff] at h
    refine ⟨?_, h.2⟩
    have hdispose := of_decide_eq_true h.1
    rwa [getFrame_succ] at hdispose

/-- Under a key frame the canvas is blank wherever it can be seen. -/
theorem isKeyFrame_sound (hi : i < A.frameCount) (hkey : A.isKeyFrame i = true)
    (hc : A.canvasRect.Contains x y) (h : (A.layer i).ShowsThrough x y) :
    under transparent A.layer i x y = transparent := by
  induction i with
  | zero => rfl
  | succ j ih =>
    rcases isKeyFrame_succ A hkey with ⟨hover, hfull⟩ | ⟨hdispose, hprev⟩
    · exact absurd hover (not_overwrites A hi h (isFullFrame_contains A hi hfull hc))
    · by_cases hr : (A.frame j).rect.Contains x y
      · exact under_of_background A hdispose hr
      · have hprev := hprev.resolve_left fun hfull =>
          hr (isFullFrame_contains A (by omega) hfull hc)
        have hthrough : (A.layer j).ShowsThrough x y := Layer.showsThrough_of_outside hr
        rw [under_of_kept A fun hb => hr hb.2, Compositing.shown_of_showsThrough hthrough]
        exact ih (by omega) hprev hthrough

/-- Where frame `j + 1` shows it, the buffer holds the canvas of frame `j`, up to
what the disposal of frame `j` blanks. -/
def Animation.Carries (j : Nat) (b : Canvas Color8888) : Prop :=
  ∀ x y, A.canvasRect.Contains x y → (A.layer (j + 1)).ShowsThrough x y →
    b x y = shown transparent A.layer j x y ∨
      ((A.frame j).disposeMethod = .background ∧ (A.frame j).rect.Contains x y)

/-- Frame `i` can be produced from the buffer. -/
def Animation.Ready (i : Nat) (b : Canvas Color8888) : Prop :=
  A.isKeyFrame i = true ∨ ∃ j, i = j + 1 ∧ A.Carries j b

variable {A}

theorem Animation.Shows.carries {b : Canvas Color8888} (h : A.Shows i b) : A.Carries i b :=
  fun x y hc _ => .inl (h x y hc)

/-- A frame can also be produced from its own canvas. -/
theorem Animation.Shows.carries_self {b : Canvas Color8888} (h : A.Shows (i + 1) b) :
    A.Carries i b := by
  intro x y hc hthrough
  by_cases hb : (A.frame i).disposeMethod = .background ∧ (A.frame i).rect.Contains x y
  · exact .inr hb
  · left
    rw [h x y hc, Compositing.shown_of_showsThrough hthrough]
    exact under_of_kept A hb

theorem initializeFrame_frame (A : FrameSequence) (currIter : WebPIterator) (curr : Slot)
    (prevIter : WebPIterator) (prev other : Slot) (mem : Buffers) (h : other ≠ curr) :
    initializeFrame A currIter curr prevIter prev mem other = mem other := by
  rw [initializeFrame]
  split
  · exact Function.update_of_ne h _ _
  · simp only
    split <;> exact Function.update_of_ne h _ _

/-- The initialized buffer is the canvas below wherever the frame shows it. -/
theorem initializeFrame_under (curr prev : Slot) (mem : Buffers) (hi : i < A.frameCount)
    (hready : A.Ready i (mem prev)) (hc : A.canvasRect.Contains x y)
    (hthrough : (A.layer i).ShowsThrough x y) :
    initializeFrame A.toFrameSequence (A.getFrame (i + 1)) curr (A.getFrame i) prev mem curr x y =
      under transparent A.layer i x y := by
  have hnum : (A.getFrame (i + 1)).frameNum - 1 = i := by
    rw [getFrame_succ]
    rfl
  rw [initializeFrame, hnum]
  by_cases hkey : A.isKeyFrame i = true
  · rw [if_pos hkey, Function.update_self, isKeyFrame_sound A hi hkey hc hthrough]
    exact Compositing.fill_inside hc _ _
  · rw [if_neg hkey]
    obtain ⟨j, rfl, hcarries⟩ := hready.resolve_left hkey
    have hprev := hcarries x y hc hthrough
    rw [getFrame_succ, getFrame_succ]
    simp only
    split
    · rename_i hb
      rw [Function.update_self]
      by_cases hr : (A.frame j).rect.Contains x y
      · rw [under_of_background A hb.1 hr]
        exact Compositing.fill_inside hr _ _
      · rw [under_of_kept A fun hb => hr hb.2, ← hprev.resolve_right fun hb => hr hb.2]
        exact (Compositing.fill_outside hr _ _).trans (Compositing.copy_inside hc _ _)
    · rename_i hb
      rw [Function.update_self, Compositing.copy_inside hc]
      -- a blanked rectangle is left alone only where this frame overwrites it
      have hkept : ¬ ((A.frame j).disposeMethod = .background ∧ (A.frame j).rect.Contains x y) := by
        rintro ⟨hd, hr⟩
        have hcovered := not_and.mp hb hd
        rw [Bool.not_eq_true', Bool.not_eq_false, Bool.and_eq_true_iff,
          overwrites_iff A] at hcovered
        have hcover : (A.frame (j + 1)).rect.Covers (A.frame j).rect := of_decide_eq_true hcovered.2
        exact not_overwrites A hi hthrough (hcover.contains hr) hcovered.1
      rw [hprev.resolve_right hkept, under_of_kept A hkept]

/-- The pixel that decoding leaves inside the frame. -/
def finishedPixel (A : FrameSequence) (currIter prevIter : WebPIterator) (p prevPixel : Color8888)
    (x y : Int) : Color8888 :=
  if currIter.blendMethod = .blend ∧ !A.isKeyFrame (currIter.frameNum - 1) then
    restorePixel p prevPixel (prevIter.disposeMethod =
      .background && frameContainsPixel prevIter x y)
  else p

theorem decodeFrame_eq (A : FrameSequence) (currIter : WebPIterator) (curr : Slot)
    (prevIter : WebPIterator)
    (prev : Slot) (mem : Buffers) {pixels : Int → Int → Color8888}
    (h : currIter.fragment = some pixels) :
    decodeFrame A currIter curr prevIter prev mem = (true, Function.update mem curr
      (copy currIter.rect (fun x y => finishedPixel A currIter prevIter
        (pixels (x - currIter.xOffset) (y - currIter.yOffset)) (mem prev x y) x y)
          (mem curr))) := by
  rw [decodeFrame, h]
  have hcopy : ∀ (f g : Int → Int → Color8888) (b c : Canvas Color8888),
      (∀ x y, currIter.rect.Contains x y → f x y = g x y) →
      (∀ x y, ¬ currIter.rect.Contains x y → b x y = c x y) →
      copy currIter.rect f b = copy currIter.rect g c := by
    intro f g b c hin hout
    funext x y
    by_cases hr : currIter.rect.Contains x y
    · rw [Compositing.copy_inside hr, Compositing.copy_inside hr, hin x y hr]
    · rw [Compositing.copy_outside hr, Compositing.copy_outside hr, hout x y hr]
  by_cases hb : currIter.blendMethod = .blend ∧ (!A.isKeyFrame (currIter.frameNum - 1)) = true
  · simp only [if_pos hb]
    cases hd : prevIter.disposeMethod with
    | none =>
      refine congrArg (fun b => (true, Function.update mem curr b)) (hcopy _ _ _ _ ?_ ?_)
      · intro x y hr
        rw [finishedPixel, if_pos hb, Compositing.copy_inside hr, hd]
        rfl
      · intro x y hr
        exact Compositing.copy_outside hr _ _
    | background =>
      refine congrArg (fun b => (true, Function.update mem curr b)) (hcopy _ _ _ _ ?_ ?_)
      · intro x y hr
        rw [finishedPixel, if_pos hb, Compositing.copy_inside hr, hd]
        rfl
      · intro x y hr
        exact Compositing.copy_outside hr _ _
  · simp only [if_neg hb]
    refine congrArg (fun b => (true, Function.update mem curr b))
      (hcopy _ _ _ _ ?_ fun _ _ _ => rfl)
    intro x y hr
    rw [finishedPixel, if_neg hb]

/-- A pixel of the frame ends as the reference has it. -/
theorem finishedPixel_shown (prevPixel : Color8888) (hi : i < A.frameCount)
    (hready : A.isKeyFrame i = true ∨ ∃ j, i = j + 1 ∧ ((A.layer (j + 1)).ShowsThrough x y →
      prevPixel = shown transparent A.layer j x y ∨
        ((A.frame j).disposeMethod = .background ∧ (A.frame j).rect.Contains x y)))
    (hc : A.canvasRect.Contains x y) (hr : (A.frame i).rect.Contains x y) :
    finishedPixel A.toFrameSequence (A.getFrame (i + 1)) (A.getFrame i)
      (A.pixels i (x - (A.frame i).xOffset) (y - (A.frame i).yOffset)) prevPixel x y =
        shown transparent A.layer i x y := by
  have hrl : (A.layer i).rect.Contains x y := hr
  rw [finishedPixel, getFrame_succ]
  simp only [Nat.add_sub_cancel]
  cases hp : (A.layer i).pixel x y with
  | none =>
    have hthrough : (A.layer i).ShowsThrough x y := fun _ => hp
    obtain ⟨hblend, -, hzero⟩ := pixel_eq_none A hi hp
    rw [hzero, Compositing.shown_of_showsThrough hthrough]
    by_cases hkey : A.isKeyFrame i = true
    · rw [if_neg (by simp [hkey]), isKeyFrame_sound A hi hkey hc hthrough]
    · obtain ⟨j, rfl, hcarries⟩ := hready.resolve_left hkey
      have hkeep : (decide ((A.getFrame (j + 1)).disposeMethod = .background) &&
          frameContainsPixel (A.getFrame (j + 1)) x y) =
          decide ((A.frame j).disposeMethod = .background ∧ (A.frame j).rect.Contains x y) := by
        rw [getFrame_succ, Bool.decide_and]
        rfl
      rw [if_pos ⟨hblend, by simpa using hkey⟩, restorePixel, hkeep]
      by_cases hb : (A.frame j).disposeMethod = .background ∧ (A.frame j).rect.Contains x y
      · rw [if_neg (by simp [hb]), under_of_background A hb.1 hb.2]
      · rw [if_pos ⟨rfl, by simp [hb]⟩, (hcarries hthrough).resolve_right hb, under_of_kept A hb]
  | some v =>
    obtain ⟨rfl, halpha⟩ := pixel_eq_some A hp
    rw [shown, Layer.over_of_pixel hrl hp]
    split
    · rename_i hb
      exact if_neg fun h => halpha hb.1 h.1
    · rfl

/-- Decoding finishes the canvas of the frame on an initialized buffer. -/
theorem decodeFrame_shows (curr prev : Slot) (mem : Buffers) (hi : i < A.frameCount)
    (hready : A.Ready i (mem prev))
    (hinit : ∀ x y, A.canvasRect.Contains x y → (A.layer i).ShowsThrough x y →
      mem curr x y = under transparent A.layer i x y) :
    (decodeFrame A.toFrameSequence (A.getFrame (i + 1)) curr (A.getFrame i) prev mem).1 = true ∧
      A.Shows i ((decodeFrame A.toFrameSequence (A.getFrame (i + 1)) curr (A.getFrame i) prev mem).2
        curr) := by
  have hfragment : (A.getFrame (i + 1)).fragment = some (A.pixels i) := by
    rw [getFrame_succ]
    exact A.decodes i hi
  rw [decodeFrame_eq _ _ curr _ prev mem hfragment]
  refine ⟨rfl, fun x y hc => ?_⟩
  simp only [Function.update_self]
  rw [getFrame_succ]
  by_cases hr : (A.frame i).rect.Contains x y
  · refine (Compositing.copy_inside hr _ _).trans ?_
    rw [← getFrame_succ]
    refine finishedPixel_shown (mem prev x y) hi ?_ hc hr
    rcases hready with hkey | ⟨j, hj, hcarries⟩
    · exact .inl hkey
    · exact .inr ⟨j, hj, hcarries x y hc⟩
  · have hthrough : (A.layer i).ShowsThrough x y := Layer.showsThrough_of_outside hr
    refine (Compositing.copy_outside hr _ _).trans ?_
    rw [Compositing.shown_of_showsThrough hthrough]
    exact hinit x y hc hthrough

/-- What one turn of the loop does: the buffers change places, and the one in
front holds frame `i`, except for what was skipped because it is blanked again. -/
theorem drawTurn_carries (n : Nat) (s : DrawState) (hi : i < A.frameCount)
    (hiter : s.currIter = A.getFrame i) (hslots : s.prev ≠ s.curr ∨ A.isKeyFrame i = true)
    (hready : A.Ready i (s.mem s.curr)) :
    let r := drawTurn A.toFrameSequence n i s
    r.1 = true ∧ r.2.currIter = A.getFrame (i + 1) ∧ r.2.prev = s.curr ∧ r.2.curr = s.prev ∧
      A.Carries i (r.2.mem r.2.curr) ∧ (i = n → A.Shows i (r.2.mem r.2.curr)) := by
  have hinit := fun x y hc ht => initializeFrame_under (x := x)
    (y := y) s.prev s.curr s.mem hi hready hc ht
  have hready' :
      A.Ready i (initializeFrame A.toFrameSequence (A.getFrame (i + 1)) s.prev (A.getFrame i)
      s.curr s.mem s.curr) := by
    rcases hslots with hne | hkey
    · rw [initializeFrame_frame _ _ _ _ _ _ _ hne.symm]
      exact hready
    · exact .inl hkey
  intro r
  by_cases hdecode : i = n ∨ (!willBeCleared (A.getFrame (i + 1))) = true
  · have hr : r = _ := if_pos hdecode
    obtain ⟨hok, hshows⟩ := decodeFrame_shows s.prev s.curr _ hi hready' hinit
    rw [hr, hiter]
    exact ⟨hok, rfl, rfl, rfl, hshows.carries, fun _ => hshows⟩
  · have hr : r = _ := if_neg hdecode
    push Not at hdecode
    rw [hr, hiter]
    refine ⟨rfl, rfl, rfl, rfl, ?_, fun h => absurd h hdecode.1⟩
    intro x y hc _
    by_cases hin : (A.frame i).rect.Contains x y
    · right
      have hcleared : willBeCleared (A.getFrame (i + 1)) = true := by simpa using hdecode.2
      rw [getFrame_succ] at hcleared
      exact ⟨of_decide_eq_true hcleared, hin⟩
    · left
      have hthrough : (A.layer i).ShowsThrough x y := Layer.showsThrough_of_outside hin
      rw [Compositing.shown_of_showsThrough hthrough]
      exact hinit x y hc hthrough

/-- The loop ends with the canvas of the wanted frame in front. -/
theorem drawLoop_shows (n turns : Nat) (s : DrawState) (hn : n < A.frameCount)
    (hturns : i + turns = n + 1)
    (hpos : 0 < turns) (hiter : s.currIter = A.getFrame i) (hslots : s.prev ≠ s.curr ∨ n = 0)
    (hready : A.Ready i (s.mem s.curr)) :
    let r := drawLoop A.toFrameSequence n turns i s
    r.1 = true ∧ A.Shows n (r.2.mem r.2.curr) := by
  induction turns generalizing i s with
  | zero => omega
  | succ turns ih =>
    have hslots' : s.prev ≠ s.curr ∨ A.isKeyFrame i = true := by
      rcases hslots with hne | rfl
      · exact .inl hne
      · right
        obtain rfl : i = 0 := by omega
        rfl
    obtain ⟨hok, hiter', hprev, hcurr, hcarries, hshows⟩ :=
      drawTurn_carries n s (by omega) hiter hslots' hready
    rw [drawLoop]
    simp only [hok, if_true]
    rcases Nat.eq_zero_or_pos turns with rfl | hmore
    · obtain rfl : i = n := by omega
      exact ⟨rfl, hshows rfl⟩
    · refine ih (i := i + 1) _ (by omega) hmore hiter' ?_ (.inr ⟨i, rfl, hcarries⟩)
      rw [hprev, hcurr]
      exact hslots.imp_left Ne.symm

theorem findStart_spec (A : FrameSequence) (start n : Nat) (h : start ≤ n) :
    findStart A start n = start ∨
      (start < findStart A start n ∧ findStart A start n ≤ n ∧
        A.isKeyFrame (findStart A start n) = true) := by
  induction n with
  | zero => exact .inl rfl
  | succ e ih =>
    rw [findStart]
    split
    · rename_i hlt
      split
      · rename_i hkey
        exact .inr ⟨hlt, le_rfl, hkey⟩
      · exact (ih (by omega)).imp_right fun ⟨h₁, h₂, h₃⟩ => ⟨h₁, by omega, h₃⟩
    · exact .inl rfl

/-- Drawing leaves the reference canvas of frame `n` in the output buffer: from
nothing, from the canvas of any earlier frame, and from the canvas of frame
`n - 1` when it is given as that of frame `n - 2`. -/
theorem drawFrame_shows (A : Animation) (n : Nat) (mem : Buffers) (p : Int) (hn : n < A.frameCount)
    (hp : p < 0 ∨ (∃ q : Nat, p = q ∧ q < n ∧ A.Shows q (mem .output)) ∨
      (p = n - 2 ∧ A.Shows (n - 1) (mem .output))) :
    A.Shows n ((drawFrame A.toFrameSequence n mem p).2 .output) := by
  have hstart : (max (p + 1) 0).toNat ≤ n := by
    rcases hp with hneg | ⟨q, rfl, hq, -⟩ | ⟨rfl, -⟩ <;> omega
  have hready : A.Ready (findStart A.toFrameSequence (max (p + 1) 0).toNat n) (mem .output) := by
    rcases findStart_spec A.toFrameSequence (max (p + 1) 0).toNat n hstart with heq | ⟨-, -, hkey⟩
    · rw [heq]
      rcases hp with hneg | ⟨q, rfl, -, hshows⟩ | ⟨rfl, hshows⟩
      · have hzero : (max (p + 1) 0).toNat = 0 := by omega
        rw [hzero]
        exact .inl rfl
      · have hq : (max ((q : Int) + 1) 0).toNat = q + 1 := by omega
        rw [hq]
        exact .inr ⟨q, rfl, hshows.carries⟩
      · rcases Nat.lt_or_ge n 2 with hone | htwo
        · have hzero : (max ((n : Int) - 2 + 1) 0).toNat = 0 := by omega
          rw [hzero]
          exact .inl rfl
        · obtain ⟨m, rfl⟩ := Nat.exists_eq_add_of_le' htwo
          have hm : (max (((m + 2 : Nat) : Int) - 2 + 1) 0).toNat = m + 1 := by omega
          rw [hm]
          exact .inr ⟨m, rfl, hshows.carries_self⟩
    · exact .inl hkey
  have hle : findStart A.toFrameSequence (max (p + 1) 0).toNat n ≤ n := by
    rcases findStart_spec A.toFrameSequence (max (p + 1) 0).toNat n hstart with heq | ⟨-, hle, -⟩
    · exact heq.trans_le hstart
    · exact hle
  rw [drawFrame]
  generalize findStart A.toFrameSequence (max (p + 1) 0).toNat n = start at *
  obtain ⟨hok, hshows⟩ := drawLoop_shows n (n + 1 - start)
    ⟨A.getFrame start, if n = 0 then .output else .preserved, .output, mem⟩ hn
      (by omega) (by omega) rfl
    (by by_cases h0 : n = 0 <;> simp [h0]) hready
  simp only [hok, if_true]
  generalize drawLoop A.toFrameSequence n (n + 1 - start) start _ = r at *
  split
  · rw [Function.update_self]
    intro x y hc
    rw [Compositing.copy_inside hc]
    exact hshows x y hc
  · rename_i hcurr
    rw [ne_eq, not_not] at hcurr
    rwa [hcurr] at hshows

/-- Two frames on a canvas of two pixels: an opaque one that stays, and on its
right pixel a transparent one that is blended. -/
def twoFrames : Animation where
  width := 2
  height := 1
  frameCount := 2
  frame i :=
    if i = 0 then ⟨1, 0, 0, 2, 1, false, .none, .blend, 100, some fun _ _ => 0xff0000ff⟩
    else ⟨2, 1, 0, 1, 1, true, .background, .blend, 100, some fun _ _ => 0⟩
  inside := by decide
  pixels i _ _ := if i = 0 then 0xff0000ff else 0
  decodes := by
    intro i _
    by_cases h : i = 0 <;> simp [h]
  alpha := by
    intro i x y _
    by_cases h : i = 0 <;> simp [h, alphaMask, transparent]
  opaque_alpha := by
    intro i x y _
    by_cases h : i = 0 <;> simp [h, alphaMask]

theorem drawFrame_shows_twoFrames :
    twoFrames.Shows 1 ((drawFrame twoFrames.toFrameSequence 1 (fun _ _ _ => 7) (-1)).2 .output) :=
  drawFrame_shows twoFrames 1 _ (-1) (by decide) (.inl (by decide))

end

end WebpCanvas
