import AndroidWork.EventRuns

/-!
# The drawable of a frame sequence

`FrameSequenceDrawable`: its fields under `mLock`, the sections its UI calls and
its decode runnable run under that lock, and the machine that interleaves them.
A UI call is the list of its sections; the decoding thread runs one runnable at
a time. Times are left out: a draw says whether the swap is due.
-/
namespace FrameSequenceDrawable

/-- The two bitmaps the constructor acquires. -/
inductive Bitmap where
  | first
  | second
  deriving DecidableEq, Repr

/-- `mState`; `none` is its value 0. -/
inductive SwapState where
  | none
  | scheduled
  | decoding
  | waitingToSwap
  | readyToSwap
  deriving DecidableEq, Repr

inductive LoopBehavior where
  | finite
  | inf
  | default
  deriving DecidableEq, Repr

/-- What the sequence and the caller fix. -/
structure Setup where
  frameCount : Nat
  frames : 0 < frameCount
  loopBehavior : LoopBehavior
  loopCount : Int
  defaultLoopCount : Int

/-- The fields that `mLock` protects; `neverSwaps` is `mNextSwap` at its maximum. -/
structure Fields where
  destroyed : Bool
  frontBitmap : Option Bitmap
  backBitmap : Option Bitmap
  state : SwapState
  currentLoop : Int
  neverSwaps : Bool
  nextFrameToDecode : Int
  deriving DecidableEq, Repr

def isRunning (f : Fields) : Bool := decide (f.nextFrameToDecode > -1) && !f.destroyed

/-- What a section hands to a handler. -/
inductive Posts where
  | nothing
  | decode
  | finishedCallback
  deriving DecidableEq, Repr

/-- `scheduleDecodeLocked`, which also posts `mDecodeRunnable`. -/
def scheduleDecodeLocked (p : Setup) (f : Fields) : Fields :=
  { f with state := .scheduled, nextFrameToDecode := (f.nextFrameToDecode + 1) % p.frameCount }

/-- The swap of front and back in `draw`. -/
def swapped (f : Fields) : Fields :=
  { f with backBitmap := f.frontBitmap, frontBitmap := f.backBitmap }

/-- The end of the last loop, where `draw` stops scheduling. -/
def loopsOver (p : Setup) (currentLoop : Int) : Bool :=
  (decide (p.loopBehavior = .finite) && decide (currentLoop = p.loopCount)) ||
    (decide (p.loopBehavior = .default) && decide (currentLoop = p.defaultLoopCount))

/-- The locked part of `draw`: the fields, what is posted, and whether it
swapped; `none` is the exception of a destroyed drawable. -/
def drawLocked (p : Setup) (due : Bool) (f : Fields) : Option (Fields × Posts × Bool) :=
  if f.destroyed then none
  else
    let f := if f.state = .waitingToSwap ∧ due ∧ ¬ f.neverSwaps then
      { f with state := .readyToSwap } else f
    if isRunning f ∧ f.state = .readyToSwap then
      let f := swapped f
      let last := f.nextFrameToDecode = p.frameCount - 1
      let f := if last then { f with currentLoop := f.currentLoop + 1 } else f
      let continueLooping := !(decide last && loopsOver p f.currentLoop)
      if continueLooping then some (scheduleDecodeLocked p f, .decode, true)
      else some (f, .finishedCallback, true)
    else some (f, .nothing, false)

/-- `run`. -/
def runLocked (f : Fields) : Fields :=
  if f.nextFrameToDecode ≥ 0 ∧ f.state = .waitingToSwap then { f with state := .readyToSwap } else f

/-- The locked part of `start`. -/
def startLocked (p : Setup) (f : Fields) : Option (Fields × Posts) :=
  if f.destroyed then none
  else if f.state = .scheduled then some (f, .nothing)
  else some (scheduleDecodeLocked p { f with currentLoop := 0 }, .decode)

/-- The locked part of `unscheduleSelf`, and of `mFinishedCallbackRunnable`. -/
def unscheduleLocked (f : Fields) : Fields := { f with nextFrameToDecode := -1, state := .none }

/-- The locked part of `destroy`: the fields and the bitmaps to release. -/
def destroyLocked (f : Fields) : Option (Fields × List Bitmap) :=
  if f.destroyed then none
  else
    let a := f.frontBitmap.toList
    if f.state ≠ .decoding then
      some ({ f with frontBitmap := none, backBitmap := none, destroyed := true },
        a ++ f.backBitmap.toList)
    else some ({ f with frontBitmap := none, destroyed := true }, a)

/-- The first locked part of the decode runnable: the frame and the bitmap it
goes on with, if it does. -/
def decodeBegin (f : Fields) : Fields × Option (Int × Option Bitmap) :=
  if f.destroyed then (f, none)
  else if f.nextFrameToDecode < 0 then (f, none)
  else ({ f with state := .decoding }, some (f.nextFrameToDecode, f.backBitmap))

/-- Its second locked part: the bitmap it has to release. -/
def decodeEnd (exceptionDuringDecode : Bool) (f : Fields) : Fields × Option Bitmap :=
  if f.destroyed then ({ f with backBitmap := none }, f.backBitmap)
  else if f.nextFrameToDecode ≥ 0 ∧ f.state = .decoding then
    ({ f with neverSwaps := exceptionDuringDecode, state := .waitingToSwap }, none)
  else (f, none)

/-- The sections of the UI calls. -/
inductive Section where
  | startTest
  | startLocked
  | stopTest
  | unschedule
  | draw
  | run
  | finishedCallback
  | destroy
  | release (b : Bitmap)
  deriving DecidableEq, Repr

/-- The calls on the UI thread; `setVisible` with what `super.setVisible` gives. -/
inductive UiCall where
  | start
  | stop
  | setVisible (visible restart changed : Bool)
  | draw
  | run
  | finishedCallback
  | destroy
  deriving DecidableEq, Repr

/-- The sections a call goes through; a test drops what it guards. -/
def UiCall.sections : UiCall → List Section
  | .start => [.startTest]
  | .stop => [.stopTest]
  | .setVisible visible restart changed =>
    if !visible then [.stopTest] else if restart || changed then [.stopTest, .startTest] else []
  | .draw => [.draw]
  | .run => [.run]
  | .finishedCallback => [.finishedCallback]
  | .destroy => [.destroy]

/-- The decoding thread: between runnables, in `getFrame`, or behind the second
locked part with a bitmap to release. -/
inductive Decoder where
  | idle
  | decoding (frame : Int) (bitmap : Option Bitmap)
  | leaving (bitmapToRelease : Option Bitmap)
  deriving DecidableEq, Repr

/-- `getFrame` is running. -/
def Decoding (d : Decoder) : Prop := ∃ frame bitmap, d = .decoding frame bitmap

/-- The drawable between its two threads. The last four are what an observer
sees: the frame last decoded into each bitmap, the frames decoded, the frames
swapped to the front, and the frame in front at each finished callback. -/
structure Machine where
  fields : Fields
  ui : List Section
  posted : Nat
  finishing : Nat
  decoder : Decoder
  released : List Bitmap
  pixels : Bitmap → Option Int
  decoded : List (Option Int)
  shown : List (Option Int)
  callbacks : List (Option Int)

inductive Event where
  | call (c : UiCall)
  | ui (due : Bool)
  | decodeBegin
  | decodeEnd (exceptionDuringDecode : Bool)
  | decodeLeave
  deriving DecidableEq, Repr

def Machine.post (m : Machine) : Posts → Machine
  | .nothing => m
  | .decode => { m with posted := m.posted + 1 }
  | .finishedCallback => { m with finishing := m.finishing + 1 }

/-- The frame in the front bitmap. -/
def Machine.front (m : Machine) : Option Int := m.fields.frontBitmap.bind m.pixels

/-- One section of the current UI call; an exception ends the call. -/
def sectionStep (p : Setup) (due : Bool) (m : Machine) (rest : List Section) : Section → Machine
  | .startTest => { m with ui := if isRunning m.fields then rest else .startLocked :: rest }
  | .startLocked =>
    match startLocked p m.fields with
    | none => { m with ui := [] }
    | some (f, posts) => Machine.post { m with fields := f, ui := rest } posts
  | .stopTest => { m with ui := if isRunning m.fields then .unschedule :: rest else rest }
  | .unschedule => { m with fields := unscheduleLocked m.fields, ui := rest }
  | .draw =>
    match drawLocked p due m.fields with
    | none => { m with ui := [] }
    | some (f, posts, swapped) =>
      let m := { m with fields := f, ui := rest }
      Machine.post { m with shown := if swapped then m.shown ++ [m.front] else m.shown } posts
  | .run => { m with fields := runLocked m.fields, ui := rest }
  | .finishedCallback =>
    { m with fields := unscheduleLocked m.fields, ui := rest, callbacks :=
      m.callbacks ++ [m.front] }
  | .destroy =>
    match destroyLocked m.fields with
    | none => { m with ui := [] }
    | some (f, bitmaps) => { m with fields := f, ui := bitmaps.map .release ++ rest }
  | .release b => { m with ui := rest, released := m.released ++ [b] }

/-- The machine's steps. A call starts when the last one is over, the finished
callback when it was scheduled. -/
def next (p : Setup) (m : Machine) : Event → Option Machine
  | .call c =>
    if m.ui ≠ [] then none
    else if c = .finishedCallback then
      if m.finishing = 0 then none
      else some { m with ui := c.sections, finishing := m.finishing - 1 }
    else some { m with ui := c.sections }
  | .ui due =>
    match m.ui with
    | [] => none
    | s :: rest => some (sectionStep p due m rest s)
  | .decodeBegin =>
    if m.decoder = .idle ∧ 0 < m.posted then
      let (f, going) := decodeBegin m.fields
      some { m with fields := f, posted := m.posted - 1,
                    decoder := going.elim .idle fun g => .decoding g.1 g.2 }
    else none
  | .decodeEnd exceptionDuringDecode =>
    match m.decoder with
    | .decoding frame bitmap =>
      let (f, bitmapToRelease) := decodeEnd exceptionDuringDecode m.fields
      let content := if exceptionDuringDecode then none else some frame
      some { m with fields := f, decoder := .leaving bitmapToRelease,
                    pixels := fun b => if bitmap = some b then content else m.pixels b,
                    decoded := m.decoded ++ [content] }
    | _ => none
  | .decodeLeave =>
    match m.decoder with
    | .leaving bitmapToRelease =>
      some { m with decoder := .idle, released := m.released ++ bitmapToRelease.toList }
    | _ => none

/-- A new drawable: frame 0 is decoded to the front, nothing runs. -/
def initial : Machine where
  fields := ⟨false, some .first, some .second, .none, 0, false, -1⟩
  ui := []
  posted := 0
  finishing := 0
  decoder := .idle
  released := []
  pixels := fun b => if b = .first then some 0 else none
  decoded := []
  shown := []
  callbacks := []

/-- The last frame of the last loop is in the back bitmap. -/
def AtEnd (p : Setup) (f : Fields) : Prop :=
  f.nextFrameToDecode = p.frameCount - 1 ∧ loopsOver p (f.currentLoop + 1) = true

/-- The loop count behind a swap. -/
def loopAfter (p : Setup) (f : Fields) : Int :=
  if f.nextFrameToDecode = p.frameCount - 1 then f.currentLoop + 1 else f.currentLoop

/-- The first conditional of `draw`. -/
def markReady (due : Bool) (f : Fields) : Fields :=
  if f.state = .waitingToSwap ∧ due ∧ ¬ f.neverSwaps then { f with state := .readyToSwap } else f

theorem markReady_cases (due : Bool) (f : Fields) : ∃ s, markReady due f = { f with state := s } ∧
    (s = f.state ∨ f.state = .waitingToSwap ∧ s = .readyToSwap) := by
  by_cases h : f.state = .waitingToSwap ∧ due ∧ ¬ f.neverSwaps
  · exact ⟨.readyToSwap, if_pos h, .inr ⟨h.1, rfl⟩⟩
  · exact ⟨f.state, if_neg h, .inl rfl⟩

/-- The rest of `draw`, behind the mark. -/
theorem drawLocked_marked {p : Setup} {due swap : Bool} {f f' : Fields} {posts : Posts}
    (h : drawLocked p due f = some (f', posts, swap)) : f.destroyed = false ∧
      ((swap = false ∧ posts = .nothing ∧ f' = markReady due f) ∨
        (swap = true ∧ (markReady due f).nextFrameToDecode > -1 ∧
          (markReady due f).state = .readyToSwap ∧
          ((AtEnd p f ∧ posts = .finishedCallback ∧
              f' = { swapped (markReady due f) with currentLoop := loopAfter p f }) ∨
            (¬ AtEnd p f ∧ posts = .decode ∧
              f' = scheduleDecodeLocked p { swapped
                (markReady due f) with currentLoop := loopAfter p f })))) := by
  have hsame : (markReady due f).nextFrameToDecode = f.nextFrameToDecode ∧
      (markReady due f).currentLoop = f.currentLoop := by
    obtain ⟨s, h, -⟩ := markReady_cases due f
    rw [h]
    exact ⟨rfl, rfl⟩
  rw [drawLocked, ← markReady] at h
  cases hd : f.destroyed with
  | true => simp [hd] at h
  | false =>
    refine ⟨rfl, ?_⟩
    simp only [hd, Bool.false_eq_true, if_false] at h
    rw [AtEnd, loopAfter, ← hsame.1, ← hsame.2]
    generalize markReady due f = g at h ⊢
    by_cases hready : isRunning g = true ∧ g.state = .readyToSwap
    · rw [if_pos hready] at h
      right
      have hrunning : g.nextFrameToDecode > -1 := by
        have := hready.1
        rw [isRunning, Bool.and_eq_true, decide_eq_true_eq] at this
        exact this.1
      by_cases hlast : g.nextFrameToDecode = p.frameCount - 1
      · by_cases hover : loopsOver p (g.currentLoop + 1) = true
        · simp only [swapped, hlast, hover, if_true, decide_true, Bool.and_self, Bool.not_true,
            Bool.false_eq_true, if_false] at h
          cases h
          refine ⟨rfl, hrunning, hready.2, .inl ⟨⟨hlast, hover⟩, rfl, ?_⟩⟩
          rw [if_pos hlast, swapped, hlast]
        · simp only [swapped, hlast, hover, if_true, decide_true, Bool.and_false,
            Bool.not_false] at h
          cases h
          refine ⟨rfl, hrunning, hready.2, .inr ⟨fun he => hover he.2, rfl, ?_⟩⟩
          rw [if_pos hlast, swapped, hlast]
      · simp only [swapped, hlast, if_false, decide_false, Bool.false_and,
          Bool.not_false, if_true] at h
        cases h
        refine ⟨rfl, hrunning, hready.2, .inr ⟨fun he => hlast he.1, rfl, ?_⟩⟩
        rw [if_neg hlast, swapped]
    · rw [if_neg hready] at h
      cases h
      exact .inl ⟨rfl, rfl, rfl⟩

theorem decodeBegin_cases (f : Fields) : decodeBegin f = (f, none) ∨
    f.destroyed = false ∧ 0 ≤ f.nextFrameToDecode ∧
      decodeBegin f = ({ f with state := .decoding },
        some (f.nextFrameToDecode, f.backBitmap)) := by
  rw [decodeBegin]
  cases hd : f.destroyed with
  | true => exact .inl (if_pos rfl)
  | false =>
    rw [if_neg (by decide)]
    by_cases hn : f.nextFrameToDecode < 0
    · exact .inl (if_pos hn)
    · exact .inr ⟨rfl, by omega, if_neg hn⟩

theorem decodeEnd_cases (exceptionDuringDecode : Bool) (f : Fields) :
    (f.destroyed = true ∧ decodeEnd exceptionDuringDecode f =
      ({ f with backBitmap := none }, f.backBitmap)) ∨
    (f.destroyed = false ∧ 0 ≤ f.nextFrameToDecode ∧ f.state = .decoding ∧
      decodeEnd exceptionDuringDecode f =
        ({ f with neverSwaps := exceptionDuringDecode, state := .waitingToSwap }, none)) ∨
    (f.destroyed = false ∧ ¬ (0 ≤ f.nextFrameToDecode ∧ f.state = .decoding) ∧
      decodeEnd exceptionDuringDecode f = (f, none)) := by
  rw [decodeEnd]
  cases hd : f.destroyed with
  | true => exact .inl ⟨rfl, if_pos rfl⟩
  | false =>
    rw [if_neg (by decide)]
    by_cases hdec : f.nextFrameToDecode ≥ 0 ∧ f.state = .decoding
    · exact .inr (.inl ⟨rfl, hdec.1, hdec.2, if_pos hdec⟩)
    · exact .inr (.inr ⟨rfl, hdec, if_neg hdec⟩)

end FrameSequenceDrawable
