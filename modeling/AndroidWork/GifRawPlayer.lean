import AndroidWork.GifStreamPlayer

/-!
# The decoder in raw-data mode beside its player

`readRawData` and `playImages` of `BaseGifDecoder` on one thread, `next` and
`free` on another. The decoding thread holds `mThreadLock` from the test of
`mStopped` to its wait, the player only while it notifies; `mLock` is held by a
`next` under way. Every access of a shared field is a step of its own; those of
one lock section that nothing can come between are one step.
-/
namespace GifRawPlayer

open GifStreamPlayer (Status)

def COUNT : Nat := 6
def STEP : Nat := COUNT / 2

/-- The decoding thread: `readHeader` and `readContents`; before
`synchronized (mThreadLock)`; the tests and assignments of `readRawData` and
`playImages` in order; one frame on its way through `playSingleFrame`; behind
the loop, behind `mStatus = STATUS_FINISH`, in `wait`, and out of `run`. -/
inductive Decoder where
  | listing
  | entering
  | testing
  | starting
  | clearing
  | resetting
  | marking
  | turning
  | taking
  | decoding (index : Nat)
  | appending (index : Nat) (image : Bool)
  | played (index : Nat)
  | ending
  | leaving
  | waiting
  | done
  deriving DecidableEq, Repr

/-- The player: between calls; in `addQueue` at index `i` with `num` counted;
behind it; at the notify of `next`; at the notify of `free`, behind it, and
behind `free`. -/
inductive Player where
  | idle
  | adding (i num : Nat)
  | advancing
  | notifying
  | freeing
  | clearing
  | freed
  deriving DecidableEq, Repr

/-- How the decoding of a frame ends: well; with a format error; with an
exception; or with too little memory, which leaves an image or none. -/
inductive Outcome where
  | ok
  | fails
  | throws
  | interrupts (image : Bool)
  deriving DecidableEq, Repr

/-- The fields of the decoder. `frames` is the chain from `mGifFrame`, for each
frame whether it has an image; a frame's index is its place. `lockLost` is an
`mLock` that an exception left locked, `decoded` the indices whose image data
this round has decoded. -/
structure Machine where
  status : Status
  frames : List Bool
  currentFrame : Option Nat
  isShow : Bool
  loopedTimes : Nat
  stopped : Bool
  queue : List Nat
  rawData : Bool
  lockLost : Bool
  decoder : Decoder
  player : Player
  decoded : List Nat
  deriving DecidableEq, Repr

/-- `mThreadLock` is held. -/
def Decoder.holdsThreadLock : Decoder → Bool
  | .listing | .entering | .waiting | .done => false
  | _ => true

/-- The player holds `mLock`. -/
def Player.holdsLock : Player → Bool
  | .adding _ _ | .advancing | .notifying => true
  | _ => false

def notify (m : Machine) : Machine :=
  if m.decoder = .waiting then { m with decoder := .entering } else m

/-- The locked part of `playSingleFrame(frame, frameIndex)`. -/
def linkFrame (m : Machine) (index : Nat) (image : Bool) : Machine :=
  if m.frames = [] then
    { m with frames := [image], currentFrame := some 0, decoder := .played index }
  else if index = m.frames.length then
    { m with frames := m.frames ++ [image], decoder := .played index }
  else if 0 < index ∧ index < m.frames.length then
    { m with frames := m.frames.set index image, decoder := .played index }
  else { m with lockLost := true, decoder := .ending }

/-- The next step of the decoding thread, for `frameCount` frames listed; `none`
where it is blocked. Without raw data `readContents` reads zeros for ever. -/
def decoderStep (frameCount : Nat) (o : Outcome) (m : Machine) : Option Machine :=
  match m.decoder with
  | .listing =>
    if !m.rawData then some m
    else if o = .ok then some { m with decoder := .entering }
    else some { m with status := .formatError, decoder := .done }
  | .entering => some { m with decoder := .testing }
  | .testing =>
    if m.stopped then some { m with rawData := false, decoder := .done }
    else if frameCount = 0 then some { m with status := .formatError, decoder := .leaving }
    else some { m with decoder := .starting }
  | .starting => some { m with queue := List.range COUNT, decoded := [], decoder := .clearing }
  | .clearing => some { m with frames := [], decoder := .resetting }
  | .resetting => some { m with currentFrame := none, decoder := .marking }
  | .marking => some { m with status := .parsing, decoder := .turning }
  | .turning => some { m with decoder := if m.stopped then .ending else .taking }
  | .taking =>
    match m.queue with
    | [] => none
    | index :: queue => some { m with queue := queue, decoder := .decoding index }
  | .decoding index =>
    if frameCount ≤ index then some { m with decoder := .ending }
    else if m.status ≠ .parsing then some { m with decoder := .played index }
    else
      match o with
      | .ok => some { m with decoded := m.decoded ++ [index], decoder := .appending index true }
      | .fails => some
        { m with decoded := m.decoded ++ [index], status := .formatError, decoder := .played index }
      | .throws => some { m with decoded := m.decoded ++ [index], decoder := .ending }
      | .interrupts image =>
        some { m with decoded := m.decoded ++ [index], status :=
          .interrupt, decoder := .appending index image }
  | .appending index image => if m.player.holdsLock then none else some (linkFrame m index image)
  | .played index => some { m with decoder := if index + 1 = frameCount then .ending else .turning }
  | .ending => some { m with status := .finish, decoder := .leaving }
  | .leaving => some { m with decoder := .waiting }
  | .waiting => none
  | .done => none

/-- `next` up to its first blocking point. -/
def callNext (frameCount : Nat) (totalLoopTimes : Int) (m : Machine) : Machine :=
  if m.isShow = false then { m with isShow := true }
  else
    match m.currentFrame with
    | none => m
    | some lastFrameIndex =>
      if m.status = .parsing then
        if lastFrameIndex % STEP = 0 ∧ lastFrameIndex + 1 ≠ frameCount ∧ lastFrameIndex ≠ 0 then
          { m with player := .adding (lastFrameIndex + STEP) 0 }
        else { m with player := .advancing }
      else if lastFrameIndex + 1 < m.frames.length then
        { m with currentFrame := some (lastFrameIndex + 1) }
      else
        let loopedTimes := m.loopedTimes + 1
        { m with currentFrame := none, loopedTimes := loopedTimes, player := .notifying,
                 stopped :=
                   m.stopped || decide (totalLoopTimes > 0 ∧ loopedTimes ≥ totalLoopTimes) }

/-- One turn of `addQueue`. -/
def addStep (frameCount i num : Nat) (m : Machine) : Machine :=
  if frameCount ≤ i then { m with player := .advancing }
  else if m.frames[i]? = some true then { m with player := .adding (i + 1) num }
  else if m.queue.length < COUNT then
    { m with queue := m.queue ++ [i],
             player := if num + 1 ≥ COUNT then .advancing else .adding (i + 1) (num + 1) }
  else { m with player := .adding (i + 1) (num + 1) }

/-- The end of a `next` that found the status parsing. -/
def advance (m : Machine) : Machine :=
  match m.currentFrame with
  | none => { m with player := .idle }
  | some c =>
    { m with currentFrame := if c + 1 < m.frames.length then some (c + 1) else some c,
             player := .idle }

/-- The next step of a call under way, `none` where it is blocked. -/
def playerStep (frameCount : Nat) (m : Machine) : Option Machine :=
  match m.player with
  | .idle => none
  | .adding i num => some (addStep frameCount i num m)
  | .advancing => some (advance m)
  | .notifying => if m.decoder.holdsThreadLock then none else some { notify m with player := .idle }
  | .freeing =>
    if m.decoder.holdsThreadLock then none else some { notify m with player := .clearing }
  | .clearing => some { m with frames := [], rawData := false, player := .freed }
  | .freed => none

inductive Event where
  | decoder (o : Outcome)
  | player
  | next
  | free
  deriving DecidableEq, Repr

def step (frameCount : Nat) (totalLoopTimes : Int) (m : Machine) : Event → Option Machine
  | .decoder o => decoderStep frameCount o m
  | .player => playerStep frameCount m
  | .next => if m.player = .idle ∧ m.lockLost = false then
    some (callNext frameCount totalLoopTimes m) else none
  | .free => if m.player = .idle then some { m with stopped := true, player := .freeing } else none

/-- Behind `mStopped = false` of `run` and the `init` of `readRawData`. -/
def initial : Machine where
  status := .parsing
  frames := []
  currentFrame := none
  isShow := false
  loopedTimes := 0
  stopped := false
  queue := []
  rawData := true
  lockLost := false
  decoder := .listing
  player := .idle
  decoded := []

variable {frameCount : Nat} {o : Outcome} {m m' : Machine}

theorem addStep_behind {i num : Nat} (h : frameCount ≤ i) :
    addStep frameCount i num m = { m with player := .advancing } := if_pos h

/-- What a turn of `addQueue` does before its end: it passes a frame, or puts
its index if there is room. -/
theorem addStep_cases (m : Machine) (num : Nat) {i : Nat} (h : i < frameCount) :
    (m.frames[i]? = some true ∧ addStep frameCount i
      num m = { m with player := .adding (i + 1) num }) ∨
    (m.frames[i]? ≠ some true ∧ m.queue.length < COUNT ∧ addStep frameCount i num m =
      { m with queue := m.queue ++ [i],
               player := if num + 1 ≥ COUNT then .advancing else .adding (i + 1) (num + 1) }) ∨
    (m.frames[i]? ≠ some true ∧ COUNT ≤ m.queue.length ∧
      addStep frameCount i num m = { m with player := .adding (i + 1) (num + 1) }) := by
  rw [addStep, if_neg (not_le.mpr h)]
  by_cases hthere : m.frames[i]? = some true
  · exact .inl ⟨hthere, if_pos hthere⟩
  · rw [if_neg hthere]
    by_cases hroom : m.queue.length < COUNT
    · exact .inr (.inl ⟨hthere, hroom, if_pos hroom⟩)
    · exact .inr (.inr ⟨hthere, not_lt.mp hroom, if_neg hroom⟩)

/-- No call of the player is at a notify. -/
def Quiet (p : Player) : Prop := p = .idle ∨ p = .advancing ∨ ∃ i num, p = .adding i num

/-- A turn of `addQueue` puts something behind what is queued, or nothing. -/
theorem addStep_puts (frameCount i num : Nat) (m : Machine) : ∃ put player, Quiet player ∧
    addStep frameCount i num m = { m with queue := m.queue ++ put, player := player } := by
  have hadding (j k : Nat) : Quiet (.adding j k) := .inr (.inr ⟨j, k, rfl⟩)
  have hadvancing : Quiet .advancing := .inr (.inl rfl)
  by_cases hi : frameCount ≤ i
  · exact ⟨[], .advancing, hadvancing, by rw [addStep_behind hi, List.append_nil]⟩
  · rcases addStep_cases m num (not_le.mp hi) with ⟨-, h⟩ | ⟨-, -, h⟩ | ⟨-, -, h⟩
    · exact ⟨[], _, hadding _ _, by rw [h, List.append_nil]⟩
    · refine ⟨[i], _, ?_, h⟩
      split
      · exact hadvancing
      · exact hadding _ _
    · exact ⟨[], _, hadding _ _, by rw [h, List.append_nil]⟩

/-- The cursor stays or goes to a frame that is there. -/
theorem advance_cases (m : Machine) :
    ∃ current, advance m = { m with currentFrame := current, player := .idle } ∧
    ∀ c, current = some c → ∃ c', m.currentFrame = some c' ∧
      (c = c' ∨ c = c' + 1 ∧ c < m.frames.length) := by
  cases hc : m.currentFrame with
  | none => exact ⟨m.currentFrame, by rw [advance, hc], fun c h => by rw [hc] at h; cases h⟩
  | some c =>
    by_cases hmore : c + 1 < m.frames.length
    · refine ⟨some (c + 1), by simp only [advance, hc, if_pos hmore], ?_⟩
      rintro _ ⟨⟩
      exact ⟨c, rfl, .inr ⟨rfl, hmore⟩⟩
    · refine ⟨some c, by simp only [advance, hc, if_neg hmore], ?_⟩
      rintro _ ⟨⟩
      exact ⟨c, rfl, .inl rfl⟩

theorem linkFrame_first {index : Nat} {image : Bool} (h : m.frames = []) : linkFrame m index image =
    { m with frames := [image], currentFrame := some 0, decoder := .played index } := if_pos h

theorem linkFrame_next {index : Nat} {image : Bool} (hne : m.frames ≠ [])
    (h : index = m.frames.length) :
    linkFrame m index image =
      { m with frames := m.frames ++ [image], decoder := .played index } := by
  rw [linkFrame, if_neg hne, if_pos h]

/-- A frame is linked only while the player does not hold `mLock`. -/
theorem decoderStep_appending {index : Nat} {image : Bool}
    (hd : m.decoder = .appending index image) :
    decoderStep frameCount o m = some m' ↔
      m.player.holdsLock = false ∧ m' = linkFrame m index image := by
  simp only [decoderStep, hd]
  cases m.player.holdsLock with
  | true => simp
  | false => simp [eq_comm]

/-- How the decoding thread goes on, by `mStopped`. -/
inductive Moves (stopped : Bool) : Decoder → Decoder → Prop where
  | spin : Moves stopped .listing .listing
  | list : Moves stopped .listing .entering
  | listFails : Moves stopped .listing .done
  | enter : Moves stopped .entering .testing
  | leave (h : stopped = true) : Moves stopped .testing .done
  | begin (h : stopped = false) : Moves stopped .testing .starting
  | noFrames (h : stopped = false) : Moves stopped .testing .leaving
  | initQueue : Moves stopped .starting .clearing
  | clear : Moves stopped .clearing .resetting
  | reset : Moves stopped .resetting .marking
  | mark : Moves stopped .marking .turning
  | turn (h : stopped = false) : Moves stopped .turning .taking
  | stop (h : stopped = true) : Moves stopped .turning .ending
  | take (index : Nat) : Moves stopped .taking (.decoding index)
  | decode (index : Nat) (image : Bool) : Moves stopped (.decoding index) (.appending index image)
  | pass (index : Nat) : Moves stopped (.decoding index) (.played index)
  | throw (index : Nat) : Moves stopped (.decoding index) .ending
  | link (index : Nat) (image : Bool) : Moves stopped (.appending index image) (.played index)
  | lose (index : Nat) (image : Bool) : Moves stopped (.appending index image) .ending
  | again (index : Nat) : Moves stopped (.played index) .turning
  | last (index : Nat) : Moves stopped (.played index) .ending
  | finish : Moves stopped .ending .leaving
  | wait : Moves stopped .leaving .waiting

theorem linkFrame_moves (m : Machine) (stopped : Bool) (index : Nat) (image : Bool) :
    Moves stopped (.appending index image) (linkFrame m index image).decoder ∧
      (linkFrame m index image).player = m.player ∧
      (linkFrame m index image).stopped = m.stopped := by
  rw [linkFrame]
  split
  · exact ⟨.link index image, rfl, rfl⟩
  · split
    · exact ⟨.link index image, rfl, rfl⟩
    · split
      · exact ⟨.link index image, rfl, rfl⟩
      · exact ⟨.lose index image, rfl, rfl⟩

theorem listing_moves (hd : m.decoder = .listing) (h : decoderStep frameCount o m = some m') :
    Moves m.stopped .listing m'.decoder ∧ m'.player = m.player ∧ m'.stopped = m.stopped ∧
      m'.currentFrame = m.currentFrame := by
  simp only [decoderStep, hd] at h
  split at h
  · cases h
    rw [hd]
    exact ⟨.spin, rfl, rfl, rfl⟩
  · split at h <;> cases h
    · exact ⟨.list, rfl, rfl, rfl⟩
    · exact ⟨.listFails, rfl, rfl, rfl⟩

theorem testing_moves (hd : m.decoder = .testing) (h : decoderStep frameCount o m = some m') :
    Moves m.stopped .testing m'.decoder ∧ m'.player = m.player ∧ m'.stopped = m.stopped ∧
      m'.currentFrame = m.currentFrame := by
  simp only [decoderStep, hd] at h
  cases hs : m.stopped with
  | true =>
    rw [hs, if_pos rfl] at h
    cases h
    exact ⟨.leave rfl, rfl, rfl, rfl⟩
  | false =>
    rw [hs, if_neg (by decide)] at h
    split at h <;> cases h
    · exact ⟨.noFrames rfl, rfl, rfl, rfl⟩
    · exact ⟨.begin rfl, rfl, rfl, rfl⟩

theorem decoding_moves {index : Nat} (hd : m.decoder = .decoding index)
    (h : decoderStep frameCount o m = some m') :
    Moves m.stopped (.decoding index) m'.decoder ∧ m'.player = m.player ∧ m'.stopped = m.stopped ∧
      m'.currentFrame = m.currentFrame := by
  simp only [decoderStep, hd] at h
  split at h
  · cases h
    exact ⟨.throw index, rfl, rfl, rfl⟩
  · split at h
    · cases h
      exact ⟨.pass index, rfl, rfl, rfl⟩
    · cases o <;> cases h
      · exact ⟨.decode index true, rfl, rfl, rfl⟩
      · exact ⟨.pass index, rfl, rfl, rfl⟩
      · exact ⟨.throw index, rfl, rfl, rfl⟩
      · exact ⟨.decode index _, rfl, rfl, rfl⟩

/-- A step of the decoding thread leaves the player and `mStopped`, and gives
the cursor a frame only where it links one. -/
theorem decoderStep_moves (h : decoderStep frameCount o m = some m') :
    Moves m.stopped m.decoder m'.decoder ∧ m'.player = m.player ∧ m'.stopped = m.stopped ∧
      (m'.currentFrame = m.currentFrame ∨ m'.currentFrame = none ∨
        m.player.holdsLock = false ∧ ∃ index image, m.decoder = .appending index image) := by
  cases hd : m.decoder with
  | listing =>
    obtain ⟨hmoves, hplayer, hstopped, hcurrent⟩ := listing_moves hd h
    exact ⟨hmoves, hplayer, hstopped, .inl hcurrent⟩
  | entering =>
    simp only [decoderStep, hd] at h
    cases h
    exact ⟨.enter, rfl, rfl, .inl rfl⟩
  | testing =>
    obtain ⟨hmoves, hplayer, hstopped, hcurrent⟩ := testing_moves hd h
    exact ⟨hmoves, hplayer, hstopped, .inl hcurrent⟩
  | starting =>
    simp only [decoderStep, hd] at h
    cases h
    exact ⟨.initQueue, rfl, rfl, .inl rfl⟩
  | clearing =>
    simp only [decoderStep, hd] at h
    cases h
    exact ⟨.clear, rfl, rfl, .inl rfl⟩
  | resetting =>
    simp only [decoderStep, hd] at h
    cases h
    exact ⟨.reset, rfl, rfl, .inr (.inl rfl)⟩
  | marking =>
    simp only [decoderStep, hd] at h
    cases h
    exact ⟨.mark, rfl, rfl, .inl rfl⟩
  | turning =>
    simp only [decoderStep, hd] at h
    cases h
    refine ⟨?_, rfl, rfl, .inl rfl⟩
    cases m.stopped with
    | true => exact .stop rfl
    | false => exact .turn rfl
  | taking =>
    simp only [decoderStep, hd] at h
    split at h <;> cases h
    exact ⟨.take _, rfl, rfl, .inl rfl⟩
  | decoding index =>
    obtain ⟨hmoves, hplayer, hstopped, hcurrent⟩ := decoding_moves hd h
    exact ⟨hmoves, hplayer, hstopped, .inl hcurrent⟩
  | appending index image =>
    obtain ⟨hfree, rfl⟩ := (decoderStep_appending hd).mp h
    obtain ⟨hmoves, hplayer, hstopped⟩ := linkFrame_moves m m.stopped index image
    exact ⟨hmoves, hplayer, hstopped, .inr (.inr ⟨hfree, index, image, rfl⟩)⟩
  | played index =>
    simp only [decoderStep, hd] at h
    cases h
    refine ⟨?_, rfl, rfl, .inl rfl⟩
    by_cases hlast : index + 1 = frameCount
    · rw [if_pos hlast]
      exact .last index
    · rw [if_neg hlast]
      exact .again index
  | ending =>
    simp only [decoderStep, hd] at h
    cases h
    exact ⟨.finish, rfl, rfl, .inl rfl⟩
  | leaving =>
    simp only [decoderStep, hd] at h
    cases h
    exact ⟨.wait, rfl, rfl, .inl rfl⟩
  | waiting =>
    simp only [decoderStep, hd] at h
    cases h
  | done =>
    simp only [decoderStep, hd] at h
    cases h

/-- A refill is due at the frame. -/
def Refills (frameCount lastFrameIndex : Nat) : Prop :=
  lastFrameIndex % STEP = 0 ∧ lastFrameIndex + 1 ≠ frameCount ∧ lastFrameIndex ≠ 0

/-- What a call of `next` does up to its first blocking point. -/
theorem callNext_cases (frameCount : Nat) (totalLoopTimes : Int) (m : Machine) :
    callNext frameCount totalLoopTimes m = { m with isShow := true } ∨
    ∃ c, m.currentFrame = some c ∧
      ((m.status = .parsing ∧ Refills frameCount c ∧
          callNext frameCount totalLoopTimes m = { m with player := .adding (c + STEP) 0 }) ∨
        (m.status = .parsing ∧ ¬ Refills frameCount c ∧
          callNext frameCount totalLoopTimes m = { m with player := .advancing }) ∨
        (m.status ≠ .parsing ∧ c + 1 < m.frames.length ∧
          callNext frameCount totalLoopTimes m = { m with currentFrame := some (c + 1) }) ∨
        (m.status ≠ .parsing ∧ m.frames.length ≤ c + 1 ∧
          callNext frameCount totalLoopTimes m =
            { m with currentFrame := none, loopedTimes := m.loopedTimes + 1, player := .notifying,
                     stopped := m.stopped ||
                       decide (totalLoopTimes > 0 ∧ ((m.loopedTimes + 1 : Nat) : Int) ≥
                         totalLoopTimes) })) := by
  cases hshow : m.isShow with
  | false => exact .inl (if_pos hshow)
  | true =>
    cases hc : m.currentFrame with
    | none =>
      left
      simp only [callNext, hshow, hc, Bool.true_eq_false, if_false]
      rw [← hshow, ← hc]
    | some c =>
      refine .inr ⟨c, rfl, ?_⟩
      simp only [callNext, hshow, hc, Bool.true_eq_false, if_false]
      by_cases hstatus : m.status = .parsing
      · by_cases hrefills : Refills frameCount c
        · exact .inl ⟨hstatus, hrefills, (if_pos hstatus).trans (if_pos hrefills)⟩
        · exact .inr (.inl ⟨hstatus, hrefills, (if_pos hstatus).trans (if_neg hrefills)⟩)
      · by_cases hmore : c + 1 < m.frames.length
        · exact .inr (.inr (.inl ⟨hstatus, hmore, by rw [if_neg hstatus, if_pos hmore]⟩))
        · exact .inr (.inr (.inr ⟨hstatus, not_lt.mp hmore, by rw [if_neg hstatus, if_neg hmore]⟩))

end GifRawPlayer
