import AndroidWork.FrameSequenceDrawable

/-!
# A drawable that loops a finite number of times

The frames a started drawable swaps to the front, over any order of draws, runs,
decodes and finished callbacks. Between two swaps it goes through three stages
(scheduled, decoding, decoded); behind the last swap the finished callback ends
it.
-/
namespace FiniteLoop

open EventRuns (Reached)
open FrameSequenceDrawable

/-- A finite loop mode with `n` loops. -/
structure Loops (p : Setup) (n : Nat) : Prop where
  pos : 0 < n
  mode : (p.loopBehavior = .finite ∧ p.loopCount = n) ∨
    (p.loopBehavior = .default ∧ p.defaultLoopCount = n)

/-- The frame at a place of the endless repetition. -/
def frameAt (p : Setup) (k : Nat) : Int := ((k % p.frameCount : Nat) : Int)

/-- The first `k` frames of the endless repetition. -/
def frames (p : Setup) (k : Nat) : List (Option Int) :=
  (List.range k).map fun i => some (frameAt p i)

/-- A drawable on which `start` was called. -/
def started : Machine :=
  { initial with fields :=
    { initial.fields with state := .scheduled, nextFrameToDecode := 0 }, posted := 1 }

/-- The events of a started drawable; every decode succeeds. -/
def Listed : Event → Prop
  | .call c => c = .draw ∨ c = .run ∨ c = .finishedCallback
  | .decodeEnd exceptionDuringDecode => exceptionDuringDecode = false
  | _ => True

/-- Nothing is drawn between the last swap and the finished callback. -/
def Allowed (m : Machine) (e : Event) : Prop := Listed e ∧ (e = .call .draw → m.finishing = 0)

/-- The frames shown are those of `n` loops in order as far as they go, each
decoded once; the finished callback is pending or run only behind all of them,
runs once, and finds the last frame in front. -/
structure Plays (p : Setup) (n : Nat) (m : Machine) : Prop where
  shown : ∃ k ≤ n * p.frameCount, m.shown = frames p k ∧
    (m.decoded = frames p k ∨ k < n * p.frameCount ∧ m.decoded = frames p (k + 1)) ∧
    (0 < m.finishing ∨ m.callbacks ≠ [] → k = n * p.frameCount)
  callbacks : m.callbacks = [] ∨ m.callbacks = [some ((p.frameCount : Int) - 1)]

theorem frames_succ (p : Setup) (k : Nat) :
    frames p (k + 1) = frames p k ++ [some (frameAt p k)] := by
  rw [frames, List.range_succ, List.map_append]
  rfl

theorem started_eq (p : Setup) :
    EventRuns.run (next p) initial [.call .start, .ui false, .ui false] = some started := rfl

/-- What holds of every stage before the last swap, `k` swaps in. -/
structure Running (p : Setup) (n k : Nat) (m : Machine) : Prop where
  before : k < n * p.frameCount
  cursor : m.fields.nextFrameToDecode = frameAt p k
  loop : m.fields.currentLoop = ((k / p.frameCount : Nat) : Int)
  pending : m.finishing = 0
  calm : m.ui ≠ [.finishedCallback]
  callbacks : m.callbacks = []

/-- Where a started drawable is, `k` swaps in. -/
inductive Stage (p : Setup) (n k : Nat) (m : Machine) : Prop where
  | scheduled (h : Running p n k m) (hstate : m.fields.state = .scheduled) (hposted : m.posted = 1)
      (hidle : ¬ Decoding m.decoder) (hdecoded : m.decoded = frames p k)
  | decoding (h : Running p n k m) (hstate : m.fields.state = .decoding) (hposted : m.posted = 0)
      (hdecoder : m.decoder = .decoding (frameAt p k) m.fields.backBitmap)
        (hdecoded : m.decoded = frames p k)
  | decoded (h : Running p n k m)
      (hstate : m.fields.state = .waitingToSwap ∨ m.fields.state = .readyToSwap)
        (hposted : m.posted = 0)
      (hidle : ¬ Decoding m.decoder) (hback : m.fields.backBitmap.bind m.pixels =
        some (frameAt p k))
      (hdecoded : m.decoded = frames p (k + 1))
  | ending (hk : k = n * p.frameCount) (hstate : m.fields.state = .readyToSwap)
    (hposted : m.posted = 0)
      (hidle : ¬ Decoding m.decoder) (hfront : m.front = some ((p.frameCount : Int) - 1))
      (hdecoded : m.decoded = frames p k) (hcallbacks : m.callbacks = [])
      (hpending : m.finishing = 1 ∧ (m.ui = [] ∨ m.ui = [.run]) ∨ m.finishing = 0 ∧
        m.ui = [.finishedCallback])
  | finished (hk : k = n * p.frameCount) (hstate : m.fields.state = .none) (hposted : m.posted = 0)
      (hidle : ¬ Decoding m.decoder) (hdecoded : m.decoded = frames p k)
        (hpending : m.finishing = 0)
      (hcalm : m.ui ≠ [.finishedCallback])
        (hcallbacks : m.callbacks = [some ((p.frameCount : Int) - 1)])

/-- The invariant: the frames shown so far, both bitmaps in place, and the stage. -/
structure Shows (p : Setup) (n k : Nat) (m : Machine) : Prop where
  live : m.fields.destroyed = false
  places : ∃ x y, m.fields.frontBitmap = some x ∧ m.fields.backBitmap = some y ∧ x ≠ y
  shown : m.shown = frames p k
  sections : m.ui = [] ∨ m.ui = [.draw] ∨ m.ui = [.run] ∨ m.ui = [.finishedCallback]
  stage : Stage p n k m

theorem loopsOver_iff {p : Setup} {n : Nat} (h : Loops p n) (c : Int) :
    loopsOver p c = true ↔ c = n := by
  rw [loopsOver, Bool.or_eq_true, Bool.and_eq_true, Bool.and_eq_true, decide_eq_true_eq,
    decide_eq_true_eq,
    decide_eq_true_eq, decide_eq_true_eq]
  rcases h.mode with ⟨hb, hc⟩ | ⟨hb, hc⟩
  · rw [hb, hc]
    simp
  · rw [hb, hc]
    simp

/-- The last frame of a loop, by the number of the swap. -/
theorem last_iff (p : Setup) (k : Nat) : frameAt p k = p.frameCount - 1 ↔
    (k + 1) % p.frameCount = 0 := by
  have hF := p.frames
  have hlt := Nat.mod_lt k hF
  have hsucc : (k + 1) % p.frameCount = if k % p.frameCount + 1 = p.frameCount then
      0 else k % p.frameCount + 1 := by
    rw [← Nat.mod_add_mod]
    split
    · rename_i he
      rw [he, Nat.mod_self]
    · exact Nat.mod_eq_of_lt (by omega)
  rw [frameAt, hsucc]
  split <;> omega

theorem loop_succ (p : Setup) (k : Nat) : (k + 1) / p.frameCount =
    if (k + 1) % p.frameCount = 0 then k / p.frameCount + 1 else k / p.frameCount := by
  simp only [Nat.succ_div, Nat.dvd_iff_mod_eq_zero]
  split <;> rfl

/-- The end of the last loop comes with the last swap. -/
theorem atEnd_iff {p : Setup} {n k : Nat} {m : Machine} (hn : Loops p n) (h : Running p n k m) :
    AtEnd p m.fields ↔ k + 1 = n * p.frameCount := by
  rw [AtEnd, loopsOver_iff hn, h.cursor, h.loop, last_iff]
  have hsplit := Nat.div_add_mod (k + 1) p.frameCount
  have hsucc := loop_succ p k
  have hF := p.frames
  constructor
  · rintro ⟨hlast, hloop⟩
    rw [if_pos hlast] at hsucc
    rw [hlast, hsucc] at hsplit
    have : k / p.frameCount + 1 = n := by omega
    rw [this] at hsplit
    rw [← hsplit, Nat.add_zero, Nat.mul_comm]
  · intro hk
    have hlast : (k + 1) % p.frameCount = 0 := by rw [hk, Nat.mul_mod_left]
    rw [if_pos hlast, hk, Nat.mul_div_cancel _ hF] at hsucc
    exact ⟨hlast, by omega⟩

theorem frameAt_succ (p : Setup) (k : Nat) :
    (frameAt p k + 1) % p.frameCount = frameAt p (k + 1) := by
  rw [frameAt, frameAt, ← Nat.cast_succ, ← Int.natCast_mod, Nat.succ_eq_add_one, Nat.mod_add_mod]

theorem loopAfter_eq {p : Setup} {n k : Nat} {m : Machine} (h : Running p n k m) :
    loopAfter p m.fields = (((k + 1) / p.frameCount : Nat) : Int) := by
  rw [loopAfter, h.cursor, h.loop, loop_succ]
  simp only [last_iff]
  split <;> push_cast <;> rfl

theorem started_shows {p : Setup} {n : Nat} (hn : Loops p n) : Shows p n 0 started where
  live := rfl
  places := ⟨.first, .second, rfl, rfl, by decide⟩
  shown := rfl
  sections := .inl rfl
  stage := by
    have hpos : 0 < n * p.frameCount := Nat.mul_pos hn.pos p.frames
    have hrunning : Running p n 0 started := by
      refine ⟨hpos, ?_, ?_, rfl, by decide, rfl⟩
      · rw [frameAt, Nat.zero_mod]
        rfl
      · rw [Nat.zero_div]
        rfl
    refine .scheduled hrunning rfl rfl ?_ rfl
    rintro ⟨frame, bitmap, h⟩
    cases h

/-- Outside the waiting and ready states a draw does nothing. -/
theorem drawLocked_still {p : Setup} {due : Bool} {f : Fields} (hlive : f.destroyed = false)
    (hwait : f.state ≠ .waitingToSwap) (hready : f.state ≠ .readyToSwap) :
    drawLocked p due f = some (f, .nothing, false) := by
  have hsame : markReady due f = f := if_neg fun h => hwait h.1
  rw [drawLocked, if_neg (by rw [hlive]; decide), ← markReady, hsame]
  simp only
  rw [if_neg fun h => hready h.2]

theorem drawLocked_some (p : Setup) (due : Bool) {f : Fields} (hlive : f.destroyed = false) :
    ∃ r, drawLocked p due f = some r := by
  rw [← Option.isSome_iff_exists, drawLocked, if_neg (by rw [hlive]; decide), ← markReady]
  simp only
  split_ifs <;> rfl

theorem drawStep_shows {p : Setup} {n k : Nat} {due : Bool} {m : Machine} (hn : Loops p n)
    (h : Shows p n k m)
    (hui : m.ui = [.draw]) : ∃ k', Shows p n k' (sectionStep p due m [] .draw) := by
  have hstill : m.fields.state ≠ .waitingToSwap → m.fields.state ≠ .readyToSwap →
      sectionStep p due m [] .draw = { m with ui := [] } := by
    intro hwait hready
    rw [sectionStep, drawLocked_still h.live hwait hready]
    rfl
  cases h.stage with
  | scheduled hr hstate hposted hidle hdecoded =>
    rw [hstill (by rw [hstate]; decide) (by rw [hstate]; decide)]
    exact ⟨k, h.live, h.places, h.shown, .inl rfl,
      .scheduled { hr with calm := (List.cons_ne_nil _ _).symm } hstate hposted hidle hdecoded⟩
  | decoding hr hstate hposted hdecoder hdecoded =>
    rw [hstill (by rw [hstate]; decide) (by rw [hstate]; decide)]
    exact ⟨k, h.live, h.places, h.shown, .inl rfl,
      .decoding { hr with calm := (List.cons_ne_nil _ _).symm } hstate hposted hdecoder hdecoded⟩
  | decoded hr hstate hposted hidle hback hdecoded =>
    obtain ⟨⟨f', posts, swap⟩, hr'⟩ := drawLocked_some p due h.live
    obtain ⟨s, hmark, hs⟩ := markReady_cases due m.fields
    have hcases := drawLocked_marked hr'
    rw [hmark] at hcases
    rw [sectionStep, hr']
    obtain ⟨-, ⟨rfl, rfl, rfl⟩ | ⟨rfl, -, hready, hswap⟩⟩ := hcases
    · refine ⟨k, h.live, h.places, h.shown, .inl rfl, .decoded ?_ ?_ hposted hidle hback hdecoded⟩
      · exact { hr with calm := (List.cons_ne_nil _ _).symm }
      · rcases hs with rfl | ⟨-, rfl⟩
        · exact hstate
        · exact .inr rfl
    · obtain ⟨x, y, hx, hy, hxy⟩ := h.places
      have hshown : m.shown ++ [m.fields.backBitmap.bind m.pixels] = frames p (k + 1) := by
        rw [h.shown, hback, frames_succ]
      rcases hswap with ⟨hend, rfl, rfl⟩ | ⟨hgoes, rfl, rfl⟩
      · have hk := (atEnd_iff hn hr).mp hend
        have hfront : m.fields.backBitmap.bind m.pixels = some ((p.frameCount : Int) - 1) := by
          rw [hback, ← hr.cursor, hend.1]
        refine ⟨k + 1, h.live, ⟨y, x, hy, hx, hxy.symm⟩, hshown, .inl rfl, ?_⟩
        exact .ending hk hready hposted hidle hfront hdecoded hr.callbacks
          (.inl ⟨congrArg Nat.succ hr.pending, .inl rfl⟩)
      · have hk : k + 1 ≠ n * p.frameCount := fun hk => hgoes ((atEnd_iff hn hr).mpr hk)
        have hbefore := hr.before
        have hcursor : (m.fields.nextFrameToDecode + 1) % p.frameCount = frameAt p (k + 1) := by
          rw [hr.cursor, frameAt_succ]
        refine ⟨k + 1, h.live, ⟨y, x, hy, hx, hxy.symm⟩, hshown, .inl rfl, ?_⟩
        refine .scheduled ⟨by omega, hcursor, loopAfter_eq hr, hr.pending,
          (List.cons_ne_nil _ _).symm, hr.callbacks⟩
          rfl (congrArg Nat.succ hposted) hidle hdecoded
  | ending hk hstate hposted hidle hfront hdecoded hcallbacks hpending =>
    rw [hui] at hpending
    simp at hpending
  | finished hk hstate hposted hidle hdecoded hpending hcalm hcallbacks =>
    rw [hstill (by rw [hstate]; decide) (by rw [hstate]; decide)]
    exact ⟨k, h.live, h.places, h.shown, .inl rfl,
      .finished hk hstate hposted hidle hdecoded hpending (List.cons_ne_nil _ _).symm hcallbacks⟩

theorem runStep_shows {p : Setup} {n k : Nat} {due : Bool} {m : Machine} (h : Shows p n k m)
    (hui : m.ui = [.run]) :
    Shows p n k (sectionStep p due m [] .run) := by
  have hstill : m.fields.state ≠ .waitingToSwap → sectionStep p due m [] .run =
      { m with ui := [] } := by
    intro hwait
    rw [sectionStep, runLocked, if_neg fun h => hwait h.2]
  cases h.stage with
  | scheduled hr hstate hposted hidle hdecoded =>
    rw [hstill (by rw [hstate]; decide)]
    exact ⟨h.live, h.places, h.shown, .inl rfl,
      .scheduled { hr with calm := (List.cons_ne_nil _ _).symm } hstate hposted hidle hdecoded⟩
  | decoding hr hstate hposted hdecoder hdecoded =>
    rw [hstill (by rw [hstate]; decide)]
    exact ⟨h.live, h.places, h.shown, .inl rfl,
      .decoding { hr with calm := (List.cons_ne_nil _ _).symm } hstate hposted hdecoder hdecoded⟩
  | decoded hr hstate hposted hidle hback hdecoded =>
    rw [sectionStep, runLocked]
    split
    · exact ⟨h.live, h.places, h.shown, .inl rfl,
        .decoded { hr with calm := (List.cons_ne_nil _ _).symm }
          (.inr rfl) hposted hidle hback hdecoded⟩
    · exact ⟨h.live, h.places, h.shown, .inl rfl,
        .decoded { hr with calm := (List.cons_ne_nil _ _).symm } hstate hposted
          hidle hback hdecoded⟩
  | ending hk hstate hposted hidle hfront hdecoded hcallbacks hpending =>
    have hpending : m.finishing = 1 := by
      rcases hpending with ⟨hp, -⟩ | ⟨-, hp⟩
      · exact hp
      · rw [hui] at hp
        cases hp
    rw [hstill (by rw [hstate]; decide)]
    exact ⟨h.live, h.places, h.shown, .inl rfl,
      .ending hk hstate hposted hidle hfront hdecoded hcallbacks (.inl ⟨hpending, .inl rfl⟩)⟩
  | finished hk hstate hposted hidle hdecoded hpending hcalm hcallbacks =>
    rw [hstill (by rw [hstate]; decide)]
    exact ⟨h.live, h.places, h.shown, .inl rfl,
      .finished hk hstate hposted hidle hdecoded hpending (List.cons_ne_nil _ _).symm hcallbacks⟩

/-- The finished callback runs behind the last swap only. -/
theorem finishedStep_shows {p : Setup} {n k : Nat} {due : Bool} {m : Machine} (h : Shows p n k m)
    (hui : m.ui = [.finishedCallback]) :
    Shows p n k (sectionStep p due m [] .finishedCallback) := by
  cases h.stage with
  | scheduled hr => exact absurd hui hr.calm
  | decoding hr => exact absurd hui hr.calm
  | decoded hr => exact absurd hui hr.calm
  | finished _ _ _ _ _ _ hcalm => exact absurd hui hcalm
  | ending hk hstate hposted hidle hfront hdecoded hcallbacks hpending =>
    have hpending : m.finishing = 0 := by
      rcases hpending with ⟨-, hp | hp⟩ | ⟨hp, -⟩
      · rw [hui] at hp
        cases hp
      · rw [hui] at hp
        cases hp
      · exact hp
    refine ⟨h.live, h.places, h.shown, .inl rfl,
      .finished hk rfl hposted hidle hdecoded hpending (List.cons_ne_nil _ _).symm ?_⟩
    show m.callbacks ++ [m.front] = _
    rw [hcallbacks, hfront]
    rfl

/-- A draw or a run that starts on a resting UI thread. -/
theorem call_shows {p : Setup} {n k : Nat} {m : Machine} {s : Section}
    (h : Shows p n k m) (hui : m.ui = [])
    (hs : s = .draw ∧ m.finishing = 0 ∨ s = .run) : Shows p n k { m with ui := [s] } := by
  have hcalm : [s] ≠ [.finishedCallback] := by
    rcases hs with ⟨rfl, -⟩ | rfl <;> decide
  refine ⟨h.live, h.places, h.shown, ?_, ?_⟩
  · rcases hs with ⟨rfl, -⟩ | rfl
    · exact .inr (.inl rfl)
    · exact .inr (.inr (.inl rfl))
  · cases h.stage with
    | scheduled hr hstate hposted hidle hdecoded =>
      exact .scheduled { hr with calm := hcalm } hstate hposted hidle hdecoded
    | decoding hr hstate hposted hdecoder hdecoded =>
      exact .decoding { hr with calm := hcalm } hstate hposted hdecoder hdecoded
    | decoded hr hstate hposted hidle hback hdecoded =>
      exact .decoded { hr with calm := hcalm } hstate hposted hidle hback hdecoded
    | finished hk hstate hposted hidle hdecoded hpending _ hcallbacks =>
      exact .finished hk hstate hposted hidle hdecoded hpending hcalm hcallbacks
    | ending hk hstate hposted hidle hfront hdecoded hcallbacks hpending =>
      rcases hpending with ⟨hp, -⟩ | ⟨-, hp⟩
      · rcases hs with ⟨-, hno⟩ | rfl
        · rw [hp] at hno
          cases hno
        · exact .ending hk hstate hposted hidle hfront hdecoded hcallbacks (.inl ⟨hp, .inr rfl⟩)
      · rw [hui] at hp
        cases hp

/-- A pending finished callback that starts. -/
theorem callback_shows {p : Setup} {n k : Nat} {m : Machine} (h : Shows p n k m)
    (hpending : m.finishing ≠ 0) :
    Shows p n k { m with ui := [.finishedCallback], finishing := m.finishing - 1 } := by
  refine ⟨h.live, h.places, h.shown, .inr (.inr (.inr rfl)), ?_⟩
  cases h.stage with
  | scheduled hr => exact absurd hr.pending hpending
  | decoding hr => exact absurd hr.pending hpending
  | decoded hr => exact absurd hr.pending hpending
  | finished _ _ _ _ _ hp => exact absurd hp hpending
  | ending hk hstate hposted hidle hfront hdecoded hcallbacks hp =>
    have hone : m.finishing = 1 := hp.elim And.left fun hno => absurd hno.1 hpending
    exact .ending hk hstate hposted hidle hfront hdecoded hcallbacks (.inr ⟨by simp [hone], rfl⟩)

theorem decodeBegin_shows {p : Setup} {n k : Nat} {m m' : Machine} (h : Shows p n k m)
    (hnext : next p m .decodeBegin = some m') : Shows p n k m' := by
  rw [next] at hnext
  by_cases hready : m.decoder = .idle ∧ 0 < m.posted
  · rw [if_pos hready] at hnext
    have hno : ∀ {q : Prop}, m.posted = 0 → q := fun h => absurd hready.2 (by omega)
    cases h.stage with
    | decoding _ _ hposted => exact hno hposted
    | decoded _ _ hposted => exact hno hposted
    | ending _ _ hposted => exact hno hposted
    | finished _ _ hposted => exact hno hposted
    | scheduled hr hstate hposted hidle hdecoded =>
      have hcursor : 0 ≤ m.fields.nextFrameToDecode := by
        rw [hr.cursor]
        exact Int.natCast_nonneg _
      have hbegin : decodeBegin m.fields =
          ({ m.fields with state := .decoding },
            some (m.fields.nextFrameToDecode, m.fields.backBitmap)) := by
        rw [decodeBegin, if_neg (by rw [h.live]; decide), if_neg (by omega)]
      rw [hbegin] at hnext
      cases hnext
      refine ⟨h.live, h.places, h.shown, h.sections, .decoding { hr with } rfl ?_ ?_ hdecoded⟩
      · show m.posted - 1 = 0
        omega
      · rw [← hr.cursor]
        rfl
  · rw [if_neg hready] at hnext
    cases hnext

theorem decodeEnd_shows {p : Setup} {n k : Nat} {m m' : Machine} (h : Shows p n k m)
    (hnext : next p m (.decodeEnd false) = some m') : Shows p n k m' := by
  rw [next] at hnext
  cases hdec : m.decoder with
  | idle =>
    rw [hdec] at hnext
    cases hnext
  | leaving b =>
    rw [hdec] at hnext
    cases hnext
  | decoding frame bitmap =>
    have hbusy : Decoding m.decoder := ⟨frame, bitmap, hdec⟩
    rw [hdec] at hnext
    simp only at hnext
    cases h.stage with
    | scheduled _ _ _ hidle => exact absurd hbusy hidle
    | decoded _ _ _ hidle => exact absurd hbusy hidle
    | ending _ _ _ hidle => exact absurd hbusy hidle
    | finished _ _ _ hidle => exact absurd hbusy hidle
    | decoding hr hstate hposted hdecoder hdecoded =>
      rw [hdec] at hdecoder
      obtain ⟨rfl, rfl⟩ := Decoder.decoding.inj hdecoder
      have hcursor : 0 ≤ m.fields.nextFrameToDecode := by
        rw [hr.cursor]
        exact Int.natCast_nonneg _
      have hend : decodeEnd false m.fields =
          ({ m.fields with neverSwaps := false, state := .waitingToSwap }, none) := by
        rw [decodeEnd, if_neg (by rw [h.live]; decide), if_pos ⟨hcursor, hstate⟩]
      rw [hend] at hnext
      cases hnext
      refine ⟨h.live, h.places, h.shown, h.sections,
        .decoded { hr with } (.inl rfl) hposted ?_ ?_ ?_⟩
      · rintro ⟨f, b, hd⟩
        cases hd
      · obtain ⟨x, y, hx, hy, hxy⟩ := h.places
        show m.fields.backBitmap.bind (fun b => if m.fields.backBitmap = some b then
          _ else m.pixels b) = _
        rw [hy, Option.bind_some, if_pos rfl]
        rfl
      · show m.decoded ++ _ = _
        rw [hdecoded, frames_succ]
        rfl

theorem decodeLeave_shows {p : Setup} {n k : Nat} {m m' : Machine} (h : Shows p n k m)
    (hnext : next p m .decodeLeave = some m') : Shows p n k m' := by
  have hidle : ¬ Decoding .idle := by
    rintro ⟨f, b, hd⟩
    cases hd
  rw [next] at hnext
  cases hdec : m.decoder with
  | idle =>
    rw [hdec] at hnext
    cases hnext
  | decoding frame bitmap =>
    rw [hdec] at hnext
    cases hnext
  | leaving b =>
    rw [hdec] at hnext
    cases hnext
    refine ⟨h.live, h.places, h.shown, h.sections, ?_⟩
    cases h.stage with
    | scheduled hr hstate hposted _ hdecoded =>
      exact .scheduled { hr with } hstate hposted hidle hdecoded
    | decoding _ _ _ hdecoder =>
      rw [hdec] at hdecoder
      cases hdecoder
    | decoded hr hstate hposted _ hback hdecoded =>
      exact .decoded { hr with } hstate hposted hidle hback hdecoded
    | finished hk hstate hposted _ hdecoded hpending hcalm hcallbacks =>
      exact .finished hk hstate hposted hidle hdecoded hpending hcalm hcallbacks
    | ending hk hstate hposted _ hfront hdecoded hcallbacks hpending =>
      exact .ending hk hstate hposted hidle hfront hdecoded hcallbacks hpending

theorem next_shows {p : Setup} {n k : Nat} {m m' : Machine} {e : Event} (hn : Loops p n)
    (h : Shows p n k m)
    (hallowed : Allowed m e) (hnext : next p m e = some m') : ∃ k', Shows p n k' m' := by
  obtain ⟨hlisted, hdraw⟩ := hallowed
  cases e with
  | decodeBegin => exact ⟨k, decodeBegin_shows h hnext⟩
  | decodeLeave => exact ⟨k, decodeLeave_shows h hnext⟩
  | decodeEnd exceptionDuringDecode =>
    obtain rfl : exceptionDuringDecode = false := hlisted
    exact ⟨k, decodeEnd_shows h hnext⟩
  | call c =>
    rw [next] at hnext
    by_cases hui : m.ui = []
    · rw [if_neg (not_not.mpr hui)] at hnext
      rcases hlisted with rfl | rfl | rfl
      · cases hnext
        exact ⟨k, call_shows h hui (.inl ⟨rfl, hdraw rfl⟩)⟩
      · cases hnext
        exact ⟨k, call_shows h hui (.inr rfl)⟩
      · by_cases hp : m.finishing = 0
        · rw [if_pos rfl, if_pos hp] at hnext
          cases hnext
        · rw [if_pos rfl, if_neg hp] at hnext
          cases hnext
          exact ⟨k, callback_shows h hp⟩
    · rw [if_pos hui] at hnext
      cases hnext
  | ui due =>
    rw [next] at hnext
    rcases h.sections with hui | hui | hui | hui
    · rw [hui] at hnext
      cases hnext
    · rw [hui] at hnext
      cases hnext
      exact drawStep_shows hn h hui
    · rw [hui] at hnext
      cases hnext
      exact ⟨k, runStep_shows h hui⟩
    · rw [hui] at hnext
      cases hnext
      exact ⟨k, finishedStep_shows h hui⟩

theorem Shows.plays {p : Setup} {n k : Nat} {m : Machine} (h : Shows p n k m) : Plays p n m := by
  have hcalm (hr : Running p n k m) :
      0 < m.finishing ∨ m.callbacks ≠ [] → k = n * p.frameCount := by
    rintro (hp | hp)
    · exact absurd hr.pending (by omega)
    · exact absurd hr.callbacks hp
  cases h.stage with
  | scheduled hr hstate hposted hidle hdecoded =>
    exact ⟨⟨k, hr.before.le, h.shown, .inl hdecoded, hcalm hr⟩, .inl hr.callbacks⟩
  | decoding hr hstate hposted hdecoder hdecoded =>
    exact ⟨⟨k, hr.before.le, h.shown, .inl hdecoded, hcalm hr⟩, .inl hr.callbacks⟩
  | decoded hr hstate hposted hidle hback hdecoded =>
    exact ⟨⟨k, hr.before.le, h.shown, .inr ⟨hr.before, hdecoded⟩, hcalm hr⟩, .inl hr.callbacks⟩
  | ending hk hstate hposted hidle hfront hdecoded hcallbacks hpending =>
    exact ⟨⟨k, hk.le, h.shown, .inl hdecoded, fun _ => hk⟩, .inl hcallbacks⟩
  | finished hk hstate hposted hidle hdecoded hpending hcalm hcallbacks =>
    exact ⟨⟨k, hk.le, h.shown, .inl hdecoded, fun _ => hk⟩, .inr hcallbacks⟩

/-- In every run that draws nothing between the last swap and the finished
callback, the frames of all loops are shown in order, each decoded once. -/
theorem reached_plays (p : Setup) (n : Nat) (hn : Loops p n) (s m : Machine)
    (hs : EventRuns.run (next p) initial [.call .start, .ui false, .ui false] = some s)
    (h : Reached (next p) Allowed s m) : Plays p n m := by
  rw [started_eq] at hs
  cases hs
  have hstep (t : Machine) (e : Event) (u : Machine) (ht : ∃ k, Shows p n k t) (hok : Allowed t e)
      (hnext : next p t e = some u) : ∃ k, Shows p n k u := by
    obtain ⟨k, hk⟩ := ht
    exact next_shows hn hk hok hnext
  obtain ⟨k, hk⟩ := h.invariant ⟨0, started_shows hn⟩ hstep
  exact hk.plays

/-- A picture of one frame that plays once. -/
def single : Setup := ⟨1, Nat.one_pos, .finite, 1, 0⟩

theorem single_loops : Loops single 1 := ⟨Nat.one_pos, .inl ⟨rfl, rfl⟩⟩

/-- The frame is decoded, made ready and swapped to the front. -/
def shownOnce : List Event :=
  [.decodeBegin, .decodeEnd false, .decodeLeave, .call .run, .ui false, .call .draw, .ui false]

/-- Behind that swap: the finished callback is posted, the state is still ready. -/
def lastShown : Machine where
  fields := ⟨false, some .second, some .first, .readyToSwap, 1, false, 0⟩
  ui := []
  posted := 0
  finishing := 1
  decoder := .idle
  released := []
  pixels := fun b => if some Bitmap.second = some b then
    some 0 else if b = .first then some 0 else none
  decoded := [some 0]
  shown := [some 0]
  callbacks := []

theorem shownOnce_run : EventRuns.run (next single) started shownOnce = some lastShown := rfl

theorem shownOnce_meets : EventRuns.Meets (next single) Allowed started shownOnce := by
  have hplain : ∀ {m : Machine} {e : Event}, Listed e → e ≠ .call .draw → Allowed m e :=
    fun hlisted hno => ⟨hlisted, fun he => absurd he hno⟩
  refine EventRuns.meets_step (hplain trivial nofun) rfl ?_
  refine EventRuns.meets_step (hplain rfl nofun) rfl ?_
  refine EventRuns.meets_step (hplain trivial nofun) rfl ?_
  refine EventRuns.meets_step (hplain (.inr (.inl rfl)) nofun) rfl ?_
  refine EventRuns.meets_step (hplain trivial nofun) rfl ?_
  refine EventRuns.meets_step ⟨.inl rfl, fun _ => rfl⟩ rfl ?_
  exact EventRuns.meets_step (hplain trivial nofun) rfl trivial

theorem lastShown_reached : Reached (next single) Allowed started lastShown :=
  EventRuns.reached_of_run shownOnce_run shownOnce_meets

theorem reached_plays_single :
    ∃ m, EventRuns.run (next single) lastShown [.call .finishedCallback, .ui false] = some m ∧
      m.callbacks = [some 0] ∧ Plays single 1 m := by
  have hmeets : EventRuns.Meets (next single) Allowed lastShown
      [.call .finishedCallback, .ui false] := by
    refine EventRuns.meets_step ⟨.inr (.inr rfl), nofun⟩ rfl ?_
    exact EventRuns.meets_step ⟨trivial, nofun⟩ rfl trivial
  exact ⟨_, rfl, rfl, reached_plays single 1 single_loops started _ rfl
    (lastShown_reached.trans (EventRuns.reached_of_run rfl hmeets))⟩

/-- A second draw before the finished callback swaps and schedules once more. -/
theorem reached_plays_drawnTwice :
    ∃ m, Reached (next single) (fun _ e => Listed e) started m ∧
      m.shown = [some 0, some 0] ∧ m.posted = 1 ∧ ¬ Plays single 1 m := by
  have hfirst : Reached (next single) (fun _ e => Listed e) started lastShown :=
    lastShown_reached.mono fun _ _ hok => hok.1
  have hlisted : ∀ e ∈ [Event.call .draw, .ui false], Listed e := by
    simp [Listed]
  have hreached : ∀ m, EventRuns.run (next single) lastShown [.call .draw, .ui false] = some m →
      Reached (next single) (fun _ e => Listed e) started m :=
    fun m hm => hfirst.trans (EventRuns.reached_of_run hm (EventRuns.meets_of_events _ _ hlisted))
  refine ⟨_, hreached _ rfl, rfl, rfl, ?_⟩
  rintro ⟨⟨k, hk, hshown, -⟩, -⟩
  have hlength := congrArg List.length hshown
  rw [frames, List.length_map, List.length_range] at hlength
  have htwo : k = 2 := hlength.symm
  rw [htwo] at hk
  exact absurd hk (by decide)

end FiniteLoop
