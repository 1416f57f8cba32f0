import AndroidWork.EventRuns

/-!
# The player of a decoder in stream mode

`next` of `BaseGifDecoder` beside the thread that appends frames to the chain
and ends the parse. `next` and an append hold `mLock`, so each is one step.
-/
namespace GifStreamPlayer

open EventRuns (Reached)

inductive Status where
  | parsing
  | formatError
  | finish
  | interrupt
  deriving DecidableEq, Repr

structure GifFrame (α : Type) where
  image : α
  delay : Int
  index : Nat
  deriving DecidableEq, Repr

/-- The parsing thread: in `readContents`, in `playSingleFrame` behind a memory
check that failed, on its way out with an error, or out of `readStream`. -/
inductive Decoder where
  | reading
  | interrupted
  | leaving
  | done
  deriving DecidableEq, Repr

/-- The fields of the decoder, `mCurrentFrame` as a place in the chain, and what
each call of `next` gave and the status it found. -/
structure Machine (α : Type) where
  status : Status
  frames : List (GifFrame α)
  currentFrame : Option Nat
  isShow : Bool
  loopedTimes : Nat
  decoder : Decoder
  results : List (Status × Option (GifFrame α))
  deriving DecidableEq, Repr

inductive Event (α : Type) where
  | next
  | append (image : α) (delay : Int)
  | interrupt
  | fail
  | finish
  deriving DecidableEq, Repr

variable {α : Type}

/-- The locked part of `playSingleFrame`. -/
def playSingleFrame (m : Machine α) (image : α) (delay : Int) : Machine α :=
  match m.frames.getLast? with
  | none => { m with frames := [⟨image, delay, 0⟩], currentFrame := some 0 }
  | some f => { m with frames := m.frames ++ [⟨image, delay, f.index + 1⟩] }

/-- `next`: the frame returned and the fields behind it. -/
def next (totalLoopTimes : Int) (m : Machine α) : Option (GifFrame α) × Machine α :=
  if m.isShow = false then (m.frames.head?, { m with isShow := true })
  else
    match m.currentFrame with
    | none => (m.frames.head?, m)
    | some c =>
      if m.status = .parsing then
        match m.frames[c + 1]? with
        | some f => (some f, { m with currentFrame := some (c + 1) })
        | none => (none, m)
      else
        match m.frames[c + 1]? with
        | some f => (some f, { m with currentFrame := some (c + 1) })
        | none =>
          let m := { m with currentFrame := none, loopedTimes := m.loopedTimes + 1 }
          if totalLoopTimes > 0 ∧ m.loopedTimes ≥ totalLoopTimes then (none, m)
          else (m.frames.head?, { m with currentFrame := if m.frames = [] then none else some 0 })

/-- A call of `next`, noted down. -/
def nextStep (totalLoopTimes : Int) (m : Machine α) : Machine α :=
  let (f, m') := next totalLoopTimes m
  { m' with results := m.results ++ [(m.status, f)] }

/-- The steps of both threads; `readStream` turns an interrupt into a format error. -/
def step (totalLoopTimes : Int) (m : Machine α) : Event α → Option (Machine α)
  | .next => some (nextStep totalLoopTimes m)
  | .append image delay =>
    match m.decoder with
    | .reading => some (playSingleFrame m image delay)
    | .interrupted => some { playSingleFrame m image delay with decoder := .leaving }
    | _ => none
  | .interrupt => if m.decoder = .reading then
    some { m with status := .interrupt, decoder := .interrupted } else none
  | .fail => if m.decoder = .reading then
    some { m with status := .formatError, decoder := .leaving } else none
  | .finish =>
    match m.decoder with
    | .reading => some { m with status := .finish, decoder := .done }
    | .leaving => some { m with status := .formatError, decoder := .done }
    | _ => none

/-- Behind `init`. -/
def initial : Machine α := ⟨.parsing, [], none, false, 0, .reading, []⟩

/-- The frames `next` returned. -/
def returned (m : Machine α) : List (GifFrame α) := m.results.filterMap Prod.snd

/-- `next` returned null although the parse was over. -/
def Ended (m : Machine α) : Prop := ∃ s, s ≠ .parsing ∧ (s, none) ∈ m.results

/-- A frame can still come. -/
def Appends (d : Decoder) : Prop := d = .reading ∨ d = .interrupted

/-- The frames returned are the frames of the chain in order, over again once
the parse is over; the end comes behind the last of all loops. -/
def Plays (totalLoopTimes : Int) (m : Machine α) : Prop :=
  ∃ k : Nat, (returned m).map some = (List.range k).map (fun i => m.frames[i % m.frames.length]?) ∧
    (m.status = .parsing → k ≤ m.frames.length) ∧
    (0 < totalLoopTimes → (k : Int) ≤ totalLoopTimes * m.frames.length) ∧
    (Ended m → m.frames = [] ∨ 0 < totalLoopTimes ∧ (k : Int) = totalLoopTimes * m.frames.length)

/-- `next` is first called with a frame there or none to come, not between a
failed memory check and the append behind it, and not behind the end. -/
def Allowed (m : Machine α) (e : Event α) : Prop :=
  e = .next → (m.isShow = false → m.frames = [] → ¬ Appends m.decoder) ∧ m.decoder ≠ .interrupted ∧
    (Ended m → m.frames = [])

theorem playSingleFrame_cases (m : Machine α) (image : α) (delay : Int) :
    ∃ f, playSingleFrame m image delay = { m with
      frames := m.frames ++ [f], currentFrame := if m.frames = [] then
          some 0 else m.currentFrame } := by
  rw [playSingleFrame]
  cases hlast : m.frames.getLast? with
  | none =>
    have hnil := List.getLast?_eq_none_iff.mp hlast
    exact ⟨⟨image, delay, 0⟩, by simp [hnil]⟩
  | some f =>
    have hne : m.frames ≠ [] := by
      rintro h
      rw [h] at hlast
      cases hlast
    exact ⟨⟨image, delay, f.index + 1⟩, by simp [hne]⟩

/-- The first call gives the first frame and leaves the cursor. -/
theorem nextStep_first {totalLoopTimes : Int} {m : Machine α} (hshow : m.isShow = false) :
    nextStep totalLoopTimes m =
      { m with isShow := true, results := m.results ++ [(m.status, m.frames.head?)] } := by
  rw [nextStep, next, if_pos hshow]

theorem nextStep_none {totalLoopTimes : Int} {m : Machine α} (hshow : m.isShow = true)
    (hcurrent : m.currentFrame = none) :
    nextStep totalLoopTimes m = { m with results := m.results ++
      [(m.status, m.frames.head?)] } := by
  rw [nextStep, next, if_neg (by rw [hshow]; decide)]
  simp only [hcurrent]

theorem nextStep_advance {totalLoopTimes : Int} {m : Machine α} {c : Nat} {f : GifFrame α}
    (hshow : m.isShow = true)
    (hcurrent : m.currentFrame = some c) (hf : m.frames[c + 1]? = some f) :
    nextStep totalLoopTimes m =
      { m with currentFrame := some (c + 1), results := m.results ++ [(m.status, some f)] } := by
  rw [nextStep, next, if_neg (by rw [hshow]; decide), hcurrent]
  simp only [hf]
  split <;> rfl

theorem nextStep_waits {totalLoopTimes : Int} {m : Machine α} {c : Nat} (hshow : m.isShow = true)
    (hcurrent : m.currentFrame = some c) (hf : m.frames[c + 1]? = none)
    (hstatus : m.status = .parsing) :
    nextStep totalLoopTimes m = { m with results := m.results ++ [(m.status, none)] } := by
  rw [nextStep, next, if_neg (by rw [hshow]; decide), hcurrent]
  simp only [hf, if_pos hstatus, hcurrent]

/-- The end of a loop behind the parse: the end of all, or the first frame again. -/
theorem nextStep_loops {totalLoopTimes : Int} {m : Machine α} {c : Nat} (hshow : m.isShow = true)
    (hcurrent : m.currentFrame = some c) (hf : m.frames[c + 1]? = none)
    (hstatus : m.status ≠ .parsing)
    (hframes : m.frames ≠ []) : nextStep totalLoopTimes m =
      if 0 < totalLoopTimes ∧ totalLoopTimes ≤ ((m.loopedTimes + 1 : Nat) : Int) then
        { m with currentFrame := none, loopedTimes := m.loopedTimes + 1, results :=
          m.results ++ [(m.status, none)] }
      else { m with currentFrame := some 0, loopedTimes := m.loopedTimes + 1,
                    results := m.results ++ [(m.status, m.frames.head?)] } := by
  rw [nextStep, next, if_neg (by rw [hshow]; decide), hcurrent]
  simp only [hf, if_neg hstatus, if_neg hframes, gt_iff_lt, ge_iff_le]
  split <;> rfl

/-- What was shown, `k` frames in. -/
def Shown (k : Nat) (m : Machine α) : Prop :=
  (returned m).map some = (List.range k).map fun i => m.frames[i % m.frames.length]?

theorem Shown.nothing {k : Nat} {m m' : Machine α} {s : Status} (h : Shown k m)
    (hframes : m'.frames = m.frames)
    (hresults : m'.results = m.results ++ [(s, none)]) : Shown k m' := by
  rw [Shown, returned, hresults, List.filterMap_append, hframes, ← h]
  simp [returned]

theorem Shown.another {k : Nat} {m m' : Machine α} {s : Status} {f : GifFrame α} (h : Shown k m)
    (hframes : m'.frames = m.frames) (hresults : m'.results = m.results ++ [(s, some f)])
    (hf : m.frames[k % m.frames.length]? = some f) : Shown (k + 1) m' := by
  rw [Shown, returned, hresults, List.filterMap_append, hframes, List.map_append, List.range_succ,
    List.map_append, ← h]
  simp [returned, hf]

/-- Frames shown before the chain grew stay where they are. -/
theorem Shown.grow {k : Nat} {m m' : Machine α} {f : GifFrame α} (h : Shown k m)
    (hframes : m'.frames = m.frames ++ [f]) (hresults : m'.results = m.results)
    (hk : k ≤ m.frames.length) :
    Shown k m' := by
  rw [Shown, returned, hresults, ← returned, h]
  refine List.map_congr_left fun i hi => ?_
  have hlt : i < m.frames.length := by
    rw [List.mem_range] at hi
    omega
  rw [hframes, List.length_append, Nat.mod_eq_of_lt hlt, Nat.mod_eq_of_lt (Nat.lt_add_right _ hlt),
    List.getElem?_append_left hlt]

/-- `k` frames in, and not at the end. -/
structure Playing (totalLoopTimes : Int) (k : Nat) (m : Machine α) : Prop where
  isShow : m.isShow = true
  pos : 0 < k
  frames : m.frames ≠ []
  current : m.currentFrame = some ((k - 1) % m.frames.length)
  loop : m.loopedTimes = (k - 1) / m.frames.length
  before : 0 < totalLoopTimes → (k : Int) ≤ totalLoopTimes * m.frames.length
  goes : ¬ Ended m

/-- Where the player is, `k` frames in. -/
inductive Stage (totalLoopTimes : Int) (k : Nat) (m : Machine α) : Prop where
  | waiting (hshow : m.isShow = false) (hk : k = 0) (hresults : m.results = [])
    (hloop : m.loopedTimes = 0)
      (hcurrent : m.currentFrame = if m.frames = [] then none else some 0)
  | empty (hframes : m.frames = []) (hdone : ¬ Appends m.decoder) (hk : k = 0)
    (hcurrent : m.currentFrame = none)
  | playing (h : Playing totalLoopTimes k m)
  | played (hframes : m.frames ≠ []) (hdone : ¬ Appends m.decoder) (htotal : 0 < totalLoopTimes)
      (hk : (k : Int) = totalLoopTimes * m.frames.length) (hended : Ended m)

/-- The invariant: the frames shown so far, and where the player is. -/
structure Follows (totalLoopTimes : Int) (k : Nat) (m : Machine α) : Prop where
  shown : Shown k m
  status : m.status = .parsing ↔ m.decoder = .reading
  growing : Appends m.decoder → k ≤ m.frames.length
  stage : Stage totalLoopTimes k m

theorem initial_follows (totalLoopTimes : Int) :
    Follows totalLoopTimes 0 (initial : Machine α) where
  shown := rfl
  status := ⟨fun _ => rfl, fun _ => rfl⟩
  growing := fun _ => Nat.zero_le _
  stage := .waiting rfl rfl rfl rfl rfl

theorem ended_append {m m' : Machine α} {s : Status} {f : Option (GifFrame α)}
    (hresults : m'.results = m.results ++ [(s, f)]) :
    Ended m' ↔ Ended m ∨ s ≠ .parsing ∧ f = none := by
  simp only [Ended, hresults, List.mem_append, List.mem_singleton, Prod.mk.injEq]
  constructor
  · rintro ⟨t, ht, hold | ⟨rfl, hf⟩⟩
    · exact .inl ⟨t, ht, hold⟩
    · exact .inr ⟨ht, hf.symm⟩
  · rintro (⟨t, ht, hold⟩ | ⟨hs, hf⟩)
    · exact ⟨t, ht, .inl hold⟩
    · exact ⟨s, hs, .inr ⟨rfl, hf.symm⟩⟩

theorem Follows.plays {totalLoopTimes : Int} {k : Nat} {m : Machine α}
    (h : Follows totalLoopTimes k m) :
    Plays totalLoopTimes m := by
  refine ⟨k, h.shown, fun hs => h.growing (.inl (h.status.mp hs)), ?_, ?_⟩
  · intro htotal
    cases h.stage with
    | waiting _ hk => exact hk ▸ Int.mul_nonneg htotal.le (Int.natCast_nonneg _)
    | empty _ _ hk => exact hk ▸ Int.mul_nonneg htotal.le (Int.natCast_nonneg _)
    | playing hp => exact hp.before htotal
    | played _ _ _ hk => exact hk.le
  · intro hended
    cases h.stage with
    | waiting _ _ hresults =>
      obtain ⟨s, -, hs⟩ := hended
      rw [hresults] at hs
      cases hs
    | empty hframes => exact .inl hframes
    | playing hp => exact absurd hended hp.goes
    | played _ _ htotal hk => exact .inr ⟨htotal, hk⟩

theorem head_eq {l : List α} (h : l ≠ []) : ∃ f, l.head? = some f ∧ l[0]? = some f :=
  ⟨l.head h, List.head?_eq_some_head h, by rw [← List.head?_eq_getElem?, List.head?_eq_some_head h]⟩

/-- The place behind `k` frames, within its loop and at its end. -/
theorem place_succ {k F : Nat} (hk : 0 < k) (h : (k - 1) % F + 1 < F) :
    k % F = (k - 1) % F + 1 ∧ k / F = (k - 1) / F := by
  have hsplit := Nat.div_add_mod (k - 1) F
  have hk : k = ((k - 1) % F + 1) + F * ((k - 1) / F) := by omega
  have hpos : 0 < F := by omega
  generalize (k - 1) % F + 1 = r at h hk
  generalize (k - 1) / F = q at hk
  subst hk
  exact ⟨by rw [Nat.add_mul_mod_self_left, Nat.mod_eq_of_lt h],
    by rw [Nat.add_mul_div_left _ _ hpos, Nat.div_eq_of_lt h, Nat.zero_add]⟩

theorem place_last {k F : Nat} (hk : 0 < k) (hF : 0 < F) (h : ¬ (k - 1) % F + 1 < F) :
    k = ((k - 1) / F + 1) * F := by
  have hsplit := Nat.div_add_mod (k - 1) F
  have hlt := Nat.mod_lt (k - 1) hF
  rw [Nat.add_mul, Nat.mul_comm, Nat.one_mul]
  omega

theorem loops_le {totalLoopTimes : Int} {q F : Nat} (h : ((q + 1 : Nat) : Int) ≤ totalLoopTimes) :
    (((q + 1) * F : Nat) : Int) ≤ totalLoopTimes * F := by
  rw [Nat.cast_mul]
  exact Int.mul_le_mul_of_nonneg_right h (Int.natCast_nonneg F)

theorem Follows.first {totalLoopTimes : Int} {m : Machine α} (h : Follows totalLoopTimes 0 m)
    (hshow : m.isShow = false) (hresults : m.results = []) (hloop : m.loopedTimes = 0)
    (hcurrent : m.currentFrame = if m.frames = [] then none else some 0)
    (hallowed : Allowed m .next) :
    ∃ k, Follows totalLoopTimes k (nextStep totalLoopTimes m) := by
  rw [nextStep_first hshow]
  by_cases hframes : m.frames = []
  · have hhead : m.frames.head? = none := by rw [hframes, List.head?_nil]
    rw [if_pos hframes] at hcurrent
    rw [hhead]
    exact ⟨0, h.shown.nothing rfl rfl, h.status, h.growing,
      .empty hframes ((hallowed rfl).1 hshow hframes) rfl hcurrent⟩
  · obtain ⟨f, hhead, hf⟩ := head_eq hframes
    have hpos : 0 < m.frames.length := List.length_pos_iff.mpr hframes
    rw [if_neg hframes] at hcurrent
    rw [hhead]
    refine ⟨1, h.shown.another rfl rfl hf, h.status, fun _ => hpos, ?_⟩
    refine .playing ⟨rfl, Nat.one_pos, hframes, hcurrent, ?_, ?_, ?_⟩
    · rw [hloop, Nat.sub_self, Nat.zero_div]
    · intro htotal
      have hone := loops_le (F := m.frames.length) (q := 0) htotal
      rw [Nat.zero_add, Nat.one_mul] at hone
      exact le_trans (by exact_mod_cast hpos) hone
    · rw [ended_append rfl, Ended, hresults]
      rintro (⟨s, -, hs⟩ | ⟨-, hs⟩)
      · cases hs
      · cases hs

theorem Playing.length_pos {totalLoopTimes : Int} {k : Nat} {m : Machine α}
    (hp : Playing totalLoopTimes k m) :
    0 < m.frames.length := List.length_pos_iff.mpr hp.frames

theorem Playing.not_ended {totalLoopTimes : Int} {k : Nat} {m m' : Machine α}
    {s : Status} {f : GifFrame α}
    (hp : Playing totalLoopTimes k m) (hresults : m'.results = m.results ++ [(s, some f)]) :
    ¬ Ended m' := by
  rw [ended_append hresults]
  rintro (hold | ⟨-, hf⟩)
  · exact hp.goes hold
  · cases hf

/-- Within a loop. -/
theorem Follows.within {totalLoopTimes : Int} {k : Nat} {m : Machine α}
    (h : Follows totalLoopTimes k m)
    (hp : Playing totalLoopTimes k m) (hmore : (k - 1) % m.frames.length + 1 < m.frames.length) :
    Follows totalLoopTimes (k + 1) (nextStep totalLoopTimes m) := by
  obtain ⟨hmod, hdiv⟩ := place_succ hp.pos hmore
  obtain ⟨f, hf⟩ : ∃ f, m.frames[(k - 1) % m.frames.length + 1]? = some f :=
    ⟨_, List.getElem?_eq_getElem hmore⟩
  have hplace : m.frames[k % m.frames.length]? = some f := by rw [hmod, hf]
  rw [nextStep_advance hp.isShow hp.current hf]
  refine ⟨h.shown.another rfl rfl hplace, h.status, ?_, ?_⟩
  · intro happends
    have hle := h.growing happends
    rw [Nat.mod_eq_of_lt (by have := hp.pos; omega)] at hmore
    show k + 1 ≤ m.frames.length
    omega
  · refine .playing ⟨hp.isShow, k.succ_pos, hp.frames, ?_, ?_, ?_, hp.not_ended rfl⟩
    · rw [Nat.add_sub_cancel, hmod]
    · rw [Nat.add_sub_cancel, hdiv]
      exact hp.loop
    · intro htotal
      refine Int.add_one_le_of_lt (lt_of_le_of_ne (hp.before htotal) fun heq => ?_)
      have : ((k % m.frames.length : Nat) : Int) = 0 := by
        rw [Int.natCast_mod, heq, Int.mul_emod_left]
      omega

/-- The next frame is not there yet. -/
theorem Follows.waits {totalLoopTimes : Int} {k : Nat} {m : Machine α}
    (h : Follows totalLoopTimes k m)
    (hp : Playing totalLoopTimes k m) (hf : m.frames[(k - 1) % m.frames.length + 1]? = none)
    (hstatus : m.status = .parsing) : Follows totalLoopTimes k (nextStep totalLoopTimes m) := by
  rw [nextStep_waits hp.isShow hp.current hf hstatus]
  refine ⟨h.shown.nothing rfl rfl, h.status, h.growing, .playing { hp with goes := ?_ }⟩
  rw [ended_append rfl]
  rintro (hold | ⟨hno, -⟩)
  · exact hp.goes hold
  · exact hno hstatus

/-- Behind a whole loop. -/
theorem Follows.loops {totalLoopTimes : Int} {k : Nat} {m : Machine α}
    (h : Follows totalLoopTimes k m)
    (hp : Playing totalLoopTimes k m) (hlast : ¬ (k - 1) % m.frames.length + 1 < m.frames.length)
    (hstatus : m.status ≠ .parsing) (hdone : ¬ Appends m.decoder) :
    ∃ k', Follows totalLoopTimes k' (nextStep totalLoopTimes m) := by
  have hf : m.frames[(k - 1) % m.frames.length + 1]? = none := List.getElem?_eq_none (by omega)
  have hwhole := place_last hp.pos hp.length_pos hlast
  rw [nextStep_loops hp.isShow hp.current hf hstatus hp.frames, hp.loop]
  by_cases hover : 0 < totalLoopTimes ∧ totalLoopTimes ≤
    (((k - 1) / m.frames.length + 1 : Nat) : Int)
  · rw [if_pos hover]
    refine ⟨k, h.shown.nothing rfl rfl, h.status, fun happends => absurd happends hdone, ?_⟩
    refine .played hp.frames hdone hover.1 ?_ ((ended_append rfl).mpr (.inr ⟨hstatus, rfl⟩))
    refine le_antisymm (hp.before hover.1) ?_
    calc totalLoopTimes * (m.frames.length : Int)
        ≤ (((k - 1) / m.frames.length + 1 : Nat) : Int) * m.frames.length :=
          Int.mul_le_mul_of_nonneg_right hover.2 (Int.natCast_nonneg _)
      _ = k := by rw [← Nat.cast_mul, ← hwhole]
  · rw [if_neg hover]
    obtain ⟨f, hhead, hplace⟩ := head_eq hp.frames
    have hmod : k % m.frames.length = 0 := by
      rw [hwhole]
      exact Nat.mul_mod_left _ _
    have hdiv : k / m.frames.length = (k - 1) / m.frames.length + 1 := by
      conv_lhs => rw [hwhole]
      exact Nat.mul_div_cancel _ hp.length_pos
    rw [← hmod] at hplace
    rw [hhead]
    refine ⟨k + 1, h.shown.another rfl rfl hplace, h.status,
      fun happends => absurd happends hdone, ?_⟩
    refine .playing ⟨hp.isShow, k.succ_pos, hp.frames, ?_, ?_, ?_, hp.not_ended rfl⟩
    · rw [Nat.add_sub_cancel, hmod]
    · rw [Nat.add_sub_cancel, hdiv]
    · intro htotal
      have hless : ((((k - 1) / m.frames.length + 1) + 1 : Nat) : Int) ≤ totalLoopTimes := by
        have := not_and.mp hover htotal
        omega
      have hle := loops_le (F := m.frames.length) hless
      rw [Nat.add_mul, ← hwhole, Nat.one_mul] at hle
      have := hp.length_pos
      show ((k + 1 : Nat) : Int) ≤ totalLoopTimes * m.frames.length
      omega

theorem nextStep_follows {totalLoopTimes : Int} {k : Nat} {m : Machine α}
    (h : Follows totalLoopTimes k m)
    (hallowed : Allowed m .next) : ∃ k', Follows totalLoopTimes k' (nextStep totalLoopTimes m) := by
  obtain ⟨-, hcalm, hgoes⟩ := hallowed rfl
  cases h.stage with
  | waiting hshow hk hresults hloop hcurrent =>
    subst hk
    exact h.first hshow hresults hloop hcurrent hallowed
  | empty hframes hdone hk hcurrent =>
    have hhead : m.frames.head? = none := by rw [hframes, List.head?_nil]
    cases hshow : m.isShow with
    | false =>
      rw [nextStep_first hshow, hhead]
      exact ⟨k, h.shown.nothing rfl rfl, h.status, h.growing, .empty hframes hdone hk hcurrent⟩
    | true =>
      rw [nextStep_none hshow hcurrent, hhead]
      exact ⟨k, h.shown.nothing rfl rfl, h.status, h.growing, .empty hframes hdone hk hcurrent⟩
  | played hframes hdone htotal hk hended => exact absurd (hgoes hended) hframes
  | playing hp =>
    by_cases hmore : (k - 1) % m.frames.length + 1 < m.frames.length
    · exact ⟨k + 1, h.within hp hmore⟩
    · by_cases hstatus : m.status = .parsing
      · exact ⟨k, h.waits hp (List.getElem?_eq_none (by omega)) hstatus⟩
      · refine h.loops hp hmore hstatus ?_
        rintro (hreading | hinterrupted)
        · exact hstatus (h.status.mpr hreading)
        · exact hcalm hinterrupted

/-- An append behind which the parse goes on or ends. -/
theorem playSingleFrame_follows {totalLoopTimes : Int} {k : Nat} {m : Machine α} {d : Decoder}
    (image : α) (delay : Int)
    (h : Follows totalLoopTimes k m) (happends : Appends m.decoder)
    (hd : m.status = .parsing ↔ d = .reading) :
    Follows totalLoopTimes k { playSingleFrame m image delay with decoder := d } := by
  obtain ⟨f, hf⟩ := playSingleFrame_cases m image delay
  have hk := h.growing happends
  rw [hf]
  refine ⟨h.shown.grow rfl rfl hk, hd, fun _ => ?_, ?_⟩
  · show k ≤ (m.frames ++ [f]).length
    rw [List.length_append]
    omega
  · have hgrown : m.frames ++ [f] ≠ [] :=
      List.append_ne_nil_of_right_ne_nil _ (List.cons_ne_nil _ _)
    cases h.stage with
    | waiting hshow hzero hresults hloop hcurrent =>
      refine .waiting hshow hzero hresults hloop ?_
      show (if m.frames = [] then some 0 else m.currentFrame) = if m.frames ++ [f] =
        [] then none else some 0
      rw [if_neg hgrown, hcurrent]
      split <;> rfl
    | empty _ hdone => exact absurd happends hdone
    | played _ hdone => exact absurd happends hdone
    | playing hp =>
      have hpos := hp.pos
      have hlt : k - 1 < m.frames.length := by omega
      have hlt' : k - 1 < (m.frames ++ [f]).length := by
        rw [List.length_append]
        omega
      refine .playing ⟨hp.isShow, hp.pos, hgrown, ?_, ?_, ?_, hp.goes⟩
      · show (if m.frames = [] then some 0 else m.currentFrame) =
          some ((k - 1) % (m.frames ++ [f]).length)
        rw [if_neg hp.frames, hp.current, Nat.mod_eq_of_lt hlt, Nat.mod_eq_of_lt hlt']
      · show m.loopedTimes = (k - 1) / (m.frames ++ [f]).length
        rw [hp.loop, Nat.div_eq_of_lt hlt, Nat.div_eq_of_lt hlt']
      · intro htotal
        refine le_trans (hp.before htotal) (Int.mul_le_mul_of_nonneg_left ?_ htotal.le)
        show (m.frames.length : Int) ≤ ((m.frames ++ [f]).length : Int)
        rw [List.length_append]
        omega

/-- A change of status and thread behind which nothing more comes, or what came still does. -/
theorem Follows.move {totalLoopTimes : Int} {k : Nat} {m : Machine α} {s : Status} {d : Decoder}
    (h : Follows totalLoopTimes k m) (hd : s = .parsing ↔ d = .reading)
    (happends : Appends d → Appends m.decoder) :
    Follows totalLoopTimes k { m with status := s, decoder := d } := by
  refine ⟨h.shown, hd, fun ha => h.growing (happends ha), ?_⟩
  cases h.stage with
  | waiting hshow hk hresults hloop hcurrent => exact .waiting hshow hk hresults hloop hcurrent
  | empty hframes hdone hk hcurrent =>
    exact .empty hframes (fun ha => hdone (happends ha)) hk hcurrent
  | played hframes hdone htotal hk hended =>
    exact .played hframes (fun ha => hdone (happends ha)) htotal hk hended
  | playing hp => exact .playing { hp with }

theorem step_follows {totalLoopTimes : Int} {k : Nat} {m m' : Machine α} {e : Event α}
    (h : Follows totalLoopTimes k m) (hallowed : Allowed m e)
    (hstep : step totalLoopTimes m e = some m') :
    ∃ k', Follows totalLoopTimes k' m' := by
  have hstatus : m.decoder = .interrupted ∨ m.decoder = .leaving → m.status ≠ .parsing := by
    rintro hd hs
    rw [h.status.mp hs] at hd
    rcases hd with hd | hd <;> cases hd
  cases e with
  | next =>
    cases hstep
    exact nextStep_follows h hallowed
  | append image delay =>
    rw [step] at hstep
    cases hd : m.decoder with
    | reading =>
      rw [hd] at hstep
      cases hstep
      have hsame : playSingleFrame m image delay =
          { playSingleFrame m image delay with decoder := .reading } := by
        obtain ⟨f, hf⟩ := playSingleFrame_cases m image delay
        rw [hf, ← hd]
      rw [hsame]
      exact ⟨k, playSingleFrame_follows image delay h (.inl hd)
        ⟨fun _ => rfl, fun _ => h.status.mpr hd⟩⟩
    | interrupted =>
      rw [hd] at hstep
      cases hstep
      exact ⟨k, playSingleFrame_follows image delay h (.inr hd)
        ⟨fun hs => absurd hs (hstatus (.inl hd)), nofun⟩⟩
    | leaving =>
      rw [hd] at hstep
      cases hstep
    | done =>
      rw [hd] at hstep
      cases hstep
  | interrupt =>
    rw [step] at hstep
    by_cases hd : m.decoder = .reading
    · rw [if_pos hd] at hstep
      cases hstep
      exact ⟨k, h.move ⟨nofun, nofun⟩ fun _ => .inl hd⟩
    · rw [if_neg hd] at hstep
      cases hstep
  | fail =>
    rw [step] at hstep
    by_cases hd : m.decoder = .reading
    · rw [if_pos hd] at hstep
      cases hstep
      exact ⟨k, h.move ⟨nofun, nofun⟩ fun _ => .inl hd⟩
    · rw [if_neg hd] at hstep
      cases hstep
  | finish =>
    have hout : ¬ Appends .done := by
      rintro (h | h) <;> cases h
    rw [step] at hstep
    cases hd : m.decoder with
    | reading =>
      rw [hd] at hstep
      cases hstep
      exact ⟨k, h.move ⟨nofun, nofun⟩ fun ha => absurd ha hout⟩
    | leaving =>
      rw [hd] at hstep
      cases hstep
      exact ⟨k, h.move ⟨nofun, nofun⟩ fun ha => absurd ha hout⟩
    | interrupted =>
      rw [hd] at hstep
      cases hstep
    | done =>
      rw [hd] at hstep
      cases hstep

/-- In every run that first calls `next` behind the first append, and not again
behind the end, `next` gives the frames in order, loop by loop. -/
theorem next_inOrder (totalLoopTimes : Int) (m : Machine α)
    (h : Reached (step totalLoopTimes) Allowed initial m) : Plays totalLoopTimes m := by
  have hstep (t : Machine α) (e : Event α) (u : Machine α) (ht : ∃ k, Follows totalLoopTimes k t)
      (hok : Allowed t e) (hu : step totalLoopTimes t e = some u) :
        ∃ k, Follows totalLoopTimes k u := by
    obtain ⟨k, hk⟩ := ht
    exact step_follows hk hok hu
  obtain ⟨k, hk⟩ := h.invariant ⟨0, initial_follows totalLoopTimes⟩ hstep
  exact hk.plays

/-- Two frames, played twice; the second is waited for. -/
def twoFrames : List (Event Nat) :=
  [.append 10 50, .next, .next, .append 20 50, .next, .finish, .next, .next, .next]

/-- The machine behind them. -/
def twicePlayed : Machine Nat where
  status := .finish
  frames := [⟨10, 50, 0⟩, ⟨20, 50, 1⟩]
  currentFrame := none
  isShow := true
  loopedTimes := 2
  decoder := .done
  results := [(.parsing, some ⟨10, 50, 0⟩), (.parsing, none), (.parsing, some ⟨20, 50, 1⟩),
    (.finish, some ⟨10, 50, 0⟩), (.finish, some ⟨20, 50, 1⟩), (.finish, none)]

theorem next_inOrder_twice : Plays 2 twicePlayed := by
  have hplain : ∀ {m : Machine Nat} {e : Event Nat}, e ≠ .next → Allowed m e :=
    fun hno he => absurd he hno
  have hgoes : ∀ {m : Machine Nat}, m.frames ≠ [] → m.decoder ≠ .interrupted →
      (∀ r ∈ m.results, r.1 = .parsing ∨ r.2 ≠ none) → Allowed m .next := by
    intro m hframes hcalm hresults _
    refine ⟨fun _ hno => absurd hno hframes, hcalm, ?_⟩
    rintro ⟨s, hs, hmem⟩
    rcases hresults _ hmem with h | h
    · exact absurd h hs
    · exact absurd rfl h
  have hmeets : EventRuns.Meets (step 2) Allowed initial twoFrames := by
    refine EventRuns.meets_step (hplain nofun) rfl ?_
    refine EventRuns.meets_step (hgoes nofun nofun (by decide)) rfl ?_
    refine EventRuns.meets_step (hgoes nofun nofun (by decide)) rfl ?_
    refine EventRuns.meets_step (hplain nofun) rfl ?_
    refine EventRuns.meets_step (hgoes nofun nofun (by decide)) rfl ?_
    refine EventRuns.meets_step (hplain nofun) rfl ?_
    refine EventRuns.meets_step (hgoes nofun nofun (by decide)) rfl ?_
    refine EventRuns.meets_step (hgoes nofun nofun (by decide)) rfl ?_
    exact EventRuns.meets_step (hgoes nofun nofun (by decide)) rfl trivial
  have hrun : EventRuns.run (step 2) initial twoFrames = some twicePlayed := rfl
  exact next_inOrder 2 _ (EventRuns.reached_of_run hrun hmeets)

/-- A first call before the only frame: the frame is never given, and the end comes. -/
theorem next_inOrder_calledFirst :
    ∃ m, EventRuns.run (step 1) (initial : Machine Nat)
    [.next, .append 10 50, .finish, .next] = some m ∧
      m.frames.length = 1 ∧ returned m = [] ∧ Ended m ∧ ¬ Plays 1 m := by
  have hended :
      Ended (⟨.finish, [⟨10, 50, 0⟩], none, true, 1, .done,
        [(.parsing, none), (.finish, none)]⟩ : Machine Nat) :=
    ⟨.finish, nofun, by decide⟩
  refine ⟨_, rfl, rfl, rfl, hended, ?_⟩
  rintro ⟨k, hshown, -, -, hend⟩
  have hlength := congrArg List.length hshown
  rw [List.length_map, List.length_map, List.length_range] at hlength
  have hk : k = 0 := hlength.symm
  rcases hend hended with hno | ⟨-, hk'⟩
  · cases hno
  · rw [hk] at hk'
    cases hk'

end GifStreamPlayer
