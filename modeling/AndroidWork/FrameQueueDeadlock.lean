import AndroidWork.GifRawPlayer

/-!
# The frame queue and the two locks

The decoding thread holds `mThreadLock` through a whole round, its wait on the
frame queue included, and the player takes that lock at the end of a loop and in
`free`. A player that waits for it queues nothing more, so the round has to end
on what is queued by then.
-/
namespace FrameQueueDeadlock

open EventRuns (Reached)
open GifRawPlayer

/-- The decoding thread waits on the empty queue. -/
def Starved (m : Machine) : Prop := m.decoder = .taking ∧ m.queue = []

/-- Within `free` or behind it. -/
def Freed (p : Player) : Prop := p = .freeing ∨ p = .clearing ∨ p = .freed

/-- The decoding thread gets out by its own steps and those left of `free`. -/
def CanLeave (F : Nat) (totalLoopTimes : Int) (m : Machine) : Prop :=
  ∃ m', Reached (step F totalLoopTimes) (fun _ e => e = .decoder .ok ∨ e = .player) m m' ∧
    m'.decoder = .done

/-- The last index is queued. -/
def Queued (F : Nat) (m : Machine) : Prop := ∃ i ∈ m.queue, i + 1 = F

/-- The round ends on what is queued. -/
def Ends (F : Nat) (m : Machine) : Prop :=
  match m.decoder with
  | .starting => 0 < F
  | .clearing | .resetting | .marking | .turning | .taking => Queued F m
  | .decoding i | .appending i _ | .played i => i + 1 = F ∨ Queued F m
  | _ => True

/-- `next` is about to leave the last frame there is, the status not parsing. -/
def AtEnd (m : Machine) : Prop :=
  m.isShow = true ∧ m.status ≠ .parsing ∧ ∃ c, m.currentFrame = some c ∧ m.frames.length ≤ c + 1

/-- `mStopped` is set, or is by that `next`. -/
def Stops (totalLoopTimes : Int) (m : Machine) : Prop :=
  m.stopped = true ∨ totalLoopTimes > 0 ∧ ((m.loopedTimes + 1 : Nat) : Int) ≥ totalLoopTimes

/-- `free` comes behind the listing; and with more than six frames `free` and a
`next` that stops find no starved decoding thread, and a `next` that asks for
another round finds the running one about to end. -/
def Allowed (F : Nat) (totalLoopTimes : Int) (m : Machine) (e : Event) : Prop :=
  (e = .free → m.decoder ≠ .listing) ∧
    (F ≤ COUNT ∨ (e = .free → ¬ Starved m) ∧
      (e = .next → AtEnd m → Ends F m ∨ Stops totalLoopTimes m ∧ ¬ Starved m))

/-- Before the loop of `playImages`. -/
def Early : Decoder → Prop
  | .listing | .entering | .testing | .starting | .clearing | .resetting | .marking => True
  | _ => False

/-- The invariant. -/
structure Safe (F : Nat) (m : Machine) : Prop where
  few : F ≤ COUNT → Ends F m
  early : Early m.decoder → m.currentFrame = none ∧ m.player = .idle ∨ Freed m.player
  notifying : m.player = .notifying → m.currentFrame = none ∧
    (Ends F m ∨ m.stopped = true ∧ ¬ Starved m)
  freeing : m.player = .freeing → m.stopped = true ∧ ¬ Starved m ∧ m.decoder ≠ .listing
  freed : m.player = .clearing ∨ m.player = .freed →
    m.stopped = true ∧ (m.decoder = .entering ∨ m.decoder = .testing ∨ m.decoder = .done)

section Turns

variable {F : Nat} {o : Outcome} {m m' : Machine}

theorem Ends.fromTesting (hd : m.decoder = .testing)
    (hstep : decoderStep F o m = some m') : Ends F m' := by
  simp only [GifRawPlayer.decoderStep, hd] at hstep
  split at hstep
  · cases hstep
    trivial
  · split at hstep
    · cases hstep
      trivial
    · rename_i hF
      cases hstep
      exact Nat.pos_of_ne_zero hF

/-- The last frame is one of those that are not taken yet, or the one that is taken now. -/
theorem Ends.fromTaking (h : Ends F m) (hd : m.decoder = .taking)
    (hstep : decoderStep F o m = some m') : Ends F m' := by
  simp only [GifRawPlayer.decoderStep, hd] at hstep
  rw [Ends, hd] at h
  obtain ⟨i, hi, hlast⟩ := h
  cases hq : m.queue with
  | nil =>
    rw [hq] at hi
    cases hi
  | cons index queue =>
    rw [hq] at hi hstep
    cases hstep
    obtain rfl | hi := List.mem_cons.mp hi
    · exact .inl hlast
    · exact .inr ⟨i, hi, hlast⟩

theorem Ends.fromDecoding {i : Nat} (h : Ends F m) (hd : m.decoder = .decoding i)
    (hstep : decoderStep F o m = some m') :
    Ends F m' := by
  simp only [GifRawPlayer.decoderStep, hd] at hstep
  rw [Ends, hd] at h
  split at hstep
  · cases hstep
    trivial
  · split at hstep
    · cases hstep
      exact h
    · cases o <;> cases hstep
      · exact h
      · exact h
      · trivial
      · exact h

theorem Ends.fromAppending {i : Nat} {image : Bool} (h : Ends F m)
    (hd : m.decoder = .appending i image)
    (hstep : decoderStep F o m = some m') : Ends F m' := by
  obtain ⟨-, rfl⟩ := (decoderStep_appending hd).mp hstep
  rw [Ends, hd] at h
  rw [linkFrame]
  split
  · exact h
  · split
    · exact h
    · split
      · exact h
      · trivial

theorem Ends.fromPlayed {i : Nat} (h : Ends F m) (hd : m.decoder = .played i)
    (hstep : decoderStep F o m = some m') :
    Ends F m' := by
  simp only [GifRawPlayer.decoderStep, hd] at hstep
  rw [Ends, hd] at h
  cases hstep
  by_cases hlast : i + 1 = F
  · rw [if_pos hlast]
    trivial
  · rw [if_neg hlast]
    exact h.resolve_left hlast

/-- The decoding thread keeps to what is queued, once it is queued. -/
theorem Ends.decoderStep (h : Ends F m) (hfirst : m.decoder = .starting → F ≤ COUNT)
    (hstep : decoderStep F o m = some m') : Ends F m' := by
  cases hd : m.decoder with
  | testing => exact Ends.fromTesting hd hstep
  | taking => exact h.fromTaking hd hstep
  | decoding i => exact h.fromDecoding hd hstep
  | appending i image => exact h.fromAppending hd hstep
  | played i => exact h.fromPlayed hd hstep
  | listing =>
    simp only [GifRawPlayer.decoderStep, hd] at hstep
    split at hstep
    · cases hstep
      exact h
    · split at hstep <;> cases hstep <;> trivial
  | starting =>
    simp only [GifRawPlayer.decoderStep, hd] at hstep
    rw [Ends, hd] at h
    have hle := hfirst hd
    cases hstep
    exact ⟨F - 1, List.mem_range.mpr (by omega), Nat.sub_add_cancel h⟩
  | turning =>
    simp only [GifRawPlayer.decoderStep, hd] at hstep
    rw [Ends, hd] at h
    cases hstep
    cases m.stopped with
    | true => trivial
    | false => exact h
  | clearing | resetting | marking =>
    simp only [GifRawPlayer.decoderStep, hd] at hstep
    rw [Ends, hd] at h
    cases hstep
    exact h
  | entering | ending | leaving =>
    simp only [GifRawPlayer.decoderStep, hd] at hstep
    cases hstep
    trivial
  | waiting | done =>
    simp only [GifRawPlayer.decoderStep, hd] at hstep
    cases hstep

end Turns

/-- With `mStopped` set the decoding thread does not come to the queue again. -/
theorem not_starved_step {F : Nat} {o : Outcome} {m m' : Machine} (hstopped : m.stopped = true)
    (hstep : decoderStep F o m = some m') : ¬ Starved m' := by
  rintro ⟨hd, -⟩
  have hmoves := (decoderStep_moves hstep).1
  rw [hd, hstopped] at hmoves
  generalize m.decoder = d at hmoves
  cases hmoves with
  | turn h => cases h

theorem early_back {stopped : Bool} {d d' : Decoder} (hmoves : Moves stopped d d')
    (h : Early d') : Early d := by
  cases hmoves <;> trivial

theorem Safe.decoderStep {F : Nat} {o : Outcome} {m m' : Machine} (h : Safe F m)
    (hstep : GifRawPlayer.decoderStep F o m = some m') : Safe F m' := by
  obtain ⟨hmoves, hplayer, hstopped, hcurrent⟩ := decoderStep_moves hstep
  refine ⟨fun hle => (h.few hle).decoderStep (fun _ => hle) hstep, ?_, ?_, ?_, ?_⟩
  · intro hearly
    rw [hplayer]
    have hback := early_back hmoves hearly
    refine (h.early hback).imp_left fun ⟨hnone, hidle⟩ => ⟨?_, hidle⟩
    rcases hcurrent with hc | hc | ⟨-, index, image, hd⟩
    · rw [hc, hnone]
    · exact hc
    · rw [hd] at hback
      exact hback.elim
  · intro hp
    rw [hplayer] at hp
    obtain ⟨hnone, hends⟩ := h.notifying hp
    refine ⟨?_, hends.imp (fun he => he.decoderStep ?_ hstep) fun ⟨hs, _⟩ =>
      ⟨hstopped.trans hs, not_starved_step hs hstep⟩⟩
    · rcases hcurrent with hc | hc | ⟨hfree, -⟩
      · rw [hc, hnone]
      · exact hc
      · rw [hp] at hfree
        cases hfree
    · intro hd
      rcases h.early (by rw [hd]; trivial) with ⟨-, hidle⟩ | hfreed | hfreed | hfreed
      · rw [hp] at hidle
        cases hidle
      · rw [hp] at hfreed
        cases hfreed
      · rw [hp] at hfreed
        cases hfreed
      · rw [hp] at hfreed
        cases hfreed
  · intro hp
    rw [hplayer] at hp
    obtain ⟨hs, -, hlisted⟩ := h.freeing hp
    refine ⟨hstopped.trans hs, not_starved_step hs hstep, fun hd => ?_⟩
    rw [hd] at hmoves
    generalize m.decoder = d at hmoves hlisted
    cases hmoves
    exact hlisted rfl
  · intro hp
    rw [hplayer] at hp
    obtain ⟨hs, hout⟩ := h.freed hp
    refine ⟨hstopped.trans hs, ?_⟩
    rcases hout with hd | hd | hd <;> rw [hd, hs] at hmoves
    · generalize m'.decoder = d at hmoves ⊢
      cases hmoves
      exact .inr (.inl rfl)
    · generalize m'.decoder = d at hmoves ⊢
      cases hmoves with
      | leave => exact .inr (.inr rfl)
      | begin h => cases h
      | noFrames h => cases h
    · generalize m'.decoder = d at hmoves ⊢
      cases hmoves

theorem Ends.mono {F : Nat} {m m' : Machine} (h : Ends F m) (hd : m'.decoder = m.decoder)
    (hqueue : ∀ i ∈ m.queue, i ∈ m'.queue) : Ends F m' := by
  have hqueued : Queued F m → Queued F m' := fun ⟨i, hi, hlast⟩ => ⟨i, hqueue i hi, hlast⟩
  rw [Ends] at h ⊢
  rw [hd]
  cases hdec : m.decoder <;> rw [hdec] at h <;>
    first | exact h | exact hqueued h | exact h.imp_right hqueued

/-- A call that goes on neither to a notify nor within `free`, behind the setup of a round. -/
theorem Safe.moved {F : Nat} {m m' : Machine} (h : Safe F m) (hlate : ¬ Early m.decoder)
    (hd : m'.decoder = m.decoder)
    (hqueue : ∀ i ∈ m.queue, i ∈ m'.queue)
    (hplayer : m'.player ≠ .notifying ∧ ¬ Freed m'.player) : Safe F m' where
  few := fun hle => (h.few hle).mono hd hqueue
  early := fun he => absurd (hd ▸ he) hlate
  notifying := fun hp => absurd hp hplayer.1
  freeing := fun hp => absurd (.inl hp) hplayer.2
  freed := fun hp => absurd (.inr hp) hplayer.2

theorem not_freed_quiet {p : Player} (h : Quiet p) :
    p ≠ .notifying ∧ ¬ Freed p := by
  refine ⟨?_, ?_⟩
  · rcases h with rfl | rfl | ⟨i, num, rfl⟩ <;> nofun
  · rcases h with rfl | rfl | ⟨i, num, rfl⟩ <;> rintro (hp | hp | hp) <;> cases hp

/-- A cursor at a frame, or a call under way that holds `mLock`, is behind the setup of a round. -/
theorem Safe.late {F : Nat} {m : Machine} (h : Safe F m)
    (hplayer : m.player ≠ .notifying ∧ ¬ Freed m.player)
    (hbusy : m.player ≠ .idle ∨ m.currentFrame ≠ none) : ¬ Early m.decoder := by
  intro he
  rcases h.early he with ⟨hnone, hidle⟩ | hfreed
  · exact hbusy.elim (absurd hidle) (absurd hnone)
  · exact hplayer.2 hfreed

theorem Safe.callNext {F : Nat} {totalLoopTimes : Int} {m : Machine} (h : Safe F m)
    (hallowed : Allowed F totalLoopTimes m .next) (hidle : m.player = .idle) :
    Safe F (GifRawPlayer.callNext F totalLoopTimes m) := by
  have hquiet := not_freed_quiet (.inl hidle)
  cases hshow : m.isShow with
  | false =>
    have hm : GifRawPlayer.callNext F totalLoopTimes m = { m with isShow := true } := if_pos hshow
    rw [hm]
    exact ⟨h.few, h.early, h.notifying, h.freeing, h.freed⟩
  | true =>
    rcases callNext_cases F totalLoopTimes m with hm | ⟨c, hc, hm⟩
    · rw [hm]
      exact ⟨h.few, h.early, h.notifying, h.freeing, h.freed⟩
    · have hlate := h.late hquiet (.inr (by rw [hc]; nofun))
      rcases hm with ⟨-, -, hm⟩ | ⟨-, -, hm⟩ | ⟨-, -, hm⟩ | ⟨hstatus, hlast, hm⟩
      · rw [hm]
        exact h.moved hlate rfl (fun _ hi => hi) (not_freed_quiet (.inr (.inr ⟨_, _, rfl⟩)))
      · rw [hm]
        exact h.moved hlate rfl (fun _ hi => hi) (not_freed_quiet (.inr (.inl rfl)))
      · rw [hm]
        exact h.moved hlate rfl (fun _ hi => hi) hquiet
      · rw [hm]
        refine ⟨h.few, fun he => absurd he hlate, fun _ => ⟨rfl, ?_⟩, nofun,
          by rintro (hp | hp) <;> cases hp⟩
        rcases hallowed.2 with hle | ⟨-, hends⟩
        · exact .inl (h.few hle)
        · refine (hends rfl ⟨hshow, hstatus, c, hc, hlast⟩).imp id fun ⟨hstops, hno⟩ => ⟨?_, hno⟩
          rcases hstops with hs | hs
          · show (m.stopped || _) = true
            rw [hs, Bool.true_or]
          · show (m.stopped || decide _) = true
            rw [decide_eq_true hs, Bool.or_true]

/-- The notify takes the decoding thread out of its wait, or leaves it. -/
theorem notify_cases {m : Machine} (h : m.decoder.holdsThreadLock = false) :
    ∃ d, notify m = { m with decoder := d } ∧
    (d = .entering ∨ d = m.decoder ∧ (d = .listing ∨ d = .done)) := by
  by_cases hw : m.decoder = .waiting
  · exact ⟨.entering, if_pos hw, .inl rfl⟩
  · refine ⟨m.decoder, if_neg hw, ?_⟩
    cases hd : m.decoder <;> rw [hd] at h hw
    case listing => exact .inr ⟨rfl, .inl rfl⟩
    case entering => exact .inl rfl
    case done => exact .inr ⟨rfl, .inr rfl⟩
    case waiting => exact absurd rfl hw
    all_goals cases h

theorem Safe.playerStep {F : Nat} {m m' : Machine} (h : Safe F m)
    (hstep : GifRawPlayer.playerStep F m = some m') :
    Safe F m' := by
  cases hp : m.player with
  | idle =>
    simp only [GifRawPlayer.playerStep, hp] at hstep
    cases hstep
  | freed =>
    simp only [GifRawPlayer.playerStep, hp] at hstep
    cases hstep
  | advancing =>
    have hlate := h.late (hp ▸ not_freed_quiet (.inr (.inl rfl))) (.inl (hp ▸ nofun))
    simp only [GifRawPlayer.playerStep, hp] at hstep
    cases hstep
    obtain ⟨current, hm, -⟩ := advance_cases m
    rw [hm]
    exact h.moved hlate rfl (fun _ hi => hi) (not_freed_quiet (.inl rfl))
  | adding i num =>
    have hlate := h.late (hp ▸ not_freed_quiet (.inr (.inr ⟨i, num, rfl⟩))) (.inl (hp ▸ nofun))
    simp only [GifRawPlayer.playerStep, hp] at hstep
    cases hstep
    obtain ⟨put, player, hquiet, hm⟩ := addStep_puts F i num m
    rw [hm]
    exact h.moved hlate rfl (fun _ hi => List.mem_append_left _ hi) (not_freed_quiet hquiet)
  | notifying =>
    obtain ⟨hnone, hends⟩ := h.notifying hp
    simp only [GifRawPlayer.playerStep, hp] at hstep
    split at hstep
    · cases hstep
    · rename_i hfree
      cases hstep
      obtain ⟨d, hm, hd⟩ := notify_cases (Bool.eq_false_iff.mpr hfree)
      rw [hm]
      refine ⟨fun _ => ?_, fun _ => .inl ⟨hnone, rfl⟩, nofun, nofun,
        by rintro (hp | hp) <;> cases hp⟩
      rcases hd with rfl | ⟨-, rfl | rfl⟩ <;> trivial
  | freeing =>
    obtain ⟨hs, hno, hlisted⟩ := h.freeing hp
    simp only [GifRawPlayer.playerStep, hp] at hstep
    split at hstep
    · cases hstep
    · rename_i hfree
      cases hstep
      obtain ⟨d, hm, hd⟩ := notify_cases (Bool.eq_false_iff.mpr hfree)
      rw [hm]
      have hout : d = .entering ∨ d = .done := by
        rcases hd with hd | ⟨hd, hd' | hd'⟩
        · exact .inl hd
        · exact absurd (hd.symm.trans hd') hlisted
        · exact .inr hd'
      refine ⟨fun _ => ?_, fun _ => .inr (.inr (.inl rfl)), nofun, nofun, fun _ => ⟨hs, ?_⟩⟩
      · rcases hout with rfl | rfl <;> trivial
      · exact hout.imp id .inr
  | clearing =>
    obtain ⟨hs, hout⟩ := h.freed (.inl hp)
    simp only [GifRawPlayer.playerStep, hp] at hstep
    cases hstep
    exact ⟨fun hle => (h.few hle).mono rfl fun _ hi => hi,
      fun _ => .inr (.inr (.inr rfl)), nofun, nofun,
      fun _ => ⟨hs, hout⟩⟩

/-- How far the decoding thread is from its end, once stopped. -/
def distance : Decoder → Nat
  | .done => 0
  | .testing => 1
  | .entering => 2
  | .waiting => 3
  | .leaving => 4
  | .ending => 5
  | .turning => 6
  | .played _ => 7
  | .appending _ _ => 8
  | .decoding _ => 9
  | .taking => 10
  | .marking => 11
  | .resetting => 12
  | .clearing => 13
  | .starting => 14
  | .listing => 15

/-- Once stopped every step of the decoding thread takes it nearer its end. -/
theorem distance_lt {d d' : Decoder} (hmoves : Moves true d d') (hlisted : d ≠ .listing) :
    distance d' < distance d := by
  cases hmoves with
  | spin => exact absurd rfl hlisted
  | begin h => cases h
  | noFrames h => cases h
  | turn h => cases h
  | _ => simp [distance]

/-- Behind the start of `free`. -/
structure Leaving (F : Nat) (m : Machine) : Prop where
  safe : Safe F m
  freed : Freed m.player

theorem Leaving.listed {F : Nat} {m : Machine} (h : Leaving F m) :
    m.stopped = true ∧ m.decoder ≠ .listing ∧ ¬ Starved m := by
  rcases h.freed with hp | hp
  · obtain ⟨hs, hno, hlisted⟩ := h.safe.freeing hp
    exact ⟨hs, hlisted, hno⟩
  · obtain ⟨hs, hout⟩ := h.safe.freed hp
    refine ⟨hs, ?_, ?_⟩
    · rcases hout with hd | hd | hd <;> rw [hd] <;> nofun
    · rintro ⟨ht, -⟩
      rcases hout with hd | hd | hd <;> rw [hd] at ht <;> cases ht

theorem Leaving.unlocked {F : Nat} {m : Machine} (h : Leaving F m) :
    m.player.holdsLock = false := by
  rcases h.freed with hp | hp | hp <;> rw [hp] <;> rfl

/-- The decoding thread can go on, unless it is in its wait or out. -/
theorem Leaving.enabled {F : Nat} {m : Machine} (h : Leaving F m) (hw : m.decoder ≠ .waiting)
    (hd : m.decoder ≠ .done) :
    ∃ m', decoderStep F .ok m = some m' := by
  rw [← Option.isSome_iff_exists]
  obtain ⟨-, -, hno⟩ := h.listed
  cases hdec : m.decoder with
  | waiting => exact absurd hdec hw
  | done => exact absurd hdec hd
  | taking =>
    cases hq : m.queue with
    | nil => exact absurd ⟨hdec, hq⟩ hno
    | cons index queue => simp only [decoderStep, hdec, hq, Option.isSome_some]
  | appending index image => simp [decoderStep, hdec, h.unlocked]
  | listing =>
    simp only [decoderStep, hdec]
    split_ifs <;> rfl
  | testing =>
    simp only [decoderStep, hdec]
    split_ifs <;> rfl
  | decoding index =>
    simp only [decoderStep, hdec]
    split_ifs <;> rfl
  | _ => simp only [decoderStep, hdec, Option.isSome_some]

/-- Behind a `free` that came before the end of the listing. -/
def Spins (m : Machine) : Prop := m.decoder = .listing ∧ m.rawData = false ∧ m.player = .freed

theorem spins_step {F : Nat} {totalLoopTimes : Int} {m m' : Machine} {e : Event} (h : Spins m)
    (hstep : step F totalLoopTimes m e = some m') : Spins m' := by
  obtain ⟨hd, hraw, hp⟩ := h
  cases e with
  | decoder o =>
    simp only [step, GifRawPlayer.decoderStep, hd, hraw, Bool.not_false, if_true] at hstep
    cases hstep
    exact ⟨hd, hraw, hp⟩
  | player =>
    simp only [step, GifRawPlayer.playerStep, hp] at hstep
    cases hstep
  | next =>
    rw [step, if_neg (by simp [hp])] at hstep
    cases hstep
  | free =>
    rw [step, if_neg (by simp [hp])] at hstep
    cases hstep

/-- `free` during the listing takes the raw data away, and the listing reads zeros for ever. -/
theorem reached_leaves_freedListing :
    ∃ m, EventRuns.run (step 7 1) initial [.free, .player, .player] = some m ∧
    Freed m.player ∧ ¬ CanLeave 7 1 m := by
  refine ⟨_, rfl, .inr (.inr rfl), ?_⟩
  rintro ⟨m', hreached, hd⟩
  have hspins : Spins m' := hreached.invariant ⟨rfl, rfl, rfl⟩ fun _ _ _ hm _ hstep =>
    spins_step hm hstep
  rw [hspins.1] at hd
  cases hd

end FrameQueueDeadlock
