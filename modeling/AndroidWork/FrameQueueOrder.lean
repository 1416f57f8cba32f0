import AndroidWork.GifRawPlayer
import Mathlib.Data.List.Intervals

/-!
# The order in which a round decodes its frames

Up to ten frames the first refill queues all frames that were not queued at the
start, so that the decoding thread takes `0, 1, ..., F - 1` whatever the order
of the two threads. With more the queue fills up before that, and a repeated
refill queues an index again.
-/
namespace FrameQueueOrder

open EventRuns (Reached)
open GifStreamPlayer (Status)
open GifRawPlayer

/-- The player is at the last frame there is. -/
def ShownAll (m : Machine) : Prop :=
  match m.currentFrame with
  | none => m.frames = []
  | some c => m.frames.length ≤ c + 1

/-- Behind the loop of `playImages`, before the next round. -/
def RoundOver : Decoder → Prop
  | .ending | .leaving | .waiting => True
  | _ => False

/-- Within that loop. -/
def InLoop : Decoder → Prop
  | .turning | .taking | .decoding _ | .appending _ _ | .played _ => True
  | _ => False

/-- What a round of `F` frames decodes, and that it is never left without an index. -/
structure Rounds (F : Nat) (m : Machine) : Prop where
  ordered : ∃ n ≤ F, m.decoded = List.range n
  complete : RoundOver m.decoder → m.decoded = List.range F
  fed : m.decoder = .taking → m.queue = [] → ¬ ShownAll m

/-- The calls of `next`; every frame decodes. -/
def Listed : Event → Prop
  | .decoder o => o = .ok
  | .free => False
  | _ => True

/-- The decoding thread within the loop, `n` indices taken. -/
inductive Turn (F n : Nat) (m : Machine) : Prop where
  | between (hd : m.decoder = .turning ∨ m.decoder = .taking) (hn : n < F)
    (hframes : m.frames.length = n)
      (hdecoded : m.decoded = List.range n)
  | decoding (i : Nat) (hd : m.decoder = .decoding i) (hn : n = i + 1) (hi : i < F)
    (hframes : m.frames.length = i)
      (hdecoded : m.decoded = List.range i)
  | appending (i : Nat) (hd : m.decoder = .appending i true) (hn : n = i + 1) (hi : i < F)
      (hframes : m.frames.length = i) (hdecoded : m.decoded = List.range (i + 1))
  | played (i : Nat) (hd : m.decoder = .played i) (hn : n = i + 1) (hi : i < F)
    (hframes : m.frames.length = i + 1)
      (hdecoded : m.decoded = List.range (i + 1))

/-- What is queued, `n` indices taken: all others, with whatever behind the
last; before the first refill those queued at the start; or, within the first
refill, those up to its index. -/
inductive Refill (F n : Nat) (m : Machine) : Prop where
  | filled (junk : List Nat) (hn : n ≤ F) (hqueue : m.queue = List.Ico n F ++ junk)
  | early (hF : COUNT < F) (hn : n ≤ COUNT) (hqueue : m.queue = List.Ico n COUNT)
      (hcurrent : ∀ c, m.currentFrame = some c → c ≤ STEP)
      (hplayer : m.player = .idle ∨ m.player = .advancing ∧ ∀ c, m.currentFrame = some c → c < STEP)
  | adding (i : Nat) (hn : n ≤ i) (hlow : COUNT ≤ i) (hhigh : i ≤ F)
    (hqueue : m.queue = List.Ico n i)
      (hcurrent : m.currentFrame = some STEP) (hplayer : m.player = .adding i (i - COUNT))

structure InRound (F n : Nat) (m : Machine) : Prop where
  turn : Turn F n m
  refill : Refill F n m
  status : m.status = .parsing
  running : m.stopped = false
  cursor : ∀ c, m.currentFrame = some c → c < m.frames.length
  quiet : Quiet m.player

/-- Where the two threads are in their rounds. -/
inductive Phase (F : Nat) (m : Machine) : Prop where
  | before (hd : m.decoder = .listing ∨ m.decoder = .entering ∨ m.decoder = .testing ∨
    m.decoder = .done)
      (hcurrent : m.currentFrame = none) (hplayer : m.player = .idle)
      (hdecoded : m.decoded = [] ∨ m.decoded = List.range F)
  | starting (hd : m.decoder = .starting) (hcurrent : m.currentFrame = none)
    (hplayer : m.player = .idle)
      (hrunning : m.stopped = false) (hdecoded : m.decoded = [] ∨ m.decoded = List.range F)
  | setup (hd : m.decoder = .clearing ∨
    (m.decoder = .resetting ∨ m.decoder = .marking) ∧ m.frames = [])
      (hcurrent : m.currentFrame = none) (hplayer : m.player = .idle) (hrunning : m.stopped = false)
      (hdecoded : m.decoded = []) (hqueue : m.queue = List.range COUNT)
  | round (n : Nat) (h : InRound F n m)
  | played (hd : m.decoder = .ending ∧ m.status = .parsing ∨ m.decoder = .leaving ∨
    m.decoder = .waiting)
      (hdecoded : m.decoded = List.range F)
      (hplayer : Quiet m.player ∨ m.player = .notifying ∧ m.currentFrame = none ∧
        m.decoder ≠ .ending)

/-- The invariant. -/
structure Ordered (F : Nat) (m : Machine) : Prop where
  phase : Phase F m
  lock : m.lockLost = false

theorem initial_ordered (F : Nat) : Ordered F initial :=
  ⟨.before (.inl rfl) rfl rfl (.inl rfl), rfl⟩

theorem Turn.bounds {F n : Nat} {m : Machine} (h : Turn F n m) : m.frames.length ≤ n ∧ n ≤ F := by
  cases h <;> omega

theorem Turn.inLoop {F n : Nat} {m : Machine} (h : Turn F n m) : InLoop m.decoder := by
  cases h with
  | between hd => rcases hd with hd | hd <;> rw [hd] <;> trivial
  | decoding i hd => rw [hd]; trivial
  | appending i hd => rw [hd]; trivial
  | played i hd => rw [hd]; trivial

theorem Turn.same {F n : Nat} {m m' : Machine} (h : Turn F n m) (hd : m'.decoder = m.decoder)
    (hframes : m'.frames = m.frames) (hdecoded : m'.decoded = m.decoded) : Turn F n m' := by
  cases h with
  | between hd' hn hf hdec => exact .between (hd ▸ hd') hn (hframes ▸ hf) (hdecoded ▸ hdec)
  | decoding i hd' hn hi hf hdec =>
    exact .decoding i (hd ▸ hd') hn hi (hframes ▸ hf) (hdecoded ▸ hdec)
  | appending i hd' hn hi hf hdec =>
    exact .appending i (hd ▸ hd') hn hi (hframes ▸ hf) (hdecoded ▸ hdec)
  | played i hd' hn hi hf hdec => exact .played i (hd ▸ hd') hn hi (hframes ▸ hf) (hdecoded ▸ hdec)

theorem Refill.same {F n : Nat} {m m' : Machine} (h : Refill F n m) (hqueue : m'.queue = m.queue)
    (hcurrent : m'.currentFrame = m.currentFrame) (hplayer : m'.player = m.player) :
    Refill F n m' := by
  cases h with
  | filled junk hn hq => exact .filled junk hn (hqueue ▸ hq)
  | early hF hn hq hc hp =>
    refine .early hF hn (hqueue ▸ hq) (hcurrent ▸ hc) ?_
    rw [hplayer, hcurrent]
    exact hp
  | adding i hn hlow hhigh hq hc hp =>
    exact .adding i hn hlow hhigh (hqueue ▸ hq) (hcurrent ▸ hc) (hplayer ▸ hp)

/-- A round that is set up: nothing taken, the first six queued. -/
theorem refill_first {F : Nat} {m : Machine} (hqueue : m.queue = List.range COUNT)
    (hcurrent : m.currentFrame = none) (hplayer : m.player = .idle) : Refill F 0 m := by
  rw [← List.Ico.zero_bot] at hqueue
  by_cases hle : F ≤ COUNT
  · refine .filled (List.Ico F COUNT) (Nat.zero_le _) ?_
    rw [hqueue, List.Ico.append_consecutive (Nat.zero_le _) hle]
  · refine .early (by omega) (Nat.zero_le _) hqueue ?_ (.inl hplayer)
    rw [hcurrent]
    nofun

/-- The index taken next is the next one. -/
theorem Refill.take {F n : Nat} {m : Machine} {index : Nat} {queue : List Nat} (d : Decoder)
    (h : Refill F n m)
    (hn : n < F) (hqueue : m.queue = index :: queue) :
    index = n ∧ Refill F (n + 1) { m with queue := queue, decoder := d } := by
  have hcons (p : Nat) (junk : List Nat) (hp : n < p) (hq : m.queue = List.Ico n p ++ junk) :
      index = n ∧ queue = List.Ico (n + 1) p ++ junk := by
    rw [hqueue, List.Ico.eq_cons hp, List.cons_append] at hq
    exact List.cons_eq_cons.mp hq
  have hmore {p : Nat} (hp : n ≤ p) (hq : m.queue = List.Ico n p) : n < p := by
    refine lt_of_le_of_ne hp fun heq => ?_
    rw [hqueue, heq, List.Ico.self_empty] at hq
    cases hq
  cases h with
  | filled junk _ hq =>
    obtain ⟨rfl, hrest⟩ := hcons _ junk hn hq
    exact ⟨rfl, .filled junk hn hrest⟩
  | early hF hle hq hc hp =>
    have hlt := hmore hle hq
    obtain ⟨rfl, hrest⟩ := hcons _ [] hlt (by rw [hq, List.append_nil])
    exact ⟨rfl, .early hF hlt (by rw [hrest, List.append_nil]) hc hp⟩
  | adding i hle hlow hhigh hq hc hp =>
    have hlt := hmore hle hq
    obtain ⟨rfl, hrest⟩ := hcons _ [] hlt (by rw [hq, List.append_nil])
    exact ⟨rfl, .adding i hlt hlow hhigh (by rw [hrest, List.append_nil]) hc hp⟩

/-- With the last frame queued or a refill to come, an empty queue is behind the player. -/
theorem InRound.fed {F n : Nat} {m : Machine} (h : InRound F n m) (hd : m.decoder = .taking)
    (hqueue : m.queue = []) :
    ¬ ShownAll m := by
  obtain ⟨hn, hframes⟩ : n < F ∧ m.frames.length = n := by
    cases h.turn with
    | between _ hn hframes => exact ⟨hn, hframes⟩
    | decoding i hd' =>
      rw [hd] at hd'
      cases hd'
    | appending i hd' =>
      rw [hd] at hd'
      cases hd'
    | played i hd' =>
      rw [hd] at hd'
      cases hd'
  have hbehind (hmany : COUNT ≤ n) (hcurrent : ∀ c, m.currentFrame = some c → c ≤ STEP) :
      ¬ ShownAll m := by
    rw [ShownAll]
    cases hc : m.currentFrame with
    | none =>
      intro hnil
      rw [hnil, List.length_nil] at hframes
      rw [← hframes] at hmany
      cases hmany
    | some c =>
      have := hcurrent c hc
      simp only [COUNT, STEP] at hmany this
      show ¬ m.frames.length ≤ c + 1
      omega
  cases h.refill with
  | filled junk _ hq =>
    rw [hqueue, List.Ico.eq_cons hn] at hq
    cases hq
  | early hF hle hq hc hp =>
    rw [hqueue] at hq
    exact hbehind (List.Ico.eq_empty_iff.mp hq.symm) hc
  | adding i hle hlow hhigh hq hc hp =>
    rw [hqueue] at hq
    have hi := List.Ico.eq_empty_iff.mp hq.symm
    refine hbehind (le_trans hlow hi) fun c hc' => ?_
    rw [hc] at hc'
    cases hc'
    exact le_refl _

theorem Ordered.rounds {F : Nat} {m : Machine} (h : Ordered F m) : Rounds F m := by
  have hwhole (hdecoded : m.decoded = [] ∨ m.decoded = List.range F) :
      ∃ n ≤ F, m.decoded = List.range n := by
    rcases hdecoded with hd | hd
    · exact ⟨0, Nat.zero_le _, hd⟩
    · exact ⟨F, le_refl _, hd⟩
  cases h.phase with
  | before hd hcurrent hplayer hdecoded =>
    refine ⟨hwhole hdecoded, fun hr => ?_, fun ht => ?_⟩
    · rcases hd with hd | hd | hd | hd <;> exact absurd hr (by simp [hd, RoundOver])
    · rcases hd with hd | hd | hd | hd <;> exact absurd ht (by simp [hd])
  | starting hd hcurrent hplayer hrunning hdecoded =>
    exact ⟨hwhole hdecoded, fun hr => absurd hr (by simp [hd, RoundOver]),
      fun ht => absurd ht (by simp [hd])⟩
  | setup hd hcurrent hplayer hrunning hdecoded hqueue =>
    refine ⟨hwhole (.inl hdecoded), fun hr => ?_, fun ht => ?_⟩
    · rcases hd with hd | ⟨hd | hd, -⟩ <;> exact absurd hr (by simp [hd, RoundOver])
    · rcases hd with hd | ⟨hd | hd, -⟩ <;> exact absurd ht (by simp [hd])
  | played hd hdecoded hplayer =>
    refine ⟨hwhole (.inr hdecoded), fun _ => hdecoded, fun ht => ?_⟩
    rcases hd with ⟨hd, -⟩ | hd | hd <;> exact absurd ht (by simp [hd])
  | round n hr =>
    refine ⟨?_, fun hover => ?_, hr.fed⟩
    · cases hr.turn with
      | between _ hn _ hdecoded => exact ⟨n, hn.le, hdecoded⟩
      | decoding i _ _ hi _ hdecoded => exact ⟨i, hi.le, hdecoded⟩
      | appending i _ _ hi _ hdecoded => exact ⟨i + 1, hi, hdecoded⟩
      | played i _ _ hi _ hdecoded => exact ⟨i + 1, hi, hdecoded⟩
    · have hloop := hr.turn.inLoop
      cases hd : m.decoder <;> rw [hd] at hloop hover <;>
        first | exact hover.elim | exact hloop.elim

theorem Refill.linked {F n : Nat} {m : Machine} (h : Refill F n m) (hplayer : m.player = .idle)
    (frames : List Bool)
    (d : Decoder) {current : Option Nat} (hcurrent : current = m.currentFrame ∨ current = some 0) :
    Refill F n { m with frames := frames, decoder := d, currentFrame := current } := by
  cases h with
  | filled junk hn hq => exact .filled junk hn hq
  | early hF hn hq hc hp =>
    refine .early hF hn hq ?_ (.inl hplayer)
    rcases hcurrent with rfl | rfl
    · exact hc
    · intro c hc'
      cases hc'
      exact Nat.zero_le _
  | adding i hn hlow hhigh hq hc hp =>
    rw [hplayer] at hp
    cases hp

/-- The step with `mLock`, which the player does not hold. -/
theorem InRound.link {F n : Nat} {m m' : Machine} (h : InRound F n m) (hlock : m.lockLost = false)
    {i : Nat} (hd : m.decoder = .appending i true) (hn : n = i + 1) (hi : i < F)
    (hframes : m.frames.length = i)
    (hdecoded : m.decoded = List.range (i + 1))
    (hstep : GifRawPlayer.decoderStep F .ok m = some m') : Ordered F m' := by
  obtain ⟨hfree, rfl⟩ := (decoderStep_appending hd).mp hstep
  have hplayer : m.player = .idle := by
    rcases h.quiet with hp | hp | ⟨j, num, hp⟩
    · exact hp
    · rw [hp] at hfree
      cases hfree
    · rw [hp] at hfree
      cases hfree
  by_cases hnil : m.frames = []
  · rw [linkFrame_first hnil]
    have hzero : i = 0 := by rw [← hframes, hnil, List.length_nil]
    refine ⟨.round n ⟨.played i rfl hn hi ?_ hdecoded, h.refill.linked hplayer _ _ (.inr rfl),
      h.status, h.running, ?_,
      .inl hplayer⟩, hlock⟩
    · rw [hzero]
      rfl
    · intro c hc
      cases hc
      exact Nat.one_pos
  · rw [linkFrame_next hnil hframes.symm]
    have hlength : (m.frames ++ [true]).length = i + 1 := by rw [List.length_append, hframes]; rfl
    refine ⟨.round n ⟨.played i rfl hn hi hlength hdecoded, h.refill.linked hplayer _ _ (.inl rfl),
      h.status, h.running,
      ?_, .inl hplayer⟩, hlock⟩
    intro c hc
    have := h.cursor c hc
    show c < (m.frames ++ [true]).length
    omega

/-- One step of the decoding thread within the loop. -/
theorem InRound.decoderStep {F n : Nat} {m m' : Machine} (h : InRound F n m)
    (hlock : m.lockLost = false)
    (hstep : GifRawPlayer.decoderStep F .ok m = some m') : Ordered F m' := by
  cases h.turn with
  | between hd hn hframes hdecoded =>
    rcases hd with hd | hd
    · simp only [GifRawPlayer.decoderStep, hd, h.running, Bool.false_eq_true, if_false] at hstep
      cases hstep
      exact ⟨.round n ⟨.between (.inr rfl) hn hframes hdecoded,
        h.refill.same rfl rfl rfl, h.status, rfl,
        h.cursor, h.quiet⟩, hlock⟩
    · cases hq : m.queue with
      | nil =>
        simp only [GifRawPlayer.decoderStep, hd, hq] at hstep
        cases hstep
      | cons index queue =>
        simp only [GifRawPlayer.decoderStep, hd, hq] at hstep
        cases hstep
        obtain ⟨rfl, hrefill⟩ := h.refill.take (.decoding index) hn hq
        exact ⟨.round (index + 1) ⟨.decoding index rfl rfl hn hframes hdecoded, hrefill,
          h.status, h.running,
          h.cursor, h.quiet⟩, hlock⟩
  | decoding i hd hn hi hframes hdecoded =>
    simp only [GifRawPlayer.decoderStep, hd, if_neg (not_le.mpr hi), h.status, ne_eq,
      not_true_eq_false, if_false] at hstep
    cases hstep
    refine ⟨.round n ⟨.appending i rfl hn hi hframes ?_, h.refill.same rfl rfl rfl, rfl,
      h.running, h.cursor,
      h.quiet⟩, hlock⟩
    show m.decoded ++ [i] = _
    rw [hdecoded, List.range_succ]
  | played i hd hn hi hframes hdecoded =>
    simp only [GifRawPlayer.decoderStep, hd] at hstep
    cases hstep
    by_cases hlast : i + 1 = F
    · rw [if_pos hlast]
      exact ⟨.played (.inl ⟨rfl, h.status⟩) (hlast ▸ hdecoded) (.inl h.quiet), hlock⟩
    · rw [if_neg hlast]
      exact ⟨.round n ⟨.between (.inl rfl) (by omega) (hn ▸ hframes) (hn ▸ hdecoded),
        h.refill.same rfl rfl rfl,
        h.status, h.running, h.cursor, h.quiet⟩, hlock⟩
  | appending i hd hn hi hframes hdecoded =>
    exact h.link hlock hd hn hi hframes hdecoded hstep

/-- The step of the decoding thread outside the loop. -/
theorem Ordered.decoderStep {F : Nat} {m m' : Machine} (hF : 0 < F) (h : Ordered F m)
    (hstep : GifRawPlayer.decoderStep F .ok m = some m') : Ordered F m' := by
  cases h.phase with
  | round n hr => exact hr.decoderStep h.lock hstep
  | before hd hcurrent hplayer hdecoded =>
    rcases hd with hd | hd | hd | hd <;> simp only [GifRawPlayer.decoderStep, hd] at hstep
    · split at hstep
      · cases hstep
        exact h
      · cases hstep
        exact ⟨.before (.inr (.inl rfl)) hcurrent hplayer hdecoded, h.lock⟩
    · cases hstep
      exact ⟨.before (.inr (.inr (.inl rfl))) hcurrent hplayer hdecoded, h.lock⟩
    · rw [if_neg (by omega : ¬ F = 0)] at hstep
      split at hstep
      · cases hstep
        exact ⟨.before (.inr (.inr (.inr rfl))) hcurrent hplayer hdecoded, h.lock⟩
      · rename_i hs
        cases hstep
        exact ⟨.starting rfl hcurrent hplayer (Bool.eq_false_iff.mpr hs) hdecoded, h.lock⟩
    · cases hstep
  | starting hd hcurrent hplayer hrunning hdecoded =>
    simp only [GifRawPlayer.decoderStep, hd] at hstep
    cases hstep
    exact ⟨.setup (.inl rfl) hcurrent hplayer hrunning rfl rfl, h.lock⟩
  | setup hd hcurrent hplayer hrunning hdecoded hqueue =>
    rcases hd with hd | ⟨hd | hd, hnil⟩ <;>
      simp only [GifRawPlayer.decoderStep, hd] at hstep <;> cases hstep
    · exact ⟨.setup (.inr ⟨.inl rfl, rfl⟩) hcurrent hplayer hrunning hdecoded hqueue, h.lock⟩
    · exact ⟨.setup (.inr ⟨.inr rfl, hnil⟩) rfl hplayer hrunning hdecoded hqueue, h.lock⟩
    · refine ⟨.round 0 ⟨.between (.inl rfl) hF (by rw [hnil]; rfl) hdecoded,
        refill_first hqueue hcurrent hplayer, rfl,
        hrunning, ?_, .inl hplayer⟩, h.lock⟩
      intro c hc
      rw [hcurrent] at hc
      cases hc
  | played hd hdecoded hplayer =>
    rcases hd with ⟨hd, -⟩ | hd | hd <;>
      simp only [GifRawPlayer.decoderStep, hd] at hstep <;> cases hstep
    · refine ⟨.played (.inr (.inl rfl)) hdecoded ?_, h.lock⟩
      rcases hplayer with hp | ⟨-, -, hp⟩
      · exact .inl hp
      · exact absurd hd hp
    · refine ⟨.played (.inr (.inr rfl)) hdecoded ?_, h.lock⟩
      rcases hplayer with hp | ⟨hp, hc, -⟩
      · exact .inl hp
      · exact .inr ⟨hp, hc, by simp⟩

/-- A call within the loop of the decoding thread. -/
theorem InRound.callNext {F n : Nat} {totalLoopTimes : Int} {m : Machine} (h : InRound F n m)
    (hidle : m.player = .idle) :
    InRound F n (GifRawPlayer.callNext F totalLoopTimes m) := by
  rcases callNext_cases F totalLoopTimes m with hm
    | ⟨c, hc, ⟨-, hdue, hm⟩ | ⟨-, hdue, hm⟩ | ⟨hno, -⟩ | ⟨hno, -⟩⟩
  · rw [hm]
    exact ⟨h.turn.same rfl rfl rfl, h.refill.same rfl rfl rfl, h.status, h.running,
      h.cursor, h.quiet⟩
  · rw [hm]
    refine ⟨h.turn.same rfl rfl rfl, ?_, h.status, h.running, h.cursor, .inr (.inr ⟨_, _, rfl⟩)⟩
    cases h.refill with
    | filled junk hn hq => exact .filled junk hn hq
    | early hF hn hq hcurrent hp =>
      have hle := hcurrent c hc
      obtain rfl : c = STEP := by
        obtain ⟨hmod, -, hpos⟩ := hdue
        simp only [STEP, COUNT] at hmod hle ⊢
        omega
      exact .adding COUNT hn (le_refl _) hF.le hq hc rfl
    | adding i hn hlow hhigh hq hcurrent hp =>
      rw [hidle] at hp
      cases hp
  · rw [hm]
    refine ⟨h.turn.same rfl rfl rfl, ?_, h.status, h.running, h.cursor, .inr (.inl rfl)⟩
    cases h.refill with
    | filled junk hn hq => exact .filled junk hn hq
    | early hF hn hq hcurrent hp =>
      refine .early hF hn hq hcurrent (.inr ⟨rfl, ?_⟩)
      intro c' hc'
      have hle := hcurrent c' hc'
      refine lt_of_le_of_ne hle fun heq => hdue ?_
      rw [show m.currentFrame = some c' from hc', heq] at hc
      obtain rfl := Option.some.inj hc
      simp only [COUNT] at hF
      refine ⟨Nat.mod_self _, ?_, by decide⟩
      simp only [STEP, COUNT]
      omega
    | adding i hn hlow hhigh hq hcurrent hp =>
      rw [hidle] at hp
      cases hp
  · exact absurd h.status hno
  · exact absurd h.status hno

/-- The first refill of up to ten frames finds room for each. -/
theorem InRound.adding {F n i : Nat} {m : Machine} (hfew : F ≤ 10) (h : InRound F n m)
    (hlow : COUNT ≤ i)
    (hhigh : i ≤ F) (hn : n ≤ i) (hqueue : m.queue = List.Ico n i)
    (hcurrent : m.currentFrame = some STEP) :
    Refill F n (GifRawPlayer.addStep F i (i - COUNT) m) := by
  by_cases hi : F ≤ i
  · rw [addStep_behind hi]
    obtain rfl : i = F := le_antisymm hhigh hi
    exact .filled [] hn (by rw [List.append_nil]; exact hqueue)
  · have hframes : m.frames.length ≤ n := h.turn.bounds.1
    have hfour : STEP < n := lt_of_lt_of_le (h.cursor _ hcurrent) hframes
    have habsent : m.frames[i]? ≠ some true := by
      rw [List.getElem?_eq_none (hframes.trans hn)]
      nofun
    have hroom : m.queue.length < COUNT := by
      rw [hqueue, List.Ico.length]
      simp only [STEP, COUNT] at hfour ⊢
      omega
    rcases addStep_cases m (i - COUNT) (not_le.mp hi) with ⟨ht, -⟩ | ⟨-, -, hm⟩ | ⟨-, hfull, -⟩
    · exact absurd ht habsent
    · have hgoes : ¬ i - COUNT + 1 ≥ COUNT := by
        simp only [COUNT]
        omega
      rw [hm, if_neg hgoes]
      refine .adding (i + 1) (by omega) (by omega) (by omega) ?_ hcurrent ?_
      · show m.queue ++ [i] = _
        rw [hqueue, List.Ico.succ_top hn]
      · rw [Nat.succ_sub hlow]
    · exact absurd hroom (not_lt.mpr hfull)

/-- One turn of `addQueue` within the loop. -/
theorem InRound.addStep {F n i num : Nat} {m : Machine} (hfew : F ≤ 10) (h : InRound F n m)
    (hplayer : m.player = .adding i num) : InRound F n (GifRawPlayer.addStep F i num m) := by
  have hrefill : Refill F n (GifRawPlayer.addStep F i num m) := by
    cases h.refill with
    | filled junk hn hq =>
      obtain ⟨put, player, -, hm⟩ := addStep_puts F i num m
      rw [hm]
      exact .filled (junk ++ put) hn (by rw [hq, List.append_assoc])
    | early hF hn hq hcurrent hp =>
      rw [hplayer] at hp
      rcases hp with hp | ⟨hp, -⟩ <;> cases hp
    | adding j hn hlow hhigh hq hcurrent hp =>
      obtain ⟨rfl, rfl⟩ := Player.adding.inj (hplayer.symm.trans hp)
      exact h.adding hfew hlow hhigh hn hq hcurrent
  obtain ⟨put, player, hquiet, hm⟩ := addStep_puts F i num m
  rw [hm] at hrefill ⊢
  exact ⟨h.turn.same rfl rfl rfl, hrefill, h.status, h.running, h.cursor, hquiet⟩

theorem InRound.advance {F n : Nat} {m : Machine} (h : InRound F n m)
    (hplayer : m.player = .advancing) :
    InRound F n (GifRawPlayer.advance m) := by
  obtain ⟨current, hm, hmoves⟩ := advance_cases m
  rw [hm]
  refine ⟨h.turn.same rfl rfl rfl, ?_, h.status, h.running, ?_, .inl rfl⟩
  · cases h.refill with
    | filled junk hn hq => exact .filled junk hn hq
    | early hF hn hq hcurrent hp =>
      refine .early hF hn hq ?_ (.inl rfl)
      intro c hc
      obtain ⟨c', hc', hle⟩ := hmoves c hc
      rcases hp with hp | ⟨-, hlt⟩
      · rw [hplayer] at hp
        cases hp
      · have := hlt c' hc'
        omega
    | adding i hn hlow hhigh hq hcurrent hp =>
      rw [hplayer] at hp
      cases hp
  · intro c hc
    obtain ⟨c', hc', rfl | ⟨-, hlt⟩⟩ := hmoves c hc
    · exact h.cursor c hc'
    · exact hlt

/-- A call of `next`. -/
theorem Ordered.callNext {F : Nat} {totalLoopTimes : Int} {m : Machine} (h : Ordered F m)
    (hidle : m.player = .idle) :
    Ordered F (GifRawPlayer.callNext F totalLoopTimes m) := by
  have hstays (hcurrent : m.currentFrame = none) :
      GifRawPlayer.callNext F totalLoopTimes m = { m with isShow := true } := by
    rcases callNext_cases F totalLoopTimes m with hm | ⟨c, hc, -⟩
    · exact hm
    · rw [hcurrent] at hc
      cases hc
  cases h.phase with
  | before hd hcurrent hplayer hdecoded =>
    rw [hstays hcurrent]
    exact ⟨.before hd hcurrent hplayer hdecoded, h.lock⟩
  | starting hd hcurrent hplayer hrunning hdecoded =>
    rw [hstays hcurrent]
    exact ⟨.starting hd hcurrent hplayer hrunning hdecoded, h.lock⟩
  | setup hd hcurrent hplayer hrunning hdecoded hqueue =>
    rw [hstays hcurrent]
    exact ⟨.setup hd hcurrent hplayer hrunning hdecoded hqueue, h.lock⟩
  | round n hr =>
    refine ⟨.round n (hr.callNext hidle), ?_⟩
    rcases callNext_cases F totalLoopTimes m with hm
      | ⟨c, -, ⟨-, -, hm⟩ | ⟨-, -, hm⟩ | ⟨-, -, hm⟩ | ⟨-, -, hm⟩⟩ <;>
      rw [hm] <;> exact h.lock
  | played hd hdecoded hplayer =>
    have hquiet : Quiet m.player := .inl hidle
    rcases callNext_cases F totalLoopTimes m with
      hm | ⟨c, -, ⟨-, -, hm⟩ | ⟨-, -, hm⟩ | ⟨-, -, hm⟩ | ⟨hstatus, -, hm⟩⟩ <;> rw [hm]
    · exact ⟨.played hd hdecoded (.inl hquiet), h.lock⟩
    · exact ⟨.played hd hdecoded (.inl (.inr (.inr ⟨_, _, rfl⟩))), h.lock⟩
    · exact ⟨.played hd hdecoded (.inl (.inr (.inl rfl))), h.lock⟩
    · exact ⟨.played hd hdecoded (.inl hquiet), h.lock⟩
    · refine ⟨.played hd hdecoded (.inr ⟨rfl, rfl, ?_⟩), h.lock⟩
      rcases hd with ⟨-, hparsing⟩ | hd | hd
      · exact absurd hparsing hstatus
      · exact hd ▸ nofun
      · exact hd ▸ nofun

/-- A further step of a call. -/
theorem Ordered.playerStep {F : Nat} {m m' : Machine} (hfew : F ≤ 10) (h : Ordered F m)
    (hstep : GifRawPlayer.playerStep F m = some m') : Ordered F m' := by
  have hbusy (hplayer : m.player = .idle) : Ordered F m' := by
    simp only [GifRawPlayer.playerStep, hplayer] at hstep
    cases hstep
  cases h.phase with
  | before hd hcurrent hplayer hdecoded => exact hbusy hplayer
  | starting hd hcurrent hplayer hrunning hdecoded => exact hbusy hplayer
  | setup hd hcurrent hplayer hrunning hdecoded hqueue => exact hbusy hplayer
  | round n hr =>
    rcases hr.quiet with hp | hp | ⟨i, num, hp⟩
    · exact hbusy hp
    · simp only [GifRawPlayer.playerStep, hp] at hstep
      cases hstep
      obtain ⟨current, hm, -⟩ := advance_cases m
      exact ⟨.round n (hr.advance hp), by rw [hm]; exact h.lock⟩
    · simp only [GifRawPlayer.playerStep, hp] at hstep
      cases hstep
      obtain ⟨put, player, -, hm⟩ := addStep_puts F i num m
      exact ⟨.round n (hr.addStep hfew hp), by rw [hm]; exact h.lock⟩
  | played hd hdecoded hplayer =>
    rcases hplayer with (hp | hp | ⟨i, num, hp⟩) | ⟨hp, hcurrent, hd'⟩
    · exact hbusy hp
    · simp only [GifRawPlayer.playerStep, hp] at hstep
      cases hstep
      obtain ⟨current, hm, -⟩ := advance_cases m
      rw [hm]
      exact ⟨.played hd hdecoded (.inl (.inl rfl)), h.lock⟩
    · simp only [GifRawPlayer.playerStep, hp] at hstep
      cases hstep
      obtain ⟨put, player, hquiet, hm⟩ := addStep_puts F i num m
      rw [hm]
      exact ⟨.played hd hdecoded (.inl hquiet), h.lock⟩
    · -- the notify that lets the next round begin
      rcases hd with ⟨hd, -⟩ | hd | hd
      · exact absurd hd hd'
      · simp [GifRawPlayer.playerStep, hp, hd, Decoder.holdsThreadLock] at hstep
      · simp only [GifRawPlayer.playerStep, hp, hd, Decoder.holdsThreadLock, notify, if_true,
          Bool.false_eq_true,
          if_false, Option.some.injEq] at hstep
        cases hstep
        exact ⟨.before (.inr (.inl rfl)) hcurrent rfl (.inr hdecoded), h.lock⟩

theorem step_ordered {F : Nat} {totalLoopTimes : Int} {m m' : Machine} {e : Event}
    (hF : 0 < F) (hfew : F ≤ 10)
    (h : Ordered F m) (hlisted : Listed e) (hstep : step F totalLoopTimes m e = some m') :
    Ordered F m' := by
  cases e with
  | decoder o =>
    obtain rfl : o = .ok := hlisted
    exact h.decoderStep hF hstep
  | player => exact h.playerStep hfew hstep
  | free => exact hlisted.elim
  | next =>
    rw [step] at hstep
    by_cases hready : m.player = .idle ∧ m.lockLost = false
    · rw [if_pos hready] at hstep
      cases hstep
      exact h.callNext hready.1
    · rw [if_neg hready] at hstep
      cases hstep

/-- Up to ten frames every round of every run is in order. -/
theorem reached_rounds {F : Nat} {totalLoopTimes : Int} {m : Machine} (hF : 0 < F) (hfew : F ≤ 10)
    (h : Reached (step F totalLoopTimes) (fun _ e => Listed e) initial m) : Rounds F m :=
  (h.invariant (initial_ordered F) fun _ _ _ hm hok hstep =>
    step_ordered hF hfew hm hok hstep).rounds

section Many

variable {F : Nat} {totalLoopTimes : Int} {m : Machine}

theorem reached_event {m' : Machine} (e : Event) (hlisted : Listed e)
    (h : step F totalLoopTimes m e = some m') :
    Reached (step F totalLoopTimes) (fun _ e => Listed e) m m' := .step .here hlisted h

theorem reached_take {index : Nat} {queue : List Nat} (hd : m.decoder = .turning)
    (hrunning : m.stopped = false)
    (hqueue : m.queue = index :: queue) : Reached (step F totalLoopTimes) (fun _ e => Listed e) m
      { m with queue := queue, decoder := .decoding index } := by
  refine .step (reached_event (.decoder .ok) rfl ?_) (e := .decoder .ok) rfl ?_
    (t := { m with decoder := .taking })
  · simp [step, GifRawPlayer.decoderStep, hd, hrunning]
  · simp [step, GifRawPlayer.decoderStep, hqueue]

/-- A frame is decoded and linked. -/
theorem reached_link {i : Nat} (hd : m.decoder = .decoding i) (hi : i + 1 < F)
    (hstatus : m.status = .parsing)
    (hplayer : m.player = .idle) (hframes : m.frames.length = i) :
    Reached (step F totalLoopTimes) (fun _ e => Listed e) m
      { m with frames := m.frames ++ [true], currentFrame := if m.frames = [] then some 0
        else m.currentFrame,
               decoded := m.decoded ++ [i], decoder := .turning } := by
  have hdecode : step F totalLoopTimes m (.decoder .ok) =
      some { m with decoded := m.decoded ++ [i], decoder := .appending i true } := by
    simp only [step, GifRawPlayer.decoderStep, hd, if_neg (by omega : ¬ F ≤ i),
      if_neg (not_not.mpr hstatus)]
  have hlink : step F totalLoopTimes
      { m with decoded := m.decoded ++ [i], decoder := .appending i true } (.decoder .ok) =
      some { m with frames := m.frames ++ [true], currentFrame := if m.frames = [] then some 0
        else m.currentFrame,
                    decoded := m.decoded ++ [i], decoder := .played i } := by
    rw [step, decoderStep_appending rfl]
    refine ⟨by rw [hplayer]; rfl, ?_⟩
    by_cases hnil : m.frames = []
    · rw [linkFrame_first (by exact hnil), if_pos hnil, hnil]
      rfl
    · rw [linkFrame_next (by exact hnil) (by exact hframes.symm), if_neg hnil]
  refine ((reached_event (.decoder .ok) rfl hdecode).trans
    (reached_event (.decoder .ok) rfl hlink)).trans
    (reached_event (.decoder .ok) rfl ?_)
  simp only [step, GifRawPlayer.decoderStep, if_neg (by omega : ¬ i + 1 = F)]

/-- A `next` that goes to the next frame. -/
theorem reached_advance {c : Nat} (hplayer : m.player = .idle) (hlock : m.lockLost = false)
    (hshow : m.isShow = true)
    (hcurrent : m.currentFrame = some c) (hstatus : m.status = .parsing) (hdue : ¬ Refills F c)
    (hmore : c + 1 < m.frames.length) : Reached (step F totalLoopTimes) (fun _ e => Listed e) m
      { m with currentFrame := some (c + 1) } := by
  have hcall : step F totalLoopTimes m .next = some { m with player := .advancing } := by
    rw [step, if_pos ⟨hplayer, hlock⟩, GifRawPlayer.callNext, if_neg (by rw [hshow]; decide)]
    simp only [hcurrent]
    exact congrArg some ((if_pos hstatus).trans (if_neg hdue))
  refine (reached_event .next trivial hcall).step (e := .player) trivial ?_
  simp only [step, GifRawPlayer.playerStep, GifRawPlayer.advance, hcurrent, if_pos hmore, hplayer]

/-- A `next` that begins a refill at index `i`. -/
theorem reached_due {c i : Nat} (hplayer : m.player = .idle) (hlock : m.lockLost = false)
    (hshow : m.isShow = true)
    (hcurrent : m.currentFrame = some c) (hstatus : m.status = .parsing) (hdue : Refills F c)
    (hi : c + STEP = i) :
    Reached (step F totalLoopTimes) (fun _ e => Listed e) m { m with player := .adding i 0 } := by
  refine reached_event .next trivial ?_
  rw [step, if_pos ⟨hplayer, hlock⟩, GifRawPlayer.callNext, if_neg (by rw [hshow]; decide), ← hi]
  simp only [hcurrent]
  exact congrArg some ((if_pos hstatus).trans (if_pos hdue))

theorem reached_put {i num : Nat} (hplayer : m.player = .adding i num) (hi : i < F)
    (hframes : m.frames.length ≤ i)
    (hroom : m.queue.length < COUNT) (hnum : num + 1 < COUNT) :
    Reached (step F totalLoopTimes) (fun _ e => Listed e) m
      { m with queue := m.queue ++ [i], player := .adding (i + 1) (num + 1) } := by
  refine reached_event .player trivial ?_
  rw [step, GifRawPlayer.playerStep, hplayer]
  rcases addStep_cases m num hi with ⟨ht, -⟩ | ⟨-, -, hm⟩ | ⟨-, hfull, -⟩
  · rw [List.getElem?_eq_none hframes] at ht
    cases ht
  · simp only [hm, if_neg (not_le.mpr hnum)]
  · omega

/-- With the queue full the rest of a refill passes. -/
theorem reached_full {i num : Nat} (hplayer : m.player = .adding i num) (hi : i ≤ F)
    (hframes : m.frames.length ≤ i)
    (hfull : COUNT ≤ m.queue.length) : Reached (step F totalLoopTimes) (fun _ e => Listed e) m
      { m with player := .advancing } := by
  obtain ⟨k, hk⟩ := Nat.exists_eq_add_of_le hi
  induction k generalizing m i num with
  | zero =>
    refine reached_event .player trivial ?_
    rw [step, GifRawPlayer.playerStep, hplayer]
    simp only [addStep_behind (by omega : F ≤ i)]
  | succ k ih =>
    have hpass : step F totalLoopTimes m .player =
        some { m with player := .adding (i + 1) (num + 1) } := by
      rw [step, GifRawPlayer.playerStep, hplayer]
      rcases addStep_cases m num (by omega : i < F) with ⟨ht, -⟩ | ⟨-, hroom, -⟩ | ⟨-, -, hm⟩
      · rw [List.getElem?_eq_none hframes] at ht
        cases ht
      · omega
      · simp only [hm]
    exact (reached_event .player trivial hpass).trans
      (ih rfl (by omega) (by show m.frames.length ≤ _; omega) hfull (by omega))

/-- A first refill by the time frame 3 is shown and frame 4 is not begun. -/
def refilled : Machine where
  status := .parsing
  frames := [true, true, true, true]
  currentFrame := some 3
  isShow := true
  loopedTimes := 0
  stopped := false
  queue := [4, 5, 6, 7, 8, 9]
  rawData := true
  lockLost := false
  decoder := .turning
  player := .idle
  decoded := [0, 1, 2, 3]

/-- A round that is set up. -/
def roundBegun : Machine where
  status := .parsing
  frames := []
  currentFrame := none
  isShow := false
  loopedTimes := 0
  stopped := false
  queue := [0, 1, 2, 3, 4, 5]
  rawData := true
  lockLost := false
  decoder := .turning
  player := .idle
  decoded := []

theorem reached_roundBegun (hF : 0 < F) : Reached (step F totalLoopTimes)
    (fun _ e => Listed e) initial roundBegun := by
  have hlisted : Listed (.decoder .ok) := rfl
  have htest : step F totalLoopTimes { initial with decoder := .testing } (.decoder .ok) =
      some { initial with decoder := .starting } := if_neg (by omega)
  have hentered : Reached (step F totalLoopTimes) (fun _ e => Listed e) initial
      { initial with decoder := .testing } :=
    (reached_event _ hlisted rfl).step hlisted rfl
  exact (((((hentered.step hlisted htest).step hlisted rfl).step hlisted rfl).step hlisted rfl).step
    hlisted rfl)

theorem not_refills {c : Nat} (h : c = 0 ∨ c % STEP ≠ 0) : ¬ Refills F c := by
  rintro ⟨hmod, -, hpos⟩
  rcases h with h | h
  · exact hpos h
  · exact h hmod

theorem refills_three (hmany : 11 ≤ F) : Refills F 3 := ⟨rfl, by omega, by decide⟩

/-- Four frames are decoded. -/
theorem reached_four (hmany : 11 ≤ F) : Reached (step F totalLoopTimes)
    (fun _ e => Listed e) roundBegun
    { refilled with currentFrame := some 0, isShow := false, queue := [4, 5] } := by
  have hzero : Reached (step F totalLoopTimes) (fun _ e => Listed e) roundBegun _ :=
    (reached_take rfl rfl rfl).trans (reached_link (i := 0) rfl (by omega) rfl rfl rfl)
  have hone := (hzero.trans (reached_take rfl rfl rfl)).trans
    (reached_link rfl (by omega) rfl rfl rfl)
  have htwo := (hone.trans (reached_take rfl rfl rfl)).trans
    (reached_link rfl (by omega) rfl rfl rfl)
  exact (htwo.trans (reached_take rfl rfl rfl)).trans (reached_link rfl (by omega) rfl rfl rfl)

/-- They are shown, and the next four queued; there is no room for more. -/
theorem reached_refilled (hmany : 11 ≤ F) : Reached (step F totalLoopTimes) (fun _ e => Listed e)
    { refilled with currentFrame := some 0, isShow := false, queue := [4, 5] } refilled := by
  have hfirst : Reached (step F totalLoopTimes) (fun _ e => Listed e)
      { refilled with currentFrame := some 0, isShow := false, queue := [4, 5] }
      { refilled with currentFrame := some 0, queue := [4, 5] } := reached_event .next trivial rfl
  have hsecond : Reached (step F totalLoopTimes) (fun _ e => Listed e)
      { refilled with currentFrame := some 0, queue := [4, 5] } { refilled with queue := [4, 5] } :=
    ((reached_advance rfl rfl rfl rfl rfl (not_refills (.inl rfl)) (by decide)).trans
      (reached_advance rfl rfl rfl rfl rfl (not_refills (.inr (by decide))) (by decide))).trans
      (reached_advance rfl rfl rfl rfl rfl (not_refills (.inr (by decide))) (by decide))
  have hsix : Reached (step F totalLoopTimes) (fun _ e => Listed e)
      { refilled with queue := [4, 5] }
      { refilled with queue := [4, 5, 6, 7], player := .adding 8 2 } :=
    ((reached_due (i := 6) rfl rfl rfl rfl rfl (refills_three hmany) rfl).trans
      (reached_put rfl (by omega) (by decide) (by decide) (by decide))).trans
      (reached_put rfl (by omega) (by decide) (by decide) (by decide))
  have height : Reached (step F totalLoopTimes) (fun _ e => Listed e)
      { refilled with queue := [4, 5, 6, 7], player := .adding 8 2 }
        { refilled with player := .advancing } :=
    ((reached_put rfl (by omega) (by decide) (by decide) (by decide)).trans
      (reached_put rfl (by omega) (by decide) (by decide) (by decide))).trans
      (reached_full rfl (by omega) (by decide) (by decide))
  exact (((hfirst.trans hsecond).trans hsix).trans height).trans (reached_event .player trivial rfl)

/-- Frame 4 is taken, and a second `next` at frame 3 queues index 6 again. -/
theorem reached_twice (hmany : 11 ≤ F) : Reached (step F totalLoopTimes)
    (fun _ e => Listed e) refilled
    { refilled with queue := [5, 6, 7, 8, 9, 6], decoder := .decoding 4 } := by
  have htaken : Reached (step F totalLoopTimes) (fun _ e => Listed e) refilled _ :=
    reached_take rfl rfl rfl
  have hdue := htaken.trans (reached_due (i := 6) rfl rfl rfl rfl rfl (refills_three hmany) rfl)
  have hsix := hdue.trans (reached_put rfl (by omega) (by decide) (by decide) (by decide))
  have hfull := hsix.trans (reached_full rfl (by omega) (by decide) (by decide))
  exact hfull.trans (reached_event .player trivial rfl)

/-- Then ten frames are decoded in order, and frame 6 again. -/
theorem reached_again (F : Nat) (totalLoopTimes : Int) (hmany : 11 ≤ F) :
    ∃ m, Reached (step F totalLoopTimes) (fun _ e => Listed e) initial m ∧
    m.decoded = [0, 1, 2, 3, 4, 5, 6, 7, 8, 9, 6] := by
  have hbegun : Reached (step F totalLoopTimes) (fun _ e => Listed e) initial refilled :=
    ((reached_roundBegun (by omega)).trans (reached_four hmany)).trans (reached_refilled hmany)
  have hfour := (hbegun.trans (reached_twice hmany)).trans (reached_link rfl (by omega) rfl rfl rfl)
  have hfive := (hfour.trans (reached_take rfl rfl rfl)).trans
    (reached_link rfl (by omega) rfl rfl rfl)
  have hsix := (hfive.trans (reached_take rfl rfl rfl)).trans
    (reached_link rfl (by omega) rfl rfl rfl)
  have hseven := (hsix.trans (reached_take rfl rfl rfl)).trans
    (reached_link rfl (by omega) rfl rfl rfl)
  have height := (hseven.trans (reached_take rfl rfl rfl)).trans
    (reached_link rfl (by omega) rfl rfl rfl)
  have hnine := (height.trans (reached_take rfl rfl rfl)).trans
    (reached_link rfl (by omega) rfl rfl rfl)
  have hagain := (hnine.trans (reached_take rfl rfl rfl)).trans
    (reached_event (.decoder .ok) rfl (if_neg (by omega)))
  exact ⟨_, hagain, rfl⟩

end Many

theorem not_rounds {F : Nat} {m : Machine}
    (hdecoded : m.decoded = [0, 1, 2, 3, 4, 5, 6, 7, 8, 9, 6]) : ¬ Rounds F m := by
  intro h
  obtain ⟨n, -, hn⟩ := h.ordered
  rw [hdecoded] at hn
  have hlength := congrArg List.length hn
  rw [List.length_range] at hlength
  rw [← hlength] at hn
  exact absurd hn (by decide)

/-- Every run of every interleaving keeps each round in order exactly up to ten frames. -/
theorem rounds_iff (F : Nat) (totalLoopTimes : Int) (hF : 0 < F) :
    (∀ m, Reached (step F totalLoopTimes) (fun _ e => Listed e) initial m → Rounds F m) ↔
    F ≤ 10 := by
  constructor
  · intro hall
    by_contra hmany
    obtain ⟨m, hm, hdecoded⟩ := reached_again F totalLoopTimes (not_le.mp hmany)
    exact not_rounds hdecoded (hall m hm)
  · exact fun hfew m hm => reached_rounds hF hfew hm

theorem rounds_iff_ten :
    0 < 10 ∧ ((∀ m, Reached (step 10 1) (fun _ e => Listed e) initial m → Rounds 10 m) ↔ 10 ≤ 10) :=
  ⟨by decide, rounds_iff 10 1 (by decide)⟩

/-- With eleven frames index 6 is decoded twice. -/
theorem rounds_eleven : ∃ m, Reached (step 11 1) (fun _ e => Listed e) initial m ∧
    m.decoded = [0, 1, 2, 3, 4, 5, 6, 7, 8, 9, 6] ∧ ¬ Rounds 11 m := by
  obtain ⟨m, hm, hdecoded⟩ := reached_again 11 1 (by decide)
  exact ⟨m, hm, hdecoded, not_rounds hdecoded⟩

end FrameQueueOrder
