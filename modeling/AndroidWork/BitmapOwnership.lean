import AndroidWork.FrameSequenceDrawable

/-!
# Who owns the bitmaps of a drawable

Each of the two bitmaps is in front, in back, owed by a call or a runnable that
is about to release it, or released. While a decode runs, the back bitmap is its
target and only the decoding thread may give it back.
-/
namespace BitmapOwnership

open EventRuns (Reached)
open FrameSequenceDrawable

/-- The bitmaps a UI call is still to release. -/
def owed (ui : List Section) : List Bitmap :=
  ui.filterMap fun
    | .release b => some b
    | _ => none

/-- The bitmap the decoding thread is still to release. -/
def Decoder.owed : Decoder → Option Bitmap
  | .leaving b => b
  | _ => none

/-- 1 for the bitmap in a place, 0 for the other. -/
def holds (place : Option Bitmap) (b : Bitmap) : Nat := if place = some b then 1 else 0

/-- The rest of a `destroy` only releases; other calls never do. -/
def Shape (ui : List Section) : Prop :=
  (∃ bs : List Bitmap, ui = bs.map .release) ∨
    ((∀ b, Section.release b ∉ ui) ∧ (Section.destroy ∈ ui → ui = [.destroy]))

/-- Bitmaps are handed back once, not under a running decode, and both once
`destroy` has returned and the decoding thread rests. -/
structure Safe (m : Machine) : Prop where
  once : m.released.Nodup
  apart : ∀ frame b, m.decoder = .decoding frame (some b) → b ∉ m.released
  both : m.fields.destroyed = true → owed m.ui = [] → m.decoder = .idle → ∀ b, b ∈ m.released

/-- `destroy` is not entered while a decode runs that a stop, a restart or the
finished callback has taken out of the decoding state. -/
def Allowed (m : Machine) (e : Event) : Prop :=
  (∃ due, e = .ui due) → m.ui.head? = some .destroy → m.fields.destroyed = false →
    Decoding m.decoder → m.fields.state = .decoding

structure Owned (m : Machine) : Prop where
  balance : ∀ b, m.released.count b + (owed m.ui).count b + holds (Decoder.owed m.decoder) b +
    holds m.fields.frontBitmap b + holds m.fields.backBitmap b = 1
  shape : Shape m.ui
  target : ∀ frame bitmap, m.decoder = .decoding frame bitmap →
    bitmap = m.fields.backBitmap ∧ m.fields.backBitmap ≠ none
  busy : Decoding m.decoder → m.fields.destroyed = false →
    m.fields.state ≠ .waitingToSwap ∧ m.fields.state ≠ .readyToSwap
  quiet : m.fields.destroyed = false → m.fields.state = .decoding →
    Decoding m.decoder ∧ 0 ≤ m.fields.nextFrameToDecode
  alive : m.fields.destroyed = false → m.fields.frontBitmap ≠ none ∧ m.fields.backBitmap ≠ none
  gone : m.fields.destroyed = true →
    m.fields.frontBitmap = none ∧ (m.fields.backBitmap = none ∨ Decoding m.decoder)

theorem owed_release (bs : List Bitmap) : owed (bs.map .release) = bs := by
  rw [owed, List.filterMap_map]
  exact List.filterMap_some

theorem owed_eq_nil {ui : List Section} (h : ∀ b, Section.release b ∉ ui) : owed ui = [] := by
  rw [owed, List.filterMap_eq_nil_iff]
  intro s hs
  cases s with
  | release b => exact absurd hs (h b)
  | _ => rfl

/-- Neither a release nor a destroy. -/
def plain : Section → Bool
  | .release _ => false
  | .destroy => false
  | _ => true

/-- The sections of a call that does not release yet. -/
theorem Shape.tail {s : Section} {rest : List Section} (h : Shape (s :: rest))
    (hs : ∀ b, s ≠ .release b) :
    owed (s :: rest) = [] ∧ owed rest = [] ∧ Shape rest ∧ (s = .destroy → rest = []) := by
  rcases h with ⟨bs, hbs⟩ | ⟨hno, hdestroy⟩
  · cases bs with
    | nil => cases hbs
    | cons b bs => exact absurd (List.cons.inj hbs).1 (hs b)
  · have hrest : ∀ b, Section.release b ∉ rest := fun b hb => hno b (List.mem_cons_of_mem _ hb)
    refine ⟨owed_eq_nil hno, owed_eq_nil hrest, .inr ⟨hrest, fun hd => ?_⟩, ?_⟩
    · have := (List.cons.inj (hdestroy (List.mem_cons_of_mem _ hd))).2
      rw [this] at hd
      cases hd
    · rintro rfl
      exact (List.cons.inj (hdestroy List.mem_cons_self)).2

/-- A test replaced by what it guards. -/
theorem Shape.replace {s s' : Section} {rest : List Section} (h : Shape (s :: rest))
    (hs : plain s = true)
    (hs' : plain s' = true) : Shape (s' :: rest) ∧ owed (s' :: rest) = owed (s :: rest) := by
  have hrelease : ∀ {t : Section} b, plain t = true → t ≠ .release b := by
    rintro t b ht rfl
    cases ht
  obtain ⟨howed, howed', -, -⟩ := h.tail fun b => hrelease b hs
  rcases h with ⟨bs, hbs⟩ | ⟨hno, hdestroy⟩
  · cases bs with
    | nil => cases hbs
    | cons b bs => exact absurd (List.cons.inj hbs).1 (hrelease b hs)
  · have hno' : ∀ b, Section.release b ∉ s' :: rest := by
      intro b hb
      rcases List.mem_cons.mp hb with hb | hb
      · exact hrelease b hs' hb.symm
      · exact hno b (List.mem_cons_of_mem _ hb)
    have hrest : Section.destroy ∉ s' :: rest := by
      intro hd
      rcases List.mem_cons.mp hd with hd | hd
      · rw [← hd] at hs'
        cases hs'
      · have := (List.cons.inj (hdestroy (List.mem_cons_of_mem _ hd))).1
        rw [this] at hs
        cases hs
    exact ⟨.inr ⟨hno', fun hd => absurd hd hrest⟩, by rw [howed, owed_eq_nil hno']⟩

theorem shape_nil : Shape [] := .inl ⟨[], rfl⟩

theorem shape_sections (c : UiCall) : Shape c.sections ∧ owed c.sections = [] := by
  have hno : ∀ b, Section.release b ∉ c.sections := by
    intro b
    cases c with
    | setVisible visible restart changed =>
      cases b <;> cases visible <;> cases restart <;> cases changed <;> decide
    | _ => cases b <;> decide
  refine ⟨.inr ⟨hno, ?_⟩, owed_eq_nil hno⟩
  cases c with
  | setVisible visible restart changed =>
    cases visible <;> cases restart <;> cases changed <;> decide
  | _ => decide

/-- The balance and what guards it look at the places only. -/
theorem Owned.of_places {m m' : Machine} (h : Owned m) (hreleased : m'.released = m.released)
    (howed : owed m'.ui = owed m.ui) (hshape : Shape m'.ui) (hdecoder : m'.decoder = m.decoder)
    (hfront : m'.fields.frontBitmap = m.fields.frontBitmap)
    (hback : m'.fields.backBitmap = m.fields.backBitmap)
    (hdestroyed : m'.fields.destroyed = m.fields.destroyed)
    (hstate : (m'.fields.state = m.fields.state ∧ m'.fields.nextFrameToDecode =
      m.fields.nextFrameToDecode) ∨
      m'.fields.state = .none ∨ m'.fields.state = .scheduled ∨
      m.fields.state = .waitingToSwap ∧ m'.fields.state = .readyToSwap) : Owned m' := by
  refine ⟨?_, hshape, ?_, ?_, ?_, ?_, ?_⟩
  · rw [hreleased, howed, hdecoder, hfront, hback]
    exact h.balance
  · rw [hdecoder, hback]
    exact h.target
  · rw [hdecoder, hdestroyed]
    intro hdec hlive
    obtain ⟨hwait, hready⟩ := h.busy hdec hlive
    rcases hstate with ⟨hs, -⟩ | hs | hs | ⟨hs, -⟩
    · rw [hs]
      exact ⟨hwait, hready⟩
    · rw [hs]
      exact ⟨by decide, by decide⟩
    · rw [hs]
      exact ⟨by decide, by decide⟩
    · exact absurd hs hwait
  · rw [hdestroyed, hdecoder]
    intro hlive hdec
    rcases hstate with ⟨hs, hn⟩ | hs | hs | ⟨-, hs⟩
    · rw [hn]
      exact h.quiet hlive (hs ▸ hdec)
    · rw [hs] at hdec
      cases hdec
    · rw [hs] at hdec
      cases hdec
    · rw [hs] at hdec
      cases hdec
  · rw [hdestroyed, hfront, hback]
    exact h.alive
  · rw [hdestroyed, hfront, hback, hdecoder]
    exact h.gone

/-- A swap keeps both bitmaps in their two places. -/
theorem Owned.of_swap {m m' : Machine} (h : Owned m) (hreleased : m'.released = m.released)
    (howed : owed m'.ui = owed m.ui) (hshape : Shape m'.ui) (hdecoder : m'.decoder = m.decoder)
    (hidle : ¬ Decoding m.decoder) (hlive : m.fields.destroyed = false)
    (hfront : m'.fields.frontBitmap = m.fields.backBitmap)
    (hback : m'.fields.backBitmap = m.fields.frontBitmap)
    (hdestroyed : m'.fields.destroyed = m.fields.destroyed)
    (hstate : m'.fields.state ≠ .decoding) : Owned m' := by
  refine ⟨?_, hshape, ?_, ?_, ?_, ?_, ?_⟩
  · intro b
    have := h.balance b
    rw [hreleased, howed, hdecoder, hfront, hback]
    omega
  · rw [hdecoder]
    exact fun frame bitmap hd => absurd ⟨frame, bitmap, hd⟩ hidle
  · rw [hdecoder]
    exact fun hd => absurd hd hidle
  · exact fun _ hd => absurd hd hstate
  · rw [hfront, hback]
    exact fun _ => ⟨(h.alive hlive).2, (h.alive hlive).1⟩
  · rw [hdestroyed, hlive]
    intro hd
    cases hd

theorem startLocked_places {p : Setup} {f f' : Fields} {posts : Posts}
    (h : startLocked p f = some (f', posts)) :
    f'.frontBitmap = f.frontBitmap ∧ f'.backBitmap = f.backBitmap ∧ f'.destroyed = f.destroyed ∧
      ((f'.state = f.state ∧ f'.nextFrameToDecode = f.nextFrameToDecode) ∨
        f'.state = .scheduled) := by
  rw [startLocked] at h
  split at h
  · cases h
  · split at h
    · cases h
      exact ⟨rfl, rfl, rfl, .inl ⟨rfl, rfl⟩⟩
    · cases h
      exact ⟨rfl, rfl, rfl, .inr rfl⟩

theorem runLocked_places (f : Fields) : (runLocked f).frontBitmap = f.frontBitmap ∧
    (runLocked f).backBitmap = f.backBitmap ∧ (runLocked f).destroyed = f.destroyed ∧
    (((runLocked f).state = f.state ∧ (runLocked f).nextFrameToDecode = f.nextFrameToDecode) ∨
      f.state = .waitingToSwap ∧ (runLocked f).state = .readyToSwap) := by
  rw [runLocked]
  split
  · rename_i h
    exact ⟨rfl, rfl, rfl, .inr ⟨h.2, rfl⟩⟩
  · exact ⟨rfl, rfl, rfl, .inl ⟨rfl, rfl⟩⟩

/-- Posting to a handler moves no bitmap. -/
theorem owned_post {m : Machine} {posts : Posts} (h : Owned m) : Owned (m.post posts) := by
  cases posts with
  | nothing => exact h
  | decode => exact h.of_places rfl rfl h.shape rfl rfl rfl rfl (.inl ⟨rfl, rfl⟩)
  | finishedCallback => exact h.of_places rfl rfl h.shape rfl rfl rfl rfl (.inl ⟨rfl, rfl⟩)

theorem drawStep_owned {p : Setup} {due : Bool} {m : Machine} {rest : List Section} (h : Owned m)
    (hnil : owed m.ui = []) (howed : owed rest = owed m.ui) (hshape : Shape rest) :
    Owned (sectionStep p due m rest .draw) := by
  rw [sectionStep]
  cases hd : drawLocked p due m.fields with
  | none => exact h.of_places rfl hnil.symm shape_nil rfl rfl rfl rfl (.inl ⟨rfl, rfl⟩)
  | some r =>
    obtain ⟨f', posts, swap⟩ := r
    apply owned_post
    obtain ⟨s, hmark, hstate⟩ := markReady_cases due m.fields
    obtain ⟨hlive, ⟨-, -, rfl⟩ | ⟨-, -, hready, hswap⟩⟩ := drawLocked_marked hd
    · rw [hmark]
      exact h.of_places rfl howed hshape rfl rfl rfl rfl
        (hstate.imp (fun hs => ⟨hs, rfl⟩) fun hs => .inr (.inr hs))
    · rw [hmark] at hready hswap
      replace hready : s = .readyToSwap := hready
      -- While a decode runs the state is neither waiting nor ready.
      have hidle : ¬ Decoding m.decoder := by
        intro hdec
        obtain ⟨hwait, hnotReady⟩ := h.busy hdec hlive
        rcases hstate with rfl | ⟨hs, -⟩
        · exact hnotReady hready
        · exact hwait hs
      rcases hswap with ⟨-, -, rfl⟩ | ⟨-, -, rfl⟩
      · exact h.of_swap rfl howed hshape rfl hidle hlive rfl rfl rfl
          (show s ≠ .decoding by rw [hready]; decide)
      · exact h.of_swap rfl howed hshape rfl hidle hlive rfl rfl rfl
          (show SwapState.scheduled ≠ .decoding by decide)

theorem holds_toList (place : Option Bitmap) (b : Bitmap) :
    place.toList.count b = holds place b := by
  cases place with
  | none => rfl
  | some a => cases a <;> cases b <;> rfl

/-- `destroy` leaves the back bitmap only to a decode that runs. -/
theorem destroyStep_owned {p : Setup} {due : Bool} {m : Machine} (h : Owned m)
    (hui : m.ui = [.destroy])
    (hallowed : m.fields.destroyed = false → Decoding m.decoder → m.fields.state = .decoding) :
    Owned (sectionStep p due m [] .destroy) := by
  have hnil : owed m.ui = [] := by rw [hui]; rfl
  rw [sectionStep]
  cases hlive : m.fields.destroyed with
  | true =>
    have hnone : destroyLocked m.fields = none := by rw [destroyLocked, if_pos hlive]
    rw [hnone]
    exact h.of_places rfl hnil.symm shape_nil rfl rfl rfl rfl (.inl ⟨rfl, rfl⟩)
  | false =>
    have hdead : ∀ {q : Prop}, true = false → q := fun h => by cases h
    by_cases hstate : m.fields.state = .decoding
    · have hlocked : destroyLocked m.fields =
          some ({ m.fields with frontBitmap := none, destroyed := true },
            m.fields.frontBitmap.toList) := by
        rw [destroyLocked, if_neg (by rw [hlive]; decide), if_neg (fun hne => hne hstate)]
      rw [hlocked]
      refine ⟨fun b => ?_, .inl ⟨_, List.append_nil _⟩, h.target, fun _ => hdead, hdead, hdead,
        fun _ => ⟨rfl, .inr (h.quiet hlive hstate).1⟩⟩
      have := h.balance b
      rw [hnil, List.count_nil] at this
      dsimp only
      rw [List.append_nil, owed_release, holds_toList]
      simp only [holds, reduceCtorEq, if_false] at this ⊢
      omega
    · have hidle : ¬ Decoding m.decoder := fun hdec => hstate (hallowed hlive hdec)
      have hlocked : destroyLocked m.fields =
          some ({ m.fields with frontBitmap := none, backBitmap := none, destroyed := true },
            m.fields.frontBitmap.toList ++ m.fields.backBitmap.toList) := by
        rw [destroyLocked, if_neg (by rw [hlive]; decide), if_pos hstate]
      rw [hlocked]
      refine ⟨fun b => ?_, .inl ⟨_, List.append_nil _⟩,
        fun frame bitmap hd => absurd ⟨frame, bitmap, hd⟩ hidle,
        fun _ => hdead, hdead, hdead, fun _ => ⟨rfl, .inl rfl⟩⟩
      have := h.balance b
      rw [hnil, List.count_nil] at this
      dsimp only
      rw [List.append_nil, owed_release, List.count_append, holds_toList, holds_toList]
      simp only [holds, reduceCtorEq, if_false] at this ⊢
      omega

/-- A bitmap that is owed is released. -/
theorem releaseStep_owned {p : Setup} {due : Bool} {m : Machine} {b : Bitmap}
    {rest : List Section} (h : Owned m)
    (hui : m.ui = .release b :: rest) : Owned (sectionStep p due m rest (.release b)) := by
  have hshape := h.shape
  rw [hui] at hshape
  obtain ⟨bs, hbs⟩ | ⟨hno, -⟩ := hshape
  · cases bs with
    | nil => cases hbs
    | cons b' bs =>
      obtain ⟨hb, rfl⟩ := List.cons.inj hbs
      cases hb
      refine ⟨fun b' => ?_, .inl ⟨bs, rfl⟩, h.target, h.busy, h.quiet, h.alive, h.gone⟩
      have hbalance := h.balance b'
      rw [hui, hbs, owed_release, List.count_cons] at hbalance
      show (m.released ++ [b]).count b' + (owed (bs.map .release)).count b' +
        holds (Decoder.owed m.decoder) b' + holds m.fields.frontBitmap b' +
          holds m.fields.backBitmap b' = 1
      rw [owed_release, List.count_append, List.count_singleton]
      omega
  · exact absurd List.mem_cons_self (hno b)

theorem sectionStep_owned {p : Setup} {due : Bool} {m : Machine} {s : Section} {rest : List Section}
    (h : Owned m) (hui : m.ui = s :: rest) (hallowed : Allowed m (.ui due)) :
    Owned (sectionStep p due m rest s) := by
  have hshape := h.shape
  rw [hui] at hshape
  have hplain : ∀ s', plain s = true → plain s' = true →
      (Shape (s' :: rest) ∧ owed (s' :: rest) = owed m.ui) ∧
      (Shape rest ∧ owed rest = owed m.ui) ∧ owed m.ui = [] := by
    intro s' hs hs'
    obtain ⟨howed, hrest, hrestShape, -⟩ := hshape.tail (by rintro b rfl; cases hs)
    obtain ⟨hguard, howed'⟩ := hshape.replace hs hs'
    rw [hui]
    exact ⟨⟨hguard, howed'⟩, ⟨hrestShape, hrest.trans howed.symm⟩, howed⟩
  cases s with
  | startTest =>
    obtain ⟨⟨hguard, howedGuard⟩, ⟨hrest, howed⟩, -⟩ := hplain .startLocked rfl rfl
    rw [sectionStep]
    split
    · exact h.of_places rfl howed hrest rfl rfl rfl rfl (.inl ⟨rfl, rfl⟩)
    · exact h.of_places rfl howedGuard hguard rfl rfl rfl rfl (.inl ⟨rfl, rfl⟩)
  | startLocked =>
    obtain ⟨-, ⟨hrest, howed⟩, hnil⟩ := hplain .startLocked rfl rfl
    rw [sectionStep]
    cases hs : startLocked p m.fields with
    | none => exact h.of_places rfl hnil.symm shape_nil rfl rfl rfl rfl (.inl ⟨rfl, rfl⟩)
    | some r =>
      obtain ⟨f', posts⟩ := r
      obtain ⟨hfront, hback, hdestroyed, hstate⟩ := startLocked_places hs
      exact owned_post (h.of_places rfl howed hrest rfl hfront hback hdestroyed
        (hstate.imp_right fun h => .inr (.inl h)))
  | stopTest =>
    obtain ⟨⟨hguard, howedGuard⟩, ⟨hrest, howed⟩, -⟩ := hplain .unschedule rfl rfl
    rw [sectionStep]
    split
    · exact h.of_places rfl howedGuard hguard rfl rfl rfl rfl (.inl ⟨rfl, rfl⟩)
    · exact h.of_places rfl howed hrest rfl rfl rfl rfl (.inl ⟨rfl, rfl⟩)
  | unschedule =>
    obtain ⟨-, ⟨hrest, howed⟩, -⟩ := hplain .unschedule rfl rfl
    exact h.of_places rfl howed hrest rfl rfl rfl rfl (.inr (.inl rfl))
  | finishedCallback =>
    obtain ⟨-, ⟨hrest, howed⟩, -⟩ := hplain .unschedule rfl rfl
    exact h.of_places rfl howed hrest rfl rfl rfl rfl (.inr (.inl rfl))
  | run =>
    obtain ⟨-, ⟨hrest, howed⟩, -⟩ := hplain .unschedule rfl rfl
    obtain ⟨hfront, hback, hdestroyed, hstate⟩ := runLocked_places m.fields
    exact h.of_places rfl howed hrest rfl hfront hback hdestroyed
      (hstate.imp_right fun h => .inr (.inr h))
  | draw =>
    obtain ⟨-, ⟨hrest, howed⟩, hnil⟩ := hplain .unschedule rfl rfl
    exact drawStep_owned h hnil howed hrest
  | destroy =>
    obtain rfl := (hshape.tail (by intro b; simp)).2.2.2 rfl
    exact destroyStep_owned h hui fun hlive hdec =>
      hallowed ⟨due, rfl⟩ (by rw [hui]; rfl) hlive hdec
  | release b => exact releaseStep_owned h hui

theorem call_owned {p : Setup} {m m' : Machine} {c : UiCall} (h : Owned m)
    (hnext : next p m (.call c) = some m') :
    Owned m' := by
  rw [next] at hnext
  obtain ⟨hshape, howed⟩ := shape_sections c
  by_cases hui : m.ui = []
  · have hsame : owed c.sections = owed m.ui := by rw [howed, hui]; rfl
    rw [if_neg (not_not.mpr hui)] at hnext
    split at hnext
    · split at hnext
      · cases hnext
      · cases hnext
        exact h.of_places rfl hsame hshape rfl rfl rfl rfl (.inl ⟨rfl, rfl⟩)
    · cases hnext
      exact h.of_places rfl hsame hshape rfl rfl rfl rfl (.inl ⟨rfl, rfl⟩)
  · rw [if_pos hui] at hnext
    cases hnext

theorem ui_owned {p : Setup} {m m' : Machine} {due : Bool} (h : Owned m)
    (hallowed : Allowed m (.ui due))
    (hnext : next p m (.ui due) = some m') : Owned m' := by
  rw [next] at hnext
  cases hui : m.ui with
  | nil =>
    rw [hui] at hnext
    cases hnext
  | cons s rest =>
    rw [hui] at hnext
    cases hnext
    exact sectionStep_owned h hui hallowed

theorem decodeBegin_owned {p : Setup} {m m' : Machine} (h : Owned m)
    (hnext : next p m .decodeBegin = some m') :
    Owned m' := by
  rw [next] at hnext
  by_cases hidle : m.decoder = .idle ∧ 0 < m.posted
  · rw [if_pos hidle] at hnext
    obtain hb | ⟨hlive, hframe, hb⟩ := decodeBegin_cases m.fields
    · rw [hb] at hnext
      cases hnext
      exact h.of_places rfl rfl h.shape hidle.1.symm rfl rfl rfl (.inl ⟨rfl, rfl⟩)
    · rw [hb] at hnext
      cases hnext
      refine ⟨?_, h.shape, ?_, fun _ _ => ⟨nofun, nofun⟩, fun _ _ => ⟨⟨_, _, rfl⟩, hframe⟩, h.alive,
        fun hd => absurd (hlive.symm.trans hd) (by decide)⟩
      · have hbalance := h.balance
        rw [hidle.1] at hbalance
        exact hbalance
      · rintro frame bitmap hd
        cases hd
        exact ⟨rfl, (h.alive hlive).2⟩
  · rw [if_neg hidle] at hnext
    cases hnext

/-- What the decoder leaves behind: a drawable that was destroyed under it gives up its target. -/
theorem decodeEnd_owned {p : Setup} {m m' : Machine} {exceptionDuringDecode : Bool} (h : Owned m)
    (hnext : next p m (.decodeEnd exceptionDuringDecode) = some m') : Owned m' := by
  rw [next] at hnext
  cases hdec : m.decoder with
  | idle =>
    rw [hdec] at hnext
    cases hnext
  | leaving b =>
    rw [hdec] at hnext
    cases hnext
  | decoding frame bitmap =>
    have hleave : ∀ b, ¬ Decoding (.leaving b) := by
      rintro b ⟨f, b', hd⟩
      cases hd
    have htarget : ∀ {b : Option Bitmap} {q : Prop} {f g}, Decoder.leaving b =
        .decoding f g → q := by
      intro b q f g hd
      cases hd
    have hbalance := h.balance
    rw [hdec] at hbalance hnext
    simp only at hnext
    obtain ⟨hdead, hb⟩ | ⟨hlive, -, -, hb⟩ | ⟨hlive, hno, hb⟩ :=
      decodeEnd_cases exceptionDuringDecode m.fields
    · rw [hb] at hnext
      cases hnext
      have hno : ∀ {q : Prop}, m.fields.destroyed = false → q := fun h => by
        rw [hdead] at h; cases h
      refine ⟨fun b => ?_, h.shape, fun _ _ => htarget, fun hd => absurd hd (hleave _), hno, hno,
        fun _ => ⟨(h.gone hdead).1, .inl rfl⟩⟩
      have hb := hbalance b
      show m.released.count b + (owed m.ui).count b + holds m.fields.backBitmap b +
        holds m.fields.frontBitmap b + holds none b = 1
      simp only [Decoder.owed, holds, reduceCtorEq, if_false] at hb ⊢
      omega
    · rw [hb] at hnext
      cases hnext
      refine ⟨hbalance, h.shape, fun _ _ => htarget, fun hd => absurd hd (hleave _),
        fun _ hs => ?_, h.alive,
        fun hd => absurd (hlive.symm.trans hd) (by decide)⟩
      cases hs
    · rw [hb] at hnext
      cases hnext
      exact ⟨hbalance, h.shape, fun _ _ => htarget, fun hd => absurd hd (hleave _),
        fun hl hs => absurd ⟨(h.quiet hl hs).2, hs⟩ hno, h.alive,
        fun hd => absurd (hlive.symm.trans hd) (by decide)⟩

theorem decodeLeave_owned {p : Setup} {m m' : Machine} (h : Owned m)
    (hnext : next p m .decodeLeave = some m') :
    Owned m' := by
  rw [next] at hnext
  cases hdec : m.decoder with
  | idle =>
    rw [hdec] at hnext
    cases hnext
  | decoding frame bitmap =>
    rw [hdec] at hnext
    cases hnext
  | leaving bitmapToRelease =>
    have hleft : ∀ {d : Decoder}, d = .leaving bitmapToRelease → ¬ Decoding d := by
      rintro d rfl ⟨f, b', hd⟩
      cases hd
    rw [hdec] at hnext
    simp only at hnext
    cases hnext
    refine ⟨fun b => ?_, h.shape, ?_, ?_,
      fun hl hs => absurd (h.quiet hl hs).1 (hleft hdec), h.alive,
      fun hd => ⟨(h.gone hd).1, .inl ((h.gone hd).2.resolve_right (hleft hdec))⟩⟩
    · have hb := h.balance b
      rw [hdec] at hb
      show (m.released ++ bitmapToRelease.toList).count b + (owed m.ui).count b + holds none b +
        holds m.fields.frontBitmap b + holds m.fields.backBitmap b = 1
      rw [List.count_append, holds_toList]
      simp only [Decoder.owed] at hb
      simp only [holds, reduceCtorEq, if_false] at hb ⊢
      omega
    · intro frame bitmap hd
      cases hd
    · rintro ⟨frame, bitmap, hd⟩
      cases hd

theorem next_owned {p : Setup} {m m' : Machine} {e : Event} (h : Owned m) (hallowed : Allowed m e)
    (hnext : next p m e = some m') : Owned m' := by
  cases e with
  | call c => exact call_owned h hnext
  | ui due => exact ui_owned h hallowed hnext
  | decodeBegin => exact decodeBegin_owned h hnext
  | decodeEnd exceptionDuringDecode => exact decodeEnd_owned h hnext
  | decodeLeave => exact decodeLeave_owned h hnext

theorem initial_owned : Owned initial := by
  refine ⟨fun b => by cases b <;> rfl, shape_nil, ?_, ?_, ?_, ?_, ?_⟩
  · rintro frame bitmap hd
    cases hd
  · rintro ⟨frame, bitmap, hd⟩
    cases hd
  · intro _ hd
    cases hd
  · exact fun _ => ⟨by decide, by decide⟩
  · intro hd
    cases hd

theorem Owned.safe {m : Machine} (h : Owned m) : Safe m := by
  refine ⟨?_, ?_, ?_⟩
  · rw [List.nodup_iff_count_le_one]
    intro b
    have := h.balance b
    omega
  · intro frame b hdec hb
    obtain ⟨hback, -⟩ := h.target frame (some b) hdec
    have hcount := List.count_pos_iff.mpr hb
    have := h.balance b
    rw [← hback, holds, holds, holds, if_pos rfl] at this
    omega
  · intro hdead howed hidle b
    obtain ⟨hfront, hback⟩ := h.gone hdead
    have hnone : m.fields.backBitmap = none := by
      refine hback.resolve_right ?_
      rintro ⟨frame, bitmap, hd⟩
      rw [hidle] at hd
      cases hd
    have := h.balance b
    rw [howed, hidle, hfront, hnone, List.count_nil] at this
    exact List.count_pos_iff.mp
      (by simp only [holds, Decoder.owed, reduceCtorEq, if_false] at this; omega)

/-- In every run that enters `destroy` only with the state in step with the
decoding thread, bitmaps are handed back safely. -/
theorem reached_safe (p : Setup) (m : Machine) (h : Reached (next p) Allowed initial m) : Safe m :=
  (h.invariant initial_owned fun _ _ _ hm hok hnext => next_owned hm hok hnext).safe

/-- Three frames, looped once. -/
def threeFrames : Setup := ⟨3, by decide, .finite, 1, 1⟩

/-- A start, and a destroy while the first frame is decoded. -/
def destroyedWhileDecoding : List Event :=
  [.call .start, .ui false, .ui false, .decodeBegin, .call .destroy, .ui false,
    .ui false, .decodeEnd false,
    .decodeLeave]

theorem reached_safe_destroyedWhileDecoding :
    ∃ m, EventRuns.run (next threeFrames) initial destroyedWhileDecoding = some m ∧
      m.released = [.first, .second] ∧ Safe m := by
  have hnotUi : ∀ {m : Machine} {e : Event}, (∀ due, e ≠ .ui due) → Allowed m e :=
    fun hno ⟨due, he⟩ => absurd he (hno due)
  have hmeets : EventRuns.Meets (next threeFrames) Allowed initial destroyedWhileDecoding := by
    refine ⟨hnotUi nofun, fun _ h => ?_⟩
    cases h
    refine ⟨fun _ h => (by cases h), fun _ h => ?_⟩
    cases h
    refine ⟨fun _ h => (by cases h), fun _ h => ?_⟩
    cases h
    refine ⟨hnotUi nofun, fun _ h => ?_⟩
    cases h
    refine ⟨hnotUi nofun, fun _ h => ?_⟩
    cases h
    refine ⟨fun _ _ _ _ => rfl, fun _ h => ?_⟩
    cases h
    refine ⟨fun _ h => (by cases h), fun _ h => ?_⟩
    cases h
    refine ⟨hnotUi nofun, fun _ h => ?_⟩
    cases h
    exact ⟨hnotUi nofun, fun _ _ => trivial⟩
  exact ⟨_, rfl, rfl, reached_safe threeFrames _ (EventRuns.reached_of_run rfl hmeets)⟩

/-- A start, a stop while the first frame is decoded, and a destroy. -/
def destroyedAfterStop : List Event :=
  [.call .start, .ui false, .ui false, .decodeBegin, .call .stop, .ui false,
    .ui false, .call .destroy,
    .ui false, .ui false, .ui false]

/-- The bitmap is handed back under the running decode. -/
theorem reached_safe_destroyedAfterStop :
    ∃ m, Reached (next threeFrames) (fun _ _ => True) initial m ∧
      m.decoder = .decoding 0 (some .second) ∧ Bitmap.second ∈ m.released ∧ ¬ Safe m := by
  have hreached : ∀ m, EventRuns.run (next threeFrames) initial destroyedAfterStop = some m →
      Reached (next threeFrames) (fun _ _ => True) initial m :=
    fun m hm => EventRuns.reached_of_run hm (EventRuns.meets_always _ _)
  refine ⟨_, hreached _ rfl, rfl, by decide, fun hsafe => ?_⟩
  exact hsafe.apart 0 .second rfl (by decide)

end BitmapOwnership
