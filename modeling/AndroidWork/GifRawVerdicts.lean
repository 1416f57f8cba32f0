import AndroidWork.GifRawEndings

/-!
# Which readings of raw data end well

A reading ends well when it comes to an end without an exception, and with an
error when the data ran out. It does as long as no number and no colour table is
cut, and as long as the data are dropped at a place from which it is settled.
-/
namespace GifRawReading

open BaseGifDecoder
open GifLzwDecoder (Byte)
open SteppedRuns

namespace Machine

variable (requireWidth requireHeight : Int)

/-- A number that is read has both bytes, the height that is read can be divided, and what looks
like a
trailer is not what a cut colour table has left. -/
structure Whole (m : Machine) : Prop where
  number : m.TakesNumber → 2 ≤ m.bytes.length
  screen : ∀ width, m.point = .height width →
    (screenSize requireWidth requireHeight width m.nextNumber).isSome
  trailer : m.point = .code → m.bytes.head? = some 0x3b → m.ranOut = false

/-- Dropped here, the end of the data is settled, and a height of 0 can be divided. -/
structure Droppable (recycled : Bool) (m : Machine) : Prop where
  settled : (m.free recycled).Settled
  screen : ∀ width, m.point = .height width → (screenSize requireWidth requireHeight width 0).isSome

end Machine

open Machine

/-- A reading of the data, that may be dropped once, after so many reads. -/
def begun (requireWidth requireHeight : Int) (data : List Byte) : Option (Nat × Bool) → Machine
  | none => start data
  | some (n, recycled) => ((step requireWidth requireHeight)^[n] (start data)).free recycled

/-- Each read is whole that is made before the data are dropped, and they may be dropped there. -/
def Fits (requireWidth requireHeight : Int) (data : List Byte) : Option (Nat × Bool) → Prop
  | none =>
    ∀ k, ((step requireWidth requireHeight)^[k] (start data)).Whole requireWidth requireHeight
  | some (n, recycled) =>
    (∀ k < n, ((step requireWidth requireHeight)^[k] (start data)).Whole
      requireWidth requireHeight) ∧
      ((step requireWidth requireHeight)^[n] (start data)).Droppable requireWidth
        requireHeight recycled

namespace Machine

section

variable {m : Machine} {requireWidth requireHeight : Int}

theorem step_finished (m : Machine) (h : m.point = .finished) :
    m.step requireWidth requireHeight = m := by
  simp only [step, h]

/-- How it stands with data that are read. -/
structure Reading (m : Machine) : Prop where
  here : m.dropped = false
  thrown : m.thrown = none
  code : m.point = .code → m.err = false
  finished : m.point = .finished → m.ranOut = true → m.err = true

theorem reading_start (data : List Byte) : (start data).Reading := ⟨rfl, rfl, nofun, nofun⟩

theorem read_trailer (h : m.read.1 = 0x3b) :
    m.bytes.head? = some 0x3b ∧ m.read.2 = m.withBytes m.bytes.tail := by
  obtain ⟨-, hread⟩ | ⟨-, -, hread⟩ | ⟨b, bs, -, hbytes, hread⟩ := m.read_cases
  · rw [hread] at h
    exact absurd (show (0 : Byte) = 0x3b from h) (by decide)
  · rw [hread] at h
    exact absurd (show (0 : Byte) = 0x3b from h) (by decide)
  · rw [hread] at h
    rw [hread, hbytes]
    exact ⟨congrArg some h, rfl⟩

theorem step_trailer (hpoint : m.point = .code) (h : m.read.1 = 0x3b) :
    m.step requireWidth requireHeight = m.read.2.goto .finished := by
  simp only [step, hpoint, h]
  rfl

theorem reading_step (hm : m.Reading) (hwhole : m.Whole requireWidth requireHeight) :
    (m.step requireWidth requireHeight).Reading := by
  by_cases hfinished : m.point = .finished
  · rw [step_finished m hfinished]
    exact hm
  · have hhere : (m.step requireWidth requireHeight).dropped = false :=
      (step_onward m).dropped.trans hm.here
    have hthrown : (m.step requireWidth requireHeight).thrown = none := by
      rw [step_thrown (fun htakes hcut => absurd (hwhole.number htakes) (by have := hcut.2; omega))
        hwhole.screen]
      exact hm.thrown
    by_cases htrailer : m.point = .code ∧ m.read.1 = 0x3b
    · obtain ⟨hcode, hread⟩ := htrailer
      obtain ⟨hhead, hrest⟩ := read_trailer hread
      have hstep := @step_trailer m requireWidth requireHeight hcode hread
      have hran : (m.step requireWidth requireHeight).ranOut = false := by
        rw [hstep, hrest]
        exact hwhole.trailer hcode hhead
      refine ⟨hhere, hthrown, fun hpoint => ?_,
        fun _ htrue => absurd (hran.symm.trans htrue) (by decide)⟩
      rw [hstep] at hpoint
      exact absurd hpoint nofun
    · have hproper := @proper_step m requireWidth requireHeight hfinished fun hcode hread =>
        htrailer ⟨hcode, hread⟩
      exact ⟨hhere, hthrown, hproper.code,
        fun hpoint _ => (hproper.finished hpoint).resolve_right (absurd hthrown)⟩

theorem reading_iterate {data : List Byte} {n : Nat}
    (h : ∀ k < n, ((step requireWidth requireHeight)^[k] (start data)).Whole
      requireWidth requireHeight) :
    ((step requireWidth requireHeight)^[n] (start data)).Reading := by
  apply iterate_invariant_of_lt (reading_start data)
  intro k hk hreading
  rw [Function.iterate_succ_apply']
  exact reading_step hreading (h k hk)

end

end Machine

section

variable {requireWidth requireHeight : Int} {data : List Byte}

end

end GifRawReading
