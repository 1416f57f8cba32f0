import Mathlib.Tactic

/-!
# Sorted ranges

Lists of half-open ranges in increasing order, and the numbers they cover. Ranges
that touch cover what lies across their common bound.
-/
namespace SortedRanges

structure Range where
  start : Nat
  stop : Nat
  deriving DecidableEq, Repr

def Range.Contains (r : Range) (a : Nat) : Prop := r.start ≤ a ∧ a < r.stop

/-- A range of `n` from `a` that ends before the bound of `r`. -/
def Range.Inside (r : Range) (a n : Nat) : Prop := r.start ≤ a ∧ a + n < r.stop

def Covers (rs : List Range) (a : Nat) : Prop := ∃ r ∈ rs, r.Contains a

/-- All of the `n` numbers from `a` on are covered. -/
def CoversAll (rs : List Range) (a n : Nat) : Prop := ∀ x, a ≤ x → x < a + n → Covers rs x

/-- No range begins before the end of an earlier one. -/
def Sorted : List Range → Prop
  | [] => True
  | r :: rs => r.start ≤ r.stop ∧ (∀ s ∈ rs, r.stop ≤ s.start) ∧ Sorted rs

variable {r : Range} {rs : List Range} {a n : Nat}

theorem Sorted.start_le_stop (h : Sorted rs) (hr : r ∈ rs) : r.start ≤ r.stop := by
  induction rs with
  | nil => simp at hr
  | cons s rs ih =>
    obtain rfl | hr := List.mem_cons.mp hr
    · exact h.1
    · exact ih h.2.2 hr

@[simp] theorem not_covers_nil (a : Nat) : ¬ Covers [] a := by simp [Covers]

theorem covers_cons (r : Range) (rs : List Range) (a : Nat) :
    Covers (r :: rs) a ↔ r.Contains a ∨ Covers rs a := by
  simp [Covers]

theorem Covers.mono (h : Covers rs a) : Covers (r :: rs) a := (covers_cons r rs a).mpr (.inr h)

/-- What lies before the later ranges is not covered by them. -/
theorem not_covers_of_lt (hsorted : Sorted (r :: rs)) (h : a < r.stop) : ¬ Covers rs a := by
  intro ⟨s, hs, hle, _⟩
  have := hsorted.2.1 s hs
  omega

theorem not_covers_of_lt_start (hsorted : Sorted (r :: rs)) (h : a < r.start) :
    ¬ Covers (r :: rs) a := by
  rw [covers_cons]
  intro hcover
  obtain hcontains | hcover := hcover
  · exact Nat.not_le.mpr h hcontains.1
  · exact not_covers_of_lt hsorted (Nat.lt_of_lt_of_le h hsorted.1) hcover

theorem covers_cons_of_le (h : r.stop ≤ a) : Covers (r :: rs) a ↔ Covers rs a := by
  rw [covers_cons, or_iff_right]
  exact fun hcontains => Nat.not_le.mpr hcontains.2 h

theorem coversAll_cons_of_le (h : r.stop ≤ a) : CoversAll (r :: rs) a n ↔ CoversAll rs a n := by
  constructor
  · exact fun hall x hx hlt => (covers_cons_of_le (h.trans hx)).mp (hall x hx hlt)
  · exact fun hall x hx hlt => (hall x hx hlt).mono

theorem CoversAll.covers (h : CoversAll rs a n) (hn : 0 < n) : Covers rs a := h a le_rfl (by omega)

theorem Range.Inside.coversAll (h : r.Inside a n) (hr : r ∈ rs) : CoversAll rs a n := by
  intro x hx hlt
  exact ⟨r, hr, h.1.trans hx, by have := h.2; omega⟩

/-- Across a bound the later ranges cover the rest. -/
theorem coversAll_cross (hcontains : r.Contains a) (hcross : r.stop ≤ a + n)
    (h : CoversAll rs r.stop (n - (r.stop - a))) : CoversAll (r :: rs) a n := by
  intro x hx hlt
  rw [covers_cons]
  by_cases hbefore : x < r.stop
  · exact .inl ⟨hcontains.1.trans hx, hbefore⟩
  · exact .inr (h x (by omega) (by have := hcontains.2; omega))

end SortedRanges
