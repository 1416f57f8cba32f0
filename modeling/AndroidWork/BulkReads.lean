import Mathlib.Tactic

/-!
# Bulk reads that may be short

An input may answer a bulk read with fewer elements than were asked for, but
with one at least while there are any. How many is a function of what is left
and what is asked for: no input is at the same place twice.
-/
namespace BulkReads

/-- How an input splits what is asked for. -/
structure Splits where
  size : Nat → Nat → Nat
  pos : ∀ {left want}, 0 < left → 0 < want → 0 < size left want
  le_want : ∀ left want, size left want ≤ want
  le_left : ∀ left want, size left want ≤ left

/-- All that there is, up to what is asked for. -/
def Splits.whole : Splits :=
  ⟨fun left want => min left want, fun h h' => Nat.lt_min.mpr ⟨h, h'⟩, fun _ _ => min_le_right _ _,
  fun _ _ => min_le_left _ _⟩

/-- One at a time. -/
def Splits.single : Splits :=
  ⟨fun left want => min 1 (min left want), fun h h' => by omega, fun _ _ => by
    omega, fun _ _ => by omega⟩

variable {α : Type}

/-- One bulk read: what it gives, and what is left. -/
def Splits.bulk (p : Splits) (want : Nat) (rest : List α) : List α × List α :=
  (rest.take (p.size rest.length want), rest.drop (p.size rest.length want))

/-- Bulk reads of at most `cap` until `want` elements are there or none are left. -/
def Splits.fill (p : Splits) (cap : Nat → Nat) : Nat → Nat → List α → List α × List α
  | 0, _, rest => ([], rest)
  | fuel + 1, want, rest =>
    if want = 0 ∨ rest = [] then ([], rest)
    else
      let (got, left) := p.bulk (cap want) rest
      let (more, left) := Splits.fill p cap fuel (want - got.length) left
      (got ++ more, left)

/-- The loop gives what a single read of a whole input would. -/
theorem Splits.fill_eq (p : Splits) {cap : Nat → Nat}
    (hcap : ∀ want, 0 < want → 0 < cap want ∧ cap want ≤ want) (fuel want : Nat)
    (rest : List α) (hfuel : want ≤ fuel) :
    p.fill cap fuel want rest = (rest.take want, rest.drop want) := by
  induction fuel generalizing want rest with
  | zero =>
    obtain rfl : want = 0 := Nat.le_zero.mp hfuel
    rfl
  | succ fuel ih =>
    rw [Splits.fill]
    by_cases hdone : want = 0 ∨ rest = []
    · rw [if_pos hdone]
      rcases hdone with rfl | rfl
      · rfl
      · simp
    · rw [if_neg hdone]
      rw [not_or] at hdone
      obtain ⟨hpos, hle⟩ := hcap want (Nat.pos_of_ne_zero hdone.1)
      have hn := p.pos (List.length_pos_iff.mpr hdone.2) hpos
      have hwant := p.le_want rest.length (cap want)
      have hleft := p.le_left rest.length (cap want)
      simp only [Splits.bulk, List.length_take, Nat.min_eq_left hleft]
      have hrest : p.size rest.length (cap want) +
          (want - p.size rest.length (cap want)) = want := by omega
      rw [ih _ _ (by omega), List.drop_drop, ← List.take_add, hrest]

end BulkReads
