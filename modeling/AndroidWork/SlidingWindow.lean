import Mathlib.Tactic

/-!
# Sums over a window that moves by one

A window of `2 * r + 1` places of a sequence around a centre, each place weighted
by its distance to the ends, and the values in the window kept in a circular
buffer. Loops that can fail count their turns from zero.
-/
namespace SlidingWindow

section Loop

variable {σ : Type} {body : Nat → σ → Option σ}

def loop (body : Nat → σ → Option σ) : Nat → σ → Option σ
  | 0, s => some s
  | n + 1, s => (loop body n s).bind (body n)

theorem loop_invariant (P : Nat → σ → Prop) {n : Nat} {s : σ} (hzero : P 0 s)
    (hstep : ∀ i < n, ∀ s, P i s → ∃ s', body i s = some s' ∧ P (i + 1) s') :
    ∃ s', loop body n s = some s' ∧ P n s' := by
  induction n with
  | zero => exact ⟨s, rfl, hzero⟩
  | succ n ih =>
    obtain ⟨s', hs', hP⟩ := ih fun i hi => hstep i (Nat.lt_succ_of_lt hi)
    obtain ⟨s'', hs'', hP'⟩ := hstep n (Nat.lt_succ_self n) s' hP
    exact ⟨s'', by rw [loop, hs', Option.bind_some, hs''], hP'⟩

end Loop

open Finset

variable {M : Type} [AddCommGroup M] (r : Nat) (f : Int → M) (c : Int)

/-- The weight of the place `i` of the window. -/
def weight (r i : Nat) : Int := r + 1 - |(i : Int) - r|

def weighted : M := ∑ i ∈ range (2 * r + 1), weight r i • f (c - r + i)

/-- The places up to the centre, which lose weight when the window moves. -/
def outgoing : M := ∑ i ∈ range (r + 1), f (c - r + i)

/-- The places behind the centre, which gain weight. -/
def incoming : M := ∑ i ∈ range r, f (c + 1 + i)

theorem weight_of_le {i : Nat} (h : i ≤ r) : weight r i = i + 1 := by
  rw [weight, abs_of_nonpos (by omega)]
  omega

theorem weight_of_ge {i : Nat} (h : r ≤ i) : weight r i = 2 * r + 1 - i := by
  rw [weight, abs_of_nonneg (by omega)]
  omega

theorem weight_nonneg {i : Nat} (h : i < 2 * r + 1) : 0 ≤ weight r i := by
  rcases le_total i r with hle | hge
  · rw [weight_of_le r hle]
    omega
  · rw [weight_of_ge r hge]
    omega

theorem sum_weight : ∑ i ∈ range (2 * r + 1), weight r i = (r + 1) ^ 2 := by
  have hlow (n : Nat) (h : n ≤ r + 1) : 2 * ∑ i ∈ range n, weight r i = n * (n + 1) := by
    induction n with
    | zero => rfl
    | succ n ih =>
      rw [Finset.sum_range_succ, mul_add, ih (by omega), weight_of_le r (by omega)]
      push_cast
      ring
  have hhigh (n : Nat) : 2 * ∑ i ∈ range n, weight r (r + 1 + i) = n * (2 * r + 1 - n) := by
    induction n with
    | zero => simp
    | succ n ih =>
      rw [Finset.sum_range_succ, mul_add, ih, weight_of_ge r (by omega)]
      push_cast
      ring
  rw [show 2 * r + 1 = (r + 1) + r by ring, Finset.sum_range_add]
  have hsum := congrArg₂ (· + ·) (hlow (r + 1) le_rfl) (hhigh r)
  push_cast at hsum
  linarith

theorem outgoing_succ : outgoing r f (c + 1) = outgoing r f c - f (c - r) + f (c + 1) := by
  have hshift : ∀ i : Nat, c + 1 - r + i = c - r + ((i + 1 : Nat) : Int) := by
    intro i
    push_cast
    ring
  have hlast : c - r + ((r + 1 : Nat) : Int) = c + 1 := by
    push_cast
    ring
  simp only [outgoing, hshift]
  have hsum := Finset.sum_range_succ' (fun i : Nat => f (c - r + i)) (r + 1)
  rw [Finset.sum_range_succ, hlast] at hsum
  rw [Nat.cast_zero, add_zero] at hsum
  rw [eq_comm, sub_add_eq_add_sub, hsum, add_sub_cancel_right]

theorem incoming_succ : incoming r f (c + 1) = incoming r f c + f (c + r + 1) - f (c + 1) := by
  have hshift : ∀ i : Nat, c + 1 + 1 + i = c + 1 + ((i + 1 : Nat) : Int) := by
    intro i
    push_cast
    ring
  have hlast : c + 1 + (r : Int) = c + r + 1 := by ring
  simp only [incoming, hshift]
  have hsum := Finset.sum_range_succ' (fun i : Nat => f (c + 1 + i)) r
  rw [Finset.sum_range_succ, hlast, Nat.cast_zero, add_zero] at hsum
  rw [hsum, add_sub_cancel_right]

/-- The weights have a zero at either end, so the window and the moved one are sums over
the same places. -/
theorem weighted_eq : weighted r f c = ∑ i ∈ range (2 * r + 2), weight r i • f (c - r + i) := by
  have hend : weight r (2 * r + 1) = 0 := by
    rw [weight_of_ge r (by omega)]
    omega
  rw [Finset.sum_range_succ, hend, zero_smul, add_zero, weighted]

theorem weighted_moved :
    weighted r f (c + 1) = ∑ i ∈ range (2 * r + 2),
    ((r : Int) + 1 - |(i : Int) - 1 - r|) • f (c - r + i) := by
  have hzero : ((r : Int) + 1 - -(-1 - r)) = 0 := by ring
  rw [weighted, Finset.sum_range_succ' _ (2 * r + 1), Nat.cast_zero, zero_sub,
    abs_of_nonpos (by omega), hzero, zero_smul,
    add_zero]
  refine Finset.sum_congr rfl fun i _ => ?_
  rw [weight, Nat.cast_add, Nat.cast_one, add_sub_cancel_right, show c + 1 - r + i =
    c - r + ((i : Int) + 1) by ring]

theorem weight_loss {i : Nat} (h : i < r + 1) :
    (r : Int) + 1 - |(i : Int) - 1 - r| - weight r i = -1 := by
  rw [weight_of_le r (by omega), abs_of_nonpos (by omega)]
  ring

theorem weight_gain (i : Nat) : (r : Int) + 1 - |((r + 1 + i : Nat) : Int) - 1 - r| -
    weight r (r + 1 + i) = 1 := by
  rw [weight_of_ge r (by omega), abs_of_nonneg (by omega)]
  push_cast
  ring

theorem weighted_succ : weighted r f (c + 1) =
    weighted r f c - outgoing r f c + (incoming r f c + f (c + r + 1)) := by
  have hlow : ∑ i ∈ range (r + 1), ((r : Int) + 1 - |(i : Int) - 1 - r| - weight r i) • f
      (c - r + i) = -outgoing r f c := by
    rw [outgoing, ← Finset.sum_neg_distrib]
    refine Finset.sum_congr rfl fun i hi => ?_
    rw [weight_loss r (Finset.mem_range.mp hi), neg_one_smul]
  have hhigh : ∑ i ∈ range (r + 1), ((r : Int) + 1 - |((r + 1 + i : Nat) : Int) - 1 - r| -
      weight r (r + 1 + i)) •
      f (c - r + (r + 1 + i : Nat)) = incoming r f c + f (c + r + 1) := by
    simp only [weight_gain, one_smul]
    rw [incoming, show c + r + 1 = c + 1 + (r : Int) by
      ring, ← Finset.sum_range_succ (fun i : Nat => f (c + 1 + i))]
    refine Finset.sum_congr rfl fun i _ => ?_
    congr 1
    push_cast
    ring
  have hdiff : weighted r f (c + 1) - weighted r f c =
      -outgoing r f c + (incoming r f c + f (c + r + 1)) := by
    rw [weighted_moved, weighted_eq, ← Finset.sum_sub_distrib]
    simp only [← sub_smul]
    rw [show 2 * r + 2 = (r + 1) + (r + 1) by ring, Finset.sum_range_add, hlow, hhigh]
  rw [sub_eq_iff_eq_add] at hdiff
  rw [hdiff]
  abel

variable {r f c} {α : Type} {g : Int → α}

/-- The buffer holds the window around `c`, with the centre at `pointer`. -/
structure Holds (r : Nat) (g : Int → α) (c : Int) (buffer : List α) (pointer : Nat) : Prop where
  length : buffer.length = 2 * r + 1
  value : ∀ i < 2 * r + 1, buffer[(pointer + r + 1 + i) % (2 * r + 1)]? = some (g (c - r + i))

/-- The value that leaves the window. -/
theorem Holds.first {buffer : List α} {pointer : Nat} (h : Holds r g c buffer pointer) :
    buffer[(pointer + r + 1) % (2 * r + 1)]? = some (g (c - r)) := by
  simpa using h.value 0 (by omega)

theorem Holds.centre {buffer : List α} {pointer : Nat} (h : Holds r g c buffer pointer) :
    buffer[pointer % (2 * r + 1)]? = some (g c) := by
  have hvalue := h.value r (by omega)
  rwa [sub_add_cancel, show pointer + r + 1 + r =
    pointer + (2 * r + 1) by ring, Nat.add_mod_right] at hvalue

/-- The window moves by one when its first value is overwritten. -/
theorem Holds.move {buffer : List α} {pointer : Nat} (h : Holds r g c buffer pointer) :
    Holds r g (c + 1) (buffer.set ((pointer + r + 1) % (2 * r + 1)) (g (c + r + 1)))
    ((pointer + 1) % (2 * r + 1)) := by
  refine ⟨by rw [List.length_set, h.length], fun i hi => ?_⟩
  have hslot : ((pointer + 1) % (2 * r + 1) + r + 1 + i) % (2 * r + 1) =
      (pointer + r + 1 + (i + 1)) % (2 * r + 1) := by
    rw [add_assoc, add_assoc, Nat.mod_add_mod]
    congr 1
    ring
  rw [hslot, List.getElem?_set]
  rcases Nat.lt_or_ge (i + 1) (2 * r + 1) with hlt | hge
  · have hne : (pointer + r + 1) % (2 * r + 1) ≠ (pointer + r + 1 + (i + 1)) % (2 * r + 1) := by
      intro heq
      have hmod : 0 ≡ i + 1 [MOD 2 * r + 1] := Nat.ModEq.add_left_cancel' (pointer + r + 1) heq
      have hdvd := Nat.modEq_zero_iff_dvd.mp hmod.symm
      exact absurd (Nat.le_of_dvd (Nat.succ_pos i) hdvd) (Nat.not_le_of_lt hlt)
    rw [if_neg hne, h.value (i + 1) hlt]
    congr 2
    push_cast
    ring
  · have hlast : i + 1 = 2 * r + 1 := by omega
    rw [hlast, Nat.add_mod_right, if_pos rfl, h.length, if_pos (Nat.mod_lt _ (by omega))]
    congr 2
    have hi' : (i : Int) = 2 * r := by omega
    rw [hi']
    ring

theorem holds_start {buffer : List α} (hlength : buffer.length = 2 * r + 1)
    (h : ∀ i < 2 * r + 1, buffer[i]? = some (g (c - r + i))) : Holds r g c buffer r := by
  refine ⟨hlength, fun i hi => ?_⟩
  rw [show r + r + 1 + i = i + (2 * r + 1) by ring, Nat.add_mod_right, Nat.mod_eq_of_lt hi]
  exact h i hi

end SlidingWindow
