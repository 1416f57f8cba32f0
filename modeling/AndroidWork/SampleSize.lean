import Mathlib.Tactic

/-!
# Sample sizes

The loops of `BitmapUtil` that choose by which power of two an image is shrunk when
it is decoded. A run is given a number of turns; an int that doubles wraps.
-/
namespace SampleSize

/-- The value of an int expression. -/
def int (z : Int) : Int := z.bmod (2 ^ 32)

inductive Stop where
  | divides
  | outOfTurns
  deriving DecidableEq

/-- The loop of `decodeFile` and of `decodeFileStream`. -/
def halve (requireSize : Int) : Nat → Int → Int → Int → Except Stop Int
  | 0, _, _, _ => .error .outOfTurns
  | turns + 1, width, height, scale =>
    if width.tdiv 2 < requireSize ∨ height.tdiv 2 < requireSize then .ok scale
    else halve requireSize turns (width.tdiv 2) (height.tdiv 2) (int (scale * 2))

/-- The value of `o2.inSampleSize`. -/
def decodeFile (requireSize outWidth outHeight : Int) (turns : Nat) : Except Stop Int :=
  halve requireSize turns outWidth outHeight 1

def decodeFileStream (requireSize width height : Int) (turns : Nat) : Except Stop Int :=
  if requireSize > 0 then halve requireSize turns width height 1 else .ok 1

def double (reqWidth reqHeight halfWidth halfHeight : Int) : Nat → Int → Except Stop Int
  | 0, _ => .error .outOfTurns
  | turns + 1, inSampleSize =>
    if inSampleSize = 0 then .error .divides
    else if halfHeight.tdiv inSampleSize > reqHeight ∧ halfWidth.tdiv inSampleSize > reqWidth then
      double reqWidth reqHeight halfWidth halfHeight turns (int (inSampleSize * 2))
    else .ok inSampleSize

def calculateInSampleSize (reqWidth reqHeight width height : Int) (turns : Nat) : Except Stop Int :=
  if height > reqHeight ∨ width > reqWidth then
    double reqWidth reqHeight (width.tdiv 2) (height.tdiv 2) turns 1
  else .ok 1

/-- One, and the powers of two that keep enough of the image. -/
def Powers (keeps : Int → Prop) : Set Int := {p | p = 1 ∨ (∃ k : Nat, p = 2 ^ k) ∧ keeps p}

/-- From some number of turns on this is the outcome. -/
def Ends (f : Nat → Except Stop Int) (r : Except Stop Int) : Prop := ∃ n, ∀ turns ≥ n, f turns = r

/-- The two tests, for the scale `p`. -/
def AtLeast (req width height : Int) (p : Int) : Prop := req ≤ width.tdiv p ∧ req ≤ height.tdiv p

def Above (reqWidth reqHeight width height : Int) (p : Int) : Prop :=
  reqHeight < height.tdiv p ∧ reqWidth < width.tdiv p

section Powers

variable {keeps : Int → Prop}

/-- `K` doublings, before the one that is too many. -/
structure Doublings (keeps : Int → Prop) (K : Nat) : Prop where
  small : K ≤ 30
  before : ∀ k < K, keeps (2 ^ (k + 1))
  last : ¬ keeps (2 ^ (K + 1))

theorem exists_doublings (h : ¬ keeps (2 ^ 31)) : ∃ K, Doublings keeps K := by
  classical
  have hex : ∃ k, ¬ keeps (2 ^ (k + 1)) := ⟨30, h⟩
  refine ⟨Nat.find hex, Nat.find_min' hex h, fun k hk => ?_, Nat.find_spec hex⟩
  exact not_not.mp (Nat.find_min hex hk)

theorem Doublings.isGreatest {K : Nat} (h : Doublings keeps K)
    (hanti : ∀ k : Nat, keeps (2 ^ (k + 1)) → keeps (2 ^ k)) :
    IsGreatest (Powers keeps) (2 ^ K) := by
  have hbeyond (j : Nat) : ¬ keeps (2 ^ (K + 1 + j)) := by
    induction j with
    | zero => exact h.last
    | succ j ih => exact fun hkeeps => ih (hanti _ hkeeps)
  constructor
  · cases K with
    | zero => exact .inl rfl
    | succ K => exact .inr ⟨⟨K + 1, rfl⟩, h.before K (Nat.lt_succ_self K)⟩
  · rintro p (rfl | ⟨⟨k, rfl⟩, hkeeps⟩)
    · exact one_le_pow₀ (by decide)
    · refine pow_le_pow_right₀ (by decide) ?_
      by_contra hlt
      obtain ⟨j, hj⟩ := Nat.exists_eq_add_of_lt (Nat.lt_of_not_le hlt)
      exact hbeyond j (by rwa [Nat.add_right_comm, ← hj])

theorem int_double {k : Nat} (h : k < 30) : int (2 ^ k * 2) = 2 ^ (k + 1) := by
  have hle : (2 : Int) ^ (k + 1) ≤ 2 ^ 30 := pow_le_pow_right₀ (by decide) h
  have hpos : (0 : Int) < 2 ^ (k + 1) := pow_pos (by decide) _
  rw [← pow_succ, int, Int.bmod_def]
  split <;> omega

end Powers

section Division

variable {n : Nat}

/-- Halving again and again divides by the power. -/
theorem tdiv_tdiv_power (j k : Nat) :
    ((n : Int).tdiv (2 ^ j)).tdiv (2 ^ k) = (n : Int).tdiv (2 ^ (j + k)) := by
  have hpos (i : Nat) : (0 : Int) ≤ 2 ^ i := pow_nonneg (by decide) i
  rw [Int.tdiv_eq_ediv_of_nonneg (Int.natCast_nonneg n),
    Int.tdiv_eq_ediv_of_nonneg (Int.ediv_nonneg (Int.natCast_nonneg n) (hpos j)),
    Int.tdiv_eq_ediv_of_nonneg (Int.natCast_nonneg n), Int.ediv_ediv_of_nonneg (hpos j), pow_add]

theorem half_of_tdiv (n k : Nat) : ((n : Int).tdiv (2 ^ k)).tdiv 2 =
    (n : Int).tdiv (2 ^ (k + 1)) := by
  rw [← tdiv_tdiv_power k 1, pow_one]

theorem tdiv_of_half (n k : Nat) : ((n : Int).tdiv 2).tdiv (2 ^ k) =
    (n : Int).tdiv (2 ^ (k + 1)) := by
  rw [Nat.add_comm, ← tdiv_tdiv_power 1 k, pow_one]

theorem tdiv_power_nonneg (n k : Nat) : 0 ≤ (n : Int).tdiv (2 ^ k) :=
  Int.tdiv_nonneg (Int.natCast_nonneg n) (pow_nonneg (by decide) k)

theorem tdiv_power_anti (k : Nat) : (n : Int).tdiv (2 ^ (k + 1)) ≤ (n : Int).tdiv (2 ^ k) := by
  have hnonneg := tdiv_power_nonneg n k
  rw [← half_of_tdiv, Int.tdiv_eq_ediv_of_nonneg hnonneg]
  omega

theorem tdiv_power_of_lt (hn : n < 2 ^ 31) : (n : Int).tdiv (2 ^ 31) = 0 := by
  rw [Int.tdiv_eq_ediv_of_nonneg (Int.natCast_nonneg n)]
  omega

end Division

section Halves

variable {w h : Nat} {req : Int}

theorem atLeast_anti (k : Nat) (hkeeps : AtLeast req w h (2 ^ (k + 1))) : AtLeast req w h (2 ^ k) :=
  ⟨hkeeps.1.trans (tdiv_power_anti k), hkeeps.2.trans (tdiv_power_anti k)⟩

/-- The loop from the turn `k` on. -/
theorem halve_doublings {K : Nat} (hK : Doublings (AtLeast req w h) K) {turns k : Nat}
    (hk : k + turns = K) (more : Nat) :
    halve req (turns + 1 + more) ((w : Int).tdiv (2 ^ k)) ((h : Int).tdiv (2 ^ k))
    (2 ^ k) = .ok (2 ^ K) := by
  induction turns generalizing k with
  | zero =>
    have hstop : (w : Int).tdiv (2 ^ (k + 1)) < req ∨ (h : Int).tdiv (2 ^ (k + 1)) < req := by
      have hlast := hK.last
      rw [AtLeast, ← hk, Nat.add_zero] at hlast
      omega
    rw [Nat.zero_add, Nat.add_comm, halve, half_of_tdiv, half_of_tdiv, if_pos hstop,
      ← hk, Nat.add_zero]
  | succ turns ih =>
    have hgo : ¬ ((w : Int).tdiv (2 ^ (k + 1)) < req ∨ (h : Int).tdiv (2 ^ (k + 1)) < req) := by
      have hbefore := hK.before k (by omega)
      rw [AtLeast] at hbefore
      omega
    have hsmall := hK.small
    rw [show turns + 1 + 1 + more = turns + 1 + more + 1 by
      omega, halve, half_of_tdiv, half_of_tdiv, if_neg hgo,
      int_double (by omega)]
    exact ih (by omega)

theorem halve_ends (hw : w < 2 ^ 31) (hreq : 0 < req) :
    ∃ s, Ends (fun turns => halve req turns w h 1)
    (.ok s) ∧ IsGreatest (Powers (AtLeast req w h)) s := by
  have hend : ¬ AtLeast req w h (2 ^ 31) := by
    rintro ⟨hle, -⟩
    rw [tdiv_power_of_lt hw] at hle
    omega
  obtain ⟨K, hK⟩ := exists_doublings hend
  refine ⟨2 ^ K, ⟨K + 1, fun turns hturns => ?_⟩, hK.isGreatest atLeast_anti⟩
  obtain ⟨more, rfl⟩ := Nat.exists_eq_add_of_le hturns
  have hrun := halve_doublings hK (Nat.zero_add K) more
  rwa [pow_zero, Int.tdiv_one, Int.tdiv_one] at hrun

/-- Without the test of `decodeFileStream` the loop does not end for a request that is not
positive. -/
theorem halve_never_ends (hreq : req ≤ 0) (turns : Nat) (scale : Int) :
    halve req turns w h scale = .error .outOfTurns := by
  induction turns generalizing w h scale with
  | zero => rfl
  | succ turns ih =>
    have hhalf (n : Nat) : (n : Int).tdiv 2 = ((n / 2 : Nat) : Int) := rfl
    rw [halve, hhalf, hhalf, if_neg (by omega)]
    exact ih _

end Halves

section Doubles

variable {w h : Nat} {reqWidth reqHeight : Int}

theorem above_anti (k : Nat) (hkeeps : Above reqWidth reqHeight w h (2 ^ (k + 1))) :
    Above reqWidth reqHeight w h (2 ^ k) :=
  ⟨hkeeps.1.trans_le (tdiv_power_anti k), hkeeps.2.trans_le (tdiv_power_anti k)⟩

theorem double_doublings {K : Nat} (hK : Doublings (Above reqWidth reqHeight w h) K) {turns k : Nat}
    (hk : k + turns = K)
    (more : Nat) :
    double reqWidth reqHeight ((w : Int).tdiv 2) ((h : Int).tdiv 2) (turns + 1 + more)
    (2 ^ k) = .ok (2 ^ K) := by
  have hne (i : Nat) : (2 : Int) ^ i ≠ 0 := pow_ne_zero i (by decide)
  induction turns generalizing k with
  | zero =>
    have hstop : ¬ (reqHeight < (h : Int).tdiv (2 ^ (k + 1)) ∧
        reqWidth < (w : Int).tdiv (2 ^ (k + 1))) := by
      have hlast := hK.last
      rwa [← hk, Nat.add_zero] at hlast
    rw [Nat.zero_add, Nat.add_comm, double, if_neg (hne k), tdiv_of_half, tdiv_of_half,
      if_neg hstop, ← hk, Nat.add_zero]
  | succ turns ih =>
    have hgo : reqHeight < (h : Int).tdiv (2 ^ (k + 1)) ∧ reqWidth < (w : Int).tdiv (2 ^ (k + 1)) :=
      hK.before k (by omega)
    have hsmall := hK.small
    rw [show turns + 1 + 1 + more = turns + 1 + more + 1 by
      omega, double, if_neg (hne k), tdiv_of_half, tdiv_of_half,
      if_pos hgo, int_double (by omega)]
    exact ih (by omega)

theorem calculateInSampleSize_ends (hw : w < 2 ^ 31) (hh : h < 2 ^ 31)
    (hreq : 0 ≤ reqWidth ∨ 0 ≤ reqHeight) :
    ∃ s, Ends (calculateInSampleSize reqWidth reqHeight w h) (.ok s) ∧
      IsGreatest (Powers (Above reqWidth reqHeight w h)) s := by
  have hend : ¬ Above reqWidth reqHeight w h (2 ^ 31) := by
    rw [Above, tdiv_power_of_lt hw, tdiv_power_of_lt hh]
    omega
  by_cases hlarge : (h : Int) > reqHeight ∨ (w : Int) > reqWidth
  · obtain ⟨K, hK⟩ := exists_doublings hend
    refine ⟨2 ^ K, ⟨K + 1, fun turns hturns => ?_⟩, hK.isGreatest above_anti⟩
    obtain ⟨more, rfl⟩ := Nat.exists_eq_add_of_le hturns
    rw [calculateInSampleSize, if_pos hlarge]
    exact double_doublings hK (Nat.zero_add K) more
  · refine ⟨1, ⟨0, fun turns _ => if_neg hlarge⟩, .inl rfl, ?_⟩
    rintro p (rfl | ⟨⟨k, rfl⟩, habove, -⟩)
    · exact le_rfl
    · have hle : (h : Int).tdiv (2 ^ k) ≤ h := Int.tdiv_le_self _ (Int.natCast_nonneg h)
      omega

end Doubles

/-- The loops end and find the largest power, where a size is asked for at all;
`decodeFileStream` takes a request that is not positive for none. -/
theorem sample_sizes {w h : Nat} (hw : w < 2 ^ 31) (hh : h < 2 ^ 31)
    (requireSize reqWidth reqHeight : Int) :
    (0 < requireSize → ∃ s, Ends (decodeFile requireSize w h) (.ok s) ∧
      IsGreatest (Powers (AtLeast requireSize w h)) s) ∧
    (∃ s, Ends (decodeFileStream requireSize w h) (.ok s) ∧
      if 0 < requireSize then IsGreatest (Powers (AtLeast requireSize w h)) s else s = 1) ∧
    (0 ≤ reqWidth ∨ 0 ≤ reqHeight → ∃ s,
      Ends (calculateInSampleSize reqWidth reqHeight w h) (.ok s) ∧
      IsGreatest (Powers (Above reqWidth reqHeight w h)) s) := by
  refine ⟨halve_ends hw, ?_, calculateInSampleSize_ends hw hh⟩
  by_cases hreq : 0 < requireSize
  · obtain ⟨s, ⟨n, hn⟩, hs⟩ := halve_ends hw hreq
    refine ⟨s, ⟨n, fun turns hturns => ?_⟩, by rwa [if_pos hreq]⟩
    rw [decodeFileStream, if_pos hreq]
    exact hn turns hturns
  · exact ⟨1, ⟨0, fun turns _ => if_neg hreq⟩, by rw [if_neg hreq]⟩

theorem sample_sizes_photo :
    (∃ s, Ends (decodeFile 500 4000 3000) (.ok s) ∧ IsGreatest (Powers (AtLeast 500 4000 3000)) s) ∧
    (∃ s, Ends (calculateInSampleSize 500 (-1) 4000 3000) (.ok s) ∧
      IsGreatest (Powers (Above 500 (-1) 4000 3000)) s) := by
  obtain ⟨hfile, -, hcalculate⟩ := @sample_sizes 4000 3000 (by decide) (by decide) 500 500 (-1)
  exact ⟨hfile (by decide), hcalculate (.inl (by decide))⟩

/-- A request of 0: every power keeps enough, but `decodeFileStream` gives 1, and
`decodeFile` does not end. With two negative requests the size wraps to 0. -/
theorem not_sample_sizes :
    (∀ s, Ends (decodeFileStream 0 4 4) (.ok s) → ¬ IsGreatest (Powers (AtLeast 0 4 4)) s) ∧
    (∀ s, ¬ Ends (decodeFile 0 4 4) (.ok s)) ∧
    calculateInSampleSize (-1) (-1) 4 4 34 = .error .divides := by
  refine ⟨?_, ?_, by decide⟩
  · rintro s ⟨n, hn⟩ hgreatest
    have hone : s = 1 := (Except.ok.inj (hn n le_rfl)).symm
    have htwo : (2 : Int) ≤ s := hgreatest.2 (.inr ⟨⟨1, rfl⟩, by decide, by decide⟩)
    omega
  · rintro s ⟨n, hn⟩
    exact nomatch (hn n le_rfl).symm.trans (halve_never_ends (w := 4) (h := 4) le_rfl n 1)

end SampleSize
