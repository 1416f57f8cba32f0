import Mathlib.Tactic

/-!
# Computations with a number of turns

A loop that may not end is run for a number of turns, and fails with `cut` when
they are used up. It settles when more turns make no difference from some number
on, and the outcome then is not `cut`.
-/
namespace Turns

variable {ε α β : Type} {cut : ε} {P : α → Prop} {Q : β → Prop} {f : Nat → Except ε α}

/-- What is returned satisfies `P`, whatever the number of turns. -/
structure Settles (cut : ε) (P : α → Prop) (f : Nat → Except ε α) : Prop where
  sound : ∀ turns {a}, f turns = .ok a → P a
  ends : ∃ n r, r ≠ .error cut ∧ ∀ turns ≥ n, f turns = r

theorem Settles.fixed {r : Except ε α} (hcut : r ≠ .error cut) (hP : ∀ a, r = .ok a → P a) :
    Settles cut P fun _ => r :=
  ⟨fun _ _ h => hP _ h, 0, r, hcut, fun _ _ => rfl⟩

theorem Settles.ok {a : α} (h : P a) : Settles cut P fun _ => .ok a :=
  .fixed nofun fun b hb => by
    cases hb
    exact h

theorem Settles.error {e : ε} (h : e ≠ cut) : Settles cut P fun _ => .error e :=
  .fixed (fun hcut => h (Except.error.inj hcut)) nofun

theorem Settles.imp {P' : α → Prop} (h : Settles cut P f) (himp : ∀ a, P a → P' a) :
    Settles cut P' f :=
  ⟨fun turns _ hf => himp _ (h.sound turns hf), h.ends⟩

theorem Settles.ite {c : Prop} [Decidable c] {g : Nat → Except ε α} (h : c → Settles cut P f)
    (h' : ¬ c → Settles cut P g) :
    Settles cut P fun turns => if c then f turns else g turns := by
  by_cases hc : c
  · simp only [hc, if_true]
    exact h hc
  · simp only [hc, if_false]
    exact h' hc

theorem Settles.bind (h : Settles cut P f) {g : Nat → α → Except ε β}
    (hg : ∀ a, P a → Settles cut Q fun turns => g turns a) :
    Settles cut Q fun turns => f turns >>= g turns := by
  constructor
  · intro turns b hb
    cases hf : f turns with
    | error e =>
      rw [hf] at hb
      cases hb
    | ok a =>
      rw [hf] at hb
      exact (hg a (h.sound turns hf)).sound turns hb
  · obtain ⟨n, r, hr, hn⟩ := h.ends
    cases r with
    | error e =>
      refine ⟨n, .error e, fun he => hr (congrArg Except.error (Except.error.inj he)),
        fun turns hturns => ?_⟩
      rw [hn turns hturns]
      rfl
    | ok a =>
      obtain ⟨m, r, hr, hm⟩ := (hg a (h.sound n (hn n le_rfl))).ends
      refine ⟨max n m, r, hr, fun turns hturns => ?_⟩
      rw [hn turns (le_trans (le_max_left n m) hturns)]
      exact hm turns (le_trans (le_max_right n m) hturns)

theorem Settles.map (h : Settles cut P f) {g : α → β} (hg : ∀ a, P a → Q (g a)) :
    Settles cut Q fun turns => (f turns).map g := by
  have hbind : (fun turns => (f turns).map g) = fun turns => f turns >>= fun a => .ok (g a) := by
    funext turns
    cases f turns <;> rfl
  rw [hbind]
  exact h.bind fun a ha => .ok (hg a ha)

/-- The first turn is one of those that are given. -/
theorem Settles.turn (hzero : f 0 = .error cut) (h : Settles cut P fun turns => f (turns + 1)) :
    Settles cut P f := by
  constructor
  · intro turns a ha
    cases turns with
    | zero =>
      rw [hzero] at ha
      cases ha
    | succ turns => exact h.sound turns ha
  · obtain ⟨n, r, hr, hn⟩ := h.ends
    refine ⟨n + 1, r, hr, fun turns hturns => ?_⟩
    obtain ⟨turns, rfl⟩ : ∃ t, turns = t + 1 := ⟨turns - 1, by omega⟩
    exact hn turns (Nat.le_of_succ_le_succ hturns)

end Turns
