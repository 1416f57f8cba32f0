import Mathlib.Tactic

/-!
# Runs of events

A partial step function over states and events, the states its runs reach when
every step meets a condition, and invariants over them.
-/
namespace EventRuns

variable {σ ε : Type} {next : σ → ε → Option σ} {ok : σ → ε → Prop}

/-- The states met from `s` on by steps that all meet `ok`. -/
inductive Reached (next : σ → ε → Option σ) (ok : σ → ε → Prop) (s : σ) : σ → Prop where
  | here : Reached next ok s s
  | step {t u : σ} {e : ε} (h : Reached next ok s t) (hok : ok t e) (hnext : next t e = some u) :
      Reached next ok s u

/-- What holds first and is kept by every step that meets `ok` holds throughout. -/
theorem Reached.invariant {inv : σ → Prop} {s t : σ} (h : Reached next ok s t) (hfirst : inv s)
    (hstep : ∀ t e u, inv t → ok t e → next t e = some u → inv u) : inv t := by
  induction h with
  | here => exact hfirst
  | step _ hok hnext ih => exact hstep _ _ _ ih hok hnext

theorem Reached.mono {ok' : σ → ε → Prop} (himp : ∀ t e, ok t e → ok' t e) {s t : σ}
    (h : Reached next ok s t) : Reached next ok' s t := by
  induction h with
  | here => exact .here
  | step _ hok hnext ih => exact .step ih (himp _ _ hok) hnext

/-- A run whose rank goes down with every step comes to its end. -/
theorem exists_reached_done {inv : Nat → σ → Prop} {done : σ → Prop}
    (hstep : ∀ n t, inv n t → done t ∨ ∃ e u m, ok t e ∧ next t e = some u ∧ inv m u ∧ m < n)
    {n : Nat} {s : σ}
    (hfirst : inv n s) : ∃ m t, Reached next ok s t ∧ inv m t ∧ done t := by
  have hall : ∀ n t, Reached next ok s t → inv n t → ∃ m t, Reached next ok s t ∧
      inv m t ∧ done t := by
    intro n
    induction n using Nat.strong_induction_on with
    | _ n ih =>
      intro t hreached hinv
      rcases hstep n t hinv with hdone | ⟨e, u, m, hok, hnext, hinv', hlt⟩
      · exact ⟨n, t, hreached, hinv, hdone⟩
      · exact ih m hlt u (hreached.step hok hnext) hinv'
  exact hall n s .here hfirst

/-- The state after a list of events, `none` once an event is not enabled. -/
def run (next : σ → ε → Option σ) : σ → List ε → Option σ
  | s, [] => some s
  | s, e :: es => (next s e).bind fun t => run next t es

theorem run_append (s : σ) (es es' : List ε) :
    run next s (es ++ es') = (run next s es).bind fun t => run next t es' := by
  induction es generalizing s with
  | nil => rfl
  | cons e es ih =>
    simp only [List.cons_append, run, ih, Option.bind_assoc]

/-- Every step of the run meets `ok`. -/
def Meets (next : σ → ε → Option σ) (ok : σ → ε → Prop) : σ → List ε → Prop
  | _, [] => True
  | s, e :: es => ok s e ∧ ∀ t, next s e = some t → Meets next ok t es

theorem Reached.trans {s t u : σ} (h : Reached next ok s t) (h' : Reached next ok t u) :
    Reached next ok s u := by
  induction h' with
  | here => exact h
  | step _ hok hnext ih => exact .step ih hok hnext

theorem reached_of_run {s t : σ} {es : List ε} (hrun : run next s es = some t)
    (hmeets : Meets next ok s es) :
    Reached next ok s t := by
  induction es generalizing s with
  | nil =>
    cases hrun
    exact .here
  | cons e es ih =>
    obtain ⟨u, hu, hrest⟩ := Option.bind_eq_some_iff.mp hrun
    exact (Reached.step .here hmeets.1 hu).trans (ih hrest (hmeets.2 u hu))

/-- A condition that the state has no part in. -/
theorem meets_of_events {q : ε → Prop} (s : σ) (es : List ε) (h : ∀ e ∈ es, q e) :
    Meets next (fun _ e => q e) s es := by
  induction es generalizing s with
  | nil => trivial
  | cons e es ih =>
    exact ⟨h e List.mem_cons_self, fun t _ => ih t fun e' he' => h e' (List.mem_cons_of_mem e he')⟩

theorem meets_step {s t : σ} {e : ε} {es : List ε} (hok : ok s e) (hnext : next s e = some t)
    (hrest : Meets next ok t es) : Meets next ok s (e :: es) := by
  refine ⟨hok, fun u hu => ?_⟩
  rw [hnext] at hu
  cases hu
  exact hrest

theorem meets_always (s : σ) (es : List ε) : Meets next (fun _ _ => True) s es := by
  induction es generalizing s with
  | nil => trivial
  | cons e es ih => exact ⟨trivial, fun t _ => ih t⟩

/-- Two conditions that are the same for the steps that are taken. -/
theorem meets_congr {ok' : σ → ε → Prop} (hstep : ∀ s e t, next s e = some t → (ok s e ↔ ok' s e))
    {s t : σ} {es : List ε}
    (hrun : run next s es = some t) : Meets next ok s es ↔ Meets next ok' s es := by
  induction es generalizing s with
  | nil => exact Iff.rfl
  | cons e es ih =>
    obtain ⟨u, hnext, hrest⟩ := Option.bind_eq_some_iff.mp hrun
    constructor
    · rintro ⟨hok, hmeets⟩
      exact meets_step ((hstep s e u hnext).mp hok) hnext ((ih hrest).mp (hmeets u hnext))
    · rintro ⟨hok, hmeets⟩
      exact meets_step ((hstep s e u hnext).mpr hok) hnext ((ih hrest).mpr (hmeets u hnext))

/-- `inv` holds at every moment of the run. -/
def Always (next : σ → ε → Option σ) (inv : σ → Prop) : σ → List ε → Prop
  | s, [] => inv s
  | s, e :: es => inv s ∧ ∀ t, next s e = some t → Always next inv t es

instance decidableAlways {inv : σ → Prop} [DecidablePred inv] :
    ∀ s es, Decidable (Always next inv s es)
  | s, [] => inferInstanceAs (Decidable (inv s))
  | s, e :: es =>
    match hnext : next s e with
    | none =>
      decidable_of_iff (inv s) ⟨fun h => ⟨h, fun t ht => by rw [hnext] at ht; cases ht⟩,
        fun h => h.1⟩
    | some t =>
      have : Decidable (Always next inv t es) := decidableAlways t es
      decidable_of_iff (inv s ∧ Always next inv t es)
        ⟨fun h => ⟨h.1, fun u hu => by rw [hnext] at hu; cases hu; exact h.2⟩, fun h =>
          ⟨h.1, h.2 t hnext⟩⟩

theorem always_head {inv : σ → Prop} {s : σ} {es : List ε} (h : Always next inv s es) : inv s := by
  cases es with
  | nil => exact h
  | cons => exact h.1

/-- Where `ok` says of every step whether `inv` survives it, it says so of every run. -/
theorem always_iff_meets {inv aux : σ → Prop} (haux : ∀ s e t, aux s → next s e = some t → aux t)
    (hstep : ∀ s e t, aux s → inv s → next s e = some t → (inv t ↔ ok s e)) {s t : σ} {es : List ε}
    (hs : aux s) (hinv : inv s) (hrun : run next s es = some t) :
    Always next inv s es ↔ Meets next ok s es := by
  induction es generalizing s with
  | nil => exact iff_of_true hinv trivial
  | cons e es ih =>
    obtain ⟨u, hnext, hrest⟩ := Option.bind_eq_some_iff.mp hrun
    have hiff := hstep s e u hs hinv hnext
    have hu := haux s e u hs hnext
    constructor
    · rintro ⟨-, halways⟩
      have hrest' := halways u hnext
      have hinv' := always_head hrest'
      exact meets_step (hiff.mp hinv') hnext ((ih hu hinv' hrest).mp hrest')
    · rintro ⟨hok, hmeets⟩
      refine ⟨hinv, fun v hv => ?_⟩
      rw [hnext] at hv
      cases hv
      exact (ih hu (hiff.mpr hok) hrest).mpr (hmeets u hnext)

/-- Every event of the list comes in turn after those before it. -/
def InTurn (turn : List ε → ε → Prop) (es : List ε) : Prop :=
  ∀ before e after, es = before ++ e :: after → turn before e

theorem inTurn_cons {turn : List ε → ε → Prop} {e : ε} {es : List ε} :
    InTurn turn (e :: es) ↔ turn [] e ∧ InTurn (fun before => turn (e :: before)) es := by
  constructor
  · intro h
    exact ⟨h [] e es rfl, fun before e' after heq => h (e :: before) e' after (by rw [heq]; rfl)⟩
  · rintro ⟨hfirst, hrest⟩ before e' after heq
    cases before with
    | nil =>
      cases heq
      exact hfirst
    | cons b before =>
      cases heq
      exact hrest before e' after rfl

/-- Where `turn` says of every step, from the events before it alone, whether `inv`
survives it, it says so of every run. `trace` ties the state to these events. -/
theorem always_iff_inTurn {inv : σ → Prop} {trace : List ε → σ → Prop} {turn : List ε → ε → Prop}
    (htrace : ∀ before s e t, trace before s → next s e = some t → trace (before ++ [e]) t)
    (hstep : ∀ before s e t, trace before s → inv s → next s e = some t → (inv t ↔ turn before e))
    {s t : σ}
    {es : List ε} (hs : trace [] s) (hinv : inv s) (hrun : run next s es = some t) :
    Always next inv s es ↔ InTurn turn es := by
  -- on the events that are left, with those before them as a prefix
  have hall : ∀ (es before : List ε) (s : σ), trace before s → inv s → run next s es = some t →
      (Always next inv s es ↔ InTurn (fun later => turn (before ++ later)) es) := by
    intro es
    induction es with
    | nil =>
      intro before s _ hinv _
      exact iff_of_true hinv fun _ _ _ h => by simp at h
    | cons e es ih =>
      intro before s hs hinv hrun
      obtain ⟨u, hnext, hrest⟩ := Option.bind_eq_some_iff.mp hrun
      have hiff := hstep before s e u hs hinv hnext
      have hu := htrace before s e u hs hnext
      rw [inTurn_cons, List.append_nil, ← hiff]
      have hlater : (fun later => turn (before ++ e :: later)) = fun later =>
        turn (before ++ [e] ++ later) := by
        funext later
        rw [List.append_assoc]
        rfl
      rw [hlater]
      constructor
      · rintro ⟨-, halways⟩
        have hrest' := halways u hnext
        exact ⟨always_head hrest', (ih _ u hu (always_head hrest') hrest).mp hrest'⟩
      · rintro ⟨hinv', hturn⟩
        refine ⟨hinv, fun v hv => ?_⟩
        rw [hnext] at hv
        cases hv
        exact (ih _ u hu hinv' hrest).mpr hturn
  exact hall es [] s hs hinv hrun

end EventRuns
