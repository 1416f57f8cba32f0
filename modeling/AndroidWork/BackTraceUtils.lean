import AndroidWork.EventRuns

/-!
# The registry of Java stacks

`BackTraceUtils`: one `Future` for each thread inside an intercepted call, put by
`register` and taken away by `withdraw`, and the advice of `BackTraceAspect` around such
a call. The calls of every thread nest; the threads and the switch take turns freely.
-/
namespace BackTraceUtils

open Function

/-- The registry. A `Future` is the number of its submission. -/
structure Registry where
  mEnabled : Bool := false
  mBackTraceInfo : Nat → Option Nat := fun _ => none
  submitted : Nat := 0
  cancelled : List Nat := []

/-- `accepted` is false where the executor rejects the task: the exception is caught. -/
def register (u : Registry) (id : Nat) (accepted : Bool) : Registry :=
  if !u.mEnabled then u
  else if accepted then
    { u with mBackTraceInfo := update u.mBackTraceInfo id (some u.submitted), submitted :=
      u.submitted + 1 }
  else u

def withdraw (u : Registry) (id : Nat) : Registry :=
  if !u.mEnabled then u
  else
    { u with
      cancelled := (u.mBackTraceInfo id).toList ++ u.cancelled
      mBackTraceInfo := update u.mBackTraceInfo id none }

def enable (u : Registry) (enabled : Bool) : Registry := { u with mEnabled := enabled }

/-- The registry holds an entry for the thread. -/
def Registry.Holds (u : Registry) (id : Nat) : Prop := (u.mBackTraceInfo id).isSome

@[simp] theorem register_off {u : Registry} (h : u.mEnabled = false) (id : Nat) (accepted : Bool) :
    register u id accepted = u := by simp [register, h]

@[simp] theorem register_rejected (u : Registry) (id : Nat) : register u id false = u := by
  simp [register]

theorem holds_register (u : Registry) (id : Nat) (accepted : Bool) :
    (register u id accepted).Holds id ↔ u.Holds id ∨ (u.mEnabled && accepted) = true := by
  cases henabled : u.mEnabled <;> cases accepted <;> simp [register, Registry.Holds, henabled]

theorem holds_register_other (u : Registry) {id other : Nat} (accepted : Bool) (hne : other ≠ id) :
    (register u id accepted).Holds other ↔ u.Holds other := by
  cases henabled : u.mEnabled <;> cases accepted <;> simp [register, Registry.Holds, henabled, hne]

theorem holds_withdraw (u : Registry) (id : Nat) :
    (withdraw u id).Holds id ↔ u.Holds id ∧ u.mEnabled = false := by
  cases henabled : u.mEnabled <;> simp [withdraw, Registry.Holds, henabled]

theorem holds_withdraw_other (u : Registry) {id other : Nat} (hne : other ≠ id) :
    (withdraw u id).Holds other ↔ u.Holds other := by
  cases henabled : u.mEnabled <;> simp [withdraw, Registry.Holds, henabled, hne]

/-- Two threads do not share a `Future`, and none that is held has been cancelled. -/
structure Registry.Fresh (u : Registry) : Prop where
  held : ∀ id f, u.mBackTraceInfo id = some f → f < u.submitted ∧ f ∉ u.cancelled
  apart : ∀ id id' f, u.mBackTraceInfo id = some f → u.mBackTraceInfo id' = some f → id = id'
  cancelled : ∀ f ∈ u.cancelled, f < u.submitted

theorem fresh_register {u : Registry} (h : u.Fresh) (id : Nat) (accepted : Bool) :
    (register u id accepted).Fresh := by
  unfold register
  split
  next => exact h
  split
  next =>
    refine ⟨fun i f hf => ?_, fun i i' f hf hf' => ?_,
      fun f hf => (h.cancelled f hf).trans (Nat.lt_succ_self _)⟩
    · obtain rfl | hne := eq_or_ne i id
      · obtain rfl : u.submitted = f := by simpa using hf
        exact ⟨Nat.lt_succ_self _, fun hmem => lt_irrefl _ (h.cancelled _ hmem)⟩
      · obtain ⟨hlt, hlive⟩ := h.held i f (by simpa [hne] using hf)
        exact ⟨hlt.trans (Nat.lt_succ_self _), hlive⟩
    · obtain rfl | hne := eq_or_ne i id <;> obtain rfl | hne' := eq_or_ne i' i
      · rfl
      · obtain rfl : u.submitted = f := by simpa using hf
        exact absurd (h.held i' _ (by simpa [hne'] using hf')).1 (lt_irrefl _)
      · rfl
      · obtain rfl | hid := eq_or_ne i' id
        · obtain rfl : u.submitted = f := by simpa using hf'
          exact absurd (h.held i _ (by simpa [hne] using hf)).1 (lt_irrefl _)
        · exact h.apart i i' f (by simpa [hne] using hf) (by simpa [hid] using hf')
  next => exact h

theorem fresh_withdraw {u : Registry} (h : u.Fresh) (id : Nat) : (withdraw u id).Fresh := by
  unfold withdraw
  split
  next => exact h
  -- what is left was there before
  have hold : ∀ {i f}, update u.mBackTraceInfo id none i = some f → i ≠ id ∧
      u.mBackTraceInfo i = some f := by
    intro i f hf
    obtain rfl | hne := eq_or_ne i id
    · simp at hf
    · exact ⟨hne, by simpa [hne] using hf⟩
  refine ⟨fun i f hf => ?_, fun i i' f hf hf' => h.apart i i' f (hold hf).2
    (hold hf').2, fun f hf => ?_⟩
  · obtain ⟨hne, hinfo⟩ := hold hf
    refine ⟨(h.held i f hinfo).1, fun hmem => ?_⟩
    obtain hnew | hbefore := List.mem_append.mp hmem
    · exact hne (h.apart i id f hinfo (Option.mem_toList.mp hnew))
    · exact (h.held i f hinfo).2 hbefore
  · obtain hnew | hbefore := List.mem_append.mp hf
    · exact (h.held id f (Option.mem_toList.mp hnew)).1
    · exact h.cancelled f hbefore

/-- An intercepted call that has begun: whether its `register` put an entry. -/
structure Call where
  registered : Bool

/-- The registry, and the calls that each thread is in, the innermost first. -/
structure Machine where
  utils : Registry := {}
  active : Nat → List Call := fun _ => []

/-- `exit` is a call that returns, `fail` one whose body throws. -/
inductive Event where
  | enter (id : Nat) (accepted : Bool)
  | exit (id : Nat)
  | fail (id : Nat)
  | enable (enabled : Bool)

/-- The advice `backtracePoint` at the two ends of a call: there is no `finally`. -/
def next (m : Machine) : Event → Option Machine
  | .enter id accepted =>
    some
      { utils := register m.utils id accepted
        active :=
          update m.active id ({ registered := m.utils.mEnabled && accepted } :: m.active id) }
  | .exit id =>
    match m.active id with
    | [] => none
    | _ :: rest => some { utils := withdraw m.utils id, active := update m.active id rest }
  | .fail id =>
    match m.active id with
    | [] => none
    | _ :: rest => some { m with active := update m.active id rest }
  | .enable enabled => some { m with utils := enable m.utils enabled }

def initial : Machine := {}

/-- One of the calls has put its entry. -/
def Registered (calls : List Call) : Prop := ∃ c ∈ calls, c.registered = true

/-- An entry for every thread inside a registered call, and for no other. -/
def Exact (m : Machine) : Prop := ∀ id, m.utils.Holds id ↔ Registered (m.active id)

/-- A call that returns with the switch on has no registered call around it; a registered one
that returns with it off, or throws, has one. -/
def Keeps (m : Machine) : Event → Prop
  | .exit id => ∀ c rest, m.active id = c :: rest →
      if m.utils.mEnabled then ¬ Registered rest else c.registered = true → Registered rest
  | .fail id => ∀ c rest, m.active id = c :: rest → c.registered = true → Registered rest
  | _ => True

@[simp] theorem not_registered_nil : ¬ Registered [] := by simp [Registered]

@[simp] theorem registered_cons (c : Call) (rest : List Call) :
    Registered (c :: rest) ↔ c.registered = true ∨ Registered rest := by simp [Registered]

theorem exact_initial : Exact initial := fun id => by simp [initial, Registry.Holds]

/-- Only the thread of the event is concerned. -/
theorem exact_update {m : Machine} (h : Exact m) {u : Registry} {id : Nat} (calls : List Call)
    (hother : ∀ other, other ≠ id → (u.Holds other ↔ m.utils.Holds other)) :
    Exact { utils := u, active := update m.active id calls } ↔ (u.Holds id ↔ Registered calls) := by
  constructor
  · intro hexact
    simpa using hexact id
  · intro hid other
    obtain rfl | hne := eq_or_ne other id
    · simpa using hid
    · simpa [hne] using (hother other hne).trans (h other)

/-- Which steps keep the registry exact. -/
theorem exact_next {m u : Machine} {e : Event} (h : Exact m) (hnext : next m e = some u) :
    Exact u ↔ Keeps m e := by
  cases e with
  | enter id accepted =>
    cases hnext
    refine iff_of_true
      ((exact_update h _ fun other hne => holds_register_other _ accepted hne).mpr ?_) trivial
    rw [holds_register, registered_cons, h id, or_comm]
  | exit id =>
    cases hactive : m.active id with
    | nil => simp [next, hactive] at hnext
    | cons c rest =>
      obtain rfl : _ = u := by simpa [next, hactive] using hnext
      rw [exact_update h _ fun other hne => holds_withdraw_other _ hne, holds_withdraw, h id,
        hactive, registered_cons]
      cases henabled : m.utils.mEnabled
      all_goals
        simp [Keeps, hactive, henabled]
        try tauto
  | fail id =>
    cases hactive : m.active id with
    | nil => simp [next, hactive] at hnext
    | cons c rest =>
      obtain rfl : _ = u := by simpa [next, hactive] using hnext
      rw [exact_update h _ fun _ _ => Iff.rfl, h id, hactive, registered_cons]
      simp [Keeps, hactive]
  | enable enabled =>
    cases hnext
    exact iff_of_true h trivial

theorem fresh_next {m u : Machine} {e : Event} (h : m.utils.Fresh) (hnext : next m e = some u) :
    u.utils.Fresh := by
  cases e with
  | enter id accepted =>
    cases hnext
    exact fresh_register h id accepted
  | exit id =>
    cases hactive : m.active id with
    | nil => simp [next, hactive] at hnext
    | cons c rest =>
      obtain rfl : _ = u := by simpa [next, hactive] using hnext
      exact fresh_withdraw h id
  | fail id =>
    cases hactive : m.active id with
    | nil => simp [next, hactive] at hnext
    | cons c rest =>
      obtain rfl : _ = u := by simpa [next, hactive] using hnext
      exact h
  | enable enabled =>
    cases hnext
    exact ⟨h.held, h.apart, h.cancelled⟩

/-- What the registry holds in any run can still be asked for its stack. -/
theorem fresh_run {es : List Event} {m : Machine}
    (hrun : EventRuns.run next initial es = some m) : m.utils.Fresh :=
  (EventRuns.reached_of_run hrun (EventRuns.meets_always initial es)).invariant
    ⟨nofun, nofun, nofun⟩
    fun _ _ _ hfresh _ hnext => fresh_next hfresh hnext

/-- The registry is exact at every moment of a run just where every step of it keeps it so. -/
theorem always_exact_iff (es : List Event) (m : Machine)
    (hrun : EventRuns.run next initial es = some m) :
    EventRuns.Always next Exact initial es ↔ EventRuns.Meets next Keeps initial es :=
  @EventRuns.always_iff_meets _ _ next Keeps Exact (fun _ => True) (fun _ _ _ _ _ => trivial)
    (fun _ _ _ _ hexact hnext => exact_next hexact hnext) initial m es trivial exact_initial hrun

/-- One call of each of two threads, and a second one of the first that is rejected and throws. -/
def twoThreads : List Event :=
  [.enable true, .enter 1 true, .enter 2 true, .exit 1, .enter 1 false, .fail 1, .exit 2]

theorem always_exact_twoThreads : EventRuns.Always next Exact initial twoThreads := by
  refine (always_exact_iff twoThreads _ rfl).mpr ?_
  iterate 3 refine EventRuns.meets_step trivial rfl ?_
  refine EventRuns.meets_step ?_ rfl (EventRuns.meets_step trivial rfl (EventRuns.meets_step ?_ rfl
    (EventRuns.meets_step ?_ rfl trivial)))
  all_goals
    intro c rest hactive
    simp only [initial, register, withdraw, enable, update_self, update_of_ne, ne_eq,
      OfNat.ofNat_ne_one, OfNat.one_ne_ofNat,
      not_false_eq_true, List.cons.injEq] at hactive
    obtain ⟨rfl, rfl⟩ := hactive
    simp [initial, register, withdraw, enable]

/-- A call inside a call of the same thread: the inner one takes the entry away when it returns. -/
theorem not_always_exact_nested : ¬ ∀ es, EventRuns.Always next Exact initial es := by
  intro h
  have hexact :=
    ((((h [.enable true, .enter 1 true, .enter 1 true, .exit 1]).2 _ rfl).2 _ rfl).2 _ rfl).2 _ rfl
  have hholds := (hexact 1).mpr ⟨⟨true⟩, List.mem_cons_self, rfl⟩
  cases hholds

end BackTraceUtils
