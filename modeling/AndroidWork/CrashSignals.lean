import Mathlib.Tactic

/-!
# Forwarding signals

exception_handler.cpp without Breakpad: what `InstallHandlersLocked` saves of the
handlers that were there, and where `HandleSignal` forwards to. `sigaction` does
not fail for these signals.
-/
namespace CrashSignals

abbrev sigill : Nat := 4
abbrev sigtrap : Nat := 5
abbrev sigabrt : Nat := 6
abbrev sigbus : Nat := 7
abbrev sigfpe : Nat := 8
abbrev sigsegv : Nat := 11

def mExceptionSignals : List Nat := [sigsegv, sigabrt, sigfpe, sigill, sigbus, sigtrap]

/-- Handlers of the system and the application, and the collector's own. -/
inductive Handler (α : Type) where
  | other (h : α)
  | handleSignal
  deriving DecidableEq

/-- The disposition of every signal, and `old_handlers`. -/
structure Process (α : Type) where
  disposition : Nat → Handler α
  oldHandlers : List (Handler α)

variable {α : Type}

/-- The handlers are saved by their index in `mExceptionSignals`, then replaced. -/
def Process.installHandlersLocked (p : Process α) : Process α where
  disposition sig := if sig ∈ mExceptionSignals then .handleSignal else p.disposition sig
  oldHandlers := mExceptionSignals.map p.disposition

def Process.initCrashCollect (p : Process α) : Process α := p.installHandlersLocked

/-- The handler that a signal is forwarded to, `none` outside of `old_handlers`. -/
def Process.forwardsTo (p : Process α) (sig : Nat) : Option (Handler α) := p.oldHandlers[sig]?

/-- Before the first install; `old_handlers` is not filled yet. -/
def started (handlers : Nat → α) (sigDfl : α) : Process α :=
  ⟨fun sig => .other (handlers sig), List.replicate mExceptionSignals.length (.other sigDfl)⟩

/-- The signal goes to the handler that was there for it before the first install. -/
def Forwards (handlers : Nat → α) (sigDfl : α) (installs sig : Nat) : Prop :=
  (Process.initCrashCollect^[installs] (started handlers sigDfl)).forwardsTo sig =
    some (.other (handlers sig))

theorem disposition_installed {n sig : Nat} (handlers : Nat → α) (sigDfl : α) (hn : 0 < n)
    (hsig : sig ∈ mExceptionSignals) :
    (Process.initCrashCollect^[n] (started handlers sigDfl)).disposition sig = .handleSignal := by
  obtain ⟨n, rfl⟩ := Nat.exists_eq_succ_of_ne_zero hn.ne'
  rw [Function.iterate_succ_apply']
  exact if_pos hsig

/-- The last install saves what the ones before it leave. -/
theorem oldHandlers_installed (handlers : Nat → α) (sigDfl : α) (n : Nat) :
    (Process.initCrashCollect^[n + 1] (started handlers sigDfl)).oldHandlers =
      mExceptionSignals.map (Process.initCrashCollect^[n]
        (started handlers sigDfl)).disposition := by
  rw [Function.iterate_succ_apply']
  rfl

/-- A second install saves the collector's own handler everywhere. -/
theorem oldHandlers_again (handlers : Nat → α) (sigDfl : α) (n : Nat) :
    (Process.initCrashCollect^[n + 2] (started handlers sigDfl)).oldHandlers =
      List.replicate mExceptionSignals.length .handleSignal := by
  rw [oldHandlers_installed, List.eq_replicate_iff]
  refine ⟨List.length_map _, fun handler hhandler => ?_⟩
  obtain ⟨sig, hsig, rfl⟩ := List.mem_map.mp hhandler
  exact disposition_installed handlers sigDfl (Nat.succ_pos n) hsig

/-- Signals are forwarded right after a single install, and then SIGTRAP, whose
number is its index, and SIGILL if it shares the handler of SIGBUS. -/
theorem forwards_iff (handlers : Nat → α) (sigDfl : α) {installs sig : Nat}
    (hinstalls : 0 < installs)
    (hsig : sig ∈ mExceptionSignals) :
    Forwards handlers sigDfl installs sig ↔
      installs = 1 ∧ (sig = sigtrap ∨ sig = sigill ∧ handlers sigill = handlers sigbus) := by
  obtain ⟨n, rfl⟩ := Nat.exists_eq_succ_of_ne_zero hinstalls.ne'
  rw [Forwards, Process.forwardsTo]
  cases n with
  | zero =>
    rw [oldHandlers_installed]
    simp only [mExceptionSignals, List.mem_cons, List.not_mem_nil, or_false] at hsig
    rcases hsig with rfl | rfl | rfl | rfl | rfl | rfl <;>
      simp [mExceptionSignals, started, eq_comm]
  | succ n =>
    rw [oldHandlers_again]
    refine iff_of_false (fun h => ?_) (fun h => by omega)
    have hmem := List.mem_of_getElem? h
    cases List.eq_of_mem_replicate hmem

theorem forwards_iff_sigtrap : Forwards id 0 1 sigtrap ↔
    1 = 1 ∧ (sigtrap = sigtrap ∨ sigtrap = sigill ∧ id sigill = id sigbus) :=
  forwards_iff id 0 (by decide) (by decide)

/-- A segmentation fault is looked up behind the end of the table. -/
theorem not_forwards_sigsegv : (Process.initCrashCollect^[1] (started id 0)).forwardsTo sigsegv =
    none ∧
    ¬ Forwards id 0 1 sigsegv := by
  refine ⟨rfl, ?_⟩
  rw [Forwards]
  exact nofun

end CrashSignals
