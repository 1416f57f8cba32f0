import Mathlib.Control.Monad.Writer

/-!
# Programs that tell what they do

A program gives a result and the events on the way to it. What holds of all events and of the
result is put together from what holds of the parts.
-/
namespace Traces

universe u

variable {ε α β : Type u}

abbrev Traced (ε : Type u) := Writer (List ε)

def result (m : Traced ε α) : α := m.run.1

def events (m : Traced ε α) : List ε := m.run.2

@[simp] theorem result_pure (a : α) : result (pure a : Traced ε α) = a := rfl

@[simp] theorem events_pure (a : α) : events (pure a : Traced ε α) = [] := rfl

@[simp] theorem result_bind (m : Traced ε α) (f : α → Traced ε β) :
    result (m >>= f) = result (f (result m)) := rfl

@[simp] theorem events_bind (m : Traced ε α) (f : α → Traced ε β) :
    events (m >>= f) = events m ++ events (f (result m)) := rfl

@[simp] theorem events_tell (es : List ε) : events (tell es : Traced ε PUnit) = es := rfl

theorem result_foldlM (f : α → Nat → Traced ε α) (xs : List Nat) (a : α) :
    result (xs.foldlM f a) = xs.foldl (fun a i => result (f a i)) a := by
  induction xs generalizing a with
  | nil => rfl
  | cons i xs ih => rw [List.foldlM_cons, result_bind, ih, List.foldl_cons]

theorem events_foldlM_append (f : α → Nat → Traced ε α) (xs ys : List Nat) (a : α) :
    events ((xs ++ ys).foldlM f a) = events (xs.foldlM f a) ++
      events (ys.foldlM f (result (xs.foldlM f a))) := by
  induction xs generalizing a with
  | nil => rfl
  | cons i xs ih => simp [ih]

/-- A loop tells what its turns tell, each from where those before it have come to. -/
theorem events_foldlM (f : α → Nat → Traced ε α) (n : Nat) (a : α) :
    events ((List.range n).foldlM f a) = (List.range n).flatMap fun i =>
  events (f (result ((List.range i).foldlM f a)) i) := by
  induction n with
  | zero => rfl
  | succ n ih =>
    rw [List.range_succ, events_foldlM_append, ih, List.flatMap_append]
    simp
/-- All events are good, and so is the result. -/
structure Tells (P : ε → Prop) (Q : α → Prop) (m : Traced ε α) : Prop where
  events : ∀ e ∈ events m, P e
  result : Q (result m)

variable {P : ε → Prop} {Q : α → Prop} {R : β → Prop}

theorem tells_pure {a : α} (h : Q a) : Tells P Q (pure a : Traced ε α) := ⟨by simp, h⟩

theorem Tells.imp {Q' : α → Prop} {m : Traced ε α} (h : Tells P Q m)
    (himp : ∀ a, Q a → Q' a) : Tells P Q' m :=
  ⟨h.events, himp _ h.result⟩

theorem Tells.bind {m : Traced ε α} {f : α → Traced ε β} (h : Tells P Q m)
    (hf : ∀ a, Q a → Tells P R (f a)) :
    Tells P R (m >>= f) := by
  have hrest := hf (Traces.result m) h.result
  refine ⟨?_, hrest.result⟩
  rw [events_bind, List.forall_mem_append]
  exact ⟨h.events, hrest.events⟩

/-- The rest of a program whose first part has one result. -/
theorem Tells.bind_eq {m : Traced ε α} {a : α} {f : α → Traced ε β} (h : Tells P (· = a) m)
    (hf : Tells P R (f a)) :
    Tells P R (m >>= f) := by
  refine h.bind ?_
  rintro _ rfl
  exact hf

theorem tells_tell {e : ε} (h : P e) : Tells P (· = PUnit.unit) (tell [e] : Traced ε PUnit) :=
  ⟨by simpa using h, rfl⟩

/-- A loop keeps what each of its turns keeps. -/
theorem tells_foldlM {I : Nat → α → Prop} {f : α → Nat → Traced ε α} {stop : Nat}
    (hturn : ∀ i < stop, ∀ a, I i a → Tells P (I (i + 1)) (f a i)) (n start : Nat)
    (hstop : start + n = stop) {a : α}
    (h : I start a) : Tells P (I stop) ((List.range' start n).foldlM f a) := by
  induction n generalizing start a with
  | zero =>
    obtain rfl : start = stop := hstop
    exact tells_pure h
  | succ n ih =>
    rw [List.range'_succ, List.foldlM_cons]
    exact (hturn start (by omega) a h).bind fun a' h' => ih (start + 1) (by omega) h'

end Traces
