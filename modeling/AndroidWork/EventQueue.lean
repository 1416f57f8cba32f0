import AndroidWork.LinkedChain

/-!
# The event queue

event_queue.cpp: a singly linked list of heap cells with a head and a tail
pointer. An operation on a cell that is not live is stuck.
-/
namespace EventQueue

open LinkedChain

abbrev Byte := BitVec 8

/-- `struct inotify_event`. -/
structure InotifyEvent where
  wd : BitVec 32
  mask : BitVec 32
  cookie : BitVec 32
  len : BitVec 32
  name : List Byte
  deriving DecidableEq

structure QueueEntry where
  nextPtr : Option Nat
  inotEv : InotifyEvent

structure QueueStruct where
  head : Option Nat
  tail : Option Nat

abbrev Memory := Heap QueueEntry

def queueEmpty (q : QueueStruct) : Bool := q.head.isNone

def queueCreate : QueueStruct := ⟨none, none⟩

def queueEnqueue (d : Nat) (h : Memory) (q : QueueStruct) : Option (Memory × QueueStruct) := do
  let entry ← h.cell d
  let h := h.set d { entry with nextPtr := none }
  match q.tail with
  | some t =>
    let last ← h.cell t
    some (h.set t { last with nextPtr := some d }, { q with tail := some d })
  | none => some (h, ⟨some d, some d⟩)

def queueDequeue (h : Memory) (q : QueueStruct) : Option (Option Nat × Memory × QueueStruct) :=
  match q.head with
  | none => some (none, h, q)
  | some first => do
    let entry ← h.cell first
    let q := { q with head := entry.nextPtr }
    let q := if q.head = none then { q with tail := none } else q
    some (some first, h.set first { entry with nextPtr := none }, q)

/-- The queue of these entries: the links run from head to tail through them. -/
structure Linked (h : Memory) (q : QueueStruct) (xs : List Nat) : Prop where
  chain : Chain QueueEntry.nextPtr h q.head xs
  last : q.tail = xs.getLast?

/-- The event in a cell. -/
def eventAt (h : Memory) (x : Nat) : Option InotifyEvent := (h.cell x).map QueueEntry.inotEv

/-- And their events. -/
structure Holds (h : Memory) (q : QueueStruct) (xs : List Nat) (events : List InotifyEvent) :
    Prop extends Linked h q xs where
  events : xs.map (eventAt h) = events.map some

variable {h : Memory} {q : QueueStruct} {xs : List Nat} {events : List InotifyEvent} {d : Nat}

theorem holds_create (h : Memory) : Holds h queueCreate [] [] := ⟨⟨rfl, rfl⟩, rfl⟩

theorem Linked.ends (hlinked : Linked h q xs) : q.head = none ↔ q.tail = none := by
  cases xs with
  | nil =>
    rw [hlinked.chain, hlinked.last]
    rfl
  | cons x xs =>
    rw [hlinked.chain.1, hlinked.last, List.getLast?_cons]
    simp

/-- A link that is written leaves the events alone. -/
theorem eventAt_set (h : Memory) (entry : QueueEntry) (next : Option Nat) {x : Nat}
    (hx : h.cell x = some entry) :
    eventAt (h.set x { entry with nextPtr := next }) = eventAt h := by
  funext y
  rw [eventAt, eventAt]
  by_cases hy : y = x
  · rw [hy, Heap.set_same, hx]
    rfl
  · rw [Heap.set_other _ _ hy]

/-- A live cell outside the queue is put at its end. -/
theorem Holds.enqueue {entry : QueueEntry} (hholds : Holds h q xs events) (hd : d ∉ xs)
    (hlive : h.cell d = some entry) :
    ∃ h' q', queueEnqueue d h q = some (h', q') ∧ Holds h' q' (xs ++ [d])
    (events ++ [entry.inotEv]) := by
  obtain ⟨⟨hchain, hlast⟩, hevents⟩ := hholds
  have hnew : (xs ++ [d]).map (eventAt h) = (events ++ [entry.inotEv]).map some := by
    rw [List.map_append, List.map_append, hevents, List.map_singleton, eventAt, hlive]
    rfl
  rcases List.eq_nil_or_concat xs with rfl | ⟨front, t, rfl⟩
  · refine ⟨h.set d { entry with nextPtr := none }, ⟨some d, some d⟩, ?_,
      ⟨⟨rfl, _, Heap.set_same _ _ _, rfl⟩, rfl⟩, ?_⟩
    · simp [queueEnqueue, hlive, hlast]
    · rwa [eventAt_set h entry none hlive]
  · rw [List.concat_eq_append] at *
    have htd : t ≠ d := by
      rintro rfl
      exact hd (List.mem_append_right front List.mem_cons_self)
    obtain ⟨last, hcell⟩ := hchain.live (List.mem_append_right front List.mem_cons_self)
    have htail : q.tail = some t := by rw [hlast, List.getLast?_concat]
    have hcell' : (h.set d { entry with nextPtr := none }).cell t = some last := by
      rw [Heap.set_other _ _ htd, hcell]
    have hcellD :
        ((h.set d { entry with nextPtr := none }).set t { last with nextPtr := some d }).cell d =
        some { entry with nextPtr := none } := by
      rw [Heap.set_other _ _ htd.symm, Heap.set_same]
    refine ⟨(h.set d { entry with nextPtr := none }).set t { last with nextPtr := some d },
      { q with tail := some d }, ?_,
      ⟨?_, ?_⟩, ?_⟩
    · simp [queueEnqueue, hlive, htail, hcell']
    · rw [List.append_assoc]
      refine hchain.concat hd (fun y hyt hyd => ?_) (Heap.set_same _ _ _) rfl hcellD rfl
      rw [Heap.set_other _ _ hyt, Heap.set_other _ _ hyd]
    · rw [List.getLast?_concat]
    · rwa [eventAt_set _ last (some d) hcell', eventAt_set h entry none hlive]

/-- The first entry is taken out, with its event. -/
theorem Holds.dequeue {x : Nat} {event : InotifyEvent}
    (hholds : Holds h q (x :: xs) (event :: events)) :
    ∃ h' q', queueDequeue h q = some (some x, h', q') ∧ Holds h' q' xs events ∧
      eventAt h' x = some event := by
  obtain ⟨⟨hchain, hlast⟩, hevents⟩ := hholds
  have hnodup := hchain.nodup
  obtain ⟨hhead, entry, hcell, hrest⟩ := hchain
  simp only [List.map_cons, List.cons.injEq] at hevents
  have hother : ∀ y ∈ xs, y ≠ x := by
    rintro y hy rfl
    exact (List.nodup_cons.mp hnodup).1 hy
  have htail : (if entry.nextPtr = none then none else q.tail) = xs.getLast? := by
    cases xs with
    | nil => exact if_pos hrest
    | cons y xs =>
      rw [if_neg (by rw [hrest.1]; exact nofun), hlast]
      exact List.getLast?_cons_cons
  refine ⟨h.set x { entry with nextPtr := none }, ⟨entry.nextPtr, xs.getLast?⟩, ?_,
    ⟨⟨?_, rfl⟩, ?_⟩, ?_⟩
  · rw [queueDequeue, hhead, ← htail]
    simp only [hcell]
    by_cases hnext : entry.nextPtr = none
    · simp [hnext]
    · simp [hnext]
  · exact hrest.congr fun y hy => Heap.set_other _ _ (hother y hy)
  · rw [eventAt_set h entry none hcell]
    exact hevents.2
  · rw [eventAt_set h entry none hcell]
    exact hevents.1

theorem Holds.dequeue_empty (hholds : Holds h q [] events) :
    queueDequeue h q = some (none, h, q) := by
  rw [queueDequeue, show q.head = none from hholds.chain]

inductive Op where
  | enqueue (event : InotifyEvent)
  | dequeue

/-- A first-in first-out queue: the events that come out, and those that stay. -/
def fifo : List Op → List InotifyEvent → List (Option InotifyEvent) × List InotifyEvent
  | [], events => ([], events)
  | .enqueue event :: ops, events => fifo ops (events ++ [event])
  | .dequeue :: ops, [] => (none :: (fifo ops []).1, (fifo ops []).2)
  | .dequeue :: ops, event :: events => (some event :: (fifo ops events).1, (fifo ops events).2)

/-- The calls, each event in a cell of its own. -/
def runOps (malloc : Memory → Nat) :
    List Op → Memory → QueueStruct → Option (List (Option InotifyEvent) × Memory × QueueStruct)
  | [], h, q => some ([], h, q)
  | .enqueue event :: ops, h, q => do
    let (h', q') ← queueEnqueue (malloc h) (h.set (malloc h) ⟨none, event⟩) q
    runOps malloc ops h' q'
  | .dequeue :: ops, h, q => do
    let (first, h', q') ← queueDequeue h q
    let (out, h'', q'') ← runOps malloc ops h' q'
    some (first.bind (eventAt h') :: out, h'', q'')

/-- An entry in a new cell is put at the end. -/
theorem Holds.enqueue_new {malloc : Memory → Nat} (hmalloc : ∀ h : Memory, h.cell (malloc h) = none)
    (hholds : Holds h q xs events) (event : InotifyEvent) :
    ∃ h' q', queueEnqueue (malloc h) (h.set (malloc h) ⟨none, event⟩) q = some (h', q') ∧
      Holds h' q' (xs ++ [malloc h]) (events ++ [event]) := by
  have hd : malloc h ∉ xs := fun hmem => by
    obtain ⟨entry, hlive⟩ := hholds.chain.live hmem
    rw [hmalloc h] at hlive
    cases hlive
  have hother : ∀ x ∈ xs, (h.set (malloc h) ⟨none, event⟩).cell x = h.cell x := fun x hx =>
    Heap.set_other _ _ (ne_of_mem_of_not_mem hx hd)
  have hkept : Holds (h.set (malloc h) ⟨none, event⟩) q xs events := by
    refine ⟨⟨hholds.chain.congr hother, hholds.last⟩, ?_⟩
    rw [← hholds.events]
    exact List.map_congr_left fun x hx => congrArg (Option.map QueueEntry.inotEv) (hother x hx)
  exact hkept.enqueue hd (Heap.set_same h _ _)

/-- The linked list is a first-in first-out queue. -/
theorem runOps_fifo {malloc : Memory → Nat}
    (hmalloc : ∀ h : Memory, h.cell (malloc h) = none) (ops : List Op)
    (hholds : Holds h q xs events) :
    ∃ h' q' xs', runOps malloc ops h q = some ((fifo ops events).1, h', q') ∧
      Holds h' q' xs' (fifo ops events).2 := by
  induction ops generalizing h q xs events with
  | nil => exact ⟨h, q, xs, rfl, hholds⟩
  | cons op ops ih =>
    cases op with
    | enqueue event =>
      obtain ⟨h', q', hqueue, hholds'⟩ := hholds.enqueue_new hmalloc event
      obtain ⟨h'', q'', xs', hrun, hend⟩ := ih hholds'
      exact ⟨h'', q'', xs', by simp [runOps, hqueue, hrun, fifo], hend⟩
    | dequeue =>
      cases events with
      | nil =>
        obtain rfl : xs = [] := List.map_eq_nil_iff.mp hholds.events
        obtain ⟨h'', q'', xs', hrun, hend⟩ := ih hholds
        exact ⟨h'', q'', xs', by simp [runOps, hholds.dequeue_empty, hrun, fifo], hend⟩
      | cons event events =>
        obtain ⟨x, xs, rfl⟩ : ∃ x xs', xs = x :: xs' := by
          cases xs with
          | nil => exact absurd hholds.events nofun
          | cons x xs => exact ⟨x, xs, rfl⟩
        obtain ⟨h', q', hqueue, hholds', hevent⟩ := hholds.dequeue
        obtain ⟨h'', q'', xs', hrun, hend⟩ := ih hholds'
        exact ⟨h'', q'', xs', by simp [runOps, hqueue, hevent, hrun, fifo], hend⟩

end EventQueue
