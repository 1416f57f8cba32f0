import AndroidWork.BitPacking
import AndroidWork.EventQueue
import AndroidWork.EventRuns

/-!
# Reading and handling events

`read_events` copies the records of a buffer into cells of their own and queues
them, `handle_events` empties the queue. `malloc` is any function that gives a
cell that is not live, `handleEvent` any function on what events are handled in.
-/
namespace InotifyEvents

open BitPacking EventQueue LinkedChain
open EventRuns (Reached)

/-- A complete record: the name has the length that the header says. -/
structure Record where
  event : InotifyEvent
  named : event.name.length = event.len.toNat

def Record.bytes (r : Record) : List Byte :=
  toBytes 4 r.event.wd.toNat ++ (toBytes 4 r.event.mask.toNat ++ (toBytes 4 r.event.cookie.toNat ++
    (toBytes 4 r.event.len.toNat ++ r.event.name)))

/-- A 32-bit field, low byte first. -/
def word (bytes : List Byte) : BitVec 32 := BitVec.ofNat 32 (bytesValue (bytes.take 4))

/-- The event at the front of the buffer and what is behind it, if it is all there. -/
def pevent (buffer : List Byte) : Option (InotifyEvent × List Byte) :=
  let len := word (buffer.drop 12)
  let eventSize := 16 + len.toNat
  if buffer.length < eventSize then none
  else
    some (⟨word buffer, word (buffer.drop 4), word (buffer.drop 8), len,
      (buffer.drop 16).take len.toNat⟩,
      buffer.drop eventSize)

theorem word_toBytes (v : BitVec 32) (rest : List Byte) : word (toBytes 4 v.toNat ++ rest) = v := by
  have hv := v.isLt
  have htake : (toBytes 4 v.toNat ++ rest).take 4 = toBytes 4 v.toNat := rfl
  rw [word, htake, bytesValue_toBytes, Nat.mod_eq_of_lt (by omega)]
  rw [← BitVec.toNat_inj, BitVec.toNat_ofNat, Nat.mod_eq_of_lt hv]

/-- A record is read back with its header and its name. -/
theorem pevent_bytes (r : Record) (rest : List Byte) :
    pevent (r.bytes ++ rest) = some (r.event, rest) := by
  obtain ⟨⟨wd, mask, cookie, len, name⟩, hnamed⟩ := r
  simp only at hnamed
  have hmask : (Record.bytes ⟨⟨wd, mask, cookie, len, name⟩, hnamed⟩ ++ rest).drop 4 =
      toBytes 4 mask.toNat ++ (toBytes 4 cookie.toNat ++ (toBytes 4 len.toNat ++ name) ++ rest) :=
        rfl
  have hcookie : (Record.bytes ⟨⟨wd, mask, cookie, len, name⟩, hnamed⟩ ++ rest).drop 8 =
      toBytes 4 cookie.toNat ++ (toBytes 4 len.toNat ++ name ++ rest) := rfl
  have hlen : (Record.bytes ⟨⟨wd, mask, cookie, len, name⟩, hnamed⟩ ++ rest).drop 12 =
      toBytes 4 len.toNat ++ (name ++ rest) := rfl
  have hname : (Record.bytes ⟨⟨wd, mask, cookie, len, name⟩, hnamed⟩ ++ rest).drop 16 =
      name ++ rest := rfl
  have hsize : (Record.bytes ⟨⟨wd, mask, cookie, len, name⟩, hnamed⟩ ++ rest).length =
      16 + len.toNat + rest.length := by
    simp only [Record.bytes, List.length_append, length_toBytes, hnamed]
    omega
  have hwd : word (Record.bytes ⟨⟨wd, mask, cookie, len, name⟩, hnamed⟩ ++ rest) = wd := by
    rw [Record.bytes, List.append_assoc]
    exact word_toBytes wd _
  simp only [pevent, hlen, word_toBytes]
  rw [if_neg (by rw [hsize]; omega), hmask, hcookie, hname, ← List.drop_drop, hname]
  simp only [hwd, word_toBytes, ← hnamed, List.take_left, List.drop_left]

inductive Phase where
  | reading (buffer : List Byte)
  | handling
  | done

structure State (World : Type) where
  heap : Memory
  queue : QueueStruct
  phase : Phase
  count : Nat
  world : World

variable {World : Type} (malloc : Memory → Nat) (handleEvent : InotifyEvent → World → World)

/-- One turn of the loop of `read_events`. -/
def State.readEvent (s : State World) (buffer : List Byte) : Option (State World) := do
  let (event, rest) ← pevent buffer
  let d := malloc s.heap
  let (heap, queue) ← queueEnqueue d (s.heap.set d ⟨none, event⟩) s.queue
  some { s with heap := heap, queue := queue, phase := .reading rest, count := s.count + 1 }

/-- One turn of the loop of `handle_events`. -/
def State.handleNext (s : State World) : Option (State World) :=
  if queueEmpty s.queue then some { s with phase := .done }
  else do
    let (first, heap, queue) ← queueDequeue s.heap s.queue
    let x ← first
    let entry ← heap.cell x
    some { s with heap := heap.free x, queue := queue, world := handleEvent entry.inotEv s.world }

/-- The step behind the state, `none` when both are done or a pointer is bad. -/
def step (s : State World) (_ : Unit) : Option (State World) :=
  match s.phase with
  | .reading [] => some { s with phase := .handling }
  | .reading buffer => s.readEvent malloc buffer
  | .handling => s.handleNext handleEvent
  | .done => none

variable {malloc handleEvent} {s : State World} {queued handled waiting : List InotifyEvent}
    {records rest : List Record}
  {world : World}

/-- Where the phase has got to. -/
def Phase.Fits (waiting : List InotifyEvent) (handled : List InotifyEvent)
    (rest : List Record) : Phase → Prop
  | .reading buffer => buffer = rest.flatMap Record.bytes ∧ handled = []
  | .handling => rest = []
  | .done => rest = [] ∧ waiting = []

/-- The turns that are left. -/
def Phase.left (waiting : List InotifyEvent) (rest : List Record) : Phase → Nat
  | .reading _ => 2 * rest.length + waiting.length + 2
  | .handling => waiting.length + 1
  | .done => 0

/-- Between two turns: what was handled, what waits in the queue and what is to be
read make up the events of the queue and the buffer. -/
structure Between (world : World) (handleEvent : InotifyEvent → World → World)
    (queued : List InotifyEvent)
    (records : List Record) (s : State World) (handled waiting : List InotifyEvent)
    (rest : List Record) : Prop where
  holds : ∃ xs, Holds s.heap s.queue xs waiting
  worlds : s.world = handled.foldl (fun w e => handleEvent e w) world
  all : handled ++ (waiting ++ rest.map Record.event) = queued ++ records.map Record.event
  counted : s.count + rest.length = records.length
  phase : s.phase.Fits waiting handled rest

/-- A record is copied to a cell of its own, and queued. -/
theorem readEvent_record (hmalloc : ∀ h : Memory, h.cell (malloc h) = none) {xs : List Nat}
    (hholds : Holds s.heap s.queue xs waiting) (r : Record) (buffer : List Byte) :
    ∃ heap queue, s.readEvent malloc (r.bytes ++ buffer) =
        some { s with heap := heap, queue := queue, phase := .reading buffer, count := s.count +
          1 } ∧
      Holds heap queue (xs ++ [malloc s.heap]) (waiting ++ [r.event]) := by
  obtain ⟨heap, queue, hqueue, hholds'⟩ := hholds.enqueue_new hmalloc r.event
  refine ⟨heap, queue, ?_, hholds'⟩
  simp [State.readEvent, pevent_bytes, hqueue]

/-- The first event of the queue is handled, and its cell given back. -/
theorem handleNext_event (handleEvent : InotifyEvent → World → World) {xs : List Nat} {x : Nat}
    {event : InotifyEvent}
    (hholds : Holds s.heap s.queue (x :: xs) (event :: waiting)) :
    ∃ heap queue, s.handleNext handleEvent =
      some { s with heap := heap, queue := queue, world := handleEvent event s.world } ∧
      Holds heap queue xs waiting := by
  have hnodup := hholds.chain.nodup
  have hnonempty : queueEmpty s.queue = false := by
    rw [queueEmpty, hholds.chain.1]
    rfl
  obtain ⟨heap, queue, hqueue, hholds', hevent⟩ := hholds.dequeue
  obtain ⟨entry, hcell, rfl⟩ := Option.map_eq_some_iff.mp hevent
  have hother : ∀ y ∈ xs, (heap.free x).cell y = heap.cell y := by
    intro y hy
    refine Heap.free_other heap ?_
    rintro rfl
    exact (List.nodup_cons.mp hnodup).1 hy
  refine ⟨heap.free x, queue, ?_, ⟨hholds'.chain.congr hother, hholds'.last⟩, ?_⟩
  · simp [State.handleNext, hnonempty, hqueue, hcell]
  · rw [← hholds'.events]
    exact List.map_congr_left fun y hy => congrArg (Option.map QueueEntry.inotEv) (hother y hy)

/-- The next turn, while the work is not done. -/
theorem Between.step (hmalloc : ∀ h : Memory, h.cell (malloc h) = none)
    (h : Between world handleEvent queued records s handled waiting rest) :
    s.phase = .done ∨ ∃ s' handled' waiting' rest', step malloc handleEvent s () = some s' ∧
      Between world handleEvent queued records s' handled' waiting' rest' ∧
      s'.phase.left waiting' rest' < s.phase.left waiting rest := by
  obtain ⟨⟨xs, hholds⟩, hworld, hall, hcount, hphase⟩ := h
  cases hp : s.phase with
  | done => exact .inl rfl
  | reading buffer =>
    rw [hp] at hphase
    obtain ⟨rfl, rfl⟩ := hphase
    right
    cases rest with
    | nil =>
      refine ⟨{ s with phase := .handling }, [], waiting, [], ?_,
        ⟨⟨xs, hholds⟩, hworld, hall, hcount, rfl⟩, ?_⟩
      · rw [InotifyEvents.step, hp]
        rfl
      · show waiting.length + 1 < 2 * 0 + waiting.length + 2
        omega
    | cons r rest =>
      obtain ⟨heap, queue, hread, hholds'⟩ :=
        readEvent_record hmalloc hholds r (rest.flatMap Record.bytes)
      refine ⟨{ s with heap := heap, queue := queue, phase := .reading (rest.flatMap Record.bytes),
                       count := s.count + 1 }, [],
        waiting ++ [r.event], rest, ?_, ⟨⟨_, hholds'⟩, hworld, ?_, ?_, rfl, rfl⟩, ?_⟩
      · rw [InotifyEvents.step, hp]
        exact hread
      · rw [List.append_assoc]
        exact hall
      · show s.count + 1 + rest.length = records.length
        rw [List.length_cons] at hcount
        omega
      · show 2 * rest.length + (waiting ++ [r.event]).length + 2 <
          2 * (r :: rest).length + waiting.length + 2
        simp only [List.length_append, List.length_cons, List.length_nil]
        omega
  | handling =>
    rw [hp] at hphase
    obtain rfl : rest = [] := hphase
    right
    cases waiting with
    | nil =>
      refine ⟨{ s with phase := .done }, handled, [], [], ?_,
        ⟨⟨xs, hholds⟩, hworld, hall, hcount, rfl, rfl⟩, Nat.succ_pos _⟩
      have hxs : xs = [] := List.map_eq_nil_iff.mp hholds.events
      subst hxs
      have hempty : queueEmpty s.queue = true := by
        rw [queueEmpty, show s.queue.head = none from hholds.chain]
        rfl
      simp [InotifyEvents.step, hp, State.handleNext, hempty]
    | cons event waiting =>
      obtain ⟨x, xs, rfl⟩ : ∃ x xs', xs = x :: xs' := by
        cases xs with
        | nil => exact absurd hholds.events nofun
        | cons x xs => exact ⟨x, xs, rfl⟩
      obtain ⟨heap, queue, hnext, hholds'⟩ := handleNext_event handleEvent hholds
      refine ⟨{ s with heap := heap, queue := queue, world := handleEvent event s.world },
        handled ++ [event], waiting, [], ?_,
        ⟨⟨xs, hholds'⟩, ?_, ?_, hcount, ?_⟩, ?_⟩
      · have hstep : InotifyEvents.step malloc handleEvent s () = s.handleNext handleEvent := by
          rw [InotifyEvents.step, hp]
        exact hstep.trans hnext
      · rw [List.foldl_append, ← hworld]
        rfl
      · rw [List.append_assoc]
        exact hall
      · show s.phase.Fits waiting (handled ++ [event]) []
        rw [hp]
        rfl
      · show s.phase.left waiting [] < _
        rw [hp]
        exact Nat.lt_succ_self _

/-- What the queue looks like at every point. -/
def QueueOk (s : State World) : Prop :=
  (s.queue.head = none ↔ s.queue.tail = none) ∧ ∃ xs,
    Chain QueueEntry.nextPtr s.heap s.queue.head xs ∧ s.queue.tail = xs.getLast?

theorem Between.queueOk (h : Between world handleEvent queued records s handled waiting rest) :
    QueueOk s := by
  obtain ⟨xs, hholds⟩ := h.holds
  exact ⟨hholds.ends, xs, hholds.chain, hholds.last⟩

/-- The same, with the number of turns that are left. -/
def Ranked (world : World) (handleEvent : InotifyEvent → World → World) (queued : List InotifyEvent)
    (records : List Record) (n : Nat) (s : State World) : Prop :=
  ∃ handled waiting rest, Between world handleEvent queued records s handled waiting rest ∧
    n = s.phase.left waiting rest

/-- The state before a buffer is read. -/
def filled (heap : Memory) (queue : QueueStruct) (records : List Record)
    (world : World) : State World :=
  ⟨heap, queue, .reading (records.flatMap Record.bytes), 0, world⟩

/-- The states of the run. -/
abbrev Run (malloc : Memory → Nat) (handleEvent : InotifyEvent → World → World) :
    State World → State World → Prop :=
  Reached (step malloc handleEvent) fun _ _ => True

theorem Ranked.reached {n : Nat} {t : State World}
    (hmalloc : ∀ h : Memory, h.cell (malloc h) = none)
    (h : Ranked world handleEvent queued records n s) (hrun : Run malloc handleEvent s t) :
    ∃ m, Ranked world handleEvent queued records m t := by
  induction hrun with
  | here => exact ⟨n, h⟩
  | step _ _ hnext ih =>
    obtain ⟨m, handled, waiting, rest, ht, -⟩ := ih
    rcases ht.step hmalloc with hdone | ⟨u, handled', waiting', rest', hu, hbetween, -⟩
    · rw [step, hdone] at hnext
      cases hnext
    · cases hnext.symm.trans hu
      exact ⟨_, handled', waiting', rest', hbetween, rfl⟩

/-- First the events already queued, then those of the buffer, each once. In any other order of the
two operations too, events leave the queue as they were put in. -/
theorem events_handled (hmalloc : ∀ h : Memory, h.cell (malloc h) = none)
    (handleEvent : InotifyEvent → World → World)
    (world : World) {heap : Memory} {queue : QueueStruct} {xs : List Nat}
    (hqueue : Holds heap queue xs queued)
    (records : List Record) :
    (∀ s, Run malloc handleEvent (filled heap queue records world) s → QueueOk s) ∧
    (∃ s, Run malloc handleEvent (filled heap queue records world) s ∧ s.phase = .done ∧
      s.count = records.length ∧
      s.world = (queued ++ records.map Record.event).foldl (fun w e => handleEvent e w) world) ∧
    ∀ ops, ∃ heap' queue' xs', runOps malloc ops heap queue =
      some ((fifo ops queued).1, heap', queue') ∧
      Holds heap' queue' xs' (fifo ops queued).2 := by
  have hstart : Between world handleEvent queued records (filled heap queue records world)
      [] queued records :=
    ⟨⟨xs, hqueue⟩, rfl, rfl, Nat.zero_add _, rfl, rfl⟩
  refine ⟨?_, ?_, fun ops => runOps_fifo hmalloc ops hqueue⟩
  · intro s hs
    obtain ⟨m, handled, waiting, rest, ht, -⟩ := Ranked.reached hmalloc ⟨_, _, _, hstart, rfl⟩ hs
    exact ht.queueOk
  · have hturn : ∀ n t, Ranked world handleEvent queued records n t → t.phase = .done ∨
        ∃ e u m, True ∧ step malloc handleEvent t e = some u ∧
          Ranked world handleEvent queued records m u ∧ m < n := by
      rintro n t ⟨handled, waiting, rest, ht, rfl⟩
      refine (ht.step hmalloc).imp_right ?_
      rintro ⟨u, handled', waiting', rest', hu, hbetween, hlt⟩
      exact ⟨(), u, _, trivial, hu, ⟨handled', waiting', rest', hbetween, rfl⟩, hlt⟩
    obtain ⟨-, s, hs, ⟨handled, waiting, rest, hbetween, -⟩, hdone⟩ :=
      EventRuns.exists_reached_done hturn ⟨_, _, _, hstart, rfl⟩
    have hphase := hbetween.phase
    rw [hdone] at hphase
    obtain ⟨rfl, rfl⟩ := hphase
    have hall := hbetween.all
    simp only [List.map_nil, List.append_nil] at hall
    refine ⟨s, hs, hdone, hbetween.counted, ?_⟩
    rw [hbetween.worlds, hall]

/-- A file that was closed, and a watch that ended without a name. -/
def closedThenIgnored : List Record :=
  [⟨⟨1, 8, 0, 4, [0x61, 0x6e, 0x72, 0]⟩, rfl⟩, ⟨⟨1, 0x8000, 0, 0, []⟩, rfl⟩]

theorem events_handled_closedThenIgnored :
    (∀ s, Run Heap.bound (fun e log => log ++ [e])
      (filled Heap.empty queueCreate closedThenIgnored []) s → QueueOk s) ∧
    (∃ s, Run Heap.bound (fun e log => log ++ [e])
      (filled Heap.empty queueCreate closedThenIgnored []) s ∧
      s.phase = .done ∧ s.count = 2 ∧
      s.world = ([] ++ closedThenIgnored.map Record.event).foldl (fun log e => log ++ [e]) []) ∧
    ∀ ops, ∃ heap queue xs, runOps Heap.bound ops Heap.empty queueCreate =
      some ((fifo ops []).1, heap, queue) ∧
      Holds heap queue xs (fifo ops []).2 :=
  events_handled (fun h => h.dead h.bound le_rfl) (fun e log => log ++ [e]) []
    (holds_create Heap.empty) closedThenIgnored

end InotifyEvents
