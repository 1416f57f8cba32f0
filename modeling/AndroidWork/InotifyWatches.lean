import AndroidWork.InotifyEvents

/-!
# The count of watches

`watched_items` goes up with `watch_dir` and down with `ignore_wd`, and with an
IN_IGNORED event that has a name. The kernel keeps the watches and sends the
events; `imeInfo` and `copied` say what becomes of a file.
-/
namespace InotifyWatches

open EventQueue EventRuns

abbrev inCloseWrite : BitVec 32 := 0x8
abbrev inCreate : BitVec 32 := 0x100
abbrev inIgnored : BitVec 32 := 0x8000
abbrev inIsdir : BitVec 32 := 0x40000000
/-- IN_ALL_EVENTS, IN_UNMOUNT, IN_Q_OVERFLOW and IN_IGNORED. -/
abbrev inEvents : BitVec 32 := 0xefff

/-- `strstr`. -/
def strstr (haystack needle : List Byte) : Bool :=
  haystack.tails.any fun rest => needle.isPrefixOf rest

def anr : List Byte := [0x61, 0x6e, 0x72]
def traces : List Byte := [0x74, 0x72, 0x61, 0x63, 0x65, 0x73]

structure Collector where
  watchedItems : Int
  hasCopyAnrFile : Bool

variable (imeInfo copied : List Byte → Bool)

def handleAnrFileCloseWrite (file : List Byte) (s : Collector) : Collector :=
  if s.hasCopyAnrFile = false ∧ imeInfo file = true then
    { s with hasCopyAnrFile := copied file } else s

def handleEvent (event : InotifyEvent) (s : Collector) : Collector :=
  let file := event.name.takeWhile (· ≠ 0)
  if event.mask &&& inIsdir ≠ 0 then s
  else if event.len = 0 ∨ (strstr file anr = false ∧ strstr file traces = false) then s
  else if event.mask &&& inEvents = inCloseWrite then handleAnrFileCloseWrite imeInfo copied file s
  else if event.mask &&& inEvents = inCreate then { s with hasCopyAnrFile := false }
  else if event.mask &&& inEvents = inIgnored then { s with watchedItems := s.watchedItems - 1 }
  else s

/-- The kernel's watches and unread events, and the collector. -/
structure System where
  watches : List (Nat × List Byte)
  nextWd : Nat
  pending : List InotifyEvent
  collector : Collector

def initial : System := ⟨[], 1, [], ⟨0, false⟩⟩

inductive Event where
  | watchDir (dir : List Byte)
  | ignoreWd (wd : Nat)
  /-- The directory is deleted or its file system unmounted. -/
  | ended (wd : Nat)
  | deliver (event : InotifyEvent)
  | handle

/-- What the kernel sends once for every watch that ends. -/
def ignored (wd : Nat) : InotifyEvent := ⟨BitVec.ofNat 32 wd, inIgnored, 0, 0, []⟩

def System.isWatched (s : System) (wd : Nat) : Prop := ∃ w ∈ s.watches, w.1 = wd

instance (s : System) (wd : Nat) : Decidable (s.isWatched wd) :=
  inferInstanceAs (Decidable (∃ w ∈ s.watches, w.1 = wd))

/-- The watch is over, and its event waits. -/
def System.endWatch (s : System) (wd : Nat) : System :=
  { s with watches := s.watches.eraseP (·.1 = wd), pending := s.pending ++ [ignored wd] }

def System.count (s : System) (n : Int) : System :=
  { s with collector := { s.collector with watchedItems := s.collector.watchedItems + n } }

/-- A watch that is there is used again. -/
def System.addWatch (s : System) (dir : List Byte) : System :=
  if ∃ w ∈ s.watches, w.2 = dir then s
    else { s with watches := s.watches ++ [(s.nextWd, dir)], nextWd := s.nextWd + 1 }

def next (s : System) : Event → Option System
  | .watchDir dir => some ((s.addWatch dir).count 1)
  | .ignoreWd wd => if s.isWatched wd then some ((s.endWatch wd).count (-1)) else none
  | .ended wd => if s.isWatched wd then some (s.endWatch wd) else none
  | .deliver event =>
    if event.mask &&& inIgnored = 0 then some { s with pending := s.pending ++ [event] } else none
  | .handle =>
    some { s with pending := [], collector :=
      s.pending.foldl (fun c event => handleEvent imeInfo copied event c) s.collector }

/-- The loop of `process_inotify_events` goes on. -/
def System.goesOn (s : System) : Prop := 0 < s.collector.watchedItems

instance (s : System) : Decidable s.goesOn := inferInstanceAs (Decidable (_ < _))

/-- A new directory is watched, and no watch ends but by `ignore_wd`. -/
def Plain (s : System) : Event → Prop
  | .watchDir dir => ¬ ∃ w ∈ s.watches, w.2 = dir
  | .ended _ => False
  | _ => True

/-- The count is right, and the loop ends exactly when no watch is left. -/
def Counted (s : System) : Prop :=
  s.collector.watchedItems = s.watches.length ∧ (s.goesOn ↔ s.watches ≠ [])

variable {imeInfo copied} {s t : System}

/-- An event that the collector does not count. -/
def Silent (event : InotifyEvent) : Prop := event.mask &&& inIgnored = 0 ∨ event.len = 0

theorem handleEvent_silent {event : InotifyEvent} (h : Silent event) (c : Collector) :
    (handleEvent imeInfo copied event c).watchedItems = c.watchedItems := by
  have hignored : event.mask &&& inEvents = inIgnored → event.mask &&& inIgnored = inIgnored := by
    intro heq
    calc event.mask &&& inIgnored = event.mask &&& inEvents &&&
        inIgnored := by rw [BitVec.and_assoc]; rfl
      _ = inIgnored := by rw [heq]; rfl
  unfold handleEvent handleAnrFileCloseWrite
  rcases h with hmask | hlen
  · have hne : event.mask &&& inEvents ≠ inIgnored := by
      intro heq
      rw [hignored heq] at hmask
      exact absurd hmask (by decide)
    simp only [hne, if_false]
    repeat' split
    all_goals rfl
  · simp only [hlen, true_or, if_true, ite_self]

theorem handleEvents_silent {pending : List InotifyEvent}
    (h : ∀ event ∈ pending, Silent event) (c : Collector) :
    (pending.foldl (fun c event => handleEvent imeInfo copied event c) c).watchedItems =
      c.watchedItems := by
  induction pending generalizing c with
  | nil => rfl
  | cons event pending ih =>
    rw [List.foldl_cons, ih fun e he => h e (List.mem_cons_of_mem event he),
      handleEvent_silent (h event List.mem_cons_self)]

/-- How far the count is ahead of the watches. -/
def System.ahead (s : System) : Int := s.collector.watchedItems - s.watches.length

theorem endWatch_length {wd : Nat} (h : s.isWatched wd) :
    ((s.endWatch wd).watches.length : Int) = s.watches.length - 1 := by
  obtain ⟨w, hw, hwd⟩ := h
  have hpos := List.length_pos_of_mem hw
  have herase := List.length_eraseP_of_mem (p := (·.1 = wd)) hw (by simpa using hwd)
  show ((s.watches.eraseP _).length : Int) = _
  rw [herase]
  omega

theorem endWatch_silent {wd : Nat} (h : ∀ event ∈ s.pending, Silent event) : ∀ event ∈
    (s.endWatch wd).pending, Silent event := by
  intro event hevent
  rcases List.mem_append.mp hevent with hevent | hevent
  · exact h event hevent
  · rw [List.mem_singleton.mp hevent]
    exact .inr rfl

/-- Every other step keeps the distance, and these two make it one longer. -/
theorem next_ahead {e : Event} (hsilent : ∀ event ∈ s.pending,
    Silent event) (hnext : next imeInfo copied s e = some t) :
    (∀ event ∈ t.pending, Silent event) ∧
    (Plain s e → t.ahead = s.ahead) ∧ (¬ Plain s e → t.ahead = s.ahead + 1) := by
  cases e with
  | watchDir dir =>
    cases hnext
    by_cases hdir : ∃ w ∈ s.watches, w.2 = dir
    · rw [System.addWatch, if_pos hdir]
      refine ⟨hsilent, fun hplain => absurd hdir hplain, fun _ => ?_⟩
      simp only [System.ahead, System.count]
      omega
    · rw [System.addWatch, if_neg hdir]
      refine ⟨hsilent, fun _ => ?_, fun hplain => absurd hdir hplain⟩
      simp only [System.ahead, System.count, List.length_append, List.length_singleton]
      omega
  | ignoreWd wd =>
    rw [next] at hnext
    split at hnext
    · rename_i hwd
      cases hnext
      refine ⟨endWatch_silent hsilent, fun _ => ?_, fun hplain => absurd trivial hplain⟩
      have hlength := endWatch_length hwd
      simp only [System.ahead, System.count, hlength]
      simp only [System.endWatch]
      omega
    · cases hnext
  | ended wd =>
    rw [next] at hnext
    split at hnext
    · rename_i hwd
      cases hnext
      refine ⟨endWatch_silent hsilent, False.elim, fun _ => ?_⟩
      have hlength := endWatch_length hwd
      simp only [System.ahead, hlength]
      simp only [System.endWatch]
      omega
    · cases hnext
  | deliver event =>
    rw [next] at hnext
    split at hnext
    · rename_i hmask
      cases hnext
      refine ⟨fun e he => ?_, fun _ => rfl, fun hplain => absurd trivial hplain⟩
      rcases List.mem_append.mp he with he | he
      · exact hsilent e he
      · rw [List.mem_singleton.mp he]
        exact .inl hmask
    · cases hnext
  | handle =>
    cases hnext
    refine ⟨nofun, fun _ => ?_, fun hplain => absurd trivial hplain⟩
    simp only [System.ahead, handleEvents_silent hsilent]

/-- Over a run the count gets ahead unless all steps are plain. -/
theorem run_ahead {es : List Event} (hsilent : ∀ event ∈ s.pending, Silent event)
    (hrun : run (next imeInfo copied) s es = some t) :
    (∀ event ∈ t.pending, Silent event) ∧ s.ahead ≤ t.ahead ∧
      (t.ahead = s.ahead ↔ Meets (next imeInfo copied) Plain s es) := by
  induction es generalizing s with
  | nil =>
    cases hrun
    exact ⟨hsilent, le_rfl, iff_of_true rfl trivial⟩
  | cons e es ih =>
    obtain ⟨u, hnext, hrun⟩ := Option.bind_eq_some_iff.mp hrun
    obtain ⟨hsilent', hplain, hnot⟩ := next_ahead hsilent hnext
    obtain ⟨hend, hle, hiff⟩ := ih hsilent' hrun
    by_cases hok : Plain s e
    · rw [← hplain hok]
      exact ⟨hend, hle, hiff.trans ⟨meets_step hok hnext, fun h => h.2 u hnext⟩⟩
    · have hmore := hnot hok
      exact ⟨hend, by omega, iff_of_false (by omega) fun h => hok h.1⟩

theorem counted_of_ahead : Counted s ↔ s.ahead = 0 := by
  have hwatches : s.watches ≠ [] ↔ 0 < s.watches.length := List.length_pos_iff.symm
  rw [Counted, System.goesOn, hwatches, System.ahead]
  constructor
  · rintro ⟨hcount, -⟩
    omega
  · intro hahead
    exact ⟨by omega, by omega⟩

/-- The count of any history, once its events are handled. -/
theorem counted_iff {es : List Event} (hrun : run (next imeInfo copied) initial
    (es ++ [.handle]) = some t) :
    Counted t ↔ Meets (next imeInfo copied) Plain initial es := by
  rw [run_append] at hrun
  obtain ⟨u, hrun, hhandle⟩ := Option.bind_eq_some_iff.mp hrun
  obtain ⟨u', hnext, hlast⟩ := Option.bind_eq_some_iff.mp hhandle
  cases hlast
  obtain ⟨hsilent, -, hiff⟩ := run_ahead (s := initial) nofun hrun
  obtain ⟨-, hplain, -⟩ := next_ahead hsilent hnext
  rw [counted_of_ahead, hplain trivial]
  exact hiff

/-- A watched directory is deleted. -/
def deleted : List Event := [.watchDir anr, .ended 1]

theorem counted_iff_removed : ∃ t, run
    (next (fun _ => true) fun _ => true) initial ([.watchDir anr, .ignoreWd 1] ++ [.handle]) =
    some t ∧ (Counted t ↔ Meets (next (fun _ => true) fun _ => true) Plain
      initial [.watchDir anr, .ignoreWd 1]) :=
  ⟨_, rfl, counted_iff rfl⟩

theorem not_counted_deleted : ∃ t, run
    (next (fun _ => true) fun _ => true) initial (deleted ++ [.handle]) = some t ∧
    t.watches = [] ∧ t.goesOn ∧ ¬ Counted t :=
  ⟨_, rfl, rfl, by decide, fun h => absurd h.1 (by decide)⟩

end InotifyWatches
