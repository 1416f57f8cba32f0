import AndroidWork.EventRuns

/-!
# The crash handler and the Java dump

`HandleSignal` on the crashing thread, with `collect_crash_on` set, and
`DumpJavaThreadInfo` on the dump thread, statement by statement. The two meet
over `cond`, which has a predicate, and over `cond_finish`, which has none. Which
order of their statements keeps the handshake is said in terms of that order.
-/
namespace DumpHandshake

open EventRuns

abbrev Byte := BitVec 8

/-- The bytes of `GetStringUTFChars`: modified UTF-8 has no byte 0. -/
abbrev Text := { bytes : List Byte // ∀ b ∈ bytes, b ≠ 0 }

inductive Thread where
  | crash
  | dump
  deriving DecidableEq

/-- `dump_java_info`: the buffer of an earlier dump, or the one of this dump. -/
inductive Pointer where
  | null
  | old
  | fresh
  deriving DecidableEq

/-- Where the crashing thread is. -/
inductive Crash where
  | running
  | testing
  | locking
  | signalling
  | unlocking
  | lockingFinish
  | entering
  /-- In `pthread_cond_timedwait`. -/
  | waiting
  | relocking
  | unlockingFinish
  /-- `dump_java_info` is loaded for the call. -/
  | calling
  /-- In `handle_crash`. -/
  | reading
  | done
  deriving DecidableEq

/-- Where the dump thread is. -/
inductive Dump where
  | unborn
  | attaching
  | locking
  | testing
  /-- In `pthread_cond_wait`. -/
  | waiting
  | relocking
  | calling
  /-- `if(dump_java_info != NULL) delete[] dump_java_info`. -/
  | deleting
  | allocating
  | zeroing
  /-- In `memcpy`, `i` bytes being there. -/
  | copying (i : Nat)
  | unlocking
  | lockingFinish
  | signalling
  | unlockingFinish
  | done
  deriving DecidableEq

/-- `content` is the dump thread's text, `fresh` its buffer with the bytes that
are set, `delivered` whether `cond_finish` has been signalled, `argument` what
`handle_crash` was given. -/
structure Machine where
  crash : Crash
  dump : Dump
  tidCrash : Bool
  ntid : Bool
  mutex : Option Thread
  mutexFinish : Option Thread
  dumpJavaInfo : Pointer
  oldFreed : Bool
  content : Text
  fresh : List (Option Byte)
  delivered : Bool
  argument : Pointer
  deriving DecidableEq

def initial (dumpJavaInfo : Pointer) : Machine :=
  ⟨.running, .unborn, false, false, none, none, dumpJavaInfo, false, ⟨[], nofun⟩, [], false, .null⟩

inductive Event where
  /-- `pthread_create` starts the dump thread, and stores its id. -/
  | create
  | store
  /-- The statement at which a thread is. -/
  | crash (statement : Crash)
  | dump (statement : Dump)
  /-- `AttachCurrentThread` fails. -/
  | noAttach
  /-- The Java callback returns. -/
  | java (ss : Option Text)
  /-- A wait ends without a signal: by its time or spuriously. -/
  | crashWakes
  | dumpWakes
  deriving DecidableEq

def crashStep (m : Machine) : Option Machine :=
  match m.crash with
  | .running => some { m with crash := .testing, tidCrash := true }
  | .testing => some { m with crash := if m.ntid then .locking else .calling }
  | .locking =>
    if m.mutex = none then some { m with crash := .signalling, mutex := some .crash } else none
  | .signalling =>
    some { m with crash := .unlocking, dump := if m.dump = .waiting then .relocking else m.dump }
  | .unlocking => some { m with crash := .lockingFinish, mutex := none }
  | .lockingFinish =>
    if m.mutexFinish = none then some { m with crash := .entering, mutexFinish := some .crash }
      else none
  | .entering => some { m with crash := .waiting, mutexFinish := none }
  | .waiting => none
  | .relocking =>
    if m.mutexFinish = none then
      some { m with crash := .unlockingFinish, mutexFinish := some .crash } else none
  | .unlockingFinish => some { m with crash := .calling, mutexFinish := none }
  | .calling => some { m with crash := .reading, argument := m.dumpJavaInfo }
  | .reading => some { m with crash := .done }
  | .done => none

/-- Where the dump thread is when `i` bytes of the text are in the buffer. -/
def copied (content : Text) (i : Nat) : Dump :=
  if i < content.val.length then .copying i else .unlocking

def dumpStep (m : Machine) : Option Machine :=
  match m.dump with
  | .unborn => none
  | .attaching => some { m with dump := .locking }
  | .locking =>
    if m.mutex = none then some { m with dump := .testing, mutex := some .dump } else none
  | .testing =>
    if m.tidCrash then some { m with dump := .calling }
      else some { m with dump := .waiting, mutex := none }
  | .waiting => none
  | .relocking =>
    if m.mutex = none then some { m with dump := .testing, mutex := some .dump } else none
  | .calling => none
  | .deleting =>
    some { m with dump := .allocating, oldFreed := m.oldFreed || m.dumpJavaInfo = .old }
  | .allocating =>
    some { m with
      dump := .zeroing
      dumpJavaInfo := .fresh
      fresh := List.replicate (m.content.val.length + 1) none }
  | .zeroing =>
    some { m with
      dump := copied m.content 0
      fresh := List.replicate (m.content.val.length + 1) (some 0) }
  | .copying i =>
    m.content.val[i]?.map fun c =>
      { m with dump := copied m.content (i + 1), fresh := m.fresh.set i (some c) }
  | .unlocking => some { m with dump := .lockingFinish, mutex := none }
  | .lockingFinish =>
    if m.mutexFinish = none then some { m with dump := .signalling, mutexFinish := some .dump }
      else none
  | .signalling =>
    some { m with
      dump := .unlockingFinish
      delivered := true
      crash := if m.crash = .waiting then .relocking else m.crash }
  | .unlockingFinish => some { m with dump := .done, mutexFinish := none }
  | .done => none

def next (m : Machine) : Event → Option Machine
  | .create => if m.dump = .unborn then some { m with dump := .attaching } else none
  | .store => if m.dump ≠ .unborn then some { m with ntid := true } else none
  | .crash statement => if m.crash = statement then crashStep m else none
  | .dump statement => if m.dump = statement then dumpStep m else none
  | .noAttach => if m.dump = .attaching then some { m with dump := .done } else none
  | .java ss =>
    if m.dump = .calling then
      match ss with
      | some content => some { m with dump := .deleting, content }
      | none => some { m with dump := .unlocking }
    else none
  | .crashWakes => if m.crash = .waiting then some { m with crash := .relocking } else none
  | .dumpWakes => if m.dump = .waiting then some { m with dump := .relocking } else none

/-- A text and the zero behind it. -/
def whole (content : Text) : List (Option Byte) := (content.val ++ [0]).map some

/-- The buffer has a whole text, or there is none. -/
def Machine.Intact (m : Machine) : Pointer → Prop
  | .null => True
  | .old => m.oldFreed = false
  | .fresh => m.fresh = whole m.content

instance (m : Machine) (p : Pointer) : Decidable (m.Intact p) :=
  match p with
  | .null => inferInstanceAs (Decidable True)
  | .old => inferInstanceAs (Decidable (m.oldFreed = false))
  | .fresh => inferInstanceAs (Decidable (m.fresh = whole m.content))

/-- No wait lasts behind the only notification, and what `handle_crash` reads is whole. -/
def Sound (m : Machine) : Prop :=
  ¬ (m.crash = .waiting ∧ m.delivered = true) ∧ (m.crash = .reading → m.Intact m.argument)

instance (m : Machine) : Decidable (Sound m) := inferInstanceAs (Decidable (_ ∧ _))

/-- The statement that puts the last byte of the buffer in place. -/
def lastCopy (content : Text) : Dump :=
  match content.val.length with
  | 0 => .zeroing
  | n + 1 => .copying n

/-- The new buffer has been filled. -/
def Filled (before : List Event) : Prop :=
  ∃ content, .java (some content) ∈ before ∧ .dump (lastCopy content) ∈ before

/-- The order of the statements, an earlier dump's buffer being `p`: the crashing
thread takes `mutex_finish` for its wait before the dump thread does for its
signal; it loads the pointer before the dump thread deletes or replaces the
buffer, or behind its `memcpy`; and the dump thread deletes no buffer between
this load and the end of `handle_crash`. -/
def Turn (p : Pointer) (before : List Event) : Event → Prop
  | .crash .entering => .dump .lockingFinish ∉ before
  | .crash .calling =>
    p ≠ .null ∧ .dump .deleting ∈ before ∨ .dump .allocating ∈ before → Filled before
  | .dump .deleting => p ≠ .null → .crash .calling ∈ before → .crash .reading ∈ before
  | _ => True

/-- What belongs to the replacement of the buffer. -/
def replaces : Event → Bool
  | .java (some _) => true
  | .dump .deleting => true
  | .dump .allocating => true
  | .dump .zeroing => true
  | .dump (.copying _) => true
  | _ => false

/-- A replacement with `i` bytes of the text in the buffer. -/
def replaced (content : Text) (i : Nat) : List Event :=
  [.java (some content), .dump .deleting, .dump .allocating, .dump .zeroing] ++
    (List.range i).map fun j => .dump (.copying j)

/-- The buffer then. -/
def partly (content : Text) (i : Nat) : List (Option Byte) :=
  (content.val.take i).map some ++ List.replicate (content.val.length + 1 - i) (some 0)

/-- Outside of the replacement. -/
def Dump.idle : Dump → Bool
  | .deleting => false
  | .allocating => false
  | .zeroing => false
  | .copying _ => false
  | _ => true

/-- Behind it. -/
def Dump.late : Dump → Bool
  | .unlocking => true
  | .lockingFinish => true
  | .signalling => true
  | .unlockingFinish => true
  | .done => true
  | _ => false

/-- The buffer is the one from before. -/
structure Machine.Untouched (m : Machine) (p : Pointer) : Prop where
  pointer : m.dumpJavaInfo = p
  argument : m.crash = .reading → m.argument = p

/-- How far the replacement is, by what has been done of it. -/
inductive Stage (p : Pointer) (m : Machine) : List Event → Prop where
  | idle (hdump : m.dump.idle = true) (h : m.Untouched p) (hfreed : m.oldFreed = false) :
    Stage p m []
  | deleting (hdump : m.dump = .deleting) (h : m.Untouched p) (hfreed : m.oldFreed = false) :
      Stage p m [.java (some m.content)]
  | allocating (hdump : m.dump = .allocating) (h : m.Untouched p)
    (hfreed : p = .old → m.oldFreed = true) :
      Stage p m [.java (some m.content), .dump .deleting]
  | zeroing (hdump : m.dump = .zeroing) (hpointer : m.dumpJavaInfo = .fresh)
      (hfresh : m.fresh = List.replicate (m.content.val.length + 1) none) :
      Stage p m [.java (some m.content), .dump .deleting, .dump .allocating]
  | copying (i : Nat) (hi : i < m.content.val.length) (hdump : m.dump = .copying i)
      (hpointer : m.dumpJavaInfo = .fresh) (hfresh : m.fresh = partly m.content i) :
      Stage p m (replaced m.content i)
  | late (hdump : m.dump.late = true) (hpointer : m.dumpJavaInfo = .fresh)
    (hfresh : m.fresh = whole m.content) :
      Stage p m (replaced m.content m.content.val.length)

/-- What a state owes to the events before it. -/
structure Trace (p : Pointer) (before : List Event) (m : Machine) : Prop where
  entering : m.crash = .entering ∨ m.crash = .unlockingFinish → m.mutexFinish = some .crash
  signalling : m.dump = .signalling ∨ m.dump = .unlockingFinish → m.mutexFinish = some .dump
  notified : .dump .lockingFinish ∈ before ↔ m.dump = .signalling ∨ m.delivered = true
  loaded : .crash .calling ∈ before ↔ m.crash = .reading ∨ m.crash = .done
  handled : .crash .reading ∈ before ↔ m.crash = .done
  stage : Stage p m (before.filter replaces)

variable {p : Pointer} {before : List Event} {m m' : Machine} {e : Event}

theorem initial_trace : Trace p [] (initial p) where
  entering := fun h => by rcases h with h | h <;> cases h
  signalling := fun h => by rcases h with h | h <;> cases h
  notified := by simp [initial]
  loaded := by simp [initial]
  handled := by simp [initial]
  stage := .idle rfl ⟨rfl, nofun⟩ rfl

theorem initial_sound : Sound (initial p) := ⟨fun h => Crash.noConfusion h.1, nofun⟩

theorem partly_zero (content : Text) :
    List.replicate (content.val.length + 1) (some 0) = partly content 0 := by simp [partly]

theorem partly_length (content : Text) : partly content content.val.length = whole content := by
  simp [partly, whole]

theorem partly_set (content : Text) {i : Nat} {c : Byte} (hc : content.val[i]? = some c) :
    (partly content i).set i (some c) = partly content (i + 1) := by
  obtain ⟨hi, hget⟩ := List.getElem?_eq_some_iff.mp hc
  have htake : (content.val.take i).length = i := List.length_take_of_le hi.le
  have hrest : content.val.length + 1 - i = content.val.length + 1 - (i + 1) + 1 := by omega
  rw [partly, partly, List.set_append, if_neg (by simp), List.length_map, htake,
    Nat.sub_self, hrest,
    List.replicate_succ, List.set_cons_zero, ← List.take_concat_get' content.val i hi,
    hget, List.map_append,
    List.append_assoc]
  rfl

/-- A byte that is not copied yet is missed. -/
theorem partly_ne (content : Text) {i : Nat} (hi : i < content.val.length) :
    partly content i ≠ whole content := by
  intro h
  have hlen : ((content.val.take i).map some).length = i := by
    rw [List.length_map, List.length_take_of_le hi.le]
  have hbyte := congrArg (fun bytes => bytes[i]?) h
  simp only [partly, whole] at hbyte
  rw [List.getElem?_append_right (by rw [hlen]), hlen, Nat.sub_self, List.getElem?_map,
    List.getElem?_append_left hi, List.getElem?_replicate, if_pos (by omega),
      List.getElem?_eq_getElem hi] at hbyte
  exact content.property _ (List.getElem_mem hi) (Option.some.inj (Option.some.inj hbyte)).symm

theorem replicate_none_ne (content : Text) :
    List.replicate (content.val.length + 1) none ≠ whole content := by
  intro h
  have hmem : none ∈ whole content := by
    rw [← h]
    simp
  simp [whole] at hmem

theorem mem_of_replaces (he : replaces e = true) : e ∈ before ↔ e ∈ before.filter replaces := by
  simp [List.mem_filter, he]

theorem filter_keeps (he : replaces e = false) :
    (before ++ [e]).filter replaces = before.filter replaces := by
  simp [he]

theorem filter_grows (he : replaces e = true) :
    (before ++ [e]).filter replaces = before.filter replaces ++ [e] := by simp [he]

/-- The dump thread stays, or moves outside of the replacement. -/
def Along (d d' : Dump) : Prop := d' = d ∨ d.idle = true ∧ d'.idle = true ∧
    (d.late = true → d'.late = true)

/-- The buffers and the pointer are as they were. -/
structure SameBuffer (m m' : Machine) : Prop where
  pointer : m'.dumpJavaInfo = m.dumpJavaInfo
  freed : m'.oldFreed = m.oldFreed
  content : m'.content = m.content
  fresh : m'.fresh = m.fresh

theorem Stage.at_deleting {done : List Event} (h : Stage p m done) (hdump : m.dump = .deleting) :
    done = [.java (some m.content)] ∧ m.Untouched p ∧ m.oldFreed = false := by
  cases h with
  | deleting _ hm hfreed => exact ⟨rfl, hm, hfreed⟩
  | idle hidle => simp [hdump, Dump.idle] at hidle
  | late hlate => simp [hdump, Dump.late] at hlate
  | allocating hat | zeroing hat | copying i hi hat => simp [hdump] at hat

theorem Stage.at_allocating {done : List Event} (h : Stage p m done)
    (hdump : m.dump = .allocating) :
    done = [.java (some m.content), .dump .deleting] ∧ m.Untouched p ∧
    (p = .old → m.oldFreed = true) := by
  cases h with
  | allocating _ hm hfreed => exact ⟨rfl, hm, hfreed⟩
  | idle hidle => simp [hdump, Dump.idle] at hidle
  | late hlate => simp [hdump, Dump.late] at hlate
  | deleting hat | zeroing hat | copying i hi hat => simp [hdump] at hat

theorem Stage.at_zeroing {done : List Event} (h : Stage p m done) (hdump : m.dump = .zeroing) :
    done = [.java (some m.content), .dump .deleting, .dump .allocating] ∧ m.dumpJavaInfo = .fresh ∧
      m.fresh = List.replicate (m.content.val.length + 1) none := by
  cases h with
  | zeroing _ hpointer hfresh => exact ⟨rfl, hpointer, hfresh⟩
  | idle hidle => simp [hdump, Dump.idle] at hidle
  | late hlate => simp [hdump, Dump.late] at hlate
  | deleting hat | allocating hat | copying i hi hat => simp [hdump] at hat

theorem Stage.at_copying {done : List Event} {i : Nat} (h : Stage p m done)
    (hdump : m.dump = .copying i) :
    done = replaced m.content i ∧ i < m.content.val.length ∧ m.dumpJavaInfo = .fresh ∧
    m.fresh = partly m.content i := by
  cases h with
  | copying j hj hat hpointer hfresh =>
    obtain rfl : i = j := Dump.copying.inj (hdump.symm.trans hat)
    exact ⟨rfl, hj, hpointer, hfresh⟩
  | idle hidle => simp [hdump, Dump.idle] at hidle
  | late hlate => simp [hdump, Dump.late] at hlate
  | deleting hat | allocating hat | zeroing hat => simp [hdump] at hat

theorem Stage.move {done : List Event} (h : Stage p m done) (hdump : Along m.dump m'.dump)
    (hsame : SameBuffer m m')
    (harg : m.Untouched p → m'.crash = .reading → m'.argument = p) : Stage p m' done := by
  have huntouched (hm : m.Untouched p) : m'.Untouched p := ⟨hsame.pointer.trans hm.pointer, harg hm⟩
  have hstays (hbusy : m.dump.idle = false) : m'.dump = m.dump :=
    hdump.resolve_right fun hidle => by rw [hbusy] at hidle; cases hidle.1
  cases h with
  | idle hidle hm hfreed =>
    refine .idle ?_ (huntouched hm) (hsame.freed.trans hfreed)
    rcases hdump with hsame | ⟨-, hidle', -⟩
    · rw [hsame]
      exact hidle
    · exact hidle'
  | deleting hat hm hfreed =>
    rw [← hsame.content]
    exact .deleting ((hstays (by rw [hat]; rfl)).trans hat) (huntouched hm)
      (hsame.freed.trans hfreed)
  | allocating hat hm hfreed =>
    rw [← hsame.content]
    exact .allocating ((hstays (by rw [hat]; rfl)).trans hat) (huntouched hm) fun hp =>
      hsame.freed.trans (hfreed hp)
  | zeroing hat hpointer hfresh =>
    rw [← hsame.content]
    refine .zeroing ((hstays (by rw [hat]; rfl)).trans hat) (hsame.pointer.trans hpointer) ?_
    rw [hsame.fresh, hsame.content, hfresh]
  | copying i hi hat hpointer hfresh =>
    rw [← hsame.content] at hi hfresh ⊢
    exact .copying i hi ((hstays (by rw [hat]; rfl)).trans hat) (hsame.pointer.trans hpointer)
      (hsame.fresh.trans hfresh)
  | late hat hpointer hfresh =>
    rw [← hsame.content] at hfresh ⊢
    refine .late ?_ (hsame.pointer.trans hpointer) (hsame.fresh.trans hfresh)
    rcases hdump with hsame | ⟨-, -, hlate⟩
    · rw [hsame]
      exact hat
    · exact hlate hat

/-- An event that leaves no trace but in the mutexes. -/
theorem Trace.quiet (h : Trace p before m) (he : replaces e = false)
    (hlock : e ≠ .dump .lockingFinish)
    (hload : e ≠ .crash .calling) (hread : e ≠ .crash .reading)
    (hentering : m'.crash = .entering ∨ m'.crash = .unlockingFinish → m'.mutexFinish = some .crash)
    (hsignalling : m'.dump = .signalling ∨ m'.dump = .unlockingFinish → m'.mutexFinish = some .dump)
    (hnotified : (m'.dump = .signalling ∨ m'.delivered = true) ↔ m.dump = .signalling ∨
      m.delivered = true)
    (hreading : m'.crash = .reading ↔ m.crash = .reading)
    (hdone : m'.crash = .done ↔ m.crash = .done)
    (hdump : Along m.dump m'.dump) (hsame : SameBuffer m m') (harg : m'.argument = m.argument) :
    Trace p (before ++ [e]) m' where
  entering := hentering
  signalling := hsignalling
  notified := by simpa [hlock.symm, hnotified] using h.notified
  loaded := by simpa [hload.symm, hreading, hdone] using h.loaded
  handled := by simpa [hread.symm, hdone] using h.handled
  stage := by
    rw [filter_keeps he]
    exact h.stage.move hdump hsame fun hm hr => harg.trans (hm.argument (hreading.mp hr))

/-- The owner of `mutex_finish` is one thread. -/
theorem Trace.exclusive (h : Trace p before m)
    (hcrash : m.crash = .entering ∨ m.crash = .unlockingFinish) :
    ¬ (m.dump = .signalling ∨ m.dump = .unlockingFinish) := by
  intro hdump
  have hown := (h.entering hcrash).symm.trans (h.signalling hdump)
  cases hown

theorem Trace.not_entering (h : Trace p before m) (hnone : m.mutexFinish = none) :
    ¬ (m.crash = .entering ∨ m.crash = .unlockingFinish) := by
  intro hcrash
  have := h.entering hcrash
  rw [hnone] at this
  cases this

theorem Trace.not_signalling (h : Trace p before m) (hnone : m.mutexFinish = none) :
    ¬ (m.dump = .signalling ∨ m.dump = .unlockingFinish) := by
  intro hdump
  have := h.signalling hdump
  rw [hnone] at this
  cases this

theorem trace_crash (h : Trace p before m) (hstep : crashStep m = some m') :
    Trace p (before ++ [.crash m.crash]) m' := by
  cases hcrash : m.crash <;> simp only [crashStep, hcrash] at hstep
  case running | unlocking =>
    cases hstep
    refine h.quiet rfl nofun nofun nofun (fun h => h.elim nofun nofun) h.signalling
      Iff.rfl ?_ ?_ (.inl rfl)
      ⟨rfl, rfl, rfl, rfl⟩ rfl <;> simp [hcrash]
  case testing =>
    cases hstep
    refine h.quiet rfl nofun nofun nofun ?_ h.signalling Iff.rfl ?_ ?_ (.inl rfl)
      ⟨rfl, rfl, rfl, rfl⟩ rfl <;>
      cases m.ntid <;> simp [hcrash]
  case locking =>
    split at hstep
    · cases hstep
      refine h.quiet rfl nofun nofun nofun (fun h => h.elim nofun nofun) h.signalling
        Iff.rfl ?_ ?_ (.inl rfl)
        ⟨rfl, rfl, rfl, rfl⟩ rfl <;> simp [hcrash]
    · cases hstep
  case signalling =>
    cases hstep
    by_cases hwaiting : m.dump = .waiting
    · refine h.quiet rfl nofun nofun nofun (fun h => h.elim nofun nofun) ?_ ?_ ?_ ?_ (.inr ?_)
        ⟨rfl, rfl, rfl, rfl⟩ rfl <;>
        simp [hcrash, hwaiting, Dump.idle, Dump.late]
    · refine h.quiet rfl nofun nofun nofun (fun h => h.elim nofun nofun) ?_ ?_ ?_ ?_ (.inl ?_)
        ⟨rfl, rfl, rfl, rfl⟩ rfl
      · simpa [hwaiting] using h.signalling
      · simp [hwaiting]
      · simp [hcrash]
      · simp [hcrash]
      · simp [hwaiting]
  case lockingFinish | relocking =>
    split at hstep
    · rename_i hnone
      cases hstep
      refine h.quiet rfl nofun nofun nofun (fun _ => rfl)
        (fun hs => absurd hs (h.not_signalling hnone)) Iff.rfl ?_ ?_
        (.inl rfl) ⟨rfl, rfl, rfl, rfl⟩ rfl <;> simp [hcrash]
    · cases hstep
  case entering | unlockingFinish =>
    cases hstep
    refine h.quiet rfl nofun nofun nofun (fun h => h.elim nofun nofun)
      (fun hs => absurd hs (h.exclusive (by simp [hcrash]))) Iff.rfl ?_ ?_ (.inl rfl)
        ⟨rfl, rfl, rfl, rfl⟩ rfl <;>
      simp [hcrash]
  case waiting | done => cases hstep
  case calling =>
    cases hstep
    refine ⟨fun h => h.elim nofun nofun, h.signalling, ?_, ?_, ?_, ?_⟩
    · simpa using h.notified
    · simp
    · simpa [hcrash] using h.handled
    · rw [filter_keeps rfl]
      exact h.stage.move (.inl rfl) ⟨rfl, rfl, rfl, rfl⟩ fun hm _ => hm.pointer
  case reading =>
    cases hstep
    refine ⟨fun h => h.elim nofun nofun, h.signalling, ?_, ?_, ?_, ?_⟩
    · simpa using h.notified
    · simpa [hcrash] using h.loaded
    · simp
    · rw [filter_keeps rfl]
      exact h.stage.move (.inl rfl) ⟨rfl, rfl, rfl, rfl⟩ fun _ => nofun

/-- A step of the replacement, by what the buffer is then. -/
theorem Trace.replace (h : Trace p before m) (he : replaces e = true) (hcrash : m'.crash = m.crash)
    (hmutex : m'.mutexFinish = m.mutexFinish) (hdelivered : m'.delivered = m.delivered)
    (hdump : ¬ (m.dump = .signalling ∨ m.dump = .unlockingFinish))
    (hdump' : ¬ (m'.dump = .signalling ∨ m'.dump = .unlockingFinish))
    (hstage : Stage p m' (before.filter replaces ++ [e])) : Trace p (before ++ [e]) m' where
  entering := by
    rw [hcrash, hmutex]
    exact h.entering
  signalling := fun hs => absurd hs hdump'
  notified := by
    have hlock : Event.dump .lockingFinish ≠ e := by
      rintro rfl
      cases he
    have hfirst : m.dump ≠ .signalling := fun hs => hdump (.inl hs)
    have hthen : m'.dump ≠ .signalling := fun hs => hdump' (.inl hs)
    simpa [hlock, hdelivered, hfirst, hthen] using h.notified
  loaded := by
    have hload : Event.crash .calling ≠ e := by
      rintro rfl
      cases he
    simpa [hload, hcrash] using h.loaded
  handled := by
    have hread : Event.crash .reading ≠ e := by
      rintro rfl
      cases he
    simpa [hread, hcrash] using h.handled
  stage := by
    rw [filter_grows he]
    exact hstage

theorem copied_idle (content : Text) (i : Nat) :
    ¬ (copied content i = .signalling ∨ copied content i = .unlockingFinish) := by
  rw [copied]
  split <;> exact fun h => h.elim nofun nofun

theorem replaced_succ (content : Text) (i : Nat) :
    replaced content (i + 1) = replaced content i ++ [.dump (.copying i)] := by
  rw [replaced, replaced, List.range_succ, List.map_append, List.append_assoc]
  rfl

/-- Behind a byte that is copied, the next one or the end of the replacement. -/
theorem stage_copied {i : Nat} (hi : i ≤ m.content.val.length) (hdump : m.dump = copied m.content i)
    (hpointer : m.dumpJavaInfo = .fresh) (hfresh : m.fresh = partly m.content i) :
    Stage p m (replaced m.content i) := by
  rw [copied] at hdump
  by_cases hlt : i < m.content.val.length
  · rw [if_pos hlt] at hdump
    exact .copying i hlt hdump hpointer hfresh
  · have hend : i = m.content.val.length := by omega
    rw [if_neg hlt] at hdump
    subst hend
    refine .late ?_ hpointer (hfresh.trans (partly_length _))
    rw [hdump]
    rfl

theorem trace_dump (h : Trace p before m) (hstep : dumpStep m = some m') :
    Trace p (before ++ [.dump m.dump]) m' := by
  have hstage := h.stage
  generalize hdone : before.filter replaces = done at hstage
  cases hdump : m.dump <;> simp only [dumpStep, hdump] at hstep
  case unborn | waiting | calling | done => cases hstep
  case attaching =>
    cases hstep
    refine h.quiet rfl nofun nofun nofun h.entering (fun h => h.elim nofun nofun) ?_ Iff.rfl Iff.rfl
      (.inr ?_) ⟨rfl, rfl, rfl, rfl⟩ rfl <;> simp [hdump, Dump.idle, Dump.late]
  case locking | relocking =>
    split at hstep
    · cases hstep
      refine h.quiet rfl nofun nofun nofun h.entering
        (fun h => h.elim nofun nofun) ?_ Iff.rfl Iff.rfl
        (.inr ?_) ⟨rfl, rfl, rfl, rfl⟩ rfl <;> simp [hdump, Dump.idle, Dump.late]
    · cases hstep
  case testing =>
    split at hstep <;> cases hstep <;>
      refine h.quiet rfl nofun nofun nofun h.entering
        (fun h => h.elim nofun nofun) ?_ Iff.rfl Iff.rfl
        (.inr ?_) ⟨rfl, rfl, rfl, rfl⟩ rfl <;> simp [hdump, Dump.idle, Dump.late]
  case unlocking =>
    cases hstep
    refine h.quiet rfl nofun nofun nofun h.entering (fun h => h.elim nofun nofun) ?_ Iff.rfl Iff.rfl
      (.inr ?_) ⟨rfl, rfl, rfl, rfl⟩ rfl <;> simp [hdump, Dump.idle, Dump.late]
  case lockingFinish =>
    split at hstep
    · rename_i hnone
      cases hstep
      refine ⟨fun hs => absurd hs (h.not_entering hnone), fun _ => rfl, ?_, ?_, ?_, ?_⟩
      · simp
      · simpa using h.loaded
      · simpa using h.handled
      · rw [filter_keeps rfl]
        exact h.stage.move (.inr (by simp [hdump, Dump.idle, Dump.late]))
          ⟨rfl, rfl, rfl, rfl⟩ fun hm => hm.argument
    · cases hstep
  case signalling =>
    cases hstep
    have hentering : ¬ (m.crash = .entering ∨ m.crash = .unlockingFinish) :=
      fun hs => h.exclusive hs (.inl hdump)
    by_cases hwaiting : m.crash = .waiting
    · refine h.quiet rfl nofun nofun nofun ?_
        (fun _ => h.signalling (.inl hdump)) ?_ ?_ ?_ (.inr ?_)
        ⟨rfl, rfl, rfl, rfl⟩ rfl <;> simp [hdump, hwaiting, Dump.idle, Dump.late]
    · refine h.quiet rfl nofun nofun nofun ?_
        (fun _ => h.signalling (.inl hdump)) ?_ ?_ ?_ (.inr ?_)
        ⟨rfl, rfl, rfl, rfl⟩ rfl
      · simp only [if_neg hwaiting]
        exact h.entering
      · simp [hdump]
      · simp [hwaiting]
      · simp [hwaiting]
      · simp [hdump, Dump.idle, Dump.late]
  case unlockingFinish =>
    cases hstep
    refine h.quiet rfl nofun nofun nofun (fun hs => absurd (.inr hdump) (h.exclusive hs))
      (fun h => h.elim nofun nofun) ?_
      Iff.rfl Iff.rfl (.inr ?_) ⟨rfl, rfl, rfl, rfl⟩ rfl <;> simp [hdump, Dump.idle, Dump.late]
  case deleting =>
    obtain ⟨rfl, hm, -⟩ := hstage.at_deleting hdump
    cases hstep
    refine h.replace rfl rfl rfl rfl (by simp [hdump]) (fun h => h.elim nofun nofun) ?_
    rw [hdone]
    refine .allocating rfl ⟨hm.pointer, hm.argument⟩ fun hold => ?_
    simp [hm.pointer, hold]
  case allocating =>
    obtain ⟨rfl, -, -⟩ := hstage.at_allocating hdump
    cases hstep
    refine h.replace rfl rfl rfl rfl (by simp [hdump]) (fun h => h.elim nofun nofun) ?_
    rw [hdone]
    exact .zeroing rfl rfl rfl
  case zeroing =>
    obtain ⟨rfl, hpointer, hfresh⟩ := hstage.at_zeroing hdump
    cases hstep
    refine h.replace rfl rfl rfl rfl (by simp [hdump]) (copied_idle _ _) ?_
    rw [hdone]
    exact stage_copied (Nat.zero_le _) rfl hpointer (partly_zero _)
  case copying i =>
    obtain ⟨rfl, hi, hpointer, hfresh⟩ := hstage.at_copying hdump
    obtain ⟨c, hc, rfl⟩ := Option.map_eq_some_iff.mp hstep
    refine h.replace rfl rfl rfl rfl (by simp [hdump]) (copied_idle _ _) ?_
    rw [hdone, ← replaced_succ]
    refine stage_copied hi rfl hpointer ?_
    rw [hfresh]
    exact partly_set _ hc

theorem trace_next (h : Trace p before m) (hnext : next m e = some m') :
    Trace p (before ++ [e]) m' := by
  cases e with
  | crash statement =>
    simp only [next] at hnext
    split at hnext
    · rename_i hat
      subst hat
      exact trace_crash h hnext
    · cases hnext
  | dump statement =>
    simp only [next] at hnext
    split at hnext
    · rename_i hat
      subst hat
      exact trace_dump h hnext
    · cases hnext
  | create | noAttach | dumpWakes =>
    simp only [next] at hnext
    split at hnext
    · rename_i hdump
      cases hnext
      refine h.quiet rfl nofun nofun nofun h.entering
        (fun h => h.elim nofun nofun) ?_ Iff.rfl Iff.rfl
        (.inr ?_) ⟨rfl, rfl, rfl, rfl⟩ rfl <;> simp [hdump, Dump.idle, Dump.late]
    · cases hnext
  | store =>
    simp only [next] at hnext
    split at hnext
    · cases hnext
      exact h.quiet rfl nofun nofun nofun h.entering h.signalling Iff.rfl Iff.rfl Iff.rfl (.inl rfl)
        ⟨rfl, rfl, rfl, rfl⟩ rfl
    · cases hnext
  | crashWakes =>
    simp only [next] at hnext
    split at hnext
    · rename_i hcrash
      cases hnext
      refine h.quiet rfl nofun nofun nofun (fun h => h.elim nofun nofun) h.signalling
        Iff.rfl ?_ ?_ (.inl rfl)
        ⟨rfl, rfl, rfl, rfl⟩ rfl <;> simp [hcrash]
    · cases hnext
  | java ss =>
    simp only [next] at hnext
    split at hnext
    · rename_i hdump
      cases ss with
      | none =>
        cases hnext
        refine h.quiet rfl nofun nofun nofun h.entering
          (fun h => h.elim nofun nofun) ?_ Iff.rfl Iff.rfl
          (.inr ?_) ⟨rfl, rfl, rfl, rfl⟩ rfl <;> simp [hdump, Dump.idle, Dump.late]
      | some content =>
        cases hnext
        refine h.replace rfl rfl rfl rfl (by simp [hdump]) (fun h => h.elim nofun nofun) ?_
        have hstage := h.stage
        generalize before.filter replaces = done at hstage
        cases hstage with
        | idle hidle hm hfreed => exact .deleting rfl ⟨hm.pointer, hm.argument⟩ hfreed
        | late hlate => simp [hdump, Dump.late] at hlate
        | deleting hat | allocating hat | zeroing hat | copying i hi hat => simp [hdump] at hat
    · cases hnext

theorem filled_iff : Filled before ↔
    ∃ content, .java (some content) ∈ before.filter replaces ∧
      .dump (lastCopy content) ∈ before.filter replaces := by
  have hcopy (content : Text) : replaces (.dump (lastCopy content)) = true := by
    rw [lastCopy]
    split <;> rfl
  have hone (content : Text) : (.java (some content) ∈ before ∧ .dump (lastCopy content) ∈ before) ↔
      .java (some content) ∈ before.filter replaces ∧
      .dump (lastCopy content) ∈ before.filter replaces := by
    rw [mem_of_replaces (e := .java (some content)) rfl, mem_of_replaces (hcopy content)]
  simp only [Filled, hone]

/-- The last statement of a replacement is `memset` or copies a byte. -/
theorem lastCopy_mem {content other : Text} {i : Nat} :
    .dump (lastCopy content) ∈ replaced other i ↔ content.val.length ≤ i := by
  rw [lastCopy]
  cases content.val.length with
  | zero => simp [replaced]
  | succ n =>
    simp only [replaced, List.mem_append, List.mem_cons, Event.dump.injEq, reduceCtorEq,
      List.not_mem_nil, or_self,
      List.mem_map, List.mem_range, Dump.copying.injEq, exists_eq_right, false_or]
    omega

theorem lastCopy_ne (content : Text) (d : Dump) (hd : d = .deleting ∨ d = .allocating) :
    d ≠ lastCopy content := by
  rintro rfl
  rw [lastCopy] at hd
  split at hd <;> exact hd.elim nofun nofun

/-- What is loaded is whole exactly outside of the replacement. -/
theorem Trace.intact_iff (h : Trace p before m) (hp : p ≠ .fresh) : m.Intact m.dumpJavaInfo ↔
    (p ≠ .null ∧ .dump .deleting ∈ before ∨ .dump .allocating ∈ before → Filled before) := by
  rw [filled_iff, mem_of_replaces (e := .dump .deleting) rfl,
    mem_of_replaces (e := .dump .allocating) rfl]
  have hkept (hpointer : m.dumpJavaInfo = p) (hfreed : m.oldFreed = false) :
      m.Intact m.dumpJavaInfo := by
    rw [hpointer]
    cases p with
    | null => trivial
    | old => exact hfreed
    | fresh => exact absurd rfl hp
  have hstage := h.stage
  generalize before.filter replaces = done at hstage
  cases hstage with
  | idle _ hm hfreed => exact iff_of_true (hkept hm.pointer hfreed) (by simp)
  | deleting _ hm hfreed => exact iff_of_true (hkept hm.pointer hfreed) (by simp)
  | allocating _ hm hfreed =>
    rw [hm.pointer]
    cases p with
    | null => exact iff_of_true trivial (by simp)
    | fresh => exact absurd rfl hp
    | old =>
      refine iff_of_false (fun hintact => ?_) fun hturn => ?_
      · have hnot : m.oldFreed = false := hintact
        rw [hfreed rfl] at hnot
        cases hnot
      · obtain ⟨content, -, hcopy⟩ := hturn (by simp)
        have hne := lastCopy_ne content .deleting (.inl rfl)
        simp [hne.symm] at hcopy
  | zeroing _ hpointer hfresh =>
    rw [hpointer, Machine.Intact, hfresh]
    refine iff_of_false (replicate_none_ne _) fun hturn => ?_
    obtain ⟨content, -, hcopy⟩ := hturn (by simp)
    have hdeleting := lastCopy_ne content .deleting (.inl rfl)
    have hallocating := lastCopy_ne content .allocating (.inr rfl)
    simp [hdeleting.symm, hallocating.symm] at hcopy
  | copying i hi _ hpointer hfresh =>
    rw [hpointer, Machine.Intact, hfresh]
    refine iff_of_false (partly_ne _ hi) fun hturn => ?_
    obtain ⟨content, hjava, hcopy⟩ := hturn (by simp [replaced])
    have hsame : content = m.content := by simpa [replaced] using hjava
    rw [hsame, lastCopy_mem] at hcopy
    omega
  | late _ hpointer hfresh =>
    rw [hpointer, Machine.Intact]
    exact iff_of_true hfresh fun _ => ⟨m.content, by simp [replaced], lastCopy_mem.mpr le_rfl⟩

theorem sound_of_busy (hwaiting : m.crash ≠ .waiting) (hreading : m.crash ≠ .reading) : Sound m :=
  ⟨fun h => hwaiting h.1, fun h => absurd h hreading⟩

theorem sound_crash (h : Trace p before m) (hp : p ≠ .fresh) (hstep : crashStep m = some m') :
    Sound m' ↔ Turn p before (.crash m.crash) := by
  cases hcrash : m.crash <;> simp only [crashStep, hcrash] at hstep
  case running | signalling | unlocking | unlockingFinish | reading =>
    cases hstep
    exact iff_of_true (sound_of_busy nofun nofun) trivial
  case testing =>
    cases hstep
    refine iff_of_true (sound_of_busy ?_ ?_) trivial <;> cases m.ntid <;> exact nofun
  case locking | lockingFinish | relocking =>
    split at hstep
    · cases hstep
      exact iff_of_true (sound_of_busy nofun nofun) trivial
    · cases hstep
  case waiting | done => cases hstep
  case entering =>
    cases hstep
    have hfree : m.dump ≠ .signalling := fun hdump => h.exclusive (.inl hcrash) (.inl hdump)
    have hturn : Turn p before (.crash .entering) ↔ ¬ m.delivered = true := by
      rw [Turn, h.notified]
      simp [hfree]
    rw [hturn]
    constructor
    · exact fun hs hdelivered => hs.1 ⟨rfl, hdelivered⟩
    · exact fun hno => ⟨fun hbad => hno hbad.2, nofun⟩
  case calling =>
    cases hstep
    rw [Turn, ← h.intact_iff hp]
    constructor
    · exact fun hs => hs.2 rfl
    · exact fun hintact => ⟨fun hbad => Crash.noConfusion hbad.1, fun _ => hintact⟩

theorem Sound.keep (h : Sound m) (hcrash : m'.crash = m.crash)
    (hdelivered : m'.delivered = m.delivered)
    (hintact : m.crash = .reading → m.Intact m.argument → m'.Intact m'.argument) : Sound m' := by
  refine ⟨fun hbad => h.1 ?_, fun hr => ?_⟩
  · rwa [hcrash, hdelivered] at hbad
  · rw [hcrash] at hr
    exact hintact hr (h.2 hr)

theorem intact_same (hsame : SameBuffer m m') (q : Pointer) : m'.Intact q ↔ m.Intact q := by
  cases q with
  | null => exact Iff.rfl
  | old => rw [Machine.Intact, Machine.Intact, hsame.freed]
  | fresh => rw [Machine.Intact, Machine.Intact, hsame.fresh, hsame.content]

/-- Nothing that `handle_crash` reads is touched. -/
theorem Sound.same (h : Sound m) (hcrash : m'.crash = m.crash)
    (hdelivered : m'.delivered = m.delivered)
    (hsame : SameBuffer m m') (harg : m'.argument = m.argument) : Sound m' :=
  h.keep hcrash hdelivered fun _ hintact => by rwa [harg, intact_same hsame]

/-- Before there is a new buffer, `handle_crash` has the earlier one. -/
theorem Stage.argument {done : List Event} (h : Stage p m done) (hpointer : m.dumpJavaInfo ≠ .fresh)
    (hr : m.crash = .reading) : m.argument = p := by
  cases h with
  | idle _ hm | deleting _ hm | allocating _ hm => exact hm.argument hr
  | zeroing _ hfresh | copying _ _ _ hfresh | late _ hfresh => exact absurd hfresh hpointer

/-- The buffer that is deleted may be the one that was loaded. -/
theorem sound_deleting (h : Trace p before m) (hp : p ≠ .fresh) (hs : Sound m)
    (hdump : m.dump = .deleting)
    (hstep : dumpStep m = some m') : Sound m' ↔ Turn p before (.dump .deleting) := by
  obtain ⟨-, hm, hfreed⟩ := h.stage.at_deleting hdump
  simp only [dumpStep, hdump] at hstep
  cases hstep
  rw [Turn, h.loaded, h.handled]
  cases p with
  | null =>
    refine iff_of_true (hs.keep rfl rfl fun hr _ => ?_) (by simp)
    show Machine.Intact _ m.argument
    rw [hm.argument hr]
    trivial
  | fresh => exact absurd rfl hp
  | old =>
    by_cases hr : m.crash = .reading
    · refine iff_of_false (fun hs' => ?_) (fun hturn => ?_)
      · have hfreed : (m.oldFreed || decide (m.dumpJavaInfo = .old)) = false := by
          have hintact := hs'.2 hr
          rwa [show Machine.argument _ = Pointer.old from hm.argument hr] at hintact
        simp [hm.pointer] at hfreed
      · have hdone := hturn nofun (.inl hr)
        rw [hr] at hdone
        cases hdone
    · refine iff_of_true (hs.keep rfl rfl fun hr' => absurd hr' hr) fun _ hread =>
        hread.resolve_left hr

theorem sound_allocating (h : Trace p before m) (hp : p ≠ .fresh) (hs : Sound m)
    (hdump : m.dump = .allocating)
    (hstep : dumpStep m = some m') : Sound m' := by
  obtain ⟨-, hm, -⟩ := h.stage.at_allocating hdump
  simp only [dumpStep, hdump] at hstep
  cases hstep
  refine hs.keep rfl rfl fun hr hintact => ?_
  rw [hm.argument hr] at hintact
  show Machine.Intact _ m.argument
  rw [hm.argument hr]
  cases p with
  | null => trivial
  | old => exact hintact
  | fresh => exact absurd rfl hp

/-- Nothing is whole before `memset`. -/
theorem sound_zeroing (h : Trace p before m) (hs : Sound m) (hdump : m.dump = .zeroing)
    (hstep : dumpStep m = some m') :
    Sound m' := by
  obtain ⟨-, -, hfresh⟩ := h.stage.at_zeroing hdump
  simp only [dumpStep, hdump] at hstep
  cases hstep
  refine hs.keep rfl rfl fun hr hintact => ?_
  show Machine.Intact _ m.argument
  cases harg : m.argument with
  | null => trivial
  | old =>
    rw [harg] at hintact
    exact hintact
  | fresh =>
    rw [harg, Machine.Intact, hfresh] at hintact
    exact absurd hintact (replicate_none_ne _)

/-- Nothing is whole before its last byte. -/
theorem sound_copying {i : Nat} (h : Trace p before m) (hs : Sound m) (hdump : m.dump = .copying i)
    (hstep : dumpStep m = some m') : Sound m' := by
  obtain ⟨-, hi, -, hfresh⟩ := h.stage.at_copying hdump
  simp only [dumpStep, hdump] at hstep
  obtain ⟨c, hc, rfl⟩ := Option.map_eq_some_iff.mp hstep
  refine hs.keep rfl rfl fun hr hintact => ?_
  show Machine.Intact _ m.argument
  cases harg : m.argument with
  | null => trivial
  | old =>
    rw [harg] at hintact
    exact hintact
  | fresh =>
    rw [harg, Machine.Intact, hfresh] at hintact
    exact absurd hintact (partly_ne _ hi)

theorem sound_signalling (hs : Sound m) (hdump : m.dump = .signalling)
    (hstep : dumpStep m = some m') : Sound m' := by
  simp only [dumpStep, hdump] at hstep
  cases hstep
  refine ⟨fun hbad => ?_, fun hr => ?_⟩
  · have hwaiting := hbad.1
    dsimp only at hwaiting
    split at hwaiting
    · cases hwaiting
    · rename_i hnot
      exact hnot hwaiting
  · dsimp only at hr
    split at hr
    · cases hr
    · exact (intact_same ⟨rfl, rfl, rfl, rfl⟩ _).mpr (hs.2 hr)

theorem sound_dump (h : Trace p before m) (hp : p ≠ .fresh) (hs : Sound m)
    (hstep : dumpStep m = some m') :
    Sound m' ↔ Turn p before (.dump m.dump) := by
  cases hdump : m.dump
  case unborn | waiting | calling | done => simp [dumpStep, hdump] at hstep
  case deleting => exact sound_deleting h hp hs hdump hstep
  case allocating => exact iff_of_true (sound_allocating h hp hs hdump hstep) trivial
  case zeroing => exact iff_of_true (sound_zeroing h hs hdump hstep) trivial
  case copying i => exact iff_of_true (sound_copying h hs hdump hstep) trivial
  case signalling => exact iff_of_true (sound_signalling hs hdump hstep) trivial
  case attaching | unlocking | unlockingFinish =>
    simp only [dumpStep, hdump] at hstep
    cases hstep
    exact iff_of_true (hs.same rfl rfl ⟨rfl, rfl, rfl, rfl⟩ rfl) trivial
  case locking | relocking | lockingFinish =>
    simp only [dumpStep, hdump] at hstep
    split at hstep
    · cases hstep
      exact iff_of_true (hs.same rfl rfl ⟨rfl, rfl, rfl, rfl⟩ rfl) trivial
    · cases hstep
  case testing =>
    simp only [dumpStep, hdump] at hstep
    split at hstep <;> cases hstep <;>
      exact iff_of_true (hs.same rfl rfl ⟨rfl, rfl, rfl, rfl⟩ rfl) trivial

theorem sound_next (hp : p ≠ .fresh) (h : Trace p before m) (hs : Sound m)
    (hnext : next m e = some m') :
    Sound m' ↔ Turn p before e := by
  cases e with
  | crash statement =>
    simp only [next] at hnext
    split at hnext
    · rename_i hat
      subst hat
      exact sound_crash h hp hnext
    · cases hnext
  | dump statement =>
    simp only [next] at hnext
    split at hnext
    · rename_i hat
      subst hat
      exact sound_dump h hp hs hnext
    · cases hnext
  | create | store | noAttach | dumpWakes =>
    simp only [next] at hnext
    split at hnext
    · cases hnext
      exact iff_of_true (hs.same rfl rfl ⟨rfl, rfl, rfl, rfl⟩ rfl) trivial
    · cases hnext
  | crashWakes =>
    simp only [next] at hnext
    split at hnext
    · cases hnext
      exact iff_of_true (sound_of_busy nofun nofun) trivial
    · cases hnext
  | java ss =>
    simp only [next] at hnext
    split at hnext
    · rename_i hdump
      cases ss with
      | none =>
        cases hnext
        exact iff_of_true (hs.same rfl rfl ⟨rfl, rfl, rfl, rfl⟩ rfl) trivial
      | some content =>
        cases hnext
        refine iff_of_true (hs.keep rfl rfl fun hr hintact => ?_) trivial
        have hstage := h.stage
        generalize before.filter replaces = done at hstage
        cases hstage with
        | idle hidle hm hfreed =>
          show Machine.Intact _ m.argument
          rw [hm.argument hr] at hintact ⊢
          cases p with
          | null => trivial
          | old => exact hintact
          | fresh => exact absurd rfl hp
        | late hlate => simp [hdump, Dump.late] at hlate
        | deleting hat | allocating hat | zeroing hat | copying i hi hat => simp [hdump] at hat
    · cases hnext

/-- The handshake works throughout a run exactly when its statements come in that order. -/
theorem sound_iff (hp : p ≠ .fresh) {es : List Event} (hrun : run next (initial p) es = some m) :
    Always next Sound (initial p) es ↔ InTurn (Turn p) es :=
  always_iff_inTurn (fun _ _ _ _ => trace_next) (fun _ _ _ _ => sound_next hp) initial_trace
    initial_sound hrun

/-- Both threads up to the text, the dump thread being woken. -/
def dumped : List Event :=
  [.create, .store, .dump .attaching, .dump .locking, .dump .testing, .crash .running,
    .crash .testing, .crash .locking,
    .crash .signalling, .crash .unlocking, .dump .relocking, .dump .testing,
    .java (some ⟨[65], by decide⟩)]

/-- The crashing thread waits before the dump is over. -/
def inOrder : List Event :=
  dumped ++ [.crash .lockingFinish, .crash .entering, .dump .deleting,
    .dump .allocating, .dump .zeroing,
    .dump (.copying 0), .dump .unlocking, .dump .lockingFinish, .dump .signalling,
    .dump .unlockingFinish,
    .crash .relocking, .crash .unlockingFinish, .crash .calling]

theorem sound_iff_inOrder : ∃ m, run next (initial .old) inOrder = some m ∧ m.crash = .reading ∧
    m.argument = .fresh ∧
    Always next Sound (initial .old) inOrder ∧ InTurn (Turn .old) inOrder := by
  have halways : Always next Sound (initial .old) inOrder := by decide
  exact ⟨_, rfl, rfl, rfl, halways, (sound_iff (by decide) rfl).mp halways⟩

/-- The dump is over before the wait begins; and the wait ends by its time while
the text is copied. -/
theorem not_sound_late_early :
    (∃ m, run next (initial .null) (dumped ++
      [.dump .deleting, .dump .allocating, .dump .zeroing, .dump (.copying 0),
        .dump .unlocking, .dump .lockingFinish, .dump .signalling, .dump .unlockingFinish,
        .crash .lockingFinish,
        .crash .entering]) = some m ∧ m.crash = .waiting ∧ m.delivered = true ∧ ¬ Sound m) ∧
      ∃ m, run next (initial .null)
      (dumped ++ [.crash .lockingFinish, .crash .entering, .dump .deleting,
        .dump .allocating, .dump .zeroing, .crashWakes, .crash .relocking, .crash .unlockingFinish,
          .crash .calling]) =
          some m ∧ m.crash = .reading ∧ m.argument = .fresh ∧
          m.fresh = [some 0, some 0] ∧ ¬ Sound m := by
  refine ⟨⟨_, rfl, rfl, rfl, fun h => h.1 ⟨rfl, rfl⟩⟩, ⟨_, rfl, rfl, rfl, rfl, fun h => ?_⟩⟩
  have hwhole : [some 0, some 0] = ([65, 0] : List Byte).map some := h.2 rfl
  exact absurd hwhole (by decide)

end DumpHandshake
