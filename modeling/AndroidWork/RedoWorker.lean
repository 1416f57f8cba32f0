import AndroidWork.EventRuns

/-!
# A job that is done again

`RedoWorker`: a `Runnable` that posts itself again behind each of its runs, and a
`done` that stops it. The handler runs one message at a time; `start`, `done` and
the run in flight go on step by step, in any order.
-/
namespace RedoWorker

/-- The `Runnable` of one `start`, by the number of that `start`. -/
structure Run where
  chain : Nat
  totalCount : Nat
  mCurrentCount : Nat := 0

/-- How far the run in flight is: before its first test, before the call of the job,
before the second test, before `postDelayed`. -/
inductive Phase where
  | taken
  | calling
  | called
  | posting
  deriving DecidableEq

/-- A `start`: how often its job ran, and whether `done` took a step since it began. -/
structure Chain where
  totalCount : Nat
  executed : Nat := 0
  disturbed : Bool := false

/-- The worker and its handler. A `start` in progress has set the flag and not posted, a
`done` in progress has reset the flag and not removed; it keeps how many chains there
were. `ended` says so of all that have returned, `late` counts the calls of the job of an
ended chain. -/
structure Machine where
  mIsWorking : Bool := false
  starting : List Chain := []
  ending : List Nat := []
  queue : List Run := []
  current : Option (Run × Phase) := none
  chains : List Chain := []
  ended : Nat := 0
  late : Nat := 0

inductive Event where
  | startFlag (totalCount : Nat)
  | startPost (i : Nat)
  | doneFlag
  | doneRemove (i : Nat)
  | take (i : Nat)
  | turn

def Chain.disturb (c : Chain) : Chain := { c with disturbed := true }

def Chain.execute (c : Chain) : Chain := { c with executed := c.executed + 1 }

/-- A step of the run in flight. -/
def turn (m : Machine) (r : Run) : Phase → Machine
  | .taken =>
    if !m.mIsWorking then { m with current := none }
    else if r.mCurrentCount > 0 then { m with current := some (r, .calling) }
    else { m with current := some (r, .called) }
  | .calling =>
    { m with
      current := some (r, .called)
      chains := m.chains.modify r.chain Chain.execute
      late := if r.chain < m.ended then m.late + 1 else m.late }
  | .called =>
    if m.mIsWorking && r.mCurrentCount < r.totalCount then
      { m with current := some ({ r with mCurrentCount := r.mCurrentCount + 1 }, .posting) }
    else { m with current := none }
  | .posting => { m with queue := m.queue ++ [r], current := none }

/-- The next state; none where the event can not happen. -/
def next (m : Machine) : Event → Option Machine
  | .startFlag totalCount =>
    if totalCount = 0 then some m
    else some { m with mIsWorking := true, starting := m.starting ++ [{ totalCount }] }
  | .startPost i =>
    m.starting[i]?.map fun c =>
      { m with
        starting := m.starting.eraseIdx i
        chains := m.chains ++ [c]
        queue := m.queue ++ [{ chain := m.chains.length, totalCount := c.totalCount }] }
  | .doneFlag =>
    some { m with
      mIsWorking := false
      ending := m.ending ++ [m.chains.length]
      starting := m.starting.map Chain.disturb
      chains := m.chains.map Chain.disturb }
  | .doneRemove i =>
    m.ending[i]?.map fun k =>
      { m with
        queue := []
        ending := m.ending.eraseIdx i
        ended := max m.ended k
        starting := m.starting.map Chain.disturb
        chains := m.chains.map Chain.disturb }
  | .take i =>
    if m.current.isNone then
      m.queue[i]?.map fun r => { m with queue := m.queue.eraseIdx i, current := some (r, .taken) }
    else none
  | .turn => m.current.map fun (r, phase) => turn m r phase

def initial : Machine := {}

/-- The runs that are pending or in flight. -/
def runs (m : Machine) : List Run := m.queue ++ (m.current.map Prod.fst).toList

/-- The run in flight is not behind the last call of its job. -/
def GoesOn (r : Run) (phase : Phase) : Prop := phase = .called → r.mCurrentCount < r.totalCount

/-- A `start` sets the flag when no ended chain can see it, and no `done` returns before
a job that it is too late for, or with the flag set again. -/
def Orderly (m : Machine) : Event → Prop
  | .startFlag totalCount => totalCount ≠ 0 → (∀ r ∈ m.queue, m.ended ≤ r.chain) ∧
      ∀ r phase, m.current = some (r, phase) → GoesOn r phase → m.ended ≤ r.chain
  | .doneRemove i =>
    ∀ k r phase, m.ending[i]? = some k → m.current = some (r, phase) → r.chain < k →
      phase ≠ .calling ∧ (GoesOn r phase → m.mIsWorking = false)
  | _ => True

/-- Every chain that no `done` has disturbed is alive or has run its job `totalCount`
times, and never more often; no ended chain has run its job. -/
structure Good (m : Machine) : Prop where
  late : m.late = 0
  executed : ∀ i c, m.chains[i]? = some c → c.disturbed = false →
    c.executed ≤ c.totalCount ∧ (i ∉ (runs m).map Run.chain → c.executed = c.totalCount)

/-- The chain of a run, which has executed its job so often. -/
def Tracks (chains : List Chain) (r : Run) (executed : Nat) : Prop :=
  ∃ c, chains[r.chain]? = some c ∧ c.totalCount = r.totalCount ∧ c.executed = executed ∧
    r.mCurrentCount ≤ r.totalCount

/-- How often the job of the run in flight ran. -/
def progress (r : Run) : Phase → Nat
  | .called => r.mCurrentCount
  | _ => r.mCurrentCount - 1

structure Inv (m : Machine) : Prop where
  queue : ∀ r ∈ m.queue, Tracks m.chains r (r.mCurrentCount - 1)
  current : ∀ r phase, m.current = some (r, phase) → Tracks m.chains r (progress r phase) ∧
    (phase = .calling → 0 < r.mCurrentCount)
  nodup : ((runs m).map Run.chain).Nodup
  kept : ∀ i c, m.chains[i]? = some c → c.disturbed = false →
    m.mIsWorking = true ∧ (i ∈ (runs m).map Run.chain ∨ c.executed = c.totalCount)
  starting : ∀ c ∈ m.starting, c.executed = 0 ∧ (c.disturbed = false → m.mIsWorking = true)
  ending : m.ended ≤ m.chains.length ∧ ∀ k ∈ m.ending, k ≤ m.chains.length

/-- No ended chain sees the flag. -/
structure Safe (m : Machine) : Prop where
  late : m.late = 0
  queue : ∀ r ∈ m.queue, r.chain < m.ended → m.mIsWorking = false
  current : ∀ r phase, m.current = some (r, phase) → r.chain < m.ended →
    phase ≠ .calling ∧ (GoesOn r phase → m.mIsWorking = false)

theorem inv_initial : Inv initial :=
  ⟨nofun, nofun, List.nodup_nil, nofun, nofun, le_rfl, nofun⟩

theorem safe_initial : Safe initial := ⟨rfl, nofun, nofun⟩

theorem perm_eraseIdx {queue : List Run} {i : Nat} {r : Run} (h : queue[i]? = some r) :
    (r :: queue.eraseIdx i).Perm queue := by
  obtain ⟨hi, rfl⟩ := List.getElem?_eq_some_iff.mp h
  exact List.getElem_cons_eraseIdx_perm hi

theorem Tracks.lt {chains : List Chain} {r : Run} {n : Nat} (h : Tracks chains r n) :
    r.chain < chains.length := by
  obtain ⟨c, hc, -⟩ := h
  exact (List.getElem?_eq_some_iff.mp hc).1

theorem Tracks.append {chains : List Chain} {r : Run} {n : Nat}
    (h : Tracks chains r n) (c : Chain) :
    Tracks (chains ++ [c]) r n := by
  have hlt := h.lt
  obtain ⟨c', hc', hrest⟩ := h
  exact ⟨c', by rw [List.getElem?_append_left hlt, hc'], hrest⟩

theorem Tracks.disturb {chains : List Chain} {r : Run} {n : Nat} (h : Tracks chains r n) :
    Tracks (chains.map Chain.disturb) r n := by
  obtain ⟨c, hc, htotal, hexecuted, hle⟩ := h
  exact ⟨c.disturb, by simp [hc], htotal, hexecuted, hle⟩

theorem Tracks.execute {chains : List Chain} {r : Run} {n : Nat} (h : Tracks chains r n) :
    Tracks (chains.modify r.chain Chain.execute) r (n + 1) := by
  obtain ⟨c, hc, htotal, rfl, hle⟩ := h
  exact ⟨c.execute, by simp [hc], htotal, rfl, hle⟩

theorem Tracks.execute_other {chains : List Chain} {r : Run} {n i : Nat} (h : Tracks chains r n)
    (hne : r.chain ≠ i) :
    Tracks (chains.modify i Chain.execute) r n := by
  obtain ⟨c, hc, hrest⟩ := h
  exact ⟨c, by rw [List.getElem?_modify_ne _ _ hne.symm, hc], hrest⟩

theorem progress_le (r : Run) (phase : Phase) : progress r phase ≤ r.mCurrentCount := by
  cases phase <;> simp [progress]

theorem mem_runs {m : Machine} {r : Run} :
    r ∈ runs m ↔ r ∈ m.queue ∨ ∃ phase, m.current = some (r, phase) := by
  cases hcurrent : m.current <;> simp [runs, hcurrent, Prod.ext_iff, eq_comm]

theorem Inv.lt {m : Machine} (h : Inv m) {i : Nat} (hi : i ∈ (runs m).map Run.chain) :
    i < m.chains.length := by
  obtain ⟨r, hr, rfl⟩ := List.mem_map.mp hi
  obtain hqueue | ⟨phase, hphase⟩ := mem_runs.mp hr
  · exact (h.queue r hqueue).lt
  · exact (h.current r phase hphase).1.lt

/-- No chain has run its job too often. -/
theorem Inv.executed_le {m : Machine} (h : Inv m) {r : Run} (hr : r ∈ runs m) {c : Chain}
    (hc : m.chains[r.chain]? = some c) : c.executed ≤ c.totalCount := by
  have htracks : ∃ n ≤ r.mCurrentCount, Tracks m.chains r n := by
    obtain hqueue | ⟨phase, hphase⟩ := mem_runs.mp hr
    · exact ⟨_, Nat.sub_le _ _, h.queue r hqueue⟩
    · exact ⟨_, progress_le r phase, (h.current r phase hphase).1⟩
  obtain ⟨n, hn, c', hc', htotal, hexecuted, hle⟩ := htracks
  obtain rfl : c = c' := by simpa [hc] using hc'
  omega

/-- The invariant says what is wanted. -/
theorem good_of_inv {m : Machine} (h : Inv m) (hsafe : Safe m) : Good m := by
  refine ⟨hsafe.late, fun i c hc hdisturbed => ?_⟩
  obtain ⟨-, halive | hover⟩ := h.kept i c hc hdisturbed
  · obtain ⟨r, hr, rfl⟩ := List.mem_map.mp halive
    exact ⟨h.executed_le hr hc, fun hover => absurd halive hover⟩
  · exact ⟨hover.le, fun _ => hover⟩

theorem inv_startFlag {m : Machine} (h : Inv m) (totalCount : Nat) :
    Inv { m with mIsWorking := true, starting := m.starting ++ [{ totalCount }] } := by
  refine ⟨h.queue, h.current, h.nodup, ?_, ?_, h.ending⟩
  · intro i c hc hdisturbed
    exact ⟨rfl, (h.kept i c hc hdisturbed).2⟩
  · intro c hc
    obtain hold | hnew := List.mem_append.mp hc
    · exact ⟨(h.starting c hold).1, fun _ => rfl⟩
    · obtain rfl := List.mem_singleton.mp hnew
      exact ⟨rfl, fun _ => rfl⟩

theorem inv_startPost {m : Machine} (h : Inv m) {i : Nat} {c : Chain}
    (hc : m.starting[i]? = some c) :
    Inv { m with
      starting := m.starting.eraseIdx i
      chains := m.chains ++ [c]
      queue := m.queue ++ [{ chain := m.chains.length, totalCount := c.totalCount }] } := by
  obtain ⟨hexecuted, hworking⟩ := h.starting c (List.mem_of_getElem? hc)
  -- the runs are the old ones and one of a chain that is new
  have hruns : ((m.queue ++ [({ chain := m.chains.length, totalCount := c.totalCount } : Run)] ++
      (m.current.map Prod.fst).toList).map Run.chain).Perm
        (m.chains.length :: (runs m).map Run.chain) := by
    simp only [runs, List.append_assoc, List.map_append]
    exact List.perm_middle
  refine ⟨?_, ?_, ?_, ?_, ?_, ?_⟩
  · intro r hr
    obtain hold | hnew := List.mem_append.mp hr
    · exact (h.queue r hold).append c
    · obtain rfl := List.mem_singleton.mp hnew
      exact ⟨c, by simp, rfl, hexecuted, Nat.zero_le _⟩
  · intro r phase hphase
    obtain ⟨htracks, hcalling⟩ := h.current r phase hphase
    exact ⟨htracks.append c, hcalling⟩
  · refine hruns.nodup_iff.mpr (List.nodup_cons.mpr ⟨fun hmem => ?_, h.nodup⟩)
    exact absurd (h.lt hmem) (lt_irrefl _)
  · intro j d hd hdisturbed
    obtain hlt | hge := Nat.lt_or_ge j m.chains.length
    · obtain ⟨hflag, hstate⟩ := h.kept j d (by rwa [List.getElem?_append_left hlt] at hd) hdisturbed
      exact ⟨hflag, hstate.imp (fun halive => hruns.mem_iff.mpr (List.mem_cons_of_mem _ halive)) id⟩
    · obtain rfl : j = m.chains.length := by
        have := (List.getElem?_eq_some_iff.mp hd).1
        simp at this
        omega
      obtain rfl : c = d := by simpa using hd
      exact ⟨hworking hdisturbed, .inl (hruns.mem_iff.mpr List.mem_cons_self)⟩
  · exact fun d hd => h.starting d (List.mem_of_mem_eraseIdx hd)
  · obtain ⟨hended, hending⟩ := h.ending
    simp only [List.length_append]
    exact ⟨by omega, fun k hk => (hending k hk).trans (Nat.le_add_right _ _)⟩

/-- Either step of a `done` leaves no chain undisturbed. -/
theorem inv_disturb {m u : Machine} (h : Inv m) (hqueue : u.queue.Sublist m.queue)
    (hcurrent : u.current = m.current)
    (hchains : u.chains = m.chains.map Chain.disturb)
    (hstarting : u.starting = m.starting.map Chain.disturb)
    (hending : u.ended ≤ m.chains.length ∧ ∀ k ∈ u.ending, k ≤ m.chains.length) : Inv u := by
  have hruns : ((runs u).map Run.chain).Sublist ((runs m).map Run.chain) := by
    rw [runs, runs, hcurrent]
    exact (hqueue.append_right _).map _
  refine ⟨?_, ?_, h.nodup.sublist hruns, ?_, ?_, ?_⟩
  · intro r hr
    rw [hchains]
    exact (h.queue r (hqueue.subset hr)).disturb
  · intro r phase hphase
    rw [hcurrent] at hphase
    rw [hchains]
    exact ⟨(h.current r phase hphase).1.disturb, (h.current r phase hphase).2⟩
  · intro i c hc hdisturbed
    rw [hchains, List.getElem?_map] at hc
    obtain ⟨d, -, rfl⟩ := Option.map_eq_some_iff.mp hc
    cases hdisturbed
  · intro c hc
    rw [hstarting] at hc
    obtain ⟨d, hd, rfl⟩ := List.mem_map.mp hc
    exact ⟨(h.starting d hd).1, nofun⟩
  · simpa [hchains] using hending

theorem inv_doneFlag {m : Machine} (h : Inv m) :
    Inv { m with
      mIsWorking := false
      ending := m.ending ++ [m.chains.length]
      starting := m.starting.map Chain.disturb
      chains := m.chains.map Chain.disturb } := by
  refine inv_disturb h (List.Sublist.refl _) rfl rfl rfl ⟨h.ending.1, fun k hk => ?_⟩
  obtain hold | hnew := List.mem_append.mp hk
  · exact h.ending.2 k hold
  · exact (List.mem_singleton.mp hnew).le

theorem inv_doneRemove {m : Machine} (h : Inv m) {i k : Nat} (hk : m.ending[i]? = some k) :
    Inv { m with
      queue := []
      ending := m.ending.eraseIdx i
      ended := max m.ended k
      starting := m.starting.map Chain.disturb
      chains := m.chains.map Chain.disturb } :=
  inv_disturb h (List.nil_sublist _) rfl rfl rfl
    ⟨max_le h.ending.1 (h.ending.2 k (List.mem_of_getElem? hk)),
    fun j hj => h.ending.2 j (List.mem_of_mem_eraseIdx hj)⟩

theorem inv_take {m : Machine} (h : Inv m) {i : Nat} {r : Run} (hr : m.queue[i]? = some r)
    (hcurrent : m.current = none) :
    Inv { m with queue := m.queue.eraseIdx i, current := some (r, .taken) } := by
  have hruns : ((m.queue.eraseIdx i ++ [r]).map Run.chain).Perm ((runs m).map Run.chain) := by
    simp only [runs, hcurrent, Option.map_none, Option.toList_none, List.append_nil]
    exact (List.perm_append_singleton r _ |>.trans (perm_eraseIdx hr)).map _
  refine ⟨?_, ?_, hruns.nodup_iff.mpr h.nodup, ?_, h.starting, h.ending⟩
  · exact fun r' hr' => h.queue r' (List.mem_of_mem_eraseIdx hr')
  · intro r' phase hphase
    cases hphase
    exact ⟨h.queue r (List.mem_of_getElem? hr), nofun⟩
  · intro j c hc hdisturbed
    obtain ⟨hflag, hstate⟩ := h.kept j c hc hdisturbed
    exact ⟨hflag, hstate.imp hruns.mem_iff.mpr id⟩

/-- The run in flight comes to another phase. -/
theorem inv_phase {m : Machine} (h : Inv m) {r r' : Run} {phase phase' : Phase}
    (hcurrent : m.current = some (r, phase))
    (hchain : r'.chain = r.chain) (htracks : Tracks m.chains r' (progress r' phase'))
    (hcalling : phase' = .calling → 0 < r'.mCurrentCount) :
    Inv { m with current := some (r', phase') } := by
  have hruns : (m.queue ++ [r']).map Run.chain = (runs m).map Run.chain := by
    simp [runs, hcurrent, hchain]
  refine ⟨h.queue, ?_, ?_, ?_, h.starting, h.ending⟩
  · intro r'' phase'' hphase
    cases hphase
    exact ⟨htracks, hcalling⟩
  · show ((m.queue ++ [r']).map Run.chain).Nodup
    rw [hruns]
    exact h.nodup
  · intro i c hc hdisturbed
    show m.mIsWorking = true ∧ (i ∈ (m.queue ++ [r']).map Run.chain ∨ c.executed = c.totalCount)
    rw [hruns]
    exact h.kept i c hc hdisturbed

/-- The run in flight ends for good: its chain is disturbed, or it is through. -/
theorem inv_leave {m : Machine} (h : Inv m) {r : Run} {phase : Phase}
    (hcurrent : m.current = some (r, phase))
    (hover : m.mIsWorking = true → Tracks m.chains r r.totalCount) :
    Inv { m with current := none } := by
  have hruns : (runs m).map Run.chain = m.queue.map Run.chain ++ [r.chain] := by
    simp [runs, hcurrent]
  refine ⟨h.queue, nofun, ?_, ?_, h.starting, h.ending⟩
  · simpa [runs] using (hruns ▸ h.nodup).of_append_left
  · intro i c hc hdisturbed
    obtain ⟨hflag, halive | hdone⟩ := h.kept i c hc hdisturbed
    · rw [hruns] at halive
      obtain hqueue | hr := List.mem_append.mp halive
      · exact ⟨hflag, .inl (by simpa [runs] using hqueue)⟩
      · obtain rfl := List.mem_singleton.mp hr
        obtain ⟨c', hc', htotal, hexecuted, -⟩ := hover hflag
        obtain rfl : c = c' := by simpa [hc] using hc'
        exact ⟨hflag, .inr (hexecuted.trans htotal.symm)⟩
    · exact ⟨hflag, .inr hdone⟩

/-- The job is called: its chain counts it, and no other does. -/
theorem inv_calling {m : Machine}
    (h : Inv m) {r : Run} (hcurrent : m.current = some (r, .calling)) (late : Nat) :
    Inv { m with current := some (r, .called), chains :=
      m.chains.modify r.chain Chain.execute, late := late } := by
  have hruns : (runs m).map Run.chain = m.queue.map Run.chain ++ [r.chain] := by
    simp [runs, hcurrent]
  obtain ⟨htracks, hpositive⟩ := h.current r .calling hcurrent
  refine ⟨?_, ?_, ?_, ?_, h.starting, by simpa using h.ending⟩
  · intro r' hr'
    have hdisjoint := List.disjoint_of_nodup_append (hruns ▸ h.nodup)
    refine (h.queue r' hr').execute_other fun heq => ?_
    exact hdisjoint (List.mem_map_of_mem hr') (List.mem_singleton.mpr heq)
  · intro r' phase hphase
    cases hphase
    have hcount : progress r .called = progress r .calling + 1 := by
      have := hpositive rfl
      simp only [progress]
      omega
    exact ⟨hcount ▸ htracks.execute, nofun⟩
  · simpa [runs, hcurrent] using h.nodup
  · intro i c hc hdisturbed
    by_cases hi : i = r.chain
    · obtain ⟨d, hd, rfl⟩ : ∃ d, m.chains[i]? = some d ∧ d.execute = c := by
        simpa [hi] using hc
      have halive : i ∈ (m.queue ++ [r]).map Run.chain := by simp [hi]
      exact ⟨(h.kept i d hd hdisturbed).1, .inl halive⟩
    · rw [List.getElem?_modify_ne _ _ (Ne.symm hi)] at hc
      simpa [runs, hcurrent] using h.kept i c hc hdisturbed

theorem inv_posting {m : Machine} (h : Inv m) {r : Run}
    (hcurrent : m.current = some (r, .posting)) :
    Inv { m with queue := m.queue ++ [r], current := none } := by
  have hruns : runs { m with queue := m.queue ++ [r], current := none } = runs m := by
    simp [runs, hcurrent]
  refine ⟨?_, nofun, hruns ▸ h.nodup, hruns ▸ h.kept, h.starting, h.ending⟩
  intro r' hr'
  obtain hold | hnew := List.mem_append.mp hr'
  · exact h.queue r' hold
  · obtain rfl := List.mem_singleton.mp hnew
    exact (h.current r' .posting hcurrent).1

theorem inv_turn {m : Machine} (h : Inv m)
    {r : Run} {phase : Phase} (hcurrent : m.current = some (r, phase)) :
    Inv (turn m r phase) := by
  obtain ⟨htracks, -⟩ := h.current r phase hcurrent
  cases phase with
  | taken =>
    simp only [turn]
    split
    next hflag => exact inv_leave h hcurrent (by simp_all)
    next =>
      split
      next hpositive => exact inv_phase h hcurrent rfl htracks fun _ => hpositive
      next hzero =>
        have hcount : progress r .called = progress r .taken := by
          simp only [progress]
          omega
        exact inv_phase h hcurrent rfl (hcount ▸ htracks) nofun
  | calling => exact inv_calling h hcurrent _
  | called =>
    simp only [turn]
    obtain ⟨c, hc, htotal, hexecuted, hle⟩ := htracks
    split
    next hmore =>
      simp only [Bool.and_eq_true, decide_eq_true_eq] at hmore
      exact inv_phase h hcurrent rfl ⟨c, hc, htotal, hexecuted, hmore.2⟩ nofun
    next hover =>
      refine inv_leave h hcurrent fun hflag => ?_
      have hlast : r.mCurrentCount = r.totalCount := by
        simp only [hflag, Bool.true_and, decide_eq_true_eq] at hover
        omega
      exact ⟨c, hc, htotal, hexecuted.trans hlast, hle⟩
  | posting => exact inv_posting h hcurrent

theorem inv_next {m u : Machine} {e : Event} (h : Inv m) (hnext : next m e = some u) : Inv u := by
  cases e with
  | startFlag totalCount =>
    simp only [next] at hnext
    split at hnext
    next => cases hnext; exact h
    next => cases hnext; exact inv_startFlag h totalCount
  | startPost i =>
    obtain ⟨c, hc, rfl⟩ := Option.map_eq_some_iff.mp hnext
    exact inv_startPost h hc
  | doneFlag =>
    cases hnext
    exact inv_doneFlag h
  | doneRemove i =>
    obtain ⟨k, hk, rfl⟩ := Option.map_eq_some_iff.mp hnext
    exact inv_doneRemove h hk
  | take i =>
    simp only [next] at hnext
    split at hnext
    next hnone =>
      obtain ⟨r, hr, rfl⟩ := Option.map_eq_some_iff.mp hnext
      exact inv_take h hr (Option.isNone_iff_eq_none.mp hnone)
    next => cases hnext
  | turn =>
    obtain ⟨⟨r, phase⟩, hcurrent, rfl⟩ := Option.map_eq_some_iff.mp hnext
    exact inv_turn h hcurrent

theorem safe_turn {m : Machine} (h : Safe m) {r : Run} {phase : Phase}
    (hcurrent : m.current = some (r, phase)) :
    Safe (turn m r phase) := by
  have hended := h.current r phase hcurrent
  cases phase with
  | taken =>
    simp only [turn]
    split
    next => exact ⟨h.late, h.queue, nofun⟩
    next hflag =>
      -- an ended chain would see the flag
      have hlive : ¬ r.chain < m.ended := fun hlt => by
        simp [(hended hlt).2 nofun] at hflag
      split
      all_goals
        refine ⟨h.late, h.queue, fun r' phase' hphase hlt => ?_⟩
        cases hphase
        exact absurd hlt hlive
  | calling =>
    have hlive : ¬ r.chain < m.ended := fun hlt => (hended hlt).1 rfl
    refine ⟨by simpa [turn, hlive] using h.late, h.queue, fun r' phase' hphase hlt => ?_⟩
    cases hphase
    exact absurd hlt hlive
  | called =>
    simp only [turn]
    split
    next hmore =>
      simp only [Bool.and_eq_true, decide_eq_true_eq] at hmore
      refine ⟨h.late, h.queue, fun r' phase' hphase hlt => ?_⟩
      cases hphase
      have hflag := (hended hlt).2 fun _ => hmore.2
      simp [hflag] at hmore
    next => exact ⟨h.late, h.queue, nofun⟩
  | posting =>
    refine ⟨h.late, fun r' hr' hlt => ?_, nofun⟩
    obtain hold | hnew := List.mem_append.mp hr'
    · exact h.queue r' hold hlt
    · obtain rfl := List.mem_singleton.mp hnew
      exact (hended hlt).2 nofun

theorem safe_next {m u : Machine} {e : Event} (hinv : Inv m) (h : Safe m) (horderly : Orderly m e)
    (hnext : next m e = some u) :
    Safe u := by
  cases e with
  | startFlag totalCount =>
    simp only [next] at hnext
    split at hnext
    next => cases hnext; exact h
    next hsome =>
      cases hnext
      obtain ⟨hqueue, hcurrent⟩ := horderly hsome
      refine ⟨h.late, fun r hr hlt => absurd hlt (hqueue r hr).not_gt, fun r phase hphase hlt => ?_⟩
      exact ⟨(h.current r phase hphase hlt).1,
        fun hgoes => absurd hlt (hcurrent r phase hphase hgoes).not_gt⟩
  | startPost i =>
    obtain ⟨c, -, rfl⟩ := Option.map_eq_some_iff.mp hnext
    refine ⟨h.late, fun r hr hlt => ?_, h.current⟩
    obtain hold | hnew := List.mem_append.mp hr
    · exact h.queue r hold hlt
    · obtain rfl := List.mem_singleton.mp hnew
      exact absurd hlt hinv.ending.1.not_gt
  | doneFlag =>
    cases hnext
    exact ⟨h.late, fun _ _ _ => rfl, fun r phase hphase hlt =>
      ⟨(h.current r phase hphase hlt).1, fun _ => rfl⟩⟩
  | doneRemove i =>
    obtain ⟨k, hk, rfl⟩ := Option.map_eq_some_iff.mp hnext
    refine ⟨h.late, nofun, fun r phase hphase hlt => ?_⟩
    obtain hold | hnew := lt_max_iff.mp hlt
    · exact h.current r phase hphase hold
    · exact horderly k r phase hk hphase hnew
  | take i =>
    simp only [next] at hnext
    split at hnext
    next =>
      obtain ⟨r, hr, rfl⟩ := Option.map_eq_some_iff.mp hnext
      refine ⟨h.late, fun r' hr' => h.queue r' (List.mem_of_mem_eraseIdx hr'),
        fun r' phase hphase hlt => ?_⟩
      cases hphase
      exact ⟨nofun, fun _ => h.queue r (List.mem_of_getElem? hr) hlt⟩
    next => cases hnext
  | turn =>
    obtain ⟨⟨r, phase⟩, hcurrent, rfl⟩ := Option.map_eq_some_iff.mp hnext
    exact safe_turn h hcurrent

/-- The handler goes on by itself. -/
def Event.OfHandler : Event → Prop
  | .take _ | .turn => True
  | _ => False

/-- How many steps a run has before it at most. -/
def Run.rank (r : Run) : Nat := 5 * (r.totalCount - r.mCurrentCount)

def Phase.rank : Phase → Nat
  | .taken => 4
  | .calling => 3
  | .called => 2
  | .posting => 6

def rank (m : Machine) : Nat :=
  (m.queue.map fun r => r.rank + 5).sum +
    (m.current.map fun (r, phase) => r.rank + phase.rank).getD 0

theorem rank_next {m u : Machine} {e : Event} (he : e.OfHandler) (hnext : next m e = some u) :
    rank u < rank m := by
  cases e with
  | take i =>
    simp only [next] at hnext
    split at hnext
    next hnone =>
      obtain ⟨r, hr, rfl⟩ := Option.map_eq_some_iff.mp hnext
      have hsum := ((perm_eraseIdx hr).map fun r => r.rank + 5).sum_eq
      simp only [List.map_cons, List.sum_cons] at hsum
      simp only [rank, Option.isNone_iff_eq_none.mp hnone, Phase.rank, Option.map_some,
        Option.map_none, Option.getD_some,
        Option.getD_none]
      omega
    next => cases hnext
  | turn =>
    obtain ⟨⟨r, phase⟩, hcurrent, rfl⟩ := Option.map_eq_some_iff.mp hnext
    cases phase with
    | taken =>
      simp only [turn]
      split
      next => simp [rank, hcurrent, Phase.rank]
      next => split <;> simp [rank, hcurrent, Phase.rank]
    | calling => simp [turn, rank, hcurrent, Phase.rank]
    | called =>
      simp only [turn]
      split
      next hmore =>
        simp only [Bool.and_eq_true, decide_eq_true_eq] at hmore
        simp [rank, hcurrent, Phase.rank, Run.rank]
        omega
      next => simp [rank, hcurrent, Phase.rank]
    | posting => simp [turn, rank, hcurrent, Phase.rank]
  | startFlag | startPost | doneFlag | doneRemove => cases he

theorem rank_run {m u : Machine} {es : List Event} (hes : ∀ e ∈ es, e.OfHandler)
    (hrun : EventRuns.run next m es = some u) :
    rank u + es.length ≤ rank m := by
  induction es generalizing m with
  | nil =>
    cases hrun
    exact le_rfl
  | cons e es ih =>
    obtain ⟨t, hnext, hrest⟩ := Option.bind_eq_some_iff.mp hrun
    have hstep := rank_next (hes e List.mem_cons_self) hnext
    have := ih (fun e' he' => hes e' (List.mem_cons_of_mem e he')) hrest
    simp only [List.length_cons]
    omega

/-- Nothing is left for the handler to do. -/
def Idle (m : Machine) : Prop := ∀ e : Event, e.OfHandler → next m e = none

theorem runs_of_idle {m : Machine} (h : Idle m) : runs m = [] := by
  have hcurrent : m.current = none := by simpa [next] using h .turn trivial
  have hqueue : m.queue = [] := by simpa [next, hcurrent] using h (.take 0) trivial
  simp [runs, hcurrent, hqueue]

theorem orderly_of_handler (m : Machine) (e : Event) (he : e.OfHandler) : Orderly m e := by
  cases e with
  | take | turn => trivial
  | startFlag | startPost | doneFlag | doneRemove => cases he

theorem inv_and_safe_of_reached {m : Machine}
    (h : EventRuns.Reached next Orderly initial m) : Inv m ∧ Safe m :=
  @EventRuns.Reached.invariant _ _ next Orderly (fun m => Inv m ∧ Safe m) initial m h
    ⟨inv_initial, safe_initial⟩
    fun _ _ _ hinv horderly hnext => ⟨inv_next hinv.1 hnext, safe_next hinv.1 hinv.2 horderly hnext⟩

/-- In a run whose steps are all orderly no ended chain runs its job, and none runs it
more often than it was asked to; left to itself the handler comes to an end, with every
chain that no `done` disturbed through. -/
theorem good_of_orderly (es : List Event) (m : Machine)
    (hrun : EventRuns.run next initial es = some m)
    (horderly : EventRuns.Meets next Orderly initial es) :
    Good m ∧ ∀ (es' : List Event) (m' : Machine), (∀ e ∈ es', e.OfHandler) →
    EventRuns.run next m es' = some m' →
      es'.length ≤ rank m ∧
        (Idle m' → ∀ (i : Nat) (c : Chain), m'.chains[i]? = some c → c.disturbed = false →
          c.executed = c.totalCount) := by
  have hreached := EventRuns.reached_of_run hrun horderly
  obtain ⟨hinv, hsafe⟩ := inv_and_safe_of_reached hreached
  refine ⟨good_of_inv hinv hsafe, fun es' m' hes' hrun' => ⟨?_, fun hidle i c hc hdisturbed => ?_⟩⟩
  · have := rank_run hes' hrun'
    omega
  · have hmeets : EventRuns.Meets next (fun _ e => Event.OfHandler e) m es' :=
      EventRuns.meets_of_events m es' hes'
    have hreached' := (EventRuns.reached_of_run hrun' hmeets).mono orderly_of_handler
    obtain ⟨hinv', hsafe'⟩ := inv_and_safe_of_reached (hreached.trans hreached')
    exact ((good_of_inv hinv' hsafe').executed i c hc hdisturbed).2 (by simp [runs_of_idle hidle])

/-- A job for one run, done and started once more for two behind it. -/
def restarted : List Event :=
  [.startFlag 1, .startPost 0, .take 0, .turn, .turn, .turn, .take 0, .turn, .turn, .turn,
    .doneFlag, .doneRemove 0,
    .startFlag 2, .startPost 0, .take 0, .turn, .turn, .turn, .take 0, .turn, .turn, .turn, .turn]

def restartedEnd : Machine :=
  { mIsWorking := true, ended := 1, queue := [{ chain := 1, totalCount := 2, mCurrentCount := 2 }]
    chains :=
      [{ totalCount := 1, executed := 1, disturbed := true }, { totalCount := 2, executed := 1 }] }

theorem good_restarted : Good restartedEnd := by
  refine (good_of_orderly restarted restartedEnd rfl ?_).1
  refine EventRuns.meets_step (fun _ => ⟨nofun, nofun⟩) rfl ?_
  iterate 10 refine EventRuns.meets_step trivial rfl ?_
  refine EventRuns.meets_step nofun rfl ?_
  refine EventRuns.meets_step (fun _ => ⟨nofun, nofun⟩) rfl ?_
  iterate 10 refine EventRuns.meets_step trivial rfl ?_
  exact trivial

/-- The job of the first chain calls `done` and `start` in its first run: the chain that was
ended goes on and calls it a second time. -/
def revived : List Event :=
  [.startFlag 2, .startPost 0, .take 0, .turn, .turn, .turn, .take 0, .turn, .turn,
    .doneFlag, .doneRemove 0,
    .startFlag 1, .startPost 0, .turn, .turn, .take 1, .turn, .turn]

theorem not_good_revived : ∃ m, EventRuns.run next initial revived = some m ∧ ¬ Good m :=
  ⟨_, rfl, fun h => absurd h.late (by decide)⟩

end RedoWorker
