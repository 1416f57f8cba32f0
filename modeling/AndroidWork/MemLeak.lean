import AndroidWork.EventRuns

/-!
# The leak map

`show_stack` keeps `memleak` in the hooks of malloc, realloc and free. The
system allocator gives the addresses, `Step` and `dladdr` the frames of a call.
-/
namespace MemLeak

open EventRuns

abbrev Addr := BitVec 32
abbrev Text := List (BitVec 8)

def memcheck : Text := [0x6d, 0x65, 0x6d, 0x63, 0x68, 0x65, 0x63, 0x6b]
/-- libsogouime.so -/
def checkList : Text :=
  [0x6c, 0x69, 0x62, 0x73, 0x6f, 0x67, 0x6f, 0x75, 0x69, 0x6d, 0x65, 0x2e, 0x73, 0x6f]
/-- Znwj, operator new. -/
def znwj : Text := [0x5a, 0x6e, 0x77, 0x6a]

/-- What `Step` returns, and what `dladdr` finds where it stops. -/
structure Frame where
  ret : Int
  fname : Option Text
  sname : Option Text
  offset : BitVec 32

abbrev Backtrace := Nat → Frame

/-- Not null, and `strstr` finds the needle. -/
def finds (haystack : Option Text) (needle : Text) : Bool :=
  haystack.any fun text => decide (needle <:+: text)

inductive Op where
  | malloc
  | realloc
  | free

/-- `multimap<int,int>`. -/
abbrev Memleak := List (Addr × BitVec 32)

def showFrame (op : Op) (oldAddr newAddr : Addr) (f : Frame) (memleak : Memleak) : Memleak :=
  if finds f.fname memcheck then memleak
  else if finds f.fname checkList then
    if finds f.sname znwj then memleak
    else
      match op with
      | .malloc => memleak ++ [(newAddr, f.offset)]
      | .realloc => memleak
      | .free => memleak.filter (·.1 ≠ oldAddr)
  else memleak

/-- The loop with `turns` turns left, before the frame `step`. -/
def showStackLoop (op : Op) (oldAddr newAddr : Addr) (trace : Backtrace) :
    Nat → Nat → Int → Memleak → Memleak
  | 0, _, _, memleak => memleak
  | turns + 1, step, ret, memleak =>
    if 0 < ret then
      showStackLoop op oldAddr newAddr trace turns (step + 1) (trace step).ret
        (showFrame op oldAddr newAddr (trace step) memleak)
    else memleak

abbrev depth : Nat := 5

def showStack (op : Op) (oldAddr newAddr : Addr) (trace : Backtrace)
    (memleak : Memleak) : Memleak :=
  showStackLoop op oldAddr newAddr trace depth 0 1 memleak

/-- The map, and for every live block the backtrace of its last allocation. -/
structure System where
  memleak : Memleak
  live : Addr → Option Backtrace

def initial : System := ⟨[], fun _ => none⟩

/-- A call of a hook; `result` is what the system's function returns. -/
inductive Event where
  | malloc (trace : Backtrace) (result : Addr)
  | realloc (ptr : Addr) (size : BitVec 32) (trace : Backtrace) (result : Addr)
  | free (ptr : Addr) (trace : Backtrace)

/-- A new block is not live yet. -/
def System.gives (s : System) (result : Addr) : Bool := result = 0 || (s.live result).isNone

def System.takes (s : System) (ptr : Addr) : Bool := ptr = 0 || (s.live ptr).isSome

/-- A block that realloc cannot move stays, unless its new size is 0. -/
def System.reallocated (s : System) (ptr : Addr) (size : BitVec 32)
    (trace : Backtrace) (result : Addr) :
    Addr → Option Backtrace :=
  if result = 0 then
    if size = 0 then Function.update s.live ptr none else s.live
  else Function.update (Function.update s.live ptr none) result (some trace)

def next (s : System) : Event → Option System
  | .malloc trace result =>
    if s.gives result then
      some { memleak := showStack .malloc 0 result trace s.memleak
             live := if result = 0 then s.live else Function.update s.live result (some trace) }
    else none
  | .realloc ptr size trace result =>
    if s.takes ptr && (result = ptr || s.gives result) then
      some { memleak := showStack .realloc ptr result trace s.memleak
             live := s.reallocated ptr size trace result }
    else none
  | .free ptr trace =>
    if s.takes ptr then
      some { memleak := showStack .free ptr 0 trace s.memleak
             live := Function.update s.live ptr none }
    else none

def Frame.checked (f : Frame) : Bool :=
  !finds f.fname memcheck && finds f.fname checkList && !finds f.sname znwj

/-- One of the `turns` frames from `step` on is of the checked library, and all before it go on. -/
def Checks (trace : Backtrace) (turns step : Nat) : Prop :=
  ∃ n, step ≤ n ∧ n < step + turns ∧ (∀ k, step ≤ k → k < n → 0 < (trace k).ret) ∧ (trace n).checked

def Checked (trace : Backtrace) : Prop := Checks trace depth 0

/-- The block at `a` is live and was last allocated by the checked library. -/
def System.leaks (s : System) (a : Addr) : Prop := ∃ trace, s.live a = some trace ∧ Checked trace

/-- The addresses in the map are the blocks of the checked library. -/
def Exact (s : System) : Prop := ∀ a, a ∈ s.memleak.map Prod.fst ↔ s.leaks a

/-- No failed malloc of the checked library, no realloc that ends or begins one of
its blocks, and no free of one of its blocks by others. -/
def Followed (s : System) : Event → Prop
  | .malloc trace result => Checked trace → result ≠ 0
  | .realloc ptr size trace result =>
    if result = 0 then size = 0 → ¬ s.leaks ptr
    else if result = ptr then s.leaks ptr ↔ Checked trace
    else ¬ s.leaks ptr ∧ ¬ Checked trace
  | .free ptr trace => s.leaks ptr → Checked trace

/-- What a matching frame makes of `p`, that the map has the address `a`. -/
def Op.after (op : Op) (oldAddr newAddr a : Addr) (p : Prop) : Prop :=
  match op with
  | .malloc => p ∨ a = newAddr
  | .realloc => p
  | .free => p ∧ a ≠ oldAddr

theorem Op.after_after {op : Op} {oldAddr newAddr a : Addr} {p : Prop} :
    op.after oldAddr newAddr a (op.after oldAddr newAddr a p) ↔ op.after oldAddr newAddr a p := by
  cases op <;> simp only [Op.after] <;> tauto

theorem showFrame_unchecked {op : Op} {oldAddr newAddr : Addr} {f : Frame} {memleak : Memleak}
    (hf : ¬ f.checked) : showFrame op oldAddr newAddr f memleak = memleak := by
  unfold showFrame
  unfold Frame.checked at hf
  split
  · rfl
  · split
    · split
      · rfl
      · simp_all
    · rfl

theorem mem_showFrame {op : Op} {oldAddr newAddr a : Addr} {f : Frame} {memleak : Memleak}
    (hf : f.checked) :
    a ∈ (showFrame op oldAddr newAddr f memleak).map Prod.fst ↔
      op.after oldAddr newAddr a (a ∈ memleak.map Prod.fst) := by
  simp only [Frame.checked, Bool.and_eq_true, Bool.not_eq_true'] at hf
  unfold showFrame
  rw [hf.1.1, hf.1.2, hf.2]
  cases op with
  | malloc => simp [Op.after]
  | realloc => simp [Op.after]
  | free => simp [Op.after, and_comm]

theorem checks_succ {trace : Backtrace} {turns step : Nat} :
    Checks trace (turns + 1) step ↔ (trace step).checked ∨ 0 < (trace step).ret ∧
    Checks trace turns (step + 1) := by
  constructor
  · rintro ⟨n, hge, hlt, hgo, hn⟩
    rcases Nat.eq_or_lt_of_le hge with rfl | hgt
    · exact .inl hn
    · exact .inr ⟨hgo step le_rfl hgt, n, hgt, by omega, fun k hk => hgo k (by omega), hn⟩
  · rintro (hchecked | ⟨hret, n, hge, hlt, hgo, hn⟩)
    · exact ⟨step, le_rfl, by omega, fun k hk hk' => by omega, hchecked⟩
    · refine ⟨n, by omega, by omega, fun k hk hk' => ?_, hn⟩
      rcases Nat.eq_or_lt_of_le hk with rfl | hgt
      · exact hret
      · exact hgo k hgt hk'

/-- The loop changes the map once, however many of its frames match. -/
theorem mem_showStackLoop {op : Op} {oldAddr newAddr a : Addr} {trace : Backtrace}
    (turns step : Nat) {ret : Int}
    (memleak : Memleak) (hret : 0 < ret) :
    (Checks trace turns step →
      (a ∈ (showStackLoop op oldAddr newAddr trace turns step ret memleak).map Prod.fst ↔
      op.after oldAddr newAddr a (a ∈ memleak.map Prod.fst))) ∧
    (¬ Checks trace turns step → showStackLoop op oldAddr newAddr trace turns step ret
      memleak = memleak) := by
  induction turns generalizing step ret memleak with
  | zero => exact ⟨fun ⟨n, hge, hlt, _⟩ => by omega, fun _ => rfl⟩
  | succ turns ih =>
    rw [showStackLoop, if_pos hret, checks_succ]
    have hstopped : ¬ 0 < (trace step).ret → ∀ memleak',
        showStackLoop op oldAddr newAddr trace turns (step + 1)
          (trace step).ret memleak' = memleak' := by
      intro hstop memleak'
      cases turns with
      | zero => rfl
      | succ turns => exact if_neg hstop
    by_cases hchecked : (trace step).checked
    · refine ⟨fun _ => ?_, fun h => absurd (Or.inl hchecked) h⟩
      by_cases hgo : 0 < (trace step).ret
      · obtain ⟨hmatch, hnone⟩ :=
          ih (step + 1) (showFrame op oldAddr newAddr (trace step) memleak) hgo
        by_cases hrest : Checks trace turns (step + 1)
        · rw [hmatch hrest, mem_showFrame hchecked, Op.after_after]
        · rw [hnone hrest, mem_showFrame hchecked]
      · rw [hstopped hgo, mem_showFrame hchecked]
    · rw [showFrame_unchecked hchecked]
      by_cases hgo : 0 < (trace step).ret
      · obtain ⟨hmatch, hnone⟩ := ih (step + 1) memleak hgo
        refine ⟨fun h => hmatch (h.resolve_left hchecked).2,
          fun h => hnone fun hrest => h (.inr ⟨hgo, hrest⟩)⟩
      · exact ⟨fun h => absurd (h.resolve_left hchecked).1 hgo, fun _ => hstopped hgo memleak⟩

theorem mem_showStack {op : Op} {oldAddr newAddr a : Addr} {trace : Backtrace} {memleak : Memleak}
    (h : Checked trace) : a ∈ (showStack op oldAddr newAddr trace memleak).map Prod.fst ↔
      op.after oldAddr newAddr a (a ∈ memleak.map Prod.fst) :=
  (mem_showStackLoop depth 0 memleak one_pos).1 h

theorem showStack_unchecked {op : Op} {oldAddr newAddr : Addr} {trace : Backtrace}
    {memleak : Memleak}
    (h : ¬ Checked trace) : showStack op oldAddr newAddr trace memleak = memleak :=
  (mem_showStackLoop (a := 0) depth 0 memleak one_pos).2 h

theorem mem_showStack_realloc {oldAddr newAddr a : Addr} {trace : Backtrace} {memleak : Memleak} :
    a ∈ (showStack .realloc oldAddr newAddr trace memleak).map Prod.fst ↔
    a ∈ memleak.map Prod.fst := by
  by_cases h : Checked trace
  · exact mem_showStack h
  · rw [showStack_unchecked h]

variable {s t : System}

theorem leaks_same {memleak : Memleak} {live : Addr → Option Backtrace} {a : Addr}
    {trace : Backtrace} :
    (System.mk memleak (Function.update live a (some trace))).leaks a ↔ Checked trace := by
  simp [System.leaks]

theorem not_leaks_freed {memleak : Memleak} {live : Addr → Option Backtrace} {a : Addr} :
    ¬ (System.mk memleak (Function.update live a none)).leaks a := by
  simp [System.leaks]

theorem leaks_other {memleak M : Memleak} {live : Addr → Option Backtrace} {a b : Addr}
    {block : Option Backtrace} (h : a ≠ b) :
    (System.mk memleak (Function.update live b block)).leaks a ↔ (System.mk M live).leaks a := by
  simp [System.leaks, Function.update_of_ne h]

theorem not_leaks_of_none {a : Addr} (h : s.live a = none) : ¬ s.leaks a := by
  rintro ⟨trace, htrace, -⟩
  rw [h] at htrace
  cases htrace

theorem gives_iff {result : Addr} : s.gives result ↔ result = 0 ∨ s.live result = none := by
  simp [System.gives]

/-- No block is at 0. -/
theorem next_live_zero {e : Event} (hs : s.live 0 = none) (hnext : next s e = some t) :
    t.live 0 = none := by
  cases e with
  | malloc trace result =>
    rw [next] at hnext
    split at hnext
    · cases hnext
      show (if result = 0 then s.live else _) 0 = none
      split
      · exact hs
      · rename_i hne
        rwa [Function.update_of_ne (Ne.symm hne)]
    · cases hnext
  | realloc ptr size trace result =>
    have hptr : Function.update s.live ptr none 0 = none := by
      rcases eq_or_ne 0 ptr with rfl | hne
      · exact Function.update_self _ _ _
      · rwa [Function.update_of_ne hne]
    rw [next] at hnext
    split at hnext
    · cases hnext
      show s.reallocated ptr size trace result 0 = none
      unfold System.reallocated
      split
      · split
        · exact hptr
        · exact hs
      · rename_i hne
        rwa [Function.update_of_ne (Ne.symm hne)]
    · cases hnext
  | free ptr trace =>
    rw [next] at hnext
    split at hnext
    · cases hnext
      show Function.update s.live ptr none 0 = none
      rcases eq_or_ne 0 ptr with rfl | hne
      · exact Function.update_self _ _ _
      · rwa [Function.update_of_ne hne]
    · cases hnext

theorem exact_malloc {trace : Backtrace} {result : Addr} (hzero : s.live 0 = none) (hs : Exact s)
    (hnext : next s (.malloc trace result) = some t) :
    Exact t ↔ Followed s (.malloc trace result) := by
  rw [next] at hnext
  split at hnext
  · rename_i hgives
    cases hnext
    rcases eq_or_ne result 0 with rfl | hne
    · by_cases hchecked : Checked trace
      · refine iff_of_false (fun h => ?_) (fun h => h hchecked rfl)
        have hmem : 0 ∈ (showStack .malloc 0 0 trace s.memleak).map Prod.fst :=
          (mem_showStack hchecked).mpr (Or.inr rfl)
        exact not_leaks_of_none hzero ((h 0).mp hmem)
      · refine iff_of_true (fun a => ?_) (fun h => absurd h hchecked)
        rw [showStack_unchecked hchecked]
        exact hs a
    · refine iff_of_true (fun a => ?_) (fun _ => hne)
      have hfree : ¬ s.leaks result := not_leaks_of_none ((gives_iff.mp hgives).resolve_left hne)
      rw [if_neg hne]
      by_cases hchecked : Checked trace
      · rw [mem_showStack hchecked, Op.after, hs a]
        rcases eq_or_ne a result with rfl | ha
        · exact iff_of_true (.inr rfl) (leaks_same.mpr hchecked)
        · rw [leaks_other ha, or_iff_left ha]
      · rw [showStack_unchecked hchecked, hs a]
        rcases eq_or_ne a result with rfl | ha
        · exact iff_of_false hfree fun h => hchecked (leaks_same.mp h)
        · rw [leaks_other ha]
  · cases hnext

theorem exact_free {trace : Backtrace} {ptr : Addr} (hs : Exact s)
    (hnext : next s (.free ptr trace) = some t) :
    Exact t ↔ Followed s (.free ptr trace) := by
  rw [next] at hnext
  split at hnext
  · cases hnext
    by_cases hchecked : Checked trace
    · refine iff_of_true (fun a => ?_) (fun _ => hchecked)
      rw [mem_showStack hchecked, Op.after, hs a]
      rcases eq_or_ne a ptr with rfl | ha
      · exact iff_of_false (fun h => h.2 rfl) not_leaks_freed
      · rw [leaks_other ha, and_iff_left ha]
    · have hfollowed : Followed s (.free ptr trace) ↔ ¬ s.leaks ptr :=
        ⟨fun h hleaks => hchecked (h hleaks), fun h hleaks => absurd hleaks h⟩
      rw [hfollowed, showStack_unchecked hchecked]
      constructor
      · intro h hleaks
        exact not_leaks_freed ((h ptr).mp ((hs ptr).mpr hleaks))
      · intro hleaks a
        rw [hs a]
        rcases eq_or_ne a ptr with rfl | ha
        · exact iff_of_false hleaks not_leaks_freed
        · rw [leaks_other ha]
  · cases hnext

/-- realloc leaves the map as it is. -/
theorem exact_unchanged {memleak : Memleak} {live : Addr → Option Backtrace} (hs : Exact s)
    (hsame : ∀ a, a ∈ memleak.map Prod.fst ↔ a ∈ s.memleak.map Prod.fst) :
    Exact ⟨memleak, live⟩ ↔ ∀ a, (System.mk memleak live).leaks a ↔ s.leaks a := by
  constructor
  · intro h a
    rw [← h a, hsame, hs a]
  · intro h a
    rw [h a, ← hs a]
    exact hsame a

theorem exact_realloc {ptr result : Addr} {size : BitVec 32} {trace : Backtrace} (hs : Exact s)
    (hnext : next s (.realloc ptr size trace result) = some t) :
    Exact t ↔ Followed s (.realloc ptr size trace result) := by
  rw [next] at hnext
  split at hnext
  · rename_i hgives
    rw [Bool.and_eq_true, Bool.or_eq_true, decide_eq_true_iff, gives_iff] at hgives
    cases hnext
    rw [exact_unchanged hs fun a => mem_showStack_realloc]
    unfold System.reallocated
    simp only [Followed]
    rcases eq_or_ne result 0 with rfl | hne
    · rw [if_pos rfl, if_pos rfl]
      rcases eq_or_ne size 0 with rfl | hsize
      · rw [if_pos rfl, imp_iff_right rfl]
        constructor
        · intro h hleaks
          exact not_leaks_freed ((h ptr).mpr hleaks)
        · intro hleaks a
          rcases eq_or_ne a ptr with rfl | ha
          · exact iff_of_false not_leaks_freed hleaks
          · exact leaks_other ha
      · rw [if_neg hsize]
        exact iff_of_true (fun a => Iff.rfl) fun h => absurd h hsize
    · rw [if_neg hne, if_neg hne]
      rcases eq_or_ne result ptr with rfl | hmoved
      · rw [if_pos rfl, Function.update_idem]
        constructor
        · intro h
          exact (h result).symm.trans leaks_same
        · intro hleaks a
          rcases eq_or_ne a result with rfl | ha
          · exact leaks_same.trans hleaks.symm
          · exact leaks_other ha
      · rw [if_neg hmoved]
        have hfree : ¬ s.leaks result :=
          not_leaks_of_none ((hgives.2.resolve_left hmoved).resolve_left hne)
        constructor
        · intro h
          refine ⟨fun hleaks => ?_, fun hchecked => hfree ((h result).mp (leaks_same.mpr hchecked))⟩
          have hold := (leaks_other (M := []) (Ne.symm hmoved)).mp ((h ptr).mpr hleaks)
          exact not_leaks_freed hold
        · rintro ⟨hleaks, hchecked⟩ a
          rcases eq_or_ne a result with rfl | ha
          · exact iff_of_false (fun h => hchecked (leaks_same.mp h)) hfree
          · rw [leaks_other (M := []) ha]
            rcases eq_or_ne a ptr with rfl | ha'
            · exact iff_of_false not_leaks_freed hleaks
            · exact leaks_other ha'
  · cases hnext

theorem exact_next {e : Event} (hzero : s.live 0 = none) (hs : Exact s)
    (hnext : next s e = some t) :
    Exact t ↔ Followed s e := by
  cases e with
  | malloc trace result => exact exact_malloc hzero hs hnext
  | realloc ptr size trace result => exact exact_realloc hs hnext
  | free ptr trace => exact exact_free hs hnext

/-- The map is exact throughout the runs whose every step is followed. -/
theorem exact_iff {es : List Event} (hrun : run next initial es = some t) :
    Always next Exact initial es ↔ Meets next Followed initial es := by
  refine always_iff_meets (fun s e t hs => next_live_zero hs)
    (fun s e t hzero hs => exact_next hzero hs) rfl (fun a => ?_) hrun
  exact iff_of_false List.not_mem_nil (not_leaks_of_none rfl)

/-- A call from a function of a library, and nothing above it. -/
def calledFrom (fname : Text) : Backtrace := fun _ => ⟨0, some fname, none, 0⟩

theorem exact_iff_freed :
    ∃ t, run next initial [.malloc (calledFrom checkList) 8, .free 8 (calledFrom checkList)] =
      some t ∧
      (Always next Exact initial [.malloc (calledFrom checkList) 8,
        .free 8 (calledFrom checkList)] ↔
        Meets next Followed initial [.malloc (calledFrom checkList) 8,
          .free 8 (calledFrom checkList)]) :=
  ⟨_, rfl, exact_iff rfl⟩

/-- libc.so -/
def libc : Text := [0x6c, 0x69, 0x62, 0x63, 0x2e, 0x73, 0x6f]

/-- The checked library's block is freed by another one. -/
theorem not_exact_freedElsewhere : ∃ t,
    run next initial [.malloc (calledFrom checkList) 8, .free 8 (calledFrom libc)] = some t ∧
    t.memleak = [(8, 0)] ∧ t.live 8 = none ∧ ¬ Exact t := by
  refine ⟨_, rfl, rfl, rfl, fun h => ?_⟩
  obtain ⟨trace, hlive, -⟩ := (h 8).mp (by decide)
  cases hlive

end MemLeak
