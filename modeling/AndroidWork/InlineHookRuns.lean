import AndroidWork.InlineHook
import Mathlib.Logic.Relation
import Mathlib.Tactic

/-!
# Runs over the table of inline hooks

What single turns the calls are made of, what a turn does to the table, and what
holds of it after any sequence of calls.
-/
namespace InlineHook

open ArmMachine (Byte Half Word Memory put bytesAt)

/-- The calls, and what the program does between them. -/
inductive Call where
  | registerInlineHook (target_addr new_addr : Word) (proto_addr : Option Word) (page : Word)
  | inlineHook (target_addr : Word)
  | inlineUnHook (target_addr : Word)
  | inlineHookAll
  | inlineUnHookAll
  | other (mem : Memory) (threads : List Word) (maps : List Mapping)

def call (p : Process) : Call → Option Process
  | .registerInlineHook target_addr new_addr proto_addr page =>
    (registerInlineHook p target_addr new_addr proto_addr page).map Prod.snd
  | .inlineHook target_addr => some (inlineHook p target_addr).2
  | .inlineUnHook target_addr => some (inlineUnHook p target_addr).2
  | .inlineHookAll => some (inlineHookAll p)
  | .inlineUnHookAll => some (inlineUnHookAll p)
  | .other mem threads maps => some { p with mem, threads, maps }

/-- The calls that are made satisfy `may`. -/
def Reachable (may : Process → Call → Prop) : Process → Process → Prop :=
  Relation.ReflTransGen fun p p' => ∃ c, may p c ∧ call p c = some p'

/-- The memory with a page mapped at `page`. -/
def mapped (p : Process) (page : Word) : Memory := put p.mem page (List.replicate PAGE_SIZE 0)

def windowLength (target_addr : Word) : Nat := if TEST_BIT0 target_addr then 12 else 8

/-- The item of a registration. -/
def newItem (p : Process) (target_addr new_addr : Word) (proto_addr : Option Word)
    (page : Word) : InlineHookItem :=
  let orig_instructions := bytesAt p.mem (CLEAR_BIT0 target_addr) (windowLength target_addr)
  let r := relocateInstruction (ArmMachine.word (mapped p page)) target_addr orig_instructions
  ⟨target_addr, new_addr, proto_addr, orig_instructions, (p.item p.size).boundaries ++ r.2, page,
    windowLength target_addr, .REGISTERED⟩

/-- The process behind a registration. -/
def registered (p : Process) (target_addr new_addr : Word) (proto_addr : Option Word)
    (page : Word) : Process :=
  let item := newItem p target_addr new_addr proto_addr page
  let r := relocateInstruction (ArmMachine.word (mapped p page)) target_addr item.orig_instructions
  { ({ p with size := p.size + 1 } : Process).setItem p.size
    item with mem := put (mapped p page) page r.1 }

inductive Turn (may : Process → Call → Prop) (p : Process) : Process → Prop where
  | freeze (items : List InlineHookItem) (action : Action) : Turn may p (freeze p items action)
  | other {mem : Memory} {threads : List Word} {maps : List Mapping}
    (h : may p (.other mem threads maps)) :
    Turn may p { p with mem, threads, maps }
  | register {target_addr new_addr : Word} {proto_addr : Option Word} {page : Word}
    (h : may p (.registerInlineHook target_addr new_addr proto_addr page))
      (hnew : findInlineHookItem p target_addr = none)
    (hsize : p.size < 1024)
      (hfits : (newItem p target_addr new_addr proto_addr page).boundaries.length ≤ 4) :
    Turn may p (registered p target_addr new_addr proto_addr page)
  | hook {i : Nat} (hi : i < p.size) (hstatus : (p.item i).status = .REGISTERED) :
    Turn may p (doInlineHook p i)
  | unHook {i : Nat} (h : ∃ q, may q .inlineUnHookAll ∨ ∃ t,
    may q (.inlineUnHook t)) (hi : i < p.size)
    (hstatus : (p.item i).status = .HOOKED) : Turn may p (doInlineUnHook p i)

def Turns (may : Process → Call → Prop) : Process → Process → Prop :=
  Relation.ReflTransGen (Turn may)

section Turns

variable {may : Process → Call → Prop} {p p' : Process}

theorem registerInlineHook_eq {t new : Word} (h : findInlineHookItem p t = none)
    (hexec : isExecutableAddr p.maps t = true)
    (hexec' : isExecutableAddr p.maps new = true) (proto_addr : Option Word) (page : Word) :
    registerInlineHook p t new proto_addr page =
      if 1024 ≤ p.size ∨ 4 < (newItem p t new proto_addr page).boundaries.length then none
      else some (.ELE7EN_OK, registered p t new proto_addr page) := by
  rw [registerInlineHook, hexec, hexec', if_neg (by decide), h, addInlineHookItem]
  by_cases hsize : 1024 ≤ p.size
  · rw [if_pos (show 1024 ≤ p.size ∨ _ from .inl hsize), if_pos hsize]
    rfl
  · rw [if_neg hsize]
    by_cases hfits : 4 < (newItem p t new proto_addr page).boundaries.length
    · rw [if_pos (show _ ∨ 4 < (newItem p t new proto_addr page).boundaries.length from .inr hfits)]
      exact if_pos hfits
    · rw [if_neg (show ¬ (_ ∨ 4 <
        (newItem p t new proto_addr page).boundaries.length) from not_or.mpr ⟨hsize, hfits⟩)]
      exact if_neg hfits

theorem register_turns {status : Ele7enStatus} {t new : Word}
    {proto_addr : Option Word} {page : Word}
    (hmay : may p (.registerInlineHook t new proto_addr page))
    (h : registerInlineHook p t new proto_addr page = some (status, p')) : Turns may p p' := by
  by_cases hexec : isExecutableAddr p.maps t = true ∧ isExecutableAddr p.maps new = true
  · cases hfind : findInlineHookItem p t with
    | some i =>
      rw [registerInlineHook, hexec.1, hexec.2, if_neg (by decide), hfind] at h
      cases hstatus : (p.item i).status with
      | REGISTERED =>
        simp only [hstatus, Option.some.injEq, Prod.mk.injEq] at h
        rw [← h.2]
        exact .refl
      | HOOKED =>
        simp only [hstatus, Option.some.injEq, Prod.mk.injEq] at h
        rw [← h.2]
        exact .refl
    | none =>
      rw [registerInlineHook_eq hfind hexec.1 hexec.2] at h
      split at h
      · cases h
      · rename_i hfits
        obtain ⟨hsize, hfits⟩ := not_or.mp hfits
        cases h
        exact .single (.register hmay hfind (by omega) (by omega))
  · rw [registerInlineHook, if_pos] at h
    · cases h
      exact .refl
    · rw [not_and_or, Bool.not_eq_true, Bool.not_eq_true] at hexec
      cases hexec with
      | inl hexec => rw [hexec, Bool.not_false, Bool.true_or]
      | inr hexec => rw [hexec, Bool.not_false, Bool.or_true]

theorem hookAll_turns (p : Process) (l : List Nat) (hl : ∀ i ∈ l, i < p.size) :
    Turns may p (l.foldl (fun p i => if (p.item i).status = .REGISTERED then
      doInlineHook p i else p) p) := by
  induction l generalizing p with
  | nil => exact .refl
  | cons i l ih =>
    rw [List.foldl_cons]
    split
    · rename_i hstatus
      refine .head (.hook (hl i List.mem_cons_self) hstatus) (ih _ ?_)
      exact fun j hj => hl j (List.mem_cons_of_mem i hj)
    · exact ih p fun j hj => hl j (List.mem_cons_of_mem i hj)

theorem unHookLoop_turns (hmay : ∃ q, may q .inlineUnHookAll ∨ ∃ t, may q (.inlineUnHook t))
    (fuel i : Nat) (p : Process) :
    Turns may p (unHookLoop fuel i p) := by
  induction fuel generalizing i p with
  | zero => exact .refl
  | succ fuel ih =>
    rw [unHookLoop]
    split_ifs with hi hstatus
    · exact .head (.unHook hmay hi hstatus) (ih ..)
    · exact ih ..
    · exact .refl

theorem find_range {n i : Nat} {q : Nat → Bool} (h : (List.range n).find? q = some i) :
    i < n ∧ q i = true :=
  ⟨List.mem_range.mp (List.mem_of_find?_eq_some h), List.find?_some h⟩

/-- Every call is made of turns. -/
theorem call_turns {c : Call} (hmay : may p c) (h : call p c = some p') : Turns may p p' := by
  cases c with
  | registerInlineHook t new proto_addr page =>
    obtain ⟨r, hr, rfl⟩ := Option.map_eq_some_iff.mp h
    exact register_turns hmay hr
  | inlineHook t =>
    cases h
    rw [inlineHook]
    cases hfind : findInlineHookItem p t with
    | none => exact .refl
    | some i =>
      cases hstatus : (p.item i).status with
      | REGISTERED =>
        simp only [hstatus]
        exact .head (.freeze [p.item i] .ACTION_ENABLE)
          (.single (.hook (find_range hfind).1 hstatus))
      | HOOKED =>
        simp only [hstatus]
        exact .refl
  | inlineUnHook t =>
    cases h
    rw [inlineUnHook]
    cases hfind : (List.range p.size).find? fun i =>
      (p.item i).target_addr = t ∧ (p.item i).status = .HOOKED with
    | none => exact .refl
    | some i =>
      obtain ⟨hi, hq⟩ := find_range hfind
      refine .head (.freeze [p.item i] .ACTION_DISABLE) (.single ?_)
      exact .unHook ⟨p, .inr ⟨t, hmay⟩⟩ hi (of_decide_eq_true hq).2
  | inlineHookAll =>
    cases h
    refine .head (.freeze p.live .ACTION_ENABLE) (hookAll_turns _ _ ?_)
    exact fun i hi => List.mem_range.mp hi
  | inlineUnHookAll =>
    cases h
    exact .head (.freeze p.live .ACTION_DISABLE) (unHookLoop_turns ⟨p, .inl hmay⟩ ..)
  | other mem threads maps =>
    cases h
    exact .single (.other hmay)

/-- What every turn keeps holds after every run. -/
theorem Reachable.invariant {I : Process → Prop} (h : Reachable may p p')
    (hstep : ∀ q q', I q → Turn may q q' → I q')
    (hstart : I p) : I p' := by
  have hturns : ∀ q q', I q → Turns may q q' → I q' := by
    intro q q' hq h
    induction h with
    | refl => exact hq
    | tail _ hturn ih => exact hstep _ _ ih hturn
  induction h with
  | refl => exact hstart
  | tail _ hcall ih =>
    obtain ⟨c, hmay, hc⟩ := hcall
    exact hturns _ _ ih (call_turns hmay hc)

end Turns

/-- Where the item of slot `k` was before slot `i` was taken out. -/
def moved (size i k : Nat) : Nat := if k = i then size - 1 else k

section Slots

variable {size i j k k' : Nat}

theorem moved_lt (hi : i < size) (hk : k < size - 1) :
    moved size i k < size ∧ moved size i k ≠ i := by
  rw [moved]
  split <;> omega

theorem moved_inj (hk : k < size - 1) (hk' : k' < size - 1)
    (h : moved size i k = moved size i k') : k = k' := by
  rw [moved, moved] at h
  split at h <;> split at h <;> omega

theorem moved_surj (hi : i < size) (hj : j < size) (hne : j ≠ i) :
    ∃ k < size - 1, moved size i k = j := by
  by_cases hlast : j = size - 1
  · exact ⟨i, by omega, by rw [moved, if_pos rfl, hlast]⟩
  · exact ⟨j, by omega, if_neg hne⟩

end Slots

section Items

variable {p : Process} {i : Nat}

@[simp] theorem setItem_size (p : Process) (i : Nat) (item : InlineHookItem) :
    (p.setItem i item).size = p.size := rfl

@[simp] theorem doInlineUnHook_size (p : Process) (i : Nat) :
    (doInlineUnHook p i).size = p.size - 1 := rfl

theorem doInlineUnHook_item (p : Process) (i k : Nat) :
    (doInlineUnHook p i).item k = p.item (moved p.size i k) := by
  change (if k = i then p.item (p.size - 1) else p.item k) = _
  rw [moved]
  split <;> rfl

@[simp] theorem doInlineHook_size (p : Process) (i : Nat) : (doInlineHook p i).size = p.size := rfl

theorem doInlineHook_item (p : Process) (i j : Nat) :
    (doInlineHook p i).item j = if j = i then
      { p.item i with status := .HOOKED } else p.item j := rfl

/-- A turn that hooks changes nothing in an item but its status. -/
theorem doInlineHook_same (p : Process) (i j : Nat) :
    (doInlineHook p i).item j = { p.item j with status := ((doInlineHook p i).item j).status } := by
  rw [doInlineHook_item]
  split
  · rename_i h
    rw [h]
  · rfl

@[simp] theorem registered_size (p : Process) (t new : Word)
    (proto_addr : Option Word) (page : Word) :
    (registered p t new proto_addr page).size = p.size + 1 := rfl

theorem registered_item (p : Process) (t new : Word) (proto_addr : Option Word)
    (page : Word) (j : Nat) :
    (registered p t new proto_addr page).item j = if j = p.size then
      newItem p t new proto_addr page else p.item j := rfl

/-- What holds of the items and of the new one holds of all items behind a registration. -/
theorem registered_all (P : InlineHookItem → Prop) {t new : Word}
    {proto_addr : Option Word} {page : Word}
    (hold : ∀ i < p.size, P (p.item i)) (hnew : P (newItem p t new proto_addr page)) :
    ∀ i < (registered p t new proto_addr page).size,
      P ((registered p t new proto_addr page).item i) := by
  intro i hi
  rw [registered_item]
  split
  · exact hnew
  · rw [registered_size] at hi
    exact hold i (by omega)

theorem registered_pairs (P : InlineHookItem → InlineHookItem → Prop) {t new : Word}
    {proto_addr : Option Word} {page : Word}
    (hold : ∀ i < p.size, ∀ j < p.size, i ≠ j → P (p.item i) (p.item j))
    (hnew : ∀ i < p.size, P (p.item i) (newItem p t new proto_addr page) ∧
      P (newItem p t new proto_addr page) (p.item i)) :
    ∀ i < (registered p t new proto_addr page).size,
      ∀ j < (registered p t new proto_addr page).size, i ≠ j →
      P ((registered p t new proto_addr page).item i)
      ((registered p t new proto_addr page).item j) := by
  intro i hi j hj hne
  rw [registered_size] at hi hj
  rw [registered_item, registered_item]
  split
  · rw [if_neg (by omega)]
    exact (hnew j (by omega)).2
  · split
    · exact (hnew i (by omega)).1
    · exact hold i (by omega) j (by omega) hne

theorem find_none {t : Word} (h : findInlineHookItem p t = none) (hi : i < p.size) :
    (p.item i).target_addr ≠ t := by
  have hq := List.find?_eq_none.mp h i (List.mem_range.mpr hi)
  exact fun heq => hq (decide_eq_true heq)

end Items

/-- What holds of the table at any time. -/
structure Table (p : Process) : Prop where
  capacity : p.size ≤ 1024
  distinct : ∀ i < p.size, ∀ j < p.size, (p.item i).target_addr = (p.item j).target_addr → i = j
  length : ∀ i < p.size, (p.item i).length = windowLength (p.item i).target_addr
  saved : ∀ i < p.size, (p.item i).orig_instructions.length = (p.item i).length
  boundaries : ∀ i < p.size, (p.item i).boundaries.length ≤ 4

theorem Table.register {p : Process} (h : Table p) {t new : Word}
    {proto_addr : Option Word} {page : Word}
    (hnew : findInlineHookItem p t = none) (hsize : p.size < 1024)
    (hfits : (newItem p t new proto_addr page).boundaries.length ≤ 4) :
    Table (registered p t new proto_addr page) := by
  constructor
  case capacity => exact hsize
  case distinct =>
    intro i hi j hj heq
    by_contra hne
    refine registered_pairs (fun a b => a.target_addr ≠ b.target_addr) ?_ ?_ i hi j hj hne heq
    · exact fun i hi j hj hne heq => hne (h.distinct i hi j hj heq)
    · exact fun i hi => ⟨find_none hnew hi, (find_none hnew hi).symm⟩
  case length =>
    exact registered_all (fun item => item.length = windowLength item.target_addr) h.length rfl
  case saved =>
    exact registered_all (fun item => item.orig_instructions.length = item.length) h.saved
      (ArmMachine.length_bytesAt ..)
  case boundaries =>
    exact registered_all (fun item => item.boundaries.length ≤ 4) h.boundaries hfits

theorem Table.hook {p : Process} (h : Table p) (i : Nat) : Table (doInlineHook p i) := by
  constructor
  · exact h.capacity
  · intro j hj k hk heq
    rw [doInlineHook_same p i j, doInlineHook_same p i k] at heq
    exact h.distinct j hj k hk heq
  · intro j hj
    rw [doInlineHook_same p i j]
    exact h.length j hj
  · intro j hj
    rw [doInlineHook_same p i j]
    exact h.saved j hj
  · intro j hj
    rw [doInlineHook_same p i j]
    exact h.boundaries j hj

theorem Table.unHook {p : Process} (h : Table p) {i : Nat} (hi : i < p.size) :
    Table (doInlineUnHook p i) := by
  have hlt {k : Nat} (hk : k < p.size - 1) := (moved_lt hi hk).1
  constructor
  · exact Nat.le_trans (Nat.sub_le p.size 1) h.capacity
  · intro j hj k hk heq
    rw [doInlineUnHook_item, doInlineUnHook_item] at heq
    exact moved_inj hj hk (h.distinct _ (hlt hj) _ (hlt hk) heq)
  · intro j hj
    rw [doInlineUnHook_item]
    exact h.length _ (hlt hj)
  · intro j hj
    rw [doInlineUnHook_item]
    exact h.saved _ (hlt hj)
  · intro j hj
    rw [doInlineUnHook_item]
    exact h.boundaries _ (hlt hj)

theorem Table.turn {may : Process → Call → Prop} {p p' : Process} (h : Table p)
    (hturn : Turn may p p') : Table p' := by
  cases hturn with
  | freeze items action => exact ⟨h.capacity, h.distinct, h.length, h.saved, h.boundaries⟩
  | other _ => exact ⟨h.capacity, h.distinct, h.length, h.saved, h.boundaries⟩
  | register _ hnew hsize hfits => exact h.register hnew hsize hfits
  | hook hi hstatus => exact h.hook _
  | unHook _ hi hstatus => exact h.unHook hi

theorem table_start (mem : Memory) (threads : List Word) (maps : List Mapping) :
    Table (.start mem threads maps) := by
  constructor
  · exact Nat.zero_le 1024
  · exact fun i hi => absurd hi (Nat.not_lt_zero i)
  · exact fun i hi => absurd hi (Nat.not_lt_zero i)
  · exact fun i hi => absurd hi (Nat.not_lt_zero i)
  · exact fun i hi => absurd hi (Nat.not_lt_zero i)

theorem registerInlineHook_none_iff {p : Process} (hcapacity : p.size ≤ 1024) (t new : Word)
    (proto_addr : Option Word) (page : Word) :
    registerInlineHook p t new proto_addr page = none ↔
      isExecutableAddr p.maps t = true ∧ isExecutableAddr p.maps new = true ∧
      (∀ i < p.size, (p.item i).target_addr ≠ t) ∧
        (p.size = 1024 ∨ 4 < (newItem p t new proto_addr page).boundaries.length) := by
  by_cases hexec : isExecutableAddr p.maps t = true ∧ isExecutableAddr p.maps new = true
  · cases hfind : findInlineHookItem p t with
    | some i =>
      obtain ⟨hi, hq⟩ := find_range hfind
      constructor
      · intro hnone
        rw [registerInlineHook, hexec.1, hexec.2, if_neg (by decide), hfind] at hnone
        cases hstatus : (p.item i).status with
        | REGISTERED => simp only [hstatus, reduceCtorEq] at hnone
        | HOOKED => simp only [hstatus, reduceCtorEq] at hnone
      · exact fun hcond => absurd (of_decide_eq_true hq) (hcond.2.2.1 i hi)
    | none =>
      rw [registerInlineHook_eq hfind hexec.1 hexec.2]
      constructor
      · intro hnone
        split at hnone
        · rename_i hfull
          exact ⟨hexec.1, hexec.2, fun i hi => find_none hfind hi, hfull.imp_left (by omega)⟩
        · cases hnone
      · exact fun hcond => if_pos (hcond.2.2.2.imp_left (by omega))
  · constructor
    · intro hnone
      rw [registerInlineHook, if_pos] at hnone
      · cases hnone
      · rw [not_and_or, Bool.not_eq_true, Bool.not_eq_true] at hexec
        cases hexec with
        | inl hexec => rw [hexec, Bool.not_false, Bool.true_or]
        | inr hexec => rw [hexec, Bool.not_false, Bool.or_true]
    · exact fun hcond => absurd ⟨hcond.1, hcond.2.1⟩ hexec

theorem reachable_table {may : Process → Call → Prop} {mem : Memory} {threads : List Word}
    {maps : List Mapping} {p : Process}
    (h : Reachable may (.start mem threads maps) p) : Table p :=
  h.invariant (fun _ _ hq hturn => hq.turn hturn) (table_start mem threads maps)

/-- A process whose memory repeats a word. -/
def sample (w : Word) : Process := .start (fun b => (w >>> (8 * (b.toNat % 4))).truncate 8) []
    [⟨0, 0x10000, true⟩]

def sampleRegistered (w t : Word) : Process := registered (sample w) t 0x200 none 0x1000

theorem sample_reachable {may : Process → Call → Prop} {w t : Word}
    (hmay : may (sample w) (.registerInlineHook t 0x200 none 0x1000))
    (hexec : isExecutableAddr [⟨0, 0x10000, true⟩] t = true)
    (hfits : (newItem (sample w) t 0x200 none 0x1000).boundaries.length ≤ 4) :
    Reachable may (sample w) (sampleRegistered w t) := by
  refine .single ⟨_, hmay, ?_⟩
  rw [call, registerInlineHook_eq rfl hexec
    (show isExecutableAddr [⟨0, 0x10000, true⟩] 0x200 = true by decide), if_neg]
  · rfl
  · exact not_or.mpr ⟨Nat.not_le.mpr (Nat.zero_lt_succ _), by omega⟩

end InlineHook
