import AndroidWork.EhabiTable
import AndroidWork.ThreePointSearch

/-!
# The exception index lookup of an ARM unwinding step

`move_to_valid_addr`, `search_exidx_value` and how `step` calls them, the same
in the crash collector and in libmemcheck. Pointers are integers, and every
function also gives the addresses of the words it reads.
-/
namespace ExidxTable

open EhabiTable (Word Mem)
open ThreePointSearch (search middle endsInPair overshoots)

def load (mem : Mem) (p : Int) : Word := mem (BitVec.ofInt 32 p)

/-- `(*mid + (addr_s)mid - base_addr) & 0x7FFFFFFF`. -/
def key (mem : Mem) (base : Word) (p : Int) : Word :=
  (load mem p + BitVec.ofInt 32 p - base) &&& 0x7FFFFFFF#32

/-- `search_exidx_value`; `stop` is the source's `end`, a pointer to the last
entry of the part to search. -/
def searchExidxValue (mem : Mem) (base pc : Word) (start stop : Int) : Int × List Int :=
  if stop ≤ start then (0, [])
  else
    let mid := start + (stop - start) / 8 / 2 * 8
    let reads := [mid - 8, mid, mid + 8]
    let keyPre := key mem base (mid - 8)
    let keyMid := key mem base mid
    let keyFlo := key mem base (mid + 8)
    if keyMid ≤ pc ∧ pc ≤ keyFlo then (mid, reads)
    else if pc ≤ keyMid ∧ keyPre ≤ pc then (mid - 8, reads)
    else if keyMid ≤ pc then
      let r := searchExidxValue mem base pc (mid + 8) stop
      (r.1, reads ++ r.2)
    else if pc < keyMid then
      let r := searchExidxValue mem base pc start (mid - 8)
      (r.1, reads ++ r.2)
    else (0, reads)
termination_by (stop - start).toNat
decreasing_by all_goals omega

/-- `move_to_valid_addr`, its loop cut off after `fuel` turns. -/
def moveToValidAddr (mem : Mem) : Nat → Int → Option (Int × List Int)
  | 0, _ => none
  | fuel + 1, p =>
    if load mem (p + 4) = 1#32 then
      (moveToValidAddr mem fuel (p + 8)).map fun r => (r.1, (p + 4) :: r.2)
    else some (p, [p + 4])

/-- The lookup of a step: the start pointer past the leading CANT_UNWIND
entries, the end pointer at the last entry of the segment. -/
def lookup (mem : Mem) (base pc : Word) (exidxStart memsz : Int) (fuel : Nat) :
    Option (Int × List Int) :=
  (moveToValidAddr mem fuel exidxStart).map fun v =>
    let r := searchExidxValue mem base pc v.1 (exidxStart + memsz - 8)
    (r.1, v.2 ++ r.2)

/-- A 31-bit place-relative offset, sign-extended. -/
def prel31 (w : Word) : Int :=
  if w.toNat % 2 ^ 31 < 2 ^ 30 then w.toNat % 2 ^ 31 else (w.toNat % 2 ^ 31 : Nat) - 2 ^ 31

/-- Where the function of the entry at `p` begins, relative to the load base. -/
def functionOffset (mem : Mem) (base : Word) (p : Int) : Int := p + prel31 (load mem p) - base.toNat

/-- An index table in memory: `n` entries of two words, sorted by function
offset, every function inside the image that is loaded at `base`. -/
structure Table (mem : Mem) (base : Word) where
  start : Int
  n : Nat
  one_le : 1 ≤ n
  start_pos : 0 < start
  inside : ∀ i : Int, 0 ≤ i → i < n →
    0 ≤ functionOffset mem base (start + 8 * i) ∧ functionOffset mem base (start + 8 * i) < 2 ^ 31
  sorted : ∀ i j : Int, 0 ≤ i → i < j → j < n →
    functionOffset mem base (start + 8 * i) < functionOffset mem base (start + 8 * j)

variable {mem : Mem} {base : Word}

def Table.entry (T : Table mem base) (i : Int) : Int := T.start + 8 * i

def Table.offset (T : Table mem base) (i : Int) : Int := functionOffset mem base (T.entry i)

def Table.value (T : Table mem base) (i : Int) : Word := load mem (T.entry i + 4)

/-- How many of the next `n` entries come before the first that can unwind. -/
def leading (mem : Mem) (p : Int) : Nat → Nat
  | 0 => 0
  | n + 1 => if load mem (p + 4) = 1#32 then leading mem (p + 8) n + 1 else 0

def Table.skipped (T : Table mem base) : Nat := leading mem T.start T.n

/-- Entry `i` has the greatest function offset that is not above `pc`. -/
def Table.Covers (T : Table mem base) (pc : Word) (i : Int) : Prop :=
  0 ≤ i ∧ i < T.n ∧ T.offset i ≤ pc.toNat ∧ ∀ j, i < j → j < T.n → (pc.toNat : Int) < T.offset j

/-- A word of some entry of the table. -/
def Table.Inside (T : Table mem base) (a : Int) : Prop := T.start ≤ a ∧ a + 4 ≤ T.start + 8 * T.n

/-- The lookup answers the covering entry unless that is a skipped one, answers
0 in every other case, and reads words of the table only. -/
def Table.Meets (T : Table mem base) (pc : Word) (r : Int × List Int) : Prop :=
  (∀ i, T.Covers pc i → T.skipped ≤ i → r.1 = T.entry i) ∧
  ((∀ i, T.Covers pc i → i < T.skipped) → r.1 = 0) ∧
  ∀ a ∈ r.2, T.Inside a

/-- The entries whose own offset is answered with the entry before them. -/
def Table.pastMiddle (T : Table mem base) : List Int := overshoots T.skipped (T.n - 1)

/-- The distance from the first entry searched to the last. -/
def Table.width (T : Table mem base) : Nat := T.n - 1 - T.skipped

/-- Where `pc` may lie for the lookup to be right: not where every entry is
skipped; before the first searched entry only if the search does not end in a
pair there, or the skipped entry before it does not answer; never at or behind
the last entry; in the first entry of the whole table only if the search does
not end in a pair there; and never exactly on an entry right of a middle. -/
def Table.LookupSafe (T : Table mem base) (pc : Word) : Prop :=
  T.skipped < T.n ∧
  ((pc.toNat : Int) < T.offset T.skipped → endsInPair T.width = true →
    0 < T.skipped ∧ (pc.toNat : Int) < T.offset (T.skipped - 1)) ∧
  (T.offset T.skipped ≤ pc.toNat →
    (pc.toNat : Int) < T.offset (T.n - 1) ∧
    (T.skipped = 0 → (pc.toNat : Int) < T.offset 1 → endsInPair T.width = false) ∧
    ∀ i ∈ T.pastMiddle, (pc.toNat : Int) ≠ T.offset i)

theorem and_mask31 (x : Word) : (x &&& 0x7FFFFFFF#32).toNat = x.toNat % 2 ^ 31 := by
  rw [BitVec.toNat_and]
  exact Nat.and_two_pow_sub_one_eq_mod x.toNat 31

/-- The key that is compared is the function offset. -/
theorem key_toNat (p : Int) (hlo : 0 ≤ functionOffset mem base p)
    (hhi : functionOffset mem base p < 2 ^ 31) :
    ((key mem base p).toNat : Int) = functionOffset mem base p := by
  rw [key, and_mask31]
  have hw := (load mem p).isLt
  have hb := base.isLt
  simp only [functionOffset, prel31] at *
  simp only [BitVec.toNat_sub, BitVec.toNat_add, BitVec.toNat_ofInt]
  split at hlo
  · rename_i hsmall
    rw [if_pos hsmall] at hhi ⊢
    omega
  · rename_i hlarge
    rw [if_neg hlarge] at hhi ⊢
    omega

theorem Table.key_entry (T : Table mem base) (i : Int) (h0 : 0 ≤ i) (hn : i < T.n) :
    ((key mem base (T.entry i)).toNat : Int) = T.offset i := by
  obtain ⟨hlo, hhi⟩ := T.inside i h0 hn
  exact key_toNat (T.entry i) hlo hhi

theorem Table.inside_entry (T : Table mem base) (i : Int) :
    T.Inside (T.entry i) ↔ 0 ≤ i ∧ i < T.n := by
  simp only [Table.Inside, Table.entry]
  omega

/-- The keys of the eight-byte places from `a` on. -/
def keys (mem : Mem) (base : Word) (a i : Int) : Int := (key mem base (a + 8 * i)).toNat

/-- The pointer search is the search over places. -/
theorem searchExidxValue_search (pc : Word) (a lo hi : Int) :
    searchExidxValue mem base pc (a + 8 * lo) (a + 8 * hi) =
      (((search (keys mem base a) pc.toNat lo hi).1.elim 0 fun i => a + 8 * i),
        (search (keys mem base a) pc.toNat lo hi).2.map fun i => a + 8 * i) := by
  induction lo, hi using ThreePointSearch.interval_induction with
  | hempty lo hi h =>
    rw [ThreePointSearch.search_empty _ _ lo hi h, searchExidxValue, if_pos (by omega)]
    rfl
  | hstep lo hi h ihl ihr =>
    have hmid : a + 8 * lo + (a + 8 * hi - (a + 8 * lo)) / 8 / 2 * 8 = a + 8 * middle lo hi := by
      simp only [middle]
      omega
    have hpre : a + 8 * middle lo hi - 8 = a + 8 * (middle lo hi - 1) := by omega
    have hflo : a + 8 * middle lo hi + 8 = a + 8 * (middle lo hi + 1) := by omega
    have hle : ∀ x y : Word, ((x.toNat : Int) ≤ y.toNat) = (x ≤ y) := by
      intro x y
      rw [BitVec.le_def, Int.ofNat_le]
    have hne : ¬ hi ≤ lo := by omega
    have hne' : ¬ a + 8 * hi ≤ a + 8 * lo := by omega
    rw [searchExidxValue, search, if_neg hne, if_neg hne']
    simp only [hmid, hpre, hflo, ihl, ihr]
    simp only [keys, hle]
    split_ifs with h₁ h₂ h₃ h₄
    · rfl
    · rfl
    · simp
    · simp
    · exact absurd (BitVec.not_le.mp h₃) h₄

theorem leading_le (p : Int) (n : Nat) : leading mem p n ≤ n := by
  induction n generalizing p with
  | zero => exact le_rfl
  | succ n ih =>
    rw [leading]
    split
    · exact Nat.succ_le_succ (ih (p + 8))
    · exact Nat.zero_le _

/-- The start pointer stops behind the leading entries, having read their
second words and that of the entry it stops at. -/
theorem moveToValidAddr_leading (n fuel : Nat) (p : Int) (v : Int × List Int)
    (h : moveToValidAddr mem fuel p = some v) :
    (leading mem p n < n ∧ v.1 = p + 8 * leading mem p n ∧
      ∀ a ∈ v.2, p ≤ a ∧ a ≤ p + 8 * leading mem p n + 4) ∨
    (leading mem p n = n ∧ p + 8 * n + 4 ∈ v.2) := by
  induction fuel generalizing n p v with
  | zero => cases h
  | succ fuel ih =>
    rw [moveToValidAddr] at h
    split at h
    · rename_i hone
      obtain ⟨u, hu, rfl⟩ := Option.map_eq_some_iff.mp h
      cases n with
      | zero =>
        right
        exact ⟨rfl, by simp⟩
      | succ n =>
        have hlead : leading mem p (n + 1) = leading mem (p + 8) n + 1 := by
          rw [leading, if_pos hone]
        rw [hlead]
        rcases ih n (p + 8) u hu with ⟨hlt, hv, hreads⟩ | ⟨heq, hmem⟩
        · left
          refine ⟨by omega, by push_cast; omega, ?_⟩
          intro a ha
          rcases List.mem_cons.mp ha with rfl | ha
          · omega
          · have := hreads a ha
            push_cast
            omega
        · right
          refine ⟨by omega, List.mem_cons_of_mem _ ?_⟩
          have hp : p + 8 * ((n + 1 : Nat) : Int) + 4 = p + 8 + 8 * n + 4 := by push_cast; ring
          rw [hp]
          exact hmem
    · rename_i hone
      obtain rfl := Option.some.inj h
      cases n with
      | zero =>
        right
        exact ⟨rfl, by simp⟩
      | succ n =>
        have hlead : leading mem p (n + 1) = 0 := by rw [leading, if_neg hone]
        rw [hlead]
        left
        refine ⟨by omega, by simp, ?_⟩
        intro a ha
        obtain rfl := List.mem_singleton.mp ha
        omega

/-- With an entry left that can unwind, as many turns as entries are enough. -/
theorem moveToValidAddr_stops (n : Nat) (p : Int) (h : leading mem p n < n) :
    ∃ v, moveToValidAddr mem n p = some v := by
  induction n generalizing p with
  | zero => omega
  | succ n ih =>
    rw [leading] at h
    rw [moveToValidAddr]
    split
    · rename_i hone
      rw [if_pos hone] at h
      obtain ⟨v, hv⟩ := ih (p + 8) (by omega)
      exact ⟨_, by rw [hv]; rfl⟩
    · exact ⟨_, rfl⟩

theorem Table.skipped_le (T : Table mem base) : T.skipped ≤ T.n := leading_le T.start T.n

theorem Table.keys_eq (T : Table mem base) (i : Int) (h0 : 0 ≤ i) (hn : i < T.n) :
    keys mem base T.start i = T.offset i := T.key_entry i h0 hn

theorem Table.increasing (T : Table mem base) :
    ThreePointSearch.Increasing (keys mem base T.start) T.skipped (T.n - 1) := by
  intro i j hi hij hj
  rw [T.keys_eq i (by omega) (by omega), T.keys_eq j (by omega) (by omega)]
  exact T.sorted i j (by omega) hij (by omega)

/-- The search over places that a lookup makes. -/
def Table.found (T : Table mem base) (pc : Word) : Option Int × List Int :=
  search (keys mem base T.start) pc.toNat T.skipped (T.n - 1)

/-- With an entry left that can unwind, a lookup is that search, behind reads
inside the table. -/
theorem Table.lookup_found (T : Table mem base) (pc : Word) (fuel : Nat) (r : Int × List Int)
    (hskip : T.skipped < T.n) (h : lookup mem base pc T.start (8 * T.n) fuel = some r) :
    r.1 = (T.found pc).1.elim 0 T.entry ∧
      ((∀ a ∈ r.2, T.Inside a) ↔ ∀ i ∈ (T.found pc).2, 0 ≤ i ∧ i < T.n) := by
  obtain ⟨v, hv, rfl⟩ := Option.map_eq_some_iff.mp h
  rcases moveToValidAddr_leading T.n fuel T.start v hv with ⟨-, hstart, hreads⟩ | ⟨hall, -⟩
  · have hend : T.start + 8 * T.n - 8 = T.start + 8 * ((T.n : Int) - 1) := by ring
    have hskipped : (leading mem T.start T.n : Int) = T.skipped := rfl
    rw [hskipped] at hstart hreads
    simp only [hstart, hend, searchExidxValue_search]
    refine ⟨rfl, ?_⟩
    constructor
    · intro hin i hi
      have hmem : T.entry i ∈ (T.found pc).2.map T.entry := List.mem_map_of_mem hi
      exact (T.inside_entry i).mp (hin _ (List.mem_append_right _ hmem))
    · intro hin a ha
      rcases List.mem_append.mp ha with ha | ha
      · have := hreads a ha
        simp only [Table.Inside]
        omega
      · obtain ⟨i, hi, rfl⟩ := List.mem_map.mp ha
        exact (T.inside_entry i).mpr (hin i hi)
  · simp only [Table.skipped] at hskip
    omega

/-- Where every entry is skipped a word behind the table is read. -/
theorem Table.lookup_all_skipped (T : Table mem base) (pc : Word) (fuel : Nat) (r : Int × List Int)
    (hskip : T.skipped = T.n) (h : lookup mem base pc T.start (8 * T.n) fuel = some r) :
    ¬ T.Meets pc r := by
  obtain ⟨v, hv, rfl⟩ := Option.map_eq_some_iff.mp h
  rintro ⟨-, -, hin⟩
  rcases moveToValidAddr_leading T.n fuel T.start v hv with ⟨hlt, -, -⟩ | ⟨-, hmem⟩
  · simp only [Table.skipped] at hskip
    omega
  · have := hin _ (List.mem_append_left _ hmem)
    simp only [Table.Inside] at this
    omega

theorem Table.offset_le (T : Table mem base) {i j : Int} (h0 : 0 ≤ i) (hij : i ≤ j) (hj : j < T.n) :
    T.offset i ≤ T.offset j := by
  rcases hij.lt_or_eq with hij | rfl
  · exact (T.sorted i j h0 hij hj).le
  · exact le_rfl

/-- At or behind some entry's offset, an entry covers `pc`. -/
theorem Table.exists_covers (T : Table mem base) (pc : Word) (s : Int) (h0 : 0 ≤ s) (hn : s < T.n)
    (hs : T.offset s ≤ pc.toNat) : ∃ i, T.Covers pc i ∧ s ≤ i := by
  obtain ⟨i, ⟨hsi, hin, hi⟩, hmax⟩ := Int.exists_greatest_of_bdd
    (P := fun i => s ≤ i ∧ i < T.n ∧ T.offset i ≤ pc.toNat) ⟨T.n, fun i hi => hi.2.1.le⟩
      ⟨s, le_rfl, hn, hs⟩
  refine ⟨i, ⟨by omega, hin, hi, ?_⟩, hsi⟩
  intro j hij hj
  by_contra hle
  have := hmax j ⟨by omega, hj, not_lt.mp hle⟩
  omega

theorem Table.Covers.unique {T : Table mem base} {pc : Word} {i j : Int} (hi : T.Covers pc i)
    (hj : T.Covers pc j) : i = j := by
  rcases lt_trichotomy i j with hlt | heq | hgt
  · exact absurd (hi.2.2.2 j hlt hj.2.1) hj.2.2.1.not_gt
  · exact heq
  · exact absurd (hj.2.2.2 i hgt hi.2.1) hi.2.2.1.not_gt

theorem Table.reads_found (T : Table mem base) (pc : Word) :
    ∀ i ∈ (T.found pc).2, (T.skipped : Int) - 1 ≤ i ∧ i ≤ T.n - 1 :=
  ThreePointSearch.reads_bounds _ _ _ _ T.increasing

theorem Table.width_eq (T : Table mem base) (h : T.skipped < T.n) :
    ((T.n : Int) - 1 - T.skipped).toNat = T.width := by
  simp only [Table.width]
  omega

/-- Before the first searched entry. -/
theorem Table.meets_below (T : Table mem base) (pc : Word) (fuel : Nat) (r : Int × List Int)
    (hskip : T.skipped < T.n) (h : lookup mem base pc T.start (8 * T.n) fuel = some r)
    (hpc : (pc.toNat : Int) < T.offset T.skipped) :
    T.Meets pc r ↔ (endsInPair T.width = true →
      0 < T.skipped ∧ (pc.toNat : Int) < T.offset (T.skipped - 1)) := by
  obtain ⟨hres, hreads⟩ := T.lookup_found pc fuel r hskip h
  have hfirst := T.keys_eq T.skipped (by omega) (by omega)
  obtain ⟨hans, hleft⟩ := ThreePointSearch.search_below (keys mem base T.start) pc.toNat T.skipped
    (T.n - 1) T.increasing (by omega) (hfirst ▸ hpc)
  rw [T.width_eq hskip] at hans hleft
  have hcov : ∀ i, T.Covers pc i → i < T.skipped := by
    intro i hi
    by_contra hle
    have := T.offset_le (by omega) (not_lt.mp hle) hi.2.1
    have := hi.2.2.1
    omega
  constructor
  · rintro ⟨-, hzero, hin⟩ hpair
    have hin' := hreads.mp hin _ (hleft.mpr hpair)
    refine ⟨by omega, ?_⟩
    by_contra hle
    have hkey := T.keys_eq (T.skipped - 1) (by omega) (by omega)
    rw [if_pos ⟨hpair, by rw [hkey]; exact not_lt.mp hle⟩] at hans
    have hr := hzero hcov
    rw [hres, Table.found, hans] at hr
    have := T.start_pos
    simp only [Option.elim_some, Table.entry] at hr
    omega
  · intro hsafe
    have hnone : (T.found pc).1 = none := by
      refine hans.trans (if_neg ?_)
      rintro ⟨hpair, hle⟩
      obtain ⟨hpos, hlt⟩ := hsafe hpair
      rw [T.keys_eq (T.skipped - 1) (by omega) (by omega)] at hle
      omega
    refine ⟨fun i hi hle => absurd (hcov i hi) hle.not_gt,
      fun _ => by rw [hres, hnone]; rfl, hreads.mpr ?_⟩
    intro i hi
    have hb := T.reads_found pc i hi
    refine ⟨?_, by omega⟩
    by_contra hneg
    obtain rfl : i = T.skipped - 1 := by omega
    have := (hsafe (hleft.mp hi)).1
    omega

section Covered

variable {T : Table mem base} {pc : Word} {c : Int}

theorem Table.meets_iff_found {fuel : Nat} {r : Int × List Int} (hskip : T.skipped < T.n)
    (h : lookup mem base pc T.start (8 * T.n) fuel = some r) (hc : T.Covers pc c)
    (hsc : (T.skipped : Int) ≤ c) :
    T.Meets pc r ↔ (T.found pc).1.elim 0 T.entry = T.entry c ∧
      ∀ i ∈ (T.found pc).2, 0 ≤ i ∧ i < T.n := by
  obtain ⟨hres, hreads⟩ := T.lookup_found pc fuel r hskip h
  rw [← hres, ← hreads]
  constructor
  · rintro ⟨hans, -, hin⟩
    exact ⟨hans c hc hsc, hin⟩
  · rintro ⟨hans, hin⟩
    refine ⟨fun i hi _ => hi.unique hc ▸ hans, fun hall => ?_, hin⟩
    have := hall c hc
    omega

/-- What the bisection gives for an entry that is not the last one. -/
theorem Table.found_between (hskip : T.skipped < T.n) (hc : T.Covers pc c)
    (hsc : (T.skipped : Int) ≤ c) (hlast : c < T.n - 1) :
    (T.found pc).1 = some (if (pc.toNat : Int) = T.offset c ∧ c ∈ T.pastMiddle then c - 1 else c) ∧
      ((T.skipped : Int) - 1 ∈ (T.found pc).2 ↔ c = T.skipped ∧ endsInPair T.width = true) := by
  have hcn := hc.2.1
  have hkey := T.keys_eq c (by omega) (by omega)
  have hkey' := T.keys_eq (c + 1) (by omega) (by omega)
  have hnext := hc.2.2.2 (c + 1) (by omega) (by omega)
  obtain ⟨hans, hleft⟩ := ThreePointSearch.search_between (keys mem base T.start) pc.toNat T.skipped
    (T.n - 1) c T.increasing hsc hlast (hkey ▸ hc.2.2.1) (hkey' ▸ hnext)
  rw [T.width_eq hskip] at hleft
  rw [hkey] at hans
  exact ⟨hans, hleft⟩

theorem Table.found_eq_iff (hskip : T.skipped < T.n) (hc : T.Covers pc c)
    (hsc : (T.skipped : Int) ≤ c) (hlast : c < T.n - 1) :
    (T.found pc).1.elim 0 T.entry = T.entry c ↔
      ¬ ((pc.toNat : Int) = T.offset c ∧ c ∈ T.pastMiddle) := by
  rw [(found_between hskip hc hsc hlast).1, Option.elim_some]
  simp only [Table.entry]
  split_ifs with hover
  · simp only [hover, and_self, not_true_eq_false, iff_false]
    omega
  · simp [hover]

theorem Table.reads_inside_iff (hskip : T.skipped < T.n) (hc : T.Covers pc c)
    (hsc : (T.skipped : Int) ≤ c) (hlast : c < T.n - 1) :
    (∀ i ∈ (T.found pc).2, 0 ≤ i ∧ i < T.n) ↔
      (T.skipped = 0 → (pc.toNat : Int) < T.offset 1 → endsInPair T.width = false) := by
  have hcn := hc.2.1
  have hleft := (found_between hskip hc hsc hlast).2
  constructor
  · intro hin hzero hone
    by_contra hpair
    have hc0 : c = T.skipped := by
      by_contra hne
      have := T.offset_le (by omega) (by omega : 1 ≤ c) hcn
      have := hc.2.2.1
      omega
    have := hin _ (hleft.mpr ⟨hc0, by simpa using hpair⟩)
    omega
  · intro hno i hi
    have hb := T.reads_found pc i hi
    refine ⟨?_, by omega⟩
    by_contra hneg
    obtain rfl : i = T.skipped - 1 := by omega
    obtain ⟨hc0, hpair⟩ := hleft.mp hi
    have hnext := hc.2.2.2 (c + 1) (by omega) (by omega)
    rw [hno (by omega) (by rw [show (1 : Int) = c + 1 by omega]; exact hnext)] at hpair
    cases hpair

/-- The last entry is not found. -/
theorem Table.not_found_last (hskip : T.skipped < T.n) (hc : T.Covers pc (T.n - 1)) :
    (T.found pc).1.elim 0 T.entry ≠ T.entry (T.n - 1) := by
  have hkey := T.keys_eq (T.n - 1) (by omega) (by omega)
  have hnever : (T.found pc).1 ≠ some ((T.n : Int) - 1) :=
    ThreePointSearch.search_above (keys mem base T.start) pc.toNat T.skipped (T.n - 1)
      T.increasing (hkey ▸ hc.2.2.1)
  have hstart := T.start_pos
  intro hans
  cases hf : (T.found pc).1 with
  | none =>
    rw [hf] at hans
    simp only [Option.elim_none, Table.entry] at hans
    omega
  | some i =>
    rw [hf] at hans hnever
    simp only [Option.elim_some, Table.entry] at hans
    exact absurd (congrArg some (by omega : i = T.n - 1)) hnever

end Covered

/-- In or behind the first searched entry. -/
theorem Table.meets_from (T : Table mem base) (pc : Word) (fuel : Nat) (r : Int × List Int)
    (hskip : T.skipped < T.n) (h : lookup mem base pc T.start (8 * T.n) fuel = some r)
    (hpc : T.offset T.skipped ≤ pc.toNat) :
    T.Meets pc r ↔ (pc.toNat : Int) < T.offset (T.n - 1) ∧
      (T.skipped = 0 → (pc.toNat : Int) < T.offset 1 → endsInPair T.width = false) ∧
      ∀ i ∈ T.pastMiddle, (pc.toNat : Int) ≠ T.offset i := by
  obtain ⟨c, hc, hsc⟩ := T.exists_covers pc T.skipped (by omega) (by omega) hpc
  have hcn := hc.2.1
  rw [meets_iff_found hskip h hc hsc]
  rcases (by omega : c < T.n - 1 ∨ c = T.n - 1) with hlast | rfl
  · rw [found_eq_iff hskip hc hsc hlast, reads_inside_iff hskip hc hsc hlast]
    constructor
    · rintro ⟨hover, hno⟩
      refine ⟨hc.2.2.2 _ hlast (by omega), hno, ?_⟩
      intro i hi heq
      have hib := ThreePointSearch.mem_overshoots_bounds _ _ i hi
      have hic : T.Covers pc i := by
        refine ⟨by omega, by omega, heq.ge, ?_⟩
        intro j hij hj
        rw [heq]
        exact T.sorted i j (by omega) hij hj
      obtain rfl := hic.unique hc
      exact hover ⟨heq, hi⟩
    · rintro ⟨-, hno, hover⟩
      exact ⟨fun hboth => hover c hboth.2 hboth.1, hno⟩
  · constructor
    · rintro ⟨hans, -⟩
      exact absurd hans (not_found_last hskip hc)
    · rintro ⟨hlt, -⟩
      have := hc.2.2.1
      omega

/-- A lookup is right exactly where `pc` is safe. -/
theorem lookup_meets_iff (T : Table mem base) (pc : Word) :
    (∃ fuel r, lookup mem base pc T.start (8 * T.n) fuel = some r ∧ T.Meets pc r) ↔
    T.LookupSafe pc := by
  rcases T.skipped_le.lt_or_eq with hskip | hskip
  · obtain ⟨v, hv⟩ := moveToValidAddr_stops T.n T.start hskip
    have hmeets : ∀ fuel r, lookup mem base pc T.start (8 * T.n) fuel = some r →
        (T.Meets pc r ↔ T.LookupSafe pc) := by
      intro fuel r h
      rw [Table.LookupSafe]
      rcases lt_or_ge (pc.toNat : Int) (T.offset T.skipped) with hlt | hge
      · rw [T.meets_below pc fuel r hskip h hlt]
        exact ⟨fun hs => ⟨hskip, fun _ => hs, fun hle => absurd hlt hle.not_gt⟩,
          fun hs => hs.2.1 hlt⟩
      · rw [T.meets_from pc fuel r hskip h hge]
        exact ⟨fun hs => ⟨hskip, fun hlt => absurd hlt hge.not_gt, fun _ => hs⟩,
          fun hs => hs.2.2 hge⟩
    constructor
    · rintro ⟨fuel, r, h, hm⟩
      exact (hmeets fuel r h).mp hm
    · intro hs
      obtain ⟨r, hr⟩ : ∃ r, lookup mem base pc T.start (8 * T.n) T.n = some r :=
        ⟨_, by rw [lookup, hv]; rfl⟩
      exact ⟨T.n, r, hr, (hmeets T.n r hr).mpr hs⟩
  · constructor
    · rintro ⟨fuel, r, h, hm⟩
      exact absurd hm (T.lookup_all_skipped pc fuel r hskip h)
    · rintro ⟨hlt, -⟩
      omega

/-- A table of one entry, at address 8, whose function is at offset 8. -/
def singleEntry : Table (fun _ => 0#32) 0#32 where
  start := 8
  n := 1
  one_le := le_rfl
  start_pos := by decide
  inside := by
    intro i h0 h1
    obtain rfl : i = 0 := by omega
    decide
  sorted := by
    intro i j h0 hij h1
    omega

/-- The function at offset 8 is not found from its own first address. -/
theorem lookup_singleEntry : singleEntry.Covers 8#32 0 ∧
    lookup (fun _ => 0#32) 0#32 8#32 singleEntry.start (8 * singleEntry.n) 1 = some (0, [12]) ∧
    ¬ ∃ fuel r, lookup (fun _ => 0#32) 0#32 8#32 singleEntry.start
      (8 * singleEntry.n) fuel = some r ∧
      singleEntry.Meets 8#32 r := by
  refine ⟨⟨le_rfl, by decide, by decide, fun j h0 h1 => ?_⟩, ?_, ?_⟩
  · have : j < 1 := h1
    omega
  · have hempty : searchExidxValue (fun _ => 0#32) 0#32 8#32 8 8 = (0, []) := by
      rw [searchExidxValue, if_pos le_rfl]
    simp [lookup, moveToValidAddr, load, singleEntry, hempty]
  · rintro ⟨fuel, r, h, hm⟩
    have hlt := ((singleEntry.meets_from 8#32 fuel r (by decide) h (by decide)).mp hm).1
    exact absurd hlt (by decide)

end ExidxTable
