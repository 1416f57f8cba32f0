import Mathlib.Tactic
import Mathlib.Order.Monotone.Basic

/-!
# A bisection that looks at three neighbouring keys

Each turn compares the wanted value with the keys before, at and after the
middle, answers when it lies between two of them, and otherwise goes on with an
interval that leaves the three out. Keys are an increasing function on the
integers of the searched interval; a turn also reads one place left of it.
-/
namespace ThreePointSearch

variable {α : Type} [LinearOrder α]

def middle (lo hi : Int) : Int := lo + (hi - lo) / 2

/-- The place answered, if any, and the places whose keys were read. -/
def search (key : Int → α) (x : α) (lo hi : Int) : Option Int × List Int :=
  if hi ≤ lo then (none, [])
  else
    let mid := middle lo hi
    let reads := [mid - 1, mid, mid + 1]
    if key mid ≤ x ∧ x ≤ key (mid + 1) then (some mid, reads)
    else if x ≤ key mid ∧ key (mid - 1) ≤ x then (some (mid - 1), reads)
    else if key mid ≤ x then
      ((search key x (mid + 1) hi).1, reads ++ (search key x (mid + 1) hi).2)
    else ((search key x lo (mid - 1)).1, reads ++ (search key x lo (mid - 1)).2)
termination_by (hi - lo).toNat
decreasing_by all_goals (simp only [middle] at *; omega)

/-- Going left only, an interval of width `w` shrinks to two places. -/
def endsInPair (w : Nat) : Bool :=
  if w = 0 then false else if w = 1 then true else endsInPair (w / 2 - 1)
termination_by w
decreasing_by omega

/-- The places right of a middle whose own key is answered with that middle. -/
def overshoots (lo hi : Int) : List Int :=
  if hi < lo + 3 then []
  else (middle lo hi + 1) :: (overshoots lo (middle lo hi - 1) ++ overshoots (middle lo hi + 1) hi)
termination_by (hi - lo).toNat
decreasing_by all_goals (simp only [middle] at *; omega)

theorem search_empty (key : Int → α) (x : α) (lo hi : Int) (h : hi ≤ lo) :
    search key x lo hi = (none, []) := by
  rw [search, if_pos h]

theorem middle_bounds {lo hi : Int} (h : lo < hi) : lo ≤ middle lo hi ∧ middle lo hi + 1 ≤ hi := by
  simp only [middle]
  omega

/-- The three places a turn reads. -/
def probed (lo hi : Int) : List Int := [middle lo hi - 1, middle lo hi, middle lo hi + 1]

theorem mem_probed {lo hi i : Int} (h : i ∈ probed lo hi) :
    middle lo hi - 1 ≤ i ∧ i ≤ middle lo hi + 1 := by
  simp only [probed, List.mem_cons, List.not_mem_nil, or_false] at h
  omega

/-- Keys increase strictly from place to place of the interval. -/
def Increasing (key : Int → α) (lo hi : Int) : Prop :=
  ∀ i j, lo ≤ i → i < j → j ≤ hi → key i < key j

theorem Increasing.mono {key : Int → α} {lo hi lo' hi' : Int} (h : Increasing key lo hi)
    (hlo : lo ≤ lo') (hhi : hi' ≤ hi) : Increasing key lo' hi' :=
  fun i j hi₁ hij hj => h i j (by omega) hij (by omega)

/-- What one turn can do. -/
theorem search_turn (key : Int → α) (x : α) {lo hi : Int} (h : lo < hi)
    (hk : Increasing key lo hi) :
    (key (middle lo hi) ≤ x ∧ x ≤ key (middle lo hi + 1) ∧
      search key x lo hi = (some (middle lo hi), probed lo hi)) ∨
    (x < key (middle lo hi) ∧ key (middle lo hi - 1) ≤ x ∧
      search key x lo hi = (some (middle lo hi - 1), probed lo hi)) ∨
    (key (middle lo hi + 1) < x ∧ search key x lo hi =
      ((search key x (middle lo hi + 1) hi).1,
        probed lo hi ++ (search key x (middle lo hi + 1) hi).2)) ∨
    (x < key (middle lo hi) ∧ x < key (middle lo hi - 1) ∧ search key x lo hi =
      ((search key x lo (middle lo hi - 1)).1,
        probed lo hi ++ (search key x lo (middle lo hi - 1)).2)) := by
  have hm := middle_bounds h
  have hnext : key (middle lo hi) < key (middle lo hi + 1) := hk _ _ hm.1 (by omega) hm.2
  have hne : ¬ hi ≤ lo := by omega
  rw [search, if_neg hne]
  rcases lt_or_ge x (key (middle lo hi)) with h₁ | h₁
  · rw [if_neg fun h => h₁.not_ge h.1]
    rcases lt_or_ge x (key (middle lo hi - 1)) with h₂ | h₂
    · rw [if_neg fun h => h₂.not_ge h.2, if_neg h₁.not_ge]
      exact .inr (.inr (.inr ⟨h₁, h₂, rfl⟩))
    · rw [if_pos ⟨h₁.le, h₂⟩]
      exact .inr (.inl ⟨h₁, h₂, rfl⟩)
  · rcases le_or_gt x (key (middle lo hi + 1)) with h₂ | h₂
    · rw [if_pos ⟨h₁, h₂⟩]
      exact .inl ⟨h₁, h₂, rfl⟩
    · have h₃ : key (middle lo hi) < x := hnext.trans h₂
      rw [if_neg fun h => h₂.not_ge h.2, if_neg fun h => h₃.not_ge h.1, if_pos h₁]
      exact .inr (.inr (.inl ⟨h₂, rfl⟩))

/-- An induction along both halves of the interval. -/
theorem interval_induction {P : Int → Int → Prop} (hempty : ∀ lo hi, hi ≤ lo → P lo hi)
    (hstep : ∀ lo hi, lo < hi → P lo (middle lo hi - 1) → P (middle lo hi + 1) hi → P lo hi)
    (lo hi : Int) : P lo hi := by
  induction hw : (hi - lo).toNat using Nat.strong_induction_on generalizing lo hi with
  | _ w ih =>
    by_cases h : hi ≤ lo
    · exact hempty lo hi h
    · have hm := middle_bounds (by omega : lo < hi)
      exact hstep lo hi (by omega) (ih _ (by omega) lo _ rfl) (ih _ (by omega) _ hi rfl)

/-- Every place read lies in the interval or directly left of it. -/
theorem reads_bounds (key : Int → α) (x : α) (lo hi : Int) (hk : Increasing key lo hi) :
    ∀ i ∈ (search key x lo hi).2, lo - 1 ≤ i ∧ i ≤ hi := by
  induction lo, hi using interval_induction with
  | hempty lo hi h => simp [search_empty key x lo hi h]
  | hstep lo hi h ihl ihr =>
    have hm := middle_bounds h
    have ihl := ihl (hk.mono le_rfl (by omega))
    have ihr := ihr (hk.mono (by omega) le_rfl)
    intro i hi₁
    rcases search_turn key x h hk with ⟨-, -, he⟩ | ⟨-, -, he⟩ | ⟨-, he⟩ | ⟨-, -, he⟩ <;>
      rw [he] at hi₁
    · have := mem_probed hi₁
      omega
    · have := mem_probed hi₁
      omega
    · rcases List.mem_append.mp hi₁ with hi₁ | hi₁
      · have := mem_probed hi₁
        omega
      · have := ihr i hi₁
        omega
    · rcases List.mem_append.mp hi₁ with hi₁ | hi₁
      · have := mem_probed hi₁
        omega
      · have := ihl i hi₁
        omega

theorem endsInPair_zero : endsInPair 0 = false := by rw [endsInPair]; rfl
theorem endsInPair_one : endsInPair 1 = true := by rw [endsInPair]; rfl
theorem endsInPair_half (w : Nat) (h : 2 ≤ w) : endsInPair w = endsInPair (w / 2 - 1) := by
  rw [endsInPair, if_neg (by omega), if_neg (by omega)]

theorem overshoots_short (lo hi : Int) (h : hi < lo + 3) : overshoots lo hi = [] := by
  rw [overshoots, if_pos h]
theorem overshoots_long (lo hi : Int) (h : lo + 3 ≤ hi) : overshoots lo hi =
    (middle lo hi + 1) :: (overshoots lo (middle lo hi - 1) ++
      overshoots (middle lo hi + 1) hi) := by
  rw [overshoots, if_neg (by omega)]

theorem mem_overshoots_bounds (lo hi : Int) : ∀ i ∈ overshoots lo hi, lo < i ∧ i < hi := by
  induction lo, hi using interval_induction with
  | hempty lo hi h => simp [overshoots_short lo hi (by omega)]
  | hstep lo hi h ihl ihr =>
    have hm := middle_bounds h
    by_cases h₃ : lo + 3 ≤ hi
    · intro i hi₁
      rw [overshoots_long lo hi h₃] at hi₁
      rcases List.mem_cons.mp hi₁ with rfl | hi₁
      · simp only [middle] at *
        omega
      · rcases List.mem_append.mp hi₁ with hi₁ | hi₁
        · have := ihl i hi₁
          omega
        · have := ihr i hi₁
          omega
    · simp [overshoots_short lo hi (by omega)]

/-- Right of the middle is an overshooting place of its own. -/
theorem next_mem_overshoots {lo hi : Int} (h : lo < hi) :
    middle lo hi + 1 ∈ overshoots lo hi ↔ lo + 3 ≤ hi := by
  constructor
  · intro hmem
    by_contra hshort
    simp [overshoots_short lo hi (by omega)] at hmem
  · intro hwide
    rw [overshoots_long lo hi hwide]
    exact List.mem_cons_self

theorem mem_overshoots_left {lo hi i : Int} (h : lo < hi) (hi₁ : i ≤ middle lo hi) :
    i ∈ overshoots lo hi ↔ i ∈ overshoots lo (middle lo hi - 1) := by
  have hm := middle_bounds h
  have hright := mem_overshoots_bounds (middle lo hi + 1) hi i
  by_cases hwide : lo + 3 ≤ hi
  · rw [overshoots_long lo hi hwide, List.mem_cons, List.mem_append]
    constructor
    · rintro (hmem | hmem | hmem)
      · omega
      · exact hmem
      · have := hright hmem
        omega
    · exact fun hmem => .inr (.inl hmem)
  · simp [overshoots_short lo hi (by omega), overshoots_short lo (middle lo hi - 1) (by omega)]

theorem mem_overshoots_right {lo hi i : Int} (h : lo < hi) (hi₁ : middle lo hi + 1 < i) :
    i ∈ overshoots lo hi ↔ i ∈ overshoots (middle lo hi + 1) hi := by
  have hm := middle_bounds h
  have hleft := mem_overshoots_bounds lo (middle lo hi - 1) i
  by_cases hwide : lo + 3 ≤ hi
  · rw [overshoots_long lo hi hwide, List.mem_cons, List.mem_append]
    constructor
    · rintro (hmem | hmem | hmem)
      · omega
      · have := hleft hmem
        omega
      · exact hmem
    · exact fun hmem => .inr (.inr hmem)
  · simp [overshoots_short lo hi (by omega), overshoots_short (middle lo hi + 1) hi (by omega)]

/-- The middle and the place before it answer for themselves. -/
theorem not_mem_overshoots {lo hi i : Int} (h : lo < hi) (hi₁ : middle lo hi - 1 ≤ i)
    (hi₂ : i ≤ middle lo hi) :
    i ∉ overshoots lo hi := by
  rw [mem_overshoots_left h hi₂]
  intro hmem
  have := mem_overshoots_bounds lo (middle lo hi - 1) i hmem
  omega

theorem Increasing.le {key : Int → α} {lo hi i j : Int} (h : Increasing key lo hi)
    (hi₁ : lo ≤ i) (hij : i ≤ j) (hj : j ≤ hi) : key i ≤ key j := by
  rcases hij.lt_or_eq with hij | rfl
  · exact (h i j hi₁ hij hj).le
  · exact le_rfl

/-- The place left of the interval is read by a turn on two places only. -/
theorem left_mem_probed {lo hi : Int} (h : lo < hi) : lo - 1 ∈ probed lo hi ↔ hi = lo + 1 := by
  simp only [probed, middle, List.mem_cons, List.not_mem_nil, or_false]
  omega

/-- Left of the first key nothing is found, unless the interval shrinks to a
pair there and the place before it answers. -/
theorem search_below (key : Int → α) (x : α) (lo hi : Int) (hk : Increasing key lo hi)
    (hle : lo ≤ hi) (hx : x < key lo) :
    (search key x lo hi).1 =
        (if endsInPair (hi - lo).toNat = true ∧ key (lo - 1) ≤ x then some (lo - 1) else none) ∧
      (lo - 1 ∈ (search key x lo hi).2 ↔ endsInPair (hi - lo).toNat = true) := by
  induction hw : (hi - lo).toNat using Nat.strong_induction_on generalizing hi with
  | _ w ih =>
    rcases Nat.lt_or_ge w 2 with hw2 | hw2
    · rcases Nat.lt_or_ge w 1 with hw1 | hw1
      · obtain rfl : w = 0 := by omega
        rw [search_empty key x lo hi (by omega)]
        simp [endsInPair_zero]
      · obtain rfl : w = 1 := by omega
        have hmid : middle lo hi = lo := by simp only [middle]; omega
        have hlt : lo < hi := by omega
        have hleft := (left_mem_probed hlt).mpr (by omega)
        rcases search_turn key x hlt hk with ⟨h₁, -, -⟩ | ⟨-, h₂, he⟩ | ⟨h₁, -⟩ | ⟨-, h₂, he⟩
        · rw [hmid] at h₁
          exact absurd hx h₁.not_gt
        · rw [hmid] at h₂ he
          rw [he]
          exact ⟨by simp [endsInPair_one, h₂], by simpa [endsInPair_one] using hleft⟩
        · rw [hmid] at h₁
          exact absurd (hk lo (lo + 1) le_rfl (by omega) (by omega)) (hx.trans' h₁).not_gt
        · rw [hmid] at h₂ he
          rw [he, search_empty key x lo (lo - 1) (by omega)]
          exact ⟨by simp [h₂.not_ge], by simpa [endsInPair_one] using hleft⟩
    · have hlt : lo < hi := by omega
      have hm : lo + 1 ≤ middle lo hi ∧ middle lo hi + 1 ≤ hi ∧
          (middle lo hi - 1 - lo).toNat = w / 2 - 1 := by simp only [middle]; omega
      have hmid : x < key (middle lo hi) := hx.trans_le (hk.le le_rfl (by omega) (by omega))
      have hprev : x < key (middle lo hi - 1) := hx.trans_le (hk.le le_rfl (by omega) (by omega))
      have hleft := left_mem_probed hlt
      rcases search_turn key x hlt hk with ⟨h₁, -, -⟩ | ⟨-, h₂, -⟩ | ⟨h₁, -⟩ | ⟨-, -, he⟩
      · exact absurd hmid h₁.not_gt
      · exact absurd hprev h₂.not_gt
      · exact absurd (hk _ (middle lo hi + 1) (by omega) (by omega) (by omega))
          (hmid.trans' h₁).not_gt
      · obtain ⟨hres, hread⟩ := ih _ (by omega) (middle lo hi - 1) (hk.mono le_rfl (by omega))
          (by omega) hm.2.2
        rw [he, endsInPair_half w hw2]
        refine ⟨hres, ?_⟩
        rw [List.mem_append, hread, hleft]
        constructor
        · rintro (h | h)
          · omega
          · exact h
        · exact .inr

section Between

variable {key : Int → α} {x : α} {lo hi r : Int}

theorem Increasing.place_lt (hk : Increasing key lo hi) (hhi : r < hi) (hr : key r ≤ x) {i : Int}
    (hi₁ : lo ≤ i) (hlt : x < key i) : r < i := by
  by_contra hle
  exact absurd (hk.le hi₁ (by omega : i ≤ r) (by omega)) (hlt.trans_le' hr).not_ge

theorem Increasing.le_place (hk : Increasing key lo hi) (hlo : lo ≤ r) (hx : x < key (r + 1))
    {i : Int} (hi₂ : i ≤ hi) (hle : key i ≤ x) : i ≤ r := by
  by_contra hgt
  exact absurd (hk.le (by omega) (by omega : r + 1 ≤ i) hi₂) (hle.trans_lt hx).not_ge

/-- What a search answers for a value from the key of `r` up to the next one. -/
theorem search_place (hk : Increasing key lo hi) (hlo : lo ≤ r) (hhi : r < hi) (hr : key r ≤ x)
    (hx : x < key (r + 1)) :
    (search key x lo hi).1 = some (if x = key r ∧ r ∈ overshoots lo hi then r - 1 else r) := by
  induction lo, hi using interval_induction with
  | hempty lo hi h => omega
  | hstep lo hi h ihl ihr =>
    have hm := middle_bounds h
    rcases search_turn key x h hk with ⟨h₁, h₂, he⟩ | ⟨h₁, h₂, he⟩ | ⟨h₁, he⟩ | ⟨h₁, h₂, he⟩
    · have hmr := hk.le_place hlo hx (by omega) h₁
      rw [he]
      rcases h₂.lt_or_eq with h₂ | h₂
      · obtain rfl : r = middle lo hi := by
          have := hk.place_lt hhi hr (by omega) h₂
          omega
        have hnot := not_mem_overshoots h (by omega) (le_refl (middle lo hi))
        rw [if_neg fun h => hnot h.2]
      · have hr' := hk.le_place hlo hx hm.2 h₂.ge
        obtain rfl : r = middle lo hi + 1 := by
          by_contra hne
          exact absurd (hk (middle lo hi + 1) r (by omega) (by omega) (by omega)) (h₂ ▸ hr).not_gt
        have hwide : lo + 3 ≤ hi := by
          simp only [middle] at hhi
          omega
        rw [if_pos ⟨h₂, (next_mem_overshoots h).mpr hwide⟩, add_sub_cancel_right]
    · have hrm := hk.place_lt hhi hr hm.1 h₁
      have hrm' := hk.le_place hlo hx (by omega) h₂
      obtain rfl : r = middle lo hi - 1 := by omega
      have hnot := not_mem_overshoots h (le_refl (middle lo hi - 1)) (by omega)
      rw [he, if_neg fun h => hnot h.2]
    · have hrm := hk.le_place hlo hx hm.2 h₁.le
      have hres := ihr (hk.mono (by omega) le_rfl) hrm hhi
      have hiff : (x = key r ∧ r ∈ overshoots (middle lo hi + 1) hi) ↔
          (x = key r ∧ r ∈ overshoots lo hi) := by
        refine and_congr_right fun hxr => (mem_overshoots_right h ?_).symm
        apply hrm.lt_of_ne
        rintro rfl
        exact absurd hxr h₁.ne'
      rw [he]
      simpa only [hiff] using hres
    · have hrm := hk.place_lt hhi hr hm.1 h₁
      have hrm' := hk.place_lt hhi hr (by omega) h₂
      have hres := ihl (hk.mono le_rfl (by omega)) hlo hrm'
      have hiff : (x = key r ∧ r ∈ overshoots lo (middle lo hi - 1)) ↔
          (x = key r ∧ r ∈ overshoots lo hi) :=
        and_congr_right fun _ => (mem_overshoots_left h (by omega)).symm
      rw [he]
      simpa only [hiff] using hres

/-- Which searches read the place left of the interval. -/
theorem search_reads_left (hk : Increasing key lo hi) (hlo : lo ≤ r) (hhi : r < hi)
    (hr : key r ≤ x) (hx : x < key (r + 1)) :
    lo - 1 ∈ (search key x lo hi).2 ↔ r = lo ∧ endsInPair (hi - lo).toNat = true := by
  induction lo, hi using interval_induction with
  | hempty lo hi h => omega
  | hstep lo hi h ihl ihr =>
    have hm := middle_bounds h
    have hleft := left_mem_probed h
    rcases search_turn key x h hk with ⟨h₁, h₂, he⟩ | ⟨h₁, h₂, he⟩ | ⟨h₁, he⟩ | ⟨h₁, h₂, he⟩
    · have hmr := hk.le_place hlo hx (by omega) h₁
      rw [he, hleft]
      constructor
      · intro hpair
        have hone : (hi - lo).toNat = 1 := by omega
        exact ⟨by omega, by rw [hone, endsInPair_one]⟩
      · rintro ⟨rfl, -⟩
        simp only [middle] at hmr
        omega
    · have hrm := hk.place_lt hhi hr hm.1 h₁
      have hrm' := hk.le_place hlo hx (by omega) h₂
      rw [he, hleft]
      constructor
      · intro hpair
        simp only [middle] at hrm hlo
        omega
      · rintro ⟨hfirst, hp⟩
        have hw : 2 ≤ (hi - lo).toNat ∧ (hi - lo).toNat / 2 - 1 = 0 := by
          simp only [middle] at hrm hrm'
          omega
        rw [endsInPair_half _ hw.1, hw.2, endsInPair_zero] at hp
        cases hp
    · have hrm := hk.le_place hlo hx hm.2 h₁.le
      rw [he, List.mem_append, hleft]
      constructor
      · rintro (hpair | hmem)
        · omega
        · have := reads_bounds key x _ hi (hk.mono (by omega) le_rfl) _ hmem
          omega
      · rintro ⟨rfl, -⟩
        omega
    · have hrm := hk.place_lt hhi hr hm.1 h₁
      have hrm' := hk.place_lt hhi hr (by omega) h₂
      have hread := ihl (hk.mono le_rfl (by omega)) hlo hrm'
      have hw : 2 ≤ (hi - lo).toNat ∧ (middle lo hi - 1 - lo).toNat = (hi - lo).toNat / 2 - 1 := by
        simp only [middle] at *
        omega
      rw [he, endsInPair_half _ hw.1, ← hw.2, List.mem_append, hleft, hread]
      constructor
      · rintro (hpair | hmem)
        · omega
        · exact hmem
      · exact .inr

end Between

/-- Between two keys the left one is answered, unless its key is met exactly
right of a middle; the place left of the interval is read only for the first
key, when the interval shrinks to a pair there. -/
theorem search_between (key : Int → α) (x : α) (lo hi r : Int) (hk : Increasing key lo hi)
    (hlo : lo ≤ r) (hhi : r < hi) (hr : key r ≤ x) (hx : x < key (r + 1)) :
    (search key x lo hi).1 = some (if x = key r ∧ r ∈ overshoots lo hi then r - 1 else r) ∧
      (lo - 1 ∈ (search key x lo hi).2 ↔ r = lo ∧ endsInPair (hi - lo).toNat = true) :=
  ⟨search_place hk hlo hhi hr hx, search_reads_left hk hlo hhi hr hx⟩

/-- From the last key on, the last place is never answered. -/
theorem search_above (key : Int → α) (x : α) (lo hi : Int) (hk : Increasing key lo hi)
    (hx : key hi ≤ x) : (search key x lo hi).1 ≠ some hi := by
  induction lo, hi using interval_induction with
  | hempty lo hi h => simp [search_empty key x lo hi h]
  | hstep lo hi h ihl ihr =>
    have hm := middle_bounds h
    have hmid : key (middle lo hi) < key hi := hk _ _ hm.1 (by omega) le_rfl
    rcases search_turn key x h hk with ⟨-, -, he⟩ | ⟨h₁, -, he⟩ | ⟨-, he⟩ | ⟨h₁, -, he⟩
    · rw [he]
      simp only [ne_eq, Option.some.injEq]
      omega
    · exact absurd (hmid.trans_le hx) h₁.not_gt
    · rw [he]
      exact ihr (hk.mono (by omega) le_rfl) hx
    · exact absurd (hmid.trans_le hx) h₁.not_gt

end ThreePointSearch
