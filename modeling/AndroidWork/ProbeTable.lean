import Mathlib.Tactic

/-!
# Hash tables with open addressing

Every key has its route through the slots: where it is looked for, and when it
is not met before the first empty slot, it is not in the table. Entries stay
until the whole table is cleared.
-/
namespace ProbeTable

variable {ι κ ν : Type}

/-- The first slot on the way that is empty or holds the key. -/
def find [DecidableEq κ] (slots : ι → Option (κ × ν)) (next : ι → ι) (key : κ) : Nat → ι → Option ι
  | 0, _ => none
  | fuel + 1, i =>
    match slots i with
    | none => some i
    | some e => if e.1 = key then some i else find slots next key fuel (next i)

/-- The slot that a key comes to after `n` steps. -/
def route (start : κ → ι) (next : κ → ι → ι) (key : κ) (n : Nat) : ι := (next key)^[n] (start key)

def Holds (slots : ι → Option (κ × ν)) (key : κ) (v : ν) : Prop := ∃ i, slots i = some (key, v)

/-- Where looking for a key stops. -/
def Stops (slots : ι → Option (κ × ν)) (key : κ) (i : ι) : Prop := ∀ e, slots i = some e → e.1 = key

/-- Every entry is on the route of its key, behind entries of other keys only. -/
def Placed (start : κ → ι) (next : κ → ι → ι) (slots : ι → Option (κ × ν)) : Prop :=
  ∀ i e, slots i = some e →
    ∃ n, route start next e.1 n = i ∧ ∀ m < n, ¬ Stops slots e.1 (route start next e.1 m)

variable {start : κ → ι} {next : κ → ι → ι} {slots : ι → Option (κ × ν)}

theorem route_succ (start : κ → ι) (next : κ → ι → ι) (key : κ) (n : Nat) :
    route start next key (n + 1) = next key (route start next key n) :=
  Function.iterate_succ_apply' _ _ _

theorem Stops.of_none {key : κ} {i : ι} (h : slots i = none) : Stops slots key i := by
  intro e he
  rw [h] at he
  cases he

theorem not_stops_iff {key : κ} {i : ι} :
    ¬ Stops slots key i ↔ ∃ e, slots i = some e ∧ e.1 ≠ key := by
  simp only [Stops, not_forall, exists_prop, ne_eq]

theorem Placed.empty : Placed start next (fun _ => none : ι → Option (κ × ν)) := by
  intro i e he
  cases he

/-- Looking for a key goes on to the first slot where it stops. -/
theorem find_route [DecidableEq κ] {key : κ} {n : Nat}
    (hn : Stops slots key (route start next key n))
    (hbefore : ∀ m < n, ¬ Stops slots key (route start next key m)) (fuel : Nat)
    {m : Nat} (hm : m ≤ n)
    (hfuel : n - m < fuel) :
    find slots (next key) key fuel (route start next key m) = some (route start next key n) := by
  induction fuel generalizing m with
  | zero => omega
  | succ fuel ih =>
    rw [find]
    rcases hm.lt_or_eq with hlt | rfl
    · obtain ⟨e, he, hne⟩ := not_stops_iff.mp (hbefore m hlt)
      rw [he]
      simp only
      rw [if_neg hne, ← route_succ start next key m]
      exact ih hlt (by omega)
    · rcases hslot : slots (route start next key m) with _ | e
      · rfl
      · simp only
        rw [if_pos (hn e hslot)]

/-- The slots that looking for a key looks at. -/
def probes [DecidableEq κ] (slots : ι → Option (κ × ν)) (next : ι → ι) (key : κ) : Nat → ι → List ι
  | 0, _ => []
  | fuel + 1, i =>
    i :: match slots i with
      | none => []
      | some e => if e.1 = key then [] else probes slots next key fuel (next i)

theorem forall_probes [DecidableEq κ] {next : ι → ι} {key : κ} {P : ι → Prop}
    (hnext : ∀ i, P i → P (next i))
    (fuel : Nat) {i : ι} (hi : P i) : ∀ j ∈ probes slots next key fuel i, P j := by
  induction fuel generalizing i with
  | zero => simp [probes]
  | succ fuel ih =>
    rw [probes, List.forall_mem_cons]
    refine ⟨hi, ?_⟩
    split
    · simp
    · split
      · simp
      · exact ih (hnext i hi)

theorem find_mem_probes [DecidableEq κ] {next : ι → ι} {key : κ} (fuel : Nat) {i j : ι}
    (h : find slots next key fuel i = some j) : j ∈ probes slots next key fuel i := by
  induction fuel generalizing i with
  | zero => cases h
  | succ fuel ih =>
    rw [find] at h
    rw [probes]
    cases hslot : slots i with
    | none =>
      rw [hslot] at h
      cases h
      exact List.mem_cons_self
    | some e =>
      rw [hslot] at h
      simp only at h ⊢
      split at h
      · cases h
        exact List.mem_cons_self
      · rw [if_neg ‹_›]
        exact List.mem_cons_of_mem i (ih h)

/-- A route that does not come back to a slot meets an empty one, when there are
fewer entries than steps. -/
theorem exists_free {key : κ} {fuel : Nat} (hinj : Set.InjOn (route start next key) (Set.Iio fuel))
    (taken : Finset ι) (htaken : ∀ i, slots i ≠ none → i ∈ taken) (hcard : taken.card < fuel) :
    ∃ n < fuel, slots (route start next key n) = none := by
  by_contra hfull
  have hmem : ∀ n ∈ Finset.range fuel, route start next key n ∈ taken := by
    intro n hn
    refine htaken _ fun hnone => hfull ⟨n, Finset.mem_range.mp hn, hnone⟩
  have hle := Finset.card_le_card_of_injOn (route start next key) hmem (by
    rw [Finset.coe_range]
    exact hinj)
  rw [Finset.card_range] at hle
  omega

/-- Looking for a key finds its entry; when there is none, it finds the slot that
the entry is to have. -/
theorem find_spec [DecidableEq κ] (hplaced : Placed start next slots) {key : κ} {fuel : Nat}
    (hfree : ∃ n < fuel, slots (route start next key n) = none) :
    ∃ n, find slots (next key) key fuel (start key) = some (route start next key n) ∧
      (∀ m < n, ¬ Stops slots key (route start next key m)) ∧
      ((slots (route start next key n) = none ∧ ∀ v, ¬ Holds slots key v) ∨
        ∃ v, slots (route start next key n) = some (key, v)) := by
  classical
  have hex : ∃ n, Stops slots key (route start next key n) := by
    obtain ⟨n, -, hnone⟩ := hfree
    exact ⟨n, .of_none hnone⟩
  have hfirst : ∀ m < Nat.find hex, ¬ Stops slots key (route start next key m) :=
    fun m => Nat.find_min hex
  refine ⟨Nat.find hex, find_route (Nat.find_spec hex) hfirst fuel (Nat.zero_le _) ?_, hfirst, ?_⟩
  · obtain ⟨n, hlt, hnone⟩ := hfree
    have := Nat.find_min' hex (.of_none hnone)
    omega
  · rcases hslot : slots (route start next key (Nat.find hex)) with _ | ⟨k, v⟩
    · refine .inl ⟨rfl, fun v ⟨i, hi⟩ => ?_⟩
      obtain ⟨n, hn, hbefore⟩ := hplaced i _ hi
      have hstop : Stops slots key (route start next key n) := by
        intro e he
        rw [hn, hi] at he
        cases he
        rfl
      rcases lt_trichotomy n (Nat.find hex) with hlt | heq | hgt
      · exact hfirst n hlt hstop
      · rw [← heq, hn, hi] at hslot
        cases hslot
      · exact hbefore _ hgt (.of_none hslot)
    · obtain rfl : k = key := Nat.find_spec hex (k, v) hslot
      exact .inr ⟨v, rfl⟩

/-- A new entry in the slot that was found for it. -/
theorem Placed.insert [DecidableEq ι] (hplaced : Placed start next slots) {key : κ} {n : Nat}
    (hnone : slots (route start next key n) = none)
    (hbefore : ∀ m < n, ¬ Stops slots key (route start next key m)) (v : ν) :
    Placed start next (Function.update slots (route start next key n) (some (key, v))) := by
  have hkeep : ∀ {k j}, ¬ Stops slots k j →
      ¬ Stops (Function.update slots (route start next key n) (some (key, v))) k j := by
    intro k j h
    obtain ⟨e, he, hne⟩ := not_stops_iff.mp h
    refine not_stops_iff.mpr ⟨e, ?_, hne⟩
    rw [Function.update_of_ne, he]
    rintro rfl
    rw [hnone] at he
    cases he
  intro i e he
  by_cases hi : i = route start next key n
  · rw [hi, Function.update_self] at he
    cases he
    exact ⟨n, hi.symm, fun m hm => hkeep (hbefore m hm)⟩
  · rw [Function.update_of_ne hi] at he
    obtain ⟨m, hm, hothers⟩ := hplaced i e he
    exact ⟨m, hm, fun l hl => hkeep (hothers l hl)⟩

theorem holds_insert [DecidableEq ι] {i : ι} (hnone : slots i = none) {key : κ} {v : ν}
    (key' : κ) (v' : ν) :
    Holds (Function.update slots i (some (key, v))) key' v' ↔
      (key' = key ∧ v' = v) ∨ Holds slots key' v' := by
  constructor
  · rintro ⟨j, hj⟩
    by_cases hij : j = i
    · rw [hij, Function.update_self] at hj
      cases hj
      exact .inl ⟨rfl, rfl⟩
    · rw [Function.update_of_ne hij] at hj
      exact .inr ⟨j, hj⟩
  · rintro (⟨rfl, rfl⟩ | ⟨j, hj⟩)
    · exact ⟨i, Function.update_self ..⟩
    · refine ⟨j, ?_⟩
      rw [Function.update_of_ne, hj]
      rintro rfl
      rw [hnone] at hj
      cases hj

/-- No more than `n` slots have an entry. -/
def Occupies (slots : ι → Option (κ × ν)) (n : Nat) : Prop :=
  ∃ taken : Finset ι, taken.card ≤ n ∧ ∀ i, slots i ≠ none → i ∈ taken

theorem Occupies.empty : Occupies (fun _ => none : ι → Option (κ × ν)) 0 :=
  ⟨∅, le_rfl, fun _ hi => absurd rfl hi⟩

theorem Occupies.insert [DecidableEq ι] {n : Nat} (h : Occupies slots n) (i : ι) (e : κ × ν) :
    Occupies (Function.update slots i (some e)) (n + 1) := by
  obtain ⟨taken, hcard, htaken⟩ := h
  refine ⟨Insert.insert i taken, (Finset.card_insert_le i taken).trans (Nat.succ_le_succ hcard), ?_⟩
  intro j hj
  by_cases hij : j = i
  · exact hij ▸ Finset.mem_insert_self i taken
  · rw [Function.update_of_ne hij] at hj
    exact Finset.mem_insert_of_mem (htaken j hj)

/-- In a table with a free slot a key is found with its value, or it is new and
may have the slot. -/
theorem find_or_insert [DecidableEq ι] [DecidableEq κ]
    (hplaced : Placed start next slots) {n fuel : Nat}
    (hslots : Occupies slots n) (hn : n < fuel) (key : κ)
    (hinj : Set.InjOn (route start next key) (Set.Iio fuel)) :
    ∃ i, find slots (next key) key fuel (start key) = some i ∧
      ((∃ v, slots i = some (key, v) ∧ Holds slots key v) ∨
        (slots i = none ∧ (∀ v, ¬ Holds slots key v) ∧
          ∀ v, Placed start next (Function.update slots i (some (key, v))) ∧
            Occupies (Function.update slots i (some (key, v))) (n + 1))) := by
  obtain ⟨taken, hcard, htaken⟩ := hslots
  obtain ⟨m, hfind, hbefore, hslot⟩ :=
    find_spec hplaced (exists_free hinj taken htaken (hcard.trans_lt hn))
  refine ⟨_, hfind, ?_⟩
  obtain ⟨hnone, hnew⟩ | ⟨v, hv⟩ := hslot
  · exact .inr ⟨hnone, hnew, fun v =>
      ⟨hplaced.insert hnone hbefore v, Occupies.insert ⟨taken, hcard, htaken⟩ _ _⟩⟩
  · exact .inl ⟨v, hv, _, hv⟩

/-- No two slots have entries of one key. -/
theorem Placed.unique (hplaced : Placed start next slots) {i j : ι} {e e' : κ × ν}
    (hi : slots i = some e)
    (hj : slots j = some e') (heq : e.1 = e'.1) : i = j := by
  have hstops : ∀ {k l} {d : κ × ν}, slots l = some d → d.1 = k → Stops slots k l := by
    rintro k l d hl rfl c hc
    rw [hl] at hc
    cases hc
    rfl
  obtain ⟨n, rfl, hn⟩ := hplaced i e hi
  obtain ⟨m, rfl, hm⟩ := hplaced j e' hj
  rw [heq] at hn hi ⊢
  obtain hlt | rfl | hgt := lt_trichotomy n m
  · exact absurd (hstops hi heq) (hm n hlt)
  · rfl
  · exact absurd (hstops hj rfl) (hn m hgt)

/-- Entries that are there later too. -/
def Extends (slots slots' : ι → Option (κ × ν)) : Prop :=
  ∀ i e, slots i = some e → slots' i = some e

theorem Extends.refl (slots : ι → Option (κ × ν)) : Extends slots slots := fun _ _ => id

theorem Extends.trans {slots' slots'' : ι → Option (κ × ν)} (h : Extends slots slots')
    (h' : Extends slots' slots'') :
    Extends slots slots'' := fun i e he => h' i e (h i e he)

theorem Extends.insert [DecidableEq ι] {i : ι} (hnone : slots i = none) (e : κ × ν) :
    Extends slots (Function.update slots i (some e)) := by
  intro j d hj
  rw [Function.update_of_ne, hj]
  rintro rfl
  rw [hnone] at hj
  cases hj

/-- An entry in the slot that was found for it is found there from then on. -/
theorem find_again [DecidableEq κ] {slots' : ι → Option (κ × ν)} (hext : Extends slots slots')
    {key : κ} {n fuel : Nat}
    (hn : n < fuel) (hbefore : ∀ m < n, ¬ Stops slots key (route start next key m)) {v : ν}
    (hslot : slots' (route start next key n) = some (key, v)) :
    find slots' (next key) key fuel (start key) = some (route start next key n) := by
  refine find_route (fun e he => ?_) (fun m hm => ?_) fuel (Nat.zero_le n) hn
  · rw [hslot] at he
    cases he
    rfl
  · obtain ⟨e, he, hne⟩ := not_stops_iff.mp (hbefore m hm)
    exact not_stops_iff.mpr ⟨e, hext _ e he, hne⟩

end ProbeTable
