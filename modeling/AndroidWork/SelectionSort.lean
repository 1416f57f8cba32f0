import Mathlib.Logic.Equiv.Basic
import Mathlib.Order.Bounds.Basic

/-!
# Sorting by exchange, and a search outward

An array is a function on a linear order, of which the places in `s` are used.
-/
namespace SelectionSort

variable {ι α β : Type*} [LinearOrder ι] [LinearOrder β] {s : Set ι} {key : ι → β}

/-- The places before `k` have what is least from there on. -/
def SortedBefore (s : Set ι) (key : ι → β) (k : ι) : Prop :=
  ∀ x ∈ s, x < k → ∀ y ∈ s, x ≤ y → key x ≤ key y

/-- `m` has what is least from `k` on. -/
structure LeastFrom (s : Set ι) (key : ι → β) (k m : ι) : Prop where
  mem : m ∈ s
  le : k ≤ m
  least : ∀ y ∈ s, k ≤ y → key m ≤ key y

theorem swap_eq_self {k m x : ι} (hx : x < k) (h : k ≤ m) : Equiv.swap k m x = x :=
  Equiv.swap_apply_of_ne_of_ne hx.ne (hx.trans_le h).ne

/-- An exchange behind `x` leaves what is behind `x` there. -/
theorem swap_behind {k m x y : ι} (hk : k ∈ s) (hm : LeastFrom s key k m) (hx : x ≤ k)
    (hy : y ∈ s) (hxy : x ≤ y) :
    Equiv.swap k m y ∈ s ∧ x ≤ Equiv.swap k m y := by
  rw [Equiv.swap_apply_def]
  split
  · exact ⟨hm.mem, hx.trans hm.le⟩
  · split
    · exact ⟨hk, hx⟩
    · exact ⟨hy, hxy⟩

/-- The exchange of a place with the least one from there on sorts the array
before it and there. -/
theorem SortedBefore.swap {k m : ι} (h : SortedBefore s key k) (hk : k ∈ s)
    (hm : LeastFrom s key k m) :
    ∀ x ∈ s, x ≤ k → ∀ y ∈ s, x ≤ y → key (Equiv.swap k m x) ≤ key (Equiv.swap k m y) := by
  intro x hx hxk y hy hxy
  have hbehind := swap_behind hk hm hxk hy hxy
  obtain hlt | rfl := hxk.lt_or_eq
  · rw [swap_eq_self hlt hm.le]
    exact h x hx hlt _ hbehind.1 hbehind.2
  · rw [Equiv.swap_apply_left]
    exact hm.least _ hbehind.1 hbehind.2

/-- What exchanges make of an array. -/
def Rearranged (s : Set ι) (a b : ι → α) : Prop :=
  ∃ σ : Equiv.Perm ι, (∀ x ∉ s, σ x = x) ∧ b = a ∘ σ

omit [LinearOrder ι] in
theorem Rearranged.refl (a : ι → α) : Rearranged s a a := ⟨Equiv.refl ι, fun _ _ => rfl, rfl⟩

theorem Rearranged.swap {a b : ι → α} {k m : ι} (h : Rearranged s a b) (hk : k ∈ s) (hm : m ∈ s) :
    Rearranged s a (b ∘ Equiv.swap k m) := by
  obtain ⟨σ, hσ, rfl⟩ := h
  refine ⟨(Equiv.swap k m).trans σ, ?_, rfl⟩
  intro x hx
  have hfix : Equiv.swap k m x = x :=
    Equiv.swap_apply_of_ne_of_ne (fun h => hx (h ▸ hk)) (fun h => hx (h ▸ hm))
  rw [Equiv.trans_apply, hfix, hσ x hx]

omit [LinearOrder ι] in
/-- A permutation that moves places of `s` only moves them to places of `s`. -/
theorem Rearranged.exists_place {a b : ι → α} (h : Rearranged s a b) {x : ι} (hx : x ∈ s) :
    ∃ y ∈ s, b x = a y := by
  obtain ⟨σ, hσ, rfl⟩ := h
  refine ⟨σ x, ?_, rfl⟩
  by_contra hout
  have hfix : σ (σ x) = σ x := hσ _ hout
  exact hout ((σ.injective hfix).symm ▸ hx)

theorem exchange_eq (a : ι → α) (k m : ι) :
    Function.update (Function.update a m (a k)) k (a m) = a ∘ Equiv.swap k m := by
  funext x
  by_cases hk : x = k
  · simp [hk]
  · by_cases hm : x = m
    · subst hm
      simp [hk]
    · simp [hk, hm, Equiv.swap_apply_of_ne_of_ne hk hm]

section

variable {d : ι → β} {lo hi : ι} {best : β}

/-- Nothing between `lo` and `hi` is nearer than `best`. -/
def NoneNearer (s : Set ι) (d : ι → β) (lo hi : ι) (best : β) : Prop :=
  ∀ k ∈ s, lo < k → k < hi → best ≤ d k

theorem NoneNearer.mono {best' : β} (h : NoneNearer s d lo hi best) (hle : best' ≤ best) :
    NoneNearer s d lo hi best' :=
  fun k hk hlo hhi => hle.trans (h k hk hlo hhi)

theorem NoneNearer.raise {hi' : ι} (h : NoneNearer s d lo hi best)
    (hnew : ∀ k ∈ s, hi ≤ k → k < hi' → best ≤ d k) : NoneNearer s d lo hi' best := by
  intro k hk hlo hhi
  by_cases hlt : k < hi
  · exact h k hk hlo hlt
  · exact hnew k hk (le_of_not_gt hlt) hhi

theorem NoneNearer.lower {lo' : ι} (h : NoneNearer s d lo hi best)
    (hnew : ∀ k ∈ s, lo' < k → k ≤ lo → best ≤ d k) : NoneNearer s d lo' hi best := by
  intro k hk hlo hhi
  by_cases hlt : lo < k
  · exact h k hk hlt hhi
  · exact hnew k hk hlo (le_of_not_gt hlt)

end

end SelectionSort
