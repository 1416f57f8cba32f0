import Mathlib.Tactic

/-!
# Items laid out one after the other

Items of any sizes, each at the offset where the one before it ends.
-/
namespace Placement

variable {α : Type} (size : α → Nat)

/-- The items with their offsets, from offset `p` on. -/
def placed : Nat → List α → List (Nat × α)
  | _, [] => []
  | p, a :: l => (p, a) :: placed (p + size a) l

/-- The room the items take. -/
def total : List α → Nat
  | [] => 0
  | a :: l => size a + total l

variable {size}

theorem placed_bounds {p q : Nat} {a : α} {l : List α} (h : (q, a) ∈ placed size p l) :
    p ≤ q ∧ q + size a ≤ p + total size l := by
  induction l generalizing p with
  | nil => cases h
  | cons b l ih =>
    rcases List.mem_cons.mp h with h | h
    · cases h
      exact ⟨le_refl _, by simp only [total]; omega⟩
    · have := ih h
      simp only [total]
      omega

/-- At most one item stands at an offset. -/
theorem placed_unique (hpos : ∀ a, 0 < size a) {p q : Nat} {a b : α} {l : List α}
    (ha : (q, a) ∈ placed size p l)
    (hb : (q, b) ∈ placed size p l) : a = b := by
  induction l generalizing p with
  | nil => cases ha
  | cons c l ih =>
    have hc := hpos c
    rcases List.mem_cons.mp ha with ha | ha <;> rcases List.mem_cons.mp hb with hb | hb
    · exact (Prod.mk.inj (ha.trans hb.symm)).2
    · cases ha
      have := (placed_bounds hb).1
      omega
    · cases hb
      have := (placed_bounds ha).1
      omega
    · exact ih ha hb

/-- What stands before the first item found was passed on the way to it. -/
theorem passed_of_lt {f : Nat × α → Bool} {p q q' : Nat} {a b : α} {l : List α}
    (hfound : (placed size p l).find? f = some (q, a))
    (hb : (q', b) ∈ placed size p l) (hlt : q' < q) :
    (q', b) ∈ (placed size p l).takeWhile fun x => !f x := by
  induction l generalizing p with
  | nil => cases hb
  | cons c l ih =>
    rw [placed] at hfound hb ⊢
    cases hf : f (p, c) with
    | true =>
      rw [List.find?_cons_of_pos hf] at hfound
      cases hfound
      rcases List.mem_cons.mp hb with hb | hb
      · cases hb
        omega
      · have := (placed_bounds hb).1
        omega
    | false =>
      rw [List.find?_cons_of_neg (by rw [hf]; decide)] at hfound
      rw [List.takeWhile_cons_of_pos (by rw [hf]; rfl)]
      rcases List.mem_cons.mp hb with hb | hb
      · exact List.mem_cons.mpr (.inl hb)
      · exact List.mem_cons_of_mem _ (ih hfound hb)

end Placement
