import Mathlib.Tactic

/-!
# Powers of words

What a power of a word ends in, and the words that commute: both are powers of one word.
-/
namespace CommutingWords

variable {α : Type}

def power (n : Nat) (w : List α) : List α := (List.replicate n w).flatten

@[simp] theorem power_zero (w : List α) : power 0 w = [] := rfl
@[simp] theorem power_one (w : List α) : power 1 w = w := by simp [power]

theorem power_add (m n : Nat) (w : List α) : power (m + n) w = power m w ++ power n w := by
  rw [power, List.replicate_add, List.flatten_append, power, power]

theorem power_comm (m n : Nat) (w : List α) : power m w ++ power n w = power n w ++ power m w := by
  rw [← power_add, Nat.add_comm, power_add]

theorem append_suffix_iff {u v : List α} (w : List α) : u ++ w <:+ v ++ w ↔ u <:+ v := by
  constructor
  · rintro ⟨x, hx⟩
    exact ⟨x, by simpa [← List.append_assoc] using hx⟩
  · rintro ⟨x, rfl⟩
    exact ⟨x, by rw [List.append_assoc]⟩

theorem suffix_power {i j : Nat} (w : List α) (h : i ≤ j) : power i w <:+ power j w := by
  obtain ⟨m, rfl⟩ := Nat.exists_eq_add_of_le h
  rw [Nat.add_comm, power_add]
  exact List.suffix_append _ _

/-- Every word ends in copies of `w` behind a part that does not. -/
theorem exists_power {w : List α} (hw : w ≠ []) (s : List α) :
    ∃ x i, s = x ++ power i w ∧ ¬ w <:+ x := by
  induction hs : s.length using Nat.strong_induction_on generalizing s with
  | _ n ih =>
    by_cases hsuffix : w <:+ s
    · obtain ⟨s', rfl⟩ := hsuffix
      have hpos := List.length_pos_of_ne_nil hw
      obtain ⟨x, i, rfl, hx⟩ := ih s'.length (by simp at hs; omega) s' rfl
      exact ⟨x, i + 1, by rw [power_add, power_one, List.append_assoc], hx⟩
    · exact ⟨s, 0, by simp, hsuffix⟩

/-- The shorter word is cut off the longer one, until one of them is empty. -/
theorem exists_powers {u v : List α} (h : u ++ v = v ++ u) :
    ∃ w i j, u = power i w ∧ v = power j w := by
  induction hn : u.length + v.length using Nat.strong_induction_on generalizing u v with
  | _ n ih =>
    have hcut : ∀ {u v : List α}, u ++ v = v ++ u → u.length + v.length = n → u ≠ [] →
        u.length ≤ v.length →
        ∃ w i j, u = power i w ∧ v = power j w := by
      intro u v h hn hu hle
      obtain ⟨rest, rfl⟩ : u <+: v :=
        List.prefix_of_prefix_length_le (h ▸ List.prefix_append u v) (List.prefix_append v u) hle
      have hrest : u ++ rest = rest ++ u := by simpa using h
      have hpos := List.length_pos_of_ne_nil hu
      obtain ⟨w, i, j, hi, hj⟩ := ih (u.length + rest.length) (by simp at hn; omega) hrest rfl
      exact ⟨w, i, i + j, hi, by rw [power_add, ← hi, ← hj]⟩
    by_cases hu : u = []
    · exact ⟨v, 0, 1, hu, (power_one v).symm⟩
    by_cases hv : v = []
    · exact ⟨u, 1, 0, (power_one u).symm, hv⟩
    obtain hle | hle := le_total u.length v.length
    · exact hcut h hn hu hle
    · obtain ⟨w, j, i, hj, hi⟩ := hcut h.symm (by omega) hv hle
      exact ⟨w, i, j, hi, hj⟩

theorem append_comm_iff (u v : List α) :
    u ++ v = v ++ u ↔ ∃ w i j, u = power i w ∧ v = power j w := by
  constructor
  · exact exists_powers
  · rintro ⟨w, i, j, rfl, rfl⟩
    exact power_comm i j w

end CommutingWords
