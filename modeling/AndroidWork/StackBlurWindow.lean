import AndroidWork.StackBlur

/-!
# The window of the stack blur

What the stack and the three sums are worth after the filling loop and after each
move, for a sequence of triples that the window looks at.
-/
namespace StackBlur

open SlidingWindow

section Ints

variable {α : Type}

theorem int_eq {z : Int} (hlow : -2 ^ 31 ≤ z) (hhigh : z < 2 ^ 31) : int z = z := by
  rw [int, Int.bmod_def]
  split <;> omega

theorem get_natCast (a : List α) (i : Nat) : get a i = a[i]? := if_pos (Int.natCast_nonneg i)

theorem set_natCast {a : List α} {i : Nat} (h : i < a.length) (v : α) :
    set a i v = some (a.set i v) :=
  if_pos ⟨Int.natCast_nonneg i, by exact_mod_cast h⟩

theorem ofInt_mul_eq_zsmul (z : Int) (b : BitVec 32) : b * BitVec.ofInt 32 z = z • b := by
  rw [mul_comm, zsmul_eq_mul]
  rfl

end Ints

variable {r : Nat} {f : Int → Rgb} {c : Int}

/-- The first `k` places are in the window. -/
structure Filled (r : Nat) (f : Int → Rgb) (k : Nat) (s : Window) : Prop where
  length : s.stack.length = 2 * r + 1
  stack : ∀ i < k, s.stack[i]? = some (f (0 - r + i))
  sum : s.sum = ∑ i ∈ Finset.range k, weight r i • f (0 - r + i)
  insum : s.insum = ∑ i ∈ Finset.range (k - (r + 1)), f (0 + 1 + i)
  outsum : s.outsum = ∑ i ∈ Finset.range (min k (r + 1)), f (0 - r + i)

/-- The window and its sums are those around `c`. -/
structure Around (r : Nat) (f : Int → Rgb) (c : Int) (s : Window) : Prop where
  holds : Holds r f c s.stack s.stackpointer
  sum : s.sum = weighted r f c
  insum : s.insum = incoming r f c
  outsum : s.outsum = outgoing r f c

theorem filled_start {s : Window} (h : s.stack.length = 2 * r + 1) : Filled r f 0 s.start :=
  ⟨h, nofun, rfl, by rw [Nat.zero_sub]; rfl, by rw [Nat.zero_min]; rfl⟩

theorem fillTurn_filled {k : Nat} {s : Window} (h : Filled r f k s) (hk : k < 2 * r + 1) :
    ∃ s', fillTurn r (k - r) (f (0 - r + k)) s = some s' ∧ Filled r f (k + 1) s' := by
  have hset : set s.stack ((k : Int) - r + r) (f (0 - r + k)) =
      some (s.stack.set k (f (0 - r + k))) := by
    rw [sub_add_cancel, set_natCast (by rw [h.length]; exact hk)]
  refine ⟨_, by rw [fillTurn, hset]; rfl, ?_, ?_, ?_, ?_, ?_⟩
  · rw [List.length_set, h.length]
  · intro i hi
    rw [List.getElem?_set]
    by_cases heq : k = i
    · rw [if_pos heq, if_pos (by rw [h.length]; exact hk), heq]
    · rw [if_neg heq]
      exact h.stack i (by omega)
  · rw [Finset.sum_range_succ, ← h.sum]
    funext ch
    exact congrArg (s.sum ch + ·) (ofInt_mul_eq_zsmul _ _)
  · by_cases hright : (k : Int) - r > 0
    · simp only [if_pos hright]
      rw [show k + 1 - (r + 1) = k - (r + 1) + 1 by omega, Finset.sum_range_succ, ← h.insum]
      congr 2
      omega
    · simp only [if_neg hright]
      rw [h.insum, show k + 1 - (r + 1) = k - (r + 1) by omega]
  · by_cases hright : (k : Int) - r > 0
    · simp only [if_pos hright]
      rw [h.outsum, min_eq_right (by omega), min_eq_right (by omega)]
    · simp only [if_neg hright]
      rw [h.outsum, min_eq_left (by omega), min_eq_left (by omega), Finset.sum_range_succ]

theorem Filled.around {s : Window} (h : Filled r f (2 * r + 1) s) :
    Around r f 0 { s with stackpointer := r } := by
  refine ⟨holds_start h.length h.stack, h.sum, ?_, ?_⟩
  · rw [h.insum, incoming, show 2 * r + 1 - (r + 1) = r by omega]
  · rw [h.outsum, outgoing, min_eq_right (by omega)]

/-- The slot of the value that leaves. -/
theorem stackstart_eq (r pointer : Nat) :
    ((pointer : Int) - r + ((r + r + 1 : Nat) : Int)).tmod ((r + r + 1 : Nat) : Int) =
      (((pointer + r + 1) % (2 * r + 1) : Nat) : Int) := by
  have hsum : (pointer : Int) - r + ((r + r + 1 : Nat) : Int) =
      ((pointer + r + 1 : Nat) : Int) := by
    push_cast
    ring
  rw [hsum, Int.tmod_eq_emod_of_nonneg (Int.natCast_nonneg _), show r + r + 1 = 2 * r + 1 by ring]
  rfl

theorem slide_around {s : Window} (h : Around r f c s) :
    ∃ s', slide r (f (c + r + 1)) s = some s' ∧ Around r f (c + 1) s' := by
  have hslot : (s.stackpointer + r + 1) % (2 * r + 1) < s.stack.length := by
    rw [h.holds.length]
    exact Nat.mod_lt _ (Nat.succ_pos _)
  have hmoved := h.holds.move
  have hcentre := hmoved.centre
  rw [Nat.mod_mod] at hcentre
  refine ⟨⟨s.stack.set ((s.stackpointer + r + 1) % (2 * r + 1)) (f (c + r + 1)),
    (s.stackpointer + 1) % (2 * r + 1),
    s.sum - s.outsum + (s.insum + f (c + r + 1)), s.insum + f (c + r + 1) - f (c + 1),
      s.outsum - f (c - r) + f (c + 1)⟩, ?_, ?_⟩
  · rw [slide]
    simp only [stackstart_eq, get_natCast, h.holds.first, set_natCast hslot,
      Option.bind_eq_bind, Option.bind_some]
    rw [show r + r + 1 = 2 * r + 1 by ring, hcentre]
    rfl
  · refine ⟨hmoved, ?_, ?_, ?_⟩
    · rw [weighted_succ, h.sum, h.insum, h.outsum]
    · rw [incoming_succ, h.insum]
    · rw [outgoing_succ, h.outsum]

/-- The weighted sum as a number. -/
def total (r : Nat) (v : Int → Nat) (c : Int) : Nat :=
  ∑ i ∈ Finset.range (2 * r + 1), (weight r i).toNat * v (c - r + i)

theorem average_eq (r : Nat) (v : Int → Nat) (c : Int) :
    average r v c = total r v c / (r + 1) ^ 2 := rfl

theorem total_lt {v : Int → Nat} (h : ∀ i, v i < 256) : total r v c < 256 * (r + 1) ^ 2 := by
  have hweight : ∑ i ∈ Finset.range (2 * r + 1), (weight r i).toNat = (r + 1) ^ 2 := by
    zify
    rw [← sum_weight r]
    exact Finset.sum_congr rfl fun i hi =>
      Int.toNat_of_nonneg (weight_nonneg r (Finset.mem_range.mp hi))
  have hle : total r v c ≤ (∑ i ∈ Finset.range (2 * r + 1), (weight r i).toNat) * 255 := by
    rw [Finset.sum_mul]
    exact Finset.sum_le_sum fun i _ => Nat.mul_le_mul_left _ (Nat.le_of_lt_succ (h _))
  rw [hweight] at hle
  have hpos : 0 < (r + 1) ^ 2 := by positivity
  omega

theorem average_lt {v : Int → Nat} (h : ∀ i, v i < 256) : average r v c < 256 := by
  rw [average_eq, Nat.div_lt_iff_lt_mul (by positivity)]
  exact total_lt h

theorem ofNat_eq_natCast (n : Nat) : BitVec.ofNat 32 n = (n : BitVec 32) := rfl

theorem weighted_apply (ch : Fin 3) :
    weighted r f c ch = BitVec.ofNat 32 (total r (fun i => (f i ch).toNat) c) := by
  rw [weighted, Finset.sum_apply, total, ofNat_eq_natCast, Nat.cast_sum]
  refine Finset.sum_congr rfl fun i hi => ?_
  have hweight : ((weight r i).toNat : BitVec 32) = (weight r i : BitVec 32) := by
    rw [← Int.cast_natCast, Int.toNat_of_nonneg (weight_nonneg r (Finset.mem_range.mp hi))]
  have hvalue (b : BitVec 32) : ((b.toNat : Nat) : BitVec 32) = b := by
    rw [← ofNat_eq_natCast, BitVec.ofNat_toNat, BitVec.setWidth_eq]
  rw [Pi.smul_apply, zsmul_eq_mul, Nat.cast_mul, hweight, hvalue]

theorem get_quotients {n : Nat} (hn : n < 256 * (r + 1) ^ 2) (htable : 256 * (r + 1) ^ 2 < 2 ^ 31) :
    get (quotients r) (BitVec.ofNat 32 n).toInt = some (BitVec.ofNat 32 (n / (r + 1) ^ 2)) := by
  have hdivsum : ((r + r + 1 + 1) >>> 1) * ((r + r + 1 + 1) >>> 1) = (r + 1) ^ 2 := by
    rw [Nat.shiftRight_one, show (r + r + 1 + 1) / 2 = r + 1 by omega, sq]
  have htoNat : (BitVec.ofNat 32 n).toNat = n := by
    rw [BitVec.toNat_ofNat, Nat.mod_eq_of_lt (by omega)]
  have hint : (BitVec.ofNat 32 n).toInt = (n : Int) := by
    rw [BitVec.toInt_eq_toNat_of_lt (by rw [htoNat]; omega), htoNat]
  rw [hint, get_natCast, quotients, hdivsum, List.getElem?_map, List.getElem?_range hn]
  rfl

theorem divided_weighted (hf : ∀ i ch, (f i ch).toNat < 256) (htable : 256 * (r + 1) ^ 2 < 2 ^ 31) :
    divided (quotients r) (weighted r f c) = some fun ch =>
  BitVec.ofNat 32 (average r (fun i => (f i ch).toNat) c) := by
  have hget (ch : Fin 3) : get (quotients r) (weighted r f c ch).toInt =
      some (BitVec.ofNat 32 (average r (fun i => (f i ch).toNat) c)) := by
    rw [weighted_apply, get_quotients (total_lt fun i => hf i ch) htable, average_eq]
  rw [divided, hget, hget, hget]
  refine congrArg some (funext fun ch => ?_)
  fin_cases ch <;> rfl

end StackBlur
