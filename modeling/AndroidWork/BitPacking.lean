import Mathlib.Tactic

/-!
# Codes of any width, packed into bytes

A code of a width `w` goes to the next `w` bits of a stream, low bits first. The
stream is the number that its bits spell, and so are the bytes that hold it.
-/
namespace BitPacking

/-- The number that codes spell, each given with its width. -/
def pack : List (Nat × Nat) → Nat
  | [] => 0
  | (w, c) :: cs => c + 2 ^ w * pack cs

/-- The bits that codes take. -/
def size : List (Nat × Nat) → Nat
  | [] => 0
  | (w, _) :: cs => w + size cs

def bytesValue : List (BitVec 8) → Nat
  | [] => 0
  | b :: bs => b.toNat + 2 ^ 8 * bytesValue bs

/-- The `n` low bytes of a number, low first. -/
def toBytes : Nat → Nat → List (BitVec 8)
  | 0, _ => []
  | n + 1, v => BitVec.ofNat 8 v :: toBytes n (v / 2 ^ 8)

theorem length_toBytes (n v : Nat) : (toBytes n v).length = n := by
  induction n generalizing v with
  | zero => rfl
  | succ n ih => simp [toBytes, ih]

theorem bytesValue_toBytes (n v : Nat) : bytesValue (toBytes n v) = v % 2 ^ (8 * n) := by
  induction n generalizing v with
  | zero => simp [toBytes, bytesValue, Nat.mod_one]
  | succ n ih =>
    rw [toBytes, bytesValue, ih, BitVec.toNat_ofNat, Nat.mul_succ, Nat.add_comm (8 * n) 8, pow_add]
    exact (Nat.mod_mul).symm

theorem size_append (cs ds : List (Nat × Nat)) : size (cs ++ ds) = size cs + size ds := by
  induction cs with
  | nil => simp [size]
  | cons c cs ih =>
    simp only [List.cons_append, size, ih]
    omega

/-- Codes that fit in their widths do not run over. -/
theorem pack_lt {cs : List (Nat × Nat)} (h : ∀ c ∈ cs, c.2 < 2 ^ c.1) : pack cs < 2 ^ size cs := by
  induction cs with
  | nil => exact Nat.one_pos
  | cons c cs ih =>
    rw [List.forall_mem_cons] at h
    have hrest := ih h.2
    rw [pack, size, pow_add]
    calc c.2 + 2 ^ c.1 * pack cs < 2 ^ c.1 * (pack cs + 1) := by rw [Nat.mul_succ]; omega
      _ ≤ 2 ^ c.1 * 2 ^ size cs := Nat.mul_le_mul_left _ hrest

theorem bytesValue_append (as bs : List (BitVec 8)) :
    bytesValue (as ++ bs) = bytesValue as + 2 ^ (8 * as.length) * bytesValue bs := by
  induction as with
  | nil => simp [bytesValue]
  | cons a as ih =>
    simp only [List.cons_append, bytesValue, ih, List.length_cons, Nat.mul_succ, pow_add]
    ring

theorem bytesValue_lt (bs : List (BitVec 8)) : bytesValue bs < 2 ^ (8 * bs.length) := by
  induction bs with
  | nil => simp [bytesValue]
  | cons b bs ih =>
    have := b.isLt
    simp only [bytesValue, List.length_cons, Nat.mul_succ, pow_add]
    omega

/-- The first code of a stream that is cut off behind it. -/
theorem pack_cons_mod (c v : Nat) {w r : Nat} (hc : c < 2 ^ w) (hw : w ≤ r) :
    (c + 2 ^ w * v) % 2 ^ r % 2 ^ w = c ∧ (c + 2 ^ w * v) % 2 ^ r / 2 ^ w = v % 2 ^ (r - w) := by
  have hr : 2 ^ r = 2 ^ w * 2 ^ (r - w) := by rw [← pow_add, Nat.add_sub_cancel' hw]
  constructor
  · rw [Nat.mod_mod_of_dvd _ (pow_dvd_pow 2 hw), Nat.add_mul_mod_self_left, Nat.mod_eq_of_lt hc]
  · rw [hr, Nat.mod_mul_right_div_self, Nat.add_mul_div_left _ _ (pow_pos two_pos w),
      Nat.div_eq_of_lt hc,
      Nat.zero_add]

/-- The first code of a stream that starts with known codes. -/
theorem pack_cons_low {v c p w n : Nat} (hc : c < 2 ^ w) (h : v % 2 ^ (w + n) = c + 2 ^ w * p) :
    v % 2 ^ w = c ∧ v / 2 ^ w % 2 ^ n = p := by
  constructor
  · rw [← Nat.mod_mod_of_dvd _ (pow_dvd_pow 2 (Nat.le_add_right w n)), h, Nat.add_mul_mod_self_left,
      Nat.mod_eq_of_lt hc]
  · rw [← Nat.mod_mul_right_div_self, ← pow_add, h, Nat.add_mul_div_left _ _ (pow_pos two_pos w),
      Nat.div_eq_of_lt hc,
      Nat.zero_add]

end BitPacking
