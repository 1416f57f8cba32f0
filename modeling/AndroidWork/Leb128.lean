import Mathlib.Tactic

/-!
# LEB128 numbers in byte lists

A number is stored seven bits to a byte, lowest first, every byte but the last
with its top bit set. Encodings may be padded, so one value has many forms.
-/
namespace Leb128

abbrev Byte := BitVec 8

/-- The bytes of the first number and the bytes behind it; `none` when the
list ends inside the number. -/
def split : List Byte → Option (List Byte × List Byte)
  | [] => none
  | b :: bs => if b.toNat < 128 then some ([b], bs) else (split bs).map fun p => (b :: p.1, p.2)

/-- The unsigned value of a list of seven-bit digits. -/
def value : List Byte → Nat
  | [] => 0
  | b :: bs => b.toNat % 128 + 128 * value bs

@[simp] theorem value_nil : value [] = 0 := rfl
@[simp] theorem value_cons (b : Byte) (bs : List Byte) :
    value (b :: bs) = b.toNat % 128 + 128 * value bs := rfl

/-- The signed value: bit 6 of the last digit counts negative. -/
def signedValue : List Byte → Int
  | [] => 0
  | [b] => b.toNat % 128 - if 64 ≤ b.toNat % 128 then 128 else 0
  | b :: c :: bs => b.toNat % 128 + 128 * signedValue (c :: bs)

/-- Bit 6 of the last byte, the sign of the number. -/
def negative : List Byte → Bool
  | [] => false
  | [b] => 64 ≤ b.toNat % 128
  | _ :: c :: bs => negative (c :: bs)

@[simp] theorem negative_single (b : Byte) : negative [b] = decide (64 ≤ b.toNat % 128) := rfl
@[simp] theorem negative_cons (b c : Byte) (bs : List Byte) :
    negative (b :: c :: bs) = negative (c :: bs) := rfl

theorem value_lt (bs : List Byte) : value bs < 2 ^ (7 * bs.length) := by
  induction bs with
  | nil => simp
  | cons b bs ih =>
    have hpow : 2 ^ (7 * (bs.length + 1)) = 128 * 2 ^ (7 * bs.length) := by
      rw [Nat.mul_add, Nat.pow_add, Nat.mul_comm]
    simp only [value_cons, List.length_cons, hpow]
    omega

theorem signedValue_eq (bs : List Byte) :
    signedValue bs = value bs - if negative bs then 2 ^ (7 * bs.length) else 0 := by
  induction bs with
  | nil => simp [signedValue, negative]
  | cons b bs ih =>
    cases bs with
    | nil => simp [signedValue]
    | cons c bs =>
      have hpow : (2 : Int) ^ (7 * (bs.length + 1 + 1)) = 128 * 2 ^ (7 * (bs.length + 1)) := by
        rw [Nat.mul_add 7 (bs.length + 1), pow_add, mul_comm]
        norm_num
      simp only [signedValue, ih, negative_cons, value_cons b, List.length_cons, hpow]
      push_cast
      split <;> ring

/-- The sign is bit 6 of the last byte. -/
theorem signedValue_neg_iff (bs : List Byte) : signedValue bs < 0 ↔ negative bs = true := by
  have hlt : (value bs : Int) < 2 ^ (7 * bs.length) := by exact_mod_cast value_lt bs
  rw [signedValue_eq]
  by_cases h : negative bs = true
  · simp only [h, if_true]
    constructor
    · simp
    · intro _
      omega
  · simp only [h]
    constructor
    · intro hneg
      simp at hneg
      omega
    · simp

theorem split_cons_last (b : Byte) (bs : List Byte) (h : b.toNat < 128) :
    split (b :: bs) = some ([b], bs) := by simp [split, h]

theorem split_cons_more (b : Byte) (bs : List Byte) (h : ¬ b.toNat < 128) :
    split (b :: bs) = (split bs).map fun p => (b :: p.1, p.2) := by simp [split, h]

/-- A number is a nonempty part of its list, and the rest follows it. -/
theorem split_eq_append {bs operand rest : List Byte} (h : split bs = some (operand, rest)) :
    bs = operand ++ rest ∧ operand ≠ [] := by
  induction bs generalizing operand with
  | nil => simp [split] at h
  | cons b bs ih =>
    by_cases hb : b.toNat < 128
    · rw [split_cons_last b bs hb] at h
      obtain ⟨rfl, rfl⟩ := by simpa using h
      simp
    · rw [split_cons_more b bs hb] at h
      obtain ⟨p, hp, he⟩ := Option.map_eq_some_iff.mp h
      obtain ⟨rfl, rfl⟩ := by simpa using he
      simpa using (ih hp).1

/-- A number is read from its own bytes, whatever follows them. -/
theorem split_self {bs operand rest : List Byte} (h : split bs = some (operand, rest))
    (more : List Byte) : split (operand ++ more) = some (operand, more) := by
  induction bs generalizing operand with
  | nil => simp [split] at h
  | cons b bs ih =>
    by_cases hb : b.toNat < 128
    · rw [split_cons_last b bs hb] at h
      obtain ⟨rfl, rfl⟩ := by simpa using h
      simp [split, hb]
    · rw [split_cons_more b bs hb] at h
      obtain ⟨p, hp, he⟩ := Option.map_eq_some_iff.mp h
      obtain ⟨rfl, rfl⟩ := by simpa using he
      rw [List.cons_append, split_cons_more b _ hb, ih hp]
      rfl

/-- A list ends inside a number exactly when every byte has its top bit set. -/
theorem split_eq_none_iff (bs : List Byte) : split bs = none ↔ ∀ b ∈ bs, 128 ≤ b.toNat := by
  induction bs with
  | nil => simp [split]
  | cons b bs ih =>
    by_cases hb : b.toNat < 128
    · have : ¬ 128 ≤ b.toNat := by omega
      simp [split, hb]
    · have : 128 ≤ b.toNat := by omega
      simp [split, hb, ih, this]

end Leb128
