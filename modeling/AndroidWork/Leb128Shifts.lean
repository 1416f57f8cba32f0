import AndroidWork.EhFrameWalk

/-!
# The shifts of read_uleb128 and read_leb128

Both readers with every shift amount they use. A shift by the operand's width
or more is undefined in C++; `shl` gives what the machine makes of it, and is
known below 32 only.
-/
namespace Leb128Shifts

open Leb128 (Byte split value signedValue negative)
open EhFrameWalk (and_80_eq_zero)

/-- What a call leaves in `*value`, what it returns, and its shift amounts. -/
structure Read where
  value : BitVec 32
  pos : Nat
  shifts : List Nat
  deriving DecidableEq, Repr

def Read.shifted (offset : Nat) (r : Read) : Read := { r with shifts := offset :: r.shifts }

section Readers

variable (shl : BitVec 32 → Nat → BitVec 32)

def ulebLoop (value : BitVec 32) (pos offset : Nat) : List Byte → Option Read
  | [] => none
  | byte :: buf =>
    let value := value ||| shl ((byte &&& 0x7f).setWidth 32) offset
    if byte &&& 0x80 = 0 then some ⟨value, pos + 1, [offset]⟩
    else (ulebLoop value (pos + 1) (offset + 7) buf).map (Read.shifted offset)

def read_uleb128 (buf : List Byte) : Option Read := ulebLoop shl 0 0 0 buf

def lebLoop (value : BitVec 32) (pos offset : Nat) : List Byte → Option Read
  | [] => none
  | byte :: buf =>
    let value := value ||| shl ((byte &&& 0x7f).setWidth 32) offset
    if byte &&& 0x80 = 0 then
      some (if byte &&& 0x40 ≠ 0 then ⟨value ||| -shl 1 (offset + 7), pos + 1, [offset, offset + 7]⟩
        else ⟨value, pos + 1, [offset]⟩)
    else (lebLoop value (pos + 1) (offset + 7) buf).map (Read.shifted offset)

def read_leb128 (buf : List Byte) : Option Read := lebLoop shl 0 0 0 buf

end Readers

theorem map_shifted (r : Option Read) (offset : Nat) :
    (r.map (Read.shifted offset)).map (fun r => (r.value, r.pos)) = r.map fun r =>
  (r.value, r.pos) := by
  cases r <;> simp [Read.shifted]

theorem ulebLoop_eq (value : BitVec 32) (pos : Nat) (buf : List Byte) :
    (ulebLoop (· <<< ·) value pos (7 * pos) buf).map (fun r => (r.value, r.pos)) =
      EhFrame.readUlebLoop value pos buf := by
  induction buf generalizing value pos with
  | nil => simp [ulebLoop, EhFrame.readUlebLoop]
  | cons byte buf ih =>
    simp only [ulebLoop, EhFrame.readUlebLoop]
    split
    · simp
    · rw [map_shifted, ← ih, Nat.mul_add]

theorem lebLoop_eq (value : BitVec 32) (pos : Nat) (buf : List Byte) :
    (lebLoop (· <<< ·) value pos (7 * pos) buf).map (fun r => (r.value, r.pos)) =
      EhFrame.readLebLoop value pos buf := by
  induction buf generalizing value pos with
  | nil => simp [lebLoop, EhFrame.readLebLoop]
  | cons byte buf ih =>
    simp only [lebLoop, EhFrame.readLebLoop]
    split
    · split <;> simp [Nat.mul_add]
    · rw [map_shifted, ← ih, Nat.mul_add]

/-- The readers of the section's records, where an over-wide shift gives 0. -/
theorem read_uleb128_eq (buf : List Byte) :
    (read_uleb128 (· <<< ·) buf).map (fun r => (r.value, r.pos)) = EhFrame.readUleb128 buf :=
  ulebLoop_eq 0 0 buf

theorem read_leb128_eq (buf : List Byte) :
    (read_leb128 (· <<< ·) buf).map (fun r => (r.value, r.pos)) = EhFrame.readLeb128 buf :=
  lebLoop_eq 0 0 buf

theorem toNat_low (b : Byte) : (b &&& 0x7f).toNat = b.toNat % 128 := by
  revert b
  decide

theorem and_40_ne_zero (b : Byte) : b &&& 0x40 ≠ 0 ↔ 64 ≤ b.toNat % 128 := by
  revert b
  decide

/-- Bits set above a number add to it. -/
theorem toNat_or_high (x y : BitVec 32) (a n : Nat) (hx : x.toNat < 2 ^ n)
    (hy : y.toNat = 2 ^ n * a % 2 ^ 32) :
    (x ||| y).toNat = (x.toNat + 2 ^ n * a) % 2 ^ 32 := by
  have hor : x.toNat ||| 2 ^ n * a = x.toNat + 2 ^ n * a := by
    rw [Nat.or_comm, ← Nat.two_pow_add_eq_or_of_lt hx, Nat.add_comm]
  rw [BitVec.toNat_or, hy, ← hor, Nat.or_mod_two_pow, Nat.mod_eq_of_lt x.isLt]

theorem toNat_digit (b : Byte) (n : Nat) :
    (((b &&& 0x7f).setWidth 32) <<< n).toNat = 2 ^ n * (b.toNat % 128) % 2 ^ 32 := by
  have hlow : ((b &&& 0x7f).setWidth 32).toNat = b.toNat % 128 := by
    rw [BitVec.toNat_setWidth, toNat_low]
    omega
  rw [BitVec.toNat_shiftLeft, hlow, Nat.shiftLeft_eq, Nat.mul_comm]

/-- The register after one more digit. -/
theorem toNat_or_digit (w : BitVec 32) (b : Byte) (n : Nat) (hw : w.toNat < 2 ^ n) :
    (w ||| ((b &&& 0x7f).setWidth 32) <<< n).toNat = (w.toNat + 2 ^ n * (b.toNat % 128)) % 2 ^ 32 :=
  toNat_or_high w _ _ n hw (toNat_digit b n)

theorem toNat_or_digit_lt (w : BitVec 32) (b : Byte) (n : Nat) (hw : w.toNat < 2 ^ n) :
    (w ||| ((b &&& 0x7f).setWidth 32) <<< n).toNat < 2 ^ (n + 7) := by
  rw [toNat_or_digit w b n hw, Nat.pow_add]
  have := Nat.mod_le (w.toNat + 2 ^ n * (b.toNat % 128)) (2 ^ 32)
  have : 2 ^ n * (b.toNat % 128) ≤ 2 ^ n * 127 := Nat.mul_le_mul (Nat.le_refl _) (by omega)
  omega

/-- A register with the number of `bs` above its low `n` bits, cut at 32. -/
def put (w : BitVec 32) (n : Nat) (bs : List Byte) : BitVec 32 :=
  BitVec.ofNat 32 (w.toNat + 2 ^ n * value bs)

theorem put_cons (w : BitVec 32) (n : Nat) (b : Byte) (bs : List Byte) (hw : w.toNat < 2 ^ n) :
    put (w ||| ((b &&& 0x7f).setWidth 32) <<< n) (n + 7) bs = put w n (b :: bs) := by
  apply BitVec.eq_of_toNat_eq
  simp only [put, BitVec.toNat_ofNat, toNat_or_digit w b n hw, value, Nat.pow_add, Nat.mod_add_mod]
  congr 1
  ring

theorem put_single (w : BitVec 32) (n : Nat) (b : Byte) (hw : w.toNat < 2 ^ n) :
    w ||| ((b &&& 0x7f).setWidth 32) <<< n = put w n [b] := by
  apply BitVec.eq_of_toNat_eq
  rw [toNat_or_digit w b n hw]
  simp [put]

/-- The shift amounts of the digits of a number of `len` bytes. -/
def digitShifts (offset : Nat) : Nat → List Nat
  | 0 => []
  | len + 1 => offset :: digitShifts (offset + 7) len

theorem digitShifts_le (offset len : Nat) :
    ∀ s ∈ digitShifts offset len, s + 7 ≤ offset + 7 * len := by
  induction len generalizing offset with
  | zero => simp [digitShifts]
  | succ len ih =>
    intro s hs
    obtain rfl | hs := List.mem_cons.mp hs
    · omega
    · have := ih (offset + 7) s hs
      omega

section Numbers

variable {shl : BitVec 32 → Nat → BitVec 32} (hshl : ∀ x n, n < 32 → shl x n = x <<< n)
include hshl

theorem ulebLoop_split {enc : List Byte} (rest : List Byte)
    (h : split enc = some (enc, [])) (w : BitVec 32)
    (pos offset : Nat) (hw : w.toNat < 2 ^ offset) (hlen : offset + 7 * enc.length ≤ 35) :
    ulebLoop shl w pos offset (enc ++ rest) =
      some ⟨put w offset enc, pos + enc.length, digitShifts offset enc.length⟩ := by
  induction enc generalizing w pos offset with
  | nil => simp [split] at h
  | cons b enc ih =>
    simp only [List.length_cons] at hlen
    simp only [List.cons_append, ulebLoop, hshl _ offset (by omega), and_80_eq_zero]
    by_cases hb : b.toNat < 128
    · rw [Leb128.split_cons_last b enc hb] at h
      obtain rfl : enc = [] := by simpa using h
      rw [if_pos hb, put_single w offset b hw]
      simp [digitShifts]
    · rw [Leb128.split_cons_more b enc hb] at h
      have henc : split enc = some (enc, []) := by simpa using h
      rw [if_neg hb, ih henc _ _ _ (toNat_or_digit_lt w b offset hw) (by omega),
        put_cons w offset b enc hw]
      simp only [Option.map_some, Read.shifted, List.length_cons, digitShifts]
      congr 2
      omega

/-- The signed reader is the unsigned one and, after a last byte with bit 6
set, one more shift. -/
theorem lebLoop_split {enc : List Byte} (rest : List Byte)
    (h : split enc = some (enc, [])) (w : BitVec 32)
    (pos offset : Nat) (hw : w.toNat < 2 ^ offset) (hlen : offset + 7 * enc.length ≤ 35) :
    lebLoop shl w pos offset (enc ++ rest) = some
      (if negative enc then
        ⟨put w offset enc ||| -shl 1 (offset + 7 * enc.length), pos + enc.length,
          digitShifts offset enc.length ++ [offset + 7 * enc.length]⟩
      else ⟨put w offset enc, pos + enc.length, digitShifts offset enc.length⟩) := by
  induction enc generalizing w pos offset with
  | nil => simp [split] at h
  | cons b enc ih =>
    simp only [List.length_cons] at hlen
    simp only [List.cons_append, lebLoop, hshl _ offset (by omega), and_80_eq_zero, and_40_ne_zero]
    by_cases hb : b.toNat < 128
    · rw [Leb128.split_cons_last b enc hb] at h
      obtain rfl : enc = [] := by simpa using h
      rw [if_pos hb, put_single w offset b hw]
      simp [digitShifts]
    · rw [Leb128.split_cons_more b enc hb] at h
      have henc : split enc = some (enc, []) := by simpa using h
      obtain ⟨c, cs, rfl⟩ : ∃ c cs, enc = c :: cs := by
        cases enc with
        | nil => simp [split] at henc
        | cons c cs => exact ⟨c, cs, rfl⟩
      have hoffset : offset + 7 + 7 * (c :: cs).length = offset + 7 * (b :: c :: cs).length := by
        simp only [List.length_cons]
        omega
      have hpos : pos + 1 + (c :: cs).length = pos + (b :: c :: cs).length := by
        simp only [List.length_cons]
        omega
      rw [if_neg hb, ih henc _ _ _ (toNat_or_digit_lt w b offset hw) (by omega),
        put_cons w offset b _ hw, hoffset, hpos]
      by_cases hs : negative (c :: cs) = true <;> simp [hs, Read.shifted, digitShifts]

omit hshl in
theorem negShift_toNat (n : Nat) (hn : n < 32) :
    (-((1 : BitVec 32) <<< n)).toNat = 2 ^ n * (2 ^ (32 - n) - 1) % 2 ^ 32 := by
  have hpow : 2 ^ n * 2 ^ (32 - n) = 2 ^ 32 := by rw [← Nat.pow_add, Nat.add_sub_cancel' (by omega)]
  have hlt : 2 ^ n < 2 ^ 32 := Nat.pow_lt_pow_right (by decide) hn
  have hone : ((1 : BitVec 32) <<< n).toNat = 2 ^ n := by
    rw [BitVec.toNat_shiftLeft, Nat.shiftLeft_eq]
    simpa using hlt
  rw [BitVec.toNat_neg, hone, Nat.mul_sub, hpow, Nat.mul_one]

omit hshl in
/-- The sign bits are those of the number less a power of two. -/
theorem or_negShift (w : BitVec 32) (n : Nat) (hw : w.toNat < 2 ^ n) (hn : n < 32) :
    w ||| -((1 : BitVec 32) <<< n) = BitVec.ofInt 32 (w.toNat - 2 ^ n) := by
  have hpow : 2 ^ n * 2 ^ (32 - n) = 2 ^ 32 := by rw [← Nat.pow_add, Nat.add_sub_cancel' (by omega)]
  have hcast : (2 : Int) ^ n = ((2 ^ n : Nat) : Int) := by push_cast; rfl
  apply BitVec.eq_of_toNat_eq
  rw [toNat_or_high w _ _ n hw (negShift_toNat n hn), BitVec.toNat_ofInt, Nat.mul_sub, hpow,
    Nat.mul_one, hcast]
  have hlt : 2 ^ n < 2 ^ 32 := Nat.pow_lt_pow_right (by decide) hn
  generalize 2 ^ n = p at hw hlt ⊢
  omega

/-- A number of at most five bytes is read as its unsigned value, by shifts of
at most 28. -/
theorem read_uleb128_value {enc : List Byte} (h : split enc = some (enc, []))
    (hlen : enc.length ≤ 5)
    (rest : List Byte) :
    read_uleb128 shl (enc ++ rest) = some
      ⟨BitVec.ofNat 32 (value enc), enc.length, digitShifts 0 enc.length⟩ := by
  rw [read_uleb128, ulebLoop_split hshl rest h 0 0 0 (by simp) (by omega)]
  simp [put]

/-- A number of at most four bytes is read as its signed value. -/
theorem read_leb128_short {enc : List Byte} (h : split enc = some (enc, [])) (hlen : enc.length ≤ 4)
    (rest : List Byte) :
    ∃ shifts, read_leb128 shl (enc ++ rest) =
      some ⟨BitVec.ofInt 32 (signedValue enc), enc.length, shifts⟩ ∧
      ∀ s ∈ shifts, s < 32 := by
  have hdigits := digitShifts_le 0 enc.length
  rw [read_leb128, lebLoop_split hshl rest h 0 0 0 (by simp) (by omega), Nat.zero_add,
    Leb128.signedValue_eq]
  by_cases hs : negative enc = true
  · have hput : put 0 0 enc = BitVec.ofNat 32 (value enc) := by simp [put]
    have hlt : (BitVec.ofNat 32 (value enc)).toNat < 2 ^ (7 * enc.length) := by
      rw [BitVec.toNat_ofNat]
      exact Nat.lt_of_le_of_lt (Nat.mod_le _ _) (Leb128.value_lt enc)
    have hsmall : value enc < 2 ^ 32 :=
      Nat.lt_of_lt_of_le (Leb128.value_lt enc) (Nat.pow_le_pow_right (by decide) (by omega))
    refine ⟨digitShifts 0 enc.length ++ [7 * enc.length], ?_, ?_⟩
    · simp only [hs, if_true, hput, hshl 1 _ (show 7 * enc.length < 32 by omega), Nat.zero_add]
      rw [or_negShift _ _ hlt (by omega), BitVec.toNat_ofNat, Nat.mod_eq_of_lt hsmall]
    · intro s hs
      obtain hs | hs := List.mem_append.mp hs
      · have := hdigits s hs
        omega
      · obtain rfl := List.mem_singleton.mp hs
        omega
  · refine ⟨digitShifts 0 enc.length, ?_, ?_⟩
    · simp [hs, put]
    · intro s hs
      have := hdigits s hs
      omega

/-- After five bytes only the sign bits' shift is too wide. -/
theorem read_leb128_five {enc : List Byte} (h : split enc = some (enc, [])) (hlen : enc.length = 5)
    (rest : List Byte) :
    ∃ v, read_leb128 shl (enc ++ rest) = some
      (if negative enc then ⟨v, 5, digitShifts 0 5 ++ [35]⟩
      else ⟨BitVec.ofInt 32 (signedValue enc), 5, digitShifts 0 5⟩) := by
  refine ⟨put 0 0 enc ||| -shl 1 35, ?_⟩
  rw [read_leb128, lebLoop_split hshl rest h 0 0 0 (by simp) (by omega),
    Leb128.signedValue_eq, hlen]
  by_cases hs : negative enc = true <;> simp [hs, put]

end Numbers

/-- Whatever follows the bytes, the call gives the value, advances past them
and shifts by less than the operand's width. -/
def Reads (read : List Byte → Option Read) (enc : List Byte) (v : BitVec 32) : Prop :=
  ∀ rest, ∃ shifts, read (enc ++ rest) = some ⟨v, enc.length, shifts⟩ ∧ ∀ s ∈ shifts, s < 32

/-- Unsigned numbers of at most five bytes are always read back; signed ones
when four bytes are enough or the value is not negative. -/
theorem leb128_reads_iff (shl : BitVec 32 → Nat → BitVec 32)
    (hshl : ∀ x n, n < 32 → shl x n = x <<< n)
    (enc : List Byte) (henc : split enc = some (enc, [])) (hlen : enc.length ≤ 5) (v : BitVec 32) :
    ((value enc = v.toNat → Reads (read_uleb128 shl) enc v) ∧
      (signedValue enc = v.toInt → (Reads (read_leb128 shl) enc v ↔ enc.length ≤ 4 ∨
        0 ≤ v.toInt))) := by
  constructor
  · intro hv rest
    refine ⟨digitShifts 0 enc.length, ?_, ?_⟩
    · rw [read_uleb128_value hshl henc hlen rest, hv, BitVec.ofNat_toNat, BitVec.setWidth_eq]
    · intro s hs
      have := digitShifts_le 0 enc.length s hs
      omega
  · intro hv
    have hnonneg : 0 ≤ v.toInt ↔ ¬ negative enc = true := by
      rw [← hv, ← Leb128.signedValue_neg_iff]
      omega
    by_cases hfour : enc.length ≤ 4
    · have hreads : Reads (read_leb128 shl) enc v := by
        intro rest
        obtain ⟨shifts, hread, hshifts⟩ := read_leb128_short hshl henc hfour rest
        exact ⟨shifts, by rw [hread, hv, BitVec.ofInt_toInt], hshifts⟩
      simp [hreads, hfour]
    · have hfive : enc.length = 5 := by omega
      rw [hnonneg]
      simp only [hfour, false_or]
      constructor
      · intro hreads hneg
        obtain ⟨shifts, hread, hshifts⟩ := hreads []
        obtain ⟨w, hw⟩ := read_leb128_five hshl henc hfive []
        simp only [hw, hneg, if_true, Option.some.injEq, Read.mk.injEq] at hread
        have := hshifts 35 (by simp [← hread.2.2])
        omega
      · intro hneg rest
        obtain ⟨w, hw⟩ := read_leb128_five hshl henc hfive rest
        refine ⟨digitShifts 0 5, ?_, ?_⟩
        · simp [hw, hneg, hv, hfive]
        · intro s hs
          have := digitShifts_le 0 5 s hs
          omega

/-- A shift by the amount modulo the width, as the processor does it. -/
def shlModulo (x : BitVec 32) (n : Nat) : BitVec 32 := x <<< (n % 32)

/-- -1 in one byte, in five, and 7 as an unsigned number. -/
theorem leb128_reads_iff_minus_one :
    Reads (read_leb128 shlModulo) [0x7f] (-1) ∧ ¬ Reads (read_leb128 shlModulo)
    [0xff, 0xff, 0xff, 0xff, 0x7f] (-1) ∧
      Reads (read_uleb128 shlModulo) [0x87, 0x80, 0x80, 0x80, 0x00] 7 := by
  have hshl : ∀ x n, n < 32 → shlModulo x n = x <<< n := by
    intro x n hn
    rw [shlModulo, Nat.mod_eq_of_lt hn]
  have hfive :=
    (leb128_reads_iff shlModulo hshl [0xff, 0xff, 0xff, 0xff, 0x7f] (by decide) (by decide) (-1)).2
      (by decide)
  refine ⟨?_, ?_, ?_⟩
  · exact ((leb128_reads_iff shlModulo hshl [0x7f] (by decide) (by decide) (-1)).2 (by decide)).mpr
      (by decide)
  · exact fun h => absurd (hfive.mp h) (by decide)
  · exact (leb128_reads_iff shlModulo hshl [0x87, 0x80, 0x80, 0x80, 0x00] (by decide)
      (by decide) 7).1 (by decide)

/-- The shortest encoding of the least value is read as -8. -/
theorem least_value_diverges :
    split [0x80, 0x80, 0x80, 0x80, 0x78] = some ([0x80, 0x80, 0x80, 0x80, 0x78], []) ∧
      signedValue [0x80, 0x80, 0x80, 0x80, 0x78] = (BitVec.intMin 32).toInt ∧
      read_leb128 shlModulo [0x80, 0x80, 0x80, 0x80, 0x78] = some ⟨-8, 5, [0, 7, 14, 21, 28, 35]⟩ ∧
      ¬ Reads (read_leb128 shlModulo) [0x80, 0x80, 0x80, 0x80, 0x78] (BitVec.intMin 32) := by
  refine ⟨by decide, by decide, by decide, ?_⟩
  intro h
  obtain ⟨shifts, hread, -⟩ := h []
  have hvalue : (read_leb128 shlModulo [0x80, 0x80, 0x80, 0x80, 0x78]).map Read.value =
      some (BitVec.intMin 32) :=
    congrArg (Option.map Read.value) hread
  exact absurd hvalue (by decide)

end Leb128Shifts
