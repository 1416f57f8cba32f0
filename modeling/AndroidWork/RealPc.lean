import AndroidWork.MemCheck

/-!
# From a return address back to the call

`get_real_pc` of memcheck.cpp, and the call instructions that a return address
can follow. A Thumb return address has bit 0 set.
-/
namespace RealPc

open MemCheck

variable {abi : Abi}

def get_real_pc (g_memBlock : List (Block abi)) (m : Addr abi → Byte) (pc : Addr abi) : Addr abi :=
  if check_mem_readable g_memBlock pc 4 = 0 then pc
  else if pc &&& 1 ≠ 0 then
    if check_mem_readable g_memBlock (pc - 5) 4 = 0 then pc
    else
      let code := word m (pc - 5)
      if code &&& 0xF8000000 > 0xE0000000 then pc - 4
      else pc - 2
  else pc - 4

/-- The call instructions of the two instruction sets, by their fields. -/
inductive Call where
  | thumbBl (s : BitVec 1) (imm10 : BitVec 10) (j1 j2 : BitVec 1) (imm11 : BitVec 11)
  | thumbBlx (s : BitVec 1) (imm10H : BitVec 10) (j1 j2 : BitVec 1) (imm10L : BitVec 10)
  | thumbBlxReg (rm : BitVec 4)
  | armBl (cond : BitVec 4) (imm24 : BitVec 24)
  | armBlx (h : BitVec 1) (imm24 : BitVec 24)
  | armBlxReg (cond rm : BitVec 4)

def first (s : BitVec 1) (imm10 : BitVec 10) : Half := 0b11110#5 ++ s ++ imm10
def blSecond (j1 j2 : BitVec 1) (imm11 : BitVec 11) : Half := 0b11#2 ++ j1 ++ 1#1 ++ j2 ++ imm11
def blxSecond (j1 j2 : BitVec 1) (imm10L : BitVec 10) : Half :=
  0b11#2 ++ j1 ++ 0#1 ++ j2 ++ (imm10L ++ 0#1)
def blxReg (rm : BitVec 4) : Half := 0b01000#5 ++ (0b1111#4 ++ rm ++ 0b000#3)

namespace Call

def thumb : Call → Bool
  | thumbBl .. | thumbBlx .. | thumbBlxReg _ => true
  | armBl .. | armBlx .. | armBlxReg .. => false

def width : Call → Nat
  | thumbBlxReg _ => 2
  | _ => 4

/-- The address `pc` follows the call: its code stands in front of it, and bit 0
tells the instruction set. -/
def Before (m : Addr abi → Byte) (pc : Addr abi) : Call → Prop
  | thumbBl s imm10 j1 j2 imm11 =>
    pc &&& 1 ≠ 0 ∧ half m (pc - 5) = first s imm10 ∧ half m (pc - 3) = blSecond j1 j2 imm11
  | thumbBlx s imm10H j1 j2 imm10L =>
    pc &&& 1 ≠ 0 ∧ half m (pc - 5) = first s imm10H ∧ half m (pc - 3) = blxSecond j1 j2 imm10L
  | thumbBlxReg rm => pc &&& 1 ≠ 0 ∧ half m (pc - 3) = blxReg rm
  | armBl cond imm24 => pc &&& 3 = 0 ∧ word m (pc - 4) = cond ++ 0b1011#4 ++ imm24
  | armBlx h imm24 => pc &&& 3 = 0 ∧ word m (pc - 4) = 0b1111101#7 ++ h ++ imm24
  | armBlxReg cond rm =>
    pc &&& 3 = 0 ∧ word m (pc - 4) = cond ++ 0b000100101111111111110011#24 ++ rm

/-- The bits J1 and J2 with which a 32-bit Thumb call is taken for one. -/
def Recognised : Call → Prop
  | thumbBl _ _ j1 _ _ => j1 = 1
  | thumbBlx _ _ j1 j2 _ => j1 = 1 ∧ j2 = 1
  | _ => True

end Call

theorem toNat_append_div {w v : Nat} (x : BitVec w) (y : BitVec v) :
    (x ++ y).toNat / 2 ^ v = x.toNat := by
  rw [BitVec.toNat_append, Nat.or_div_two_pow, Nat.shiftLeft_eq,
    Nat.mul_div_cancel _ (Nat.two_pow_pos v),
    Nat.div_eq_of_lt y.isLt, Nat.or_zero]

theorem and_top_five (x : Word) : x &&& 0xF8000000#32 = (x >>> 27) <<< 27 := by
  ext i hi
  simp only [BitVec.getElem_and, BitVec.getElem_shiftLeft]
  interval_cases i <;> simp

/-- The test is on the five top bits of the second halfword. -/
theorem code_test (second first : Half) :
    (second ++ first) &&& 0xF8000000#32 > 0xE0000000#32 ↔ 28 < second.toNat / 2 ^ 11 := by
  have hdiv := toNat_append_div second first
  have htop : ((second ++ first) &&& 0xF8000000#32).toNat = second.toNat / 2 ^ 11 * 2 ^ 27 := by
    rw [and_top_five, BitVec.toNat_shiftLeft, BitVec.toNat_ushiftRight,
      Nat.shiftRight_eq_div_pow, Nat.shiftLeft_eq]
    have := (second ++ first).isLt
    omega
  rw [gt_iff_lt, BitVec.lt_def, htop]
  simp only [BitVec.toNat_ofNat]
  omega

theorem blSecond_div (j1 j2 : BitVec 1) (imm11 : BitVec 11) :
    28 < (blSecond j1 j2 imm11).toNat / 2 ^ 11 ↔ j1 = 1 := by
  rw [blSecond, toNat_append_div]
  revert j1 j2
  decide

theorem blxSecond_div (j1 j2 : BitVec 1) (imm10L : BitVec 10) :
    28 < (blxSecond j1 j2 imm10L).toNat / 2 ^ 11 ↔ j1 = 1 ∧ j2 = 1 := by
  rw [blxSecond, toNat_append_div]
  revert j1 j2
  decide

theorem blxReg_div (rm : BitVec 4) : ¬ 28 < (blxReg rm).toNat / 2 ^ 11 := by
  rw [blxReg, toNat_append_div]
  decide

/-- Steps of different widths lead to different addresses. -/
theorem sub_eq_iff (pc : Addr abi) {a b : Nat} (ha : a < 8) (hb : b < 8) :
    pc - BitVec.ofNat abi.bits a = pc - BitVec.ofNat abi.bits b ↔ a = b := by
  have hbits := bits_le abi
  rw [BitVec.sub_right_inj, ← BitVec.toNat_inj, BitVec.toNat_ofNat, BitVec.toNat_ofNat,
    Nat.mod_eq_of_lt (by omega),
    Nat.mod_eq_of_lt (by omega)]

theorem eq_sub_iff (pc : Addr abi) {a : Nat} (ha : a < 8) :
    pc = pc - BitVec.ofNat abi.bits a ↔ a = 0 := by
  have h := sub_eq_iff pc (show 0 < 8 by decide) ha
  rwa [BitVec.sub_zero, eq_comm (a := 0)] at h

/-- Both ranges that are looked at count as readable. -/
def Checked (g_memBlock : List (Block abi)) (pc : Addr abi) (call : Call) : Prop :=
  check_mem_readable g_memBlock pc 4 ≠ 0 ∧
    (call.thumb → check_mem_readable g_memBlock (pc - 5) 4 ≠ 0)

instance (g_memBlock : List (Block abi)) (pc : Addr abi) (call : Call) :
    Decidable (Checked g_memBlock pc call) :=
  inferInstanceAs (Decidable (_ ∧ _))

variable {g_memBlock : List (Block abi)} {m : Addr abi → Byte} {pc : Addr abi}

theorem get_real_pc_thumb (call : Call) (hthumb : call.thumb = true) (hpc : pc &&& 1 ≠ 0) :
    get_real_pc g_memBlock m pc =
      if Checked g_memBlock pc call then (if 28 < (half m (pc - 3)).toNat / 2 ^ 11 then
        pc - 4 else pc - 2) else pc := by
  have hnext : pc - 5 + 2 = pc - 3 := by
    rw [BitVec.eq_sub_iff_add_eq, BitVec.add_assoc, show (2 : Addr abi) + 3 =
      5 by cases abi <;> rfl, BitVec.sub_add_cancel]
  rw [get_real_pc, if_pos hpc]
  by_cases h₁ : check_mem_readable g_memBlock pc 4 = 0
  · rw [if_pos h₁, if_neg fun h => h.1 h₁]
  · by_cases h₂ : check_mem_readable g_memBlock (pc - 5) 4 = 0
    · rw [if_neg h₁, if_pos h₂, if_neg fun h => h.2 hthumb h₂]
    · have hchecked : Checked g_memBlock pc call := ⟨h₁, fun _ => h₂⟩
      rw [if_neg h₁, if_neg h₂, if_pos hchecked]
      simp only [word, hnext]
      by_cases htest : 28 < (half m (pc - 3)).toNat / 2 ^ 11
      · rw [if_pos htest]
        exact if_pos ((code_test _ _).mpr htest)
      · rw [if_neg htest]
        exact if_neg fun h => htest ((code_test _ _).mp h)

theorem get_real_pc_arm (call : Call) (hthumb : call.thumb = false) (hpc : pc &&& 3 = 0) :
    get_real_pc g_memBlock m pc = if Checked g_memBlock pc call then pc - 4 else pc := by
  have hone : ¬ pc &&& 1 ≠ 0 := by
    have hand : pc &&& 1 = (pc &&& 3) &&& 1 := by
      rw [BitVec.and_assoc]
      cases abi <;> rfl
    rw [not_not, hand, hpc]
    exact BitVec.zero_and
  rw [get_real_pc, if_neg hone]
  by_cases h₁ : check_mem_readable g_memBlock pc 4 = 0
  · rw [if_pos h₁, if_neg fun h => h.1 h₁]
  · have hchecked : Checked g_memBlock pc call := ⟨h₁, fun h => by simp [hthumb] at h⟩
    rw [if_neg h₁, if_pos hchecked]

/-- Readable ranges are checked successfully unless a block ends with one. -/
theorem checked_iff (hsorted : SortedRanges.Sorted (ranges g_memBlock)) {call : Call}
    (hpc : Readable g_memBlock pc 4)
    (hcall : call.thumb → Readable g_memBlock (pc - 5) 4) :
    Checked g_memBlock pc call ↔ (∀ b ∈ g_memBlock, b.m_pEnd.toNat ≠ pc.toNat + 4) ∧
      (call.thumb → ∀ b ∈ g_memBlock, b.m_pEnd.toNat ≠ (pc - 5).toNat + 4) := by
  rw [Checked, check_mem_readable_ne_zero_iff (by decide) hsorted hpc]
  refine and_congr_right fun _ => forall_congr' fun hthumb => ?_
  exact check_mem_readable_ne_zero_iff (by decide) hsorted (hcall hthumb)

theorem four_iff (pc : Addr abi) (p : Prop) [Decidable p] :
    (if p then pc - 4 else pc - 2) = pc - BitVec.ofNat abi.bits 4 ↔ p := by
  by_cases hp : p
  · rw [if_pos hp]
    exact iff_of_true rfl hp
  · rw [if_neg hp]
    exact iff_of_false (fun h => absurd
      ((sub_eq_iff pc (show 2 < 8 by decide) (show 4 < 8 by decide)).mp h) (by decide)) hp

theorem Call.width_bounds (call : Call) : call.width < 8 ∧ call.width ≠ 0 := by
  cases call <;> simp [width]

/-- Bit 0 tells the instruction set. -/
theorem Call.Before.bit {call : Call} (h : call.Before m pc) : if call.thumb then
    pc &&& 1 ≠ 0 else pc &&& 3 = 0 := by
  cases call <;> simp only [thumb, if_true, Bool.false_eq_true, if_false] <;> exact h.1

/-- A range that is not counted leaves the address as it is. -/
theorem get_real_pc_unchecked {call : Call} (hbefore : call.Before m pc)
    (h : ¬ Checked g_memBlock pc call) :
    get_real_pc g_memBlock m pc = pc := by
  have hbit := hbefore.bit
  cases hthumb : call.thumb with
  | true =>
    rw [hthumb, if_pos rfl] at hbit
    rw [get_real_pc_thumb call hthumb hbit, if_neg h]
  | false =>
    rw [hthumb] at hbit
    rw [get_real_pc_arm call hthumb hbit, if_neg h]

/-- The step is the width of the call exactly when the ranges are checked
successfully and J1, and for BLX also J2, is set. -/
theorem get_real_pc_iff (call : Call) (hbefore : call.Before m pc) :
    get_real_pc g_memBlock m pc = pc - BitVec.ofNat abi.bits call.width ↔
    Checked g_memBlock pc call ∧ call.Recognised := by
  by_cases hchecked : Checked g_memBlock pc call
  · simp only [hchecked, true_and]
    cases call with
    | thumbBl s imm10 j1 j2 imm11 =>
      obtain ⟨hpc, _, hsecond⟩ := hbefore
      rw [get_real_pc_thumb (.thumbBl s imm10 j1 j2 imm11) rfl hpc, if_pos hchecked, hsecond]
      simp only [blSecond_div]
      exact four_iff pc _
    | thumbBlx s imm10H j1 j2 imm10L =>
      obtain ⟨hpc, _, hsecond⟩ := hbefore
      rw [get_real_pc_thumb (.thumbBlx s imm10H j1 j2 imm10L) rfl hpc, if_pos hchecked, hsecond]
      simp only [blxSecond_div]
      exact four_iff pc _
    | thumbBlxReg rm =>
      obtain ⟨hpc, hhalf⟩ := hbefore
      rw [get_real_pc_thumb (.thumbBlxReg rm) rfl hpc, if_pos hchecked, hhalf,
        if_neg (blxReg_div rm)]
      exact iff_of_true rfl trivial
    | armBl cond imm24 =>
      rw [get_real_pc_arm (.armBl cond imm24) rfl hbefore.1, if_pos hchecked]
      exact iff_of_true rfl trivial
    | armBlx h imm24 =>
      rw [get_real_pc_arm (.armBlx h imm24) rfl hbefore.1, if_pos hchecked]
      exact iff_of_true rfl trivial
    | armBlxReg cond rm =>
      rw [get_real_pc_arm (.armBlxReg cond rm) rfl hbefore.1, if_pos hchecked]
      exact iff_of_true rfl trivial
  · rw [get_real_pc_unchecked hbefore hchecked, eq_sub_iff pc call.width_bounds.1]
    exact iff_of_false call.width_bounds.2 fun h => hchecked h.1

/-- One block of code, with a call at 0x1100. -/
def codeBlock : List (Block .arm) := [⟨0x1000, 0x3000⟩]

def codeAt (second : Half) : Addr .arm → Byte := fun a =>
  if a = 0x1100 then 0x00 else if a = 0x1101 then 0xf0
  else if a = 0x1102 then second.setWidth 8 else if a = 0x1103 then
    (second >>> (8 : Nat)).setWidth 8 else 0

/-- A BL to what lies near. -/
theorem get_real_pc_iff_near : get_real_pc codeBlock (codeAt 0xf800) 0x1105 =
    0x1105 - BitVec.ofNat 32 4 :=
  (@get_real_pc_iff .arm codeBlock (codeAt 0xf800) 0x1105 (.thumbBl 0 0 1 1 0)
    ⟨by decide, by decide, by decide⟩).mpr ⟨⟨by decide, fun _ => by decide⟩, rfl⟩

/-- A BL with J1 clear: the step is two bytes, into the middle of the call. -/
theorem get_real_pc_far :
    (Call.thumbBl 0 0 0 1 0).Before (codeAt 0xd800) (0x1105 : Addr .arm) ∧
      Readable codeBlock (0x1105 : Addr .arm) 4 ∧ Readable codeBlock (0x1105 - 5 : Addr .arm) 4 ∧
      get_real_pc codeBlock (codeAt 0xd800) 0x1105 = 0x1103 ∧
      get_real_pc codeBlock (codeAt 0xd800) 0x1105 ≠
        0x1105 - BitVec.ofNat 32 (Call.thumbBl 0 0 0 1 0).width := by
  have hread : ∀ addr : Addr .arm, 0x1000 ≤ addr.toNat → addr.toNat + 4 < 0x3000 →
      Readable codeBlock addr 4 :=
    fun addr hlow hhigh => InsideBlock.readable ⟨_, List.mem_singleton_self _, hlow, hhigh⟩
  exact ⟨⟨by decide, by decide, by decide⟩, hread _ (by decide) (by decide),
    hread _ (by decide) (by decide), by decide, by decide⟩

end RealPc
