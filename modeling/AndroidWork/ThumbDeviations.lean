import AndroidWork.ThumbChunks

/-!
# Thumb instructions that are relocated to something else

What the chunks do that are emitted for instructions `relocatable` does not
admit: 16-bit branches, table branches and address computations.
-/
namespace ThumbRelocation

open ArmMachine ThumbInstructions Relocate InstructionType

variable {other : Code → Core → Option Core} {load : Word → Word} {h l : Half}
    {a t : Word} {c : Core}

section Short

theorem branchExchange_of_half {v : Word} (h : v.toNat % 4 = 2) : branchExchange v = none := by
  rw [branchExchange, getLsbD_zero_eq, getLsbD_one_eq, if_neg (by simp; omega),
    if_pos (by simp; omega)]

/-- Bit 0 of the literal is clear, so the jump by way of it leaves Thumb state. -/
theorem short_jump (ht : t.toNat % 4 = 0) {v : Word} (hv : v.toNat % 2 = 0)
    (hmem : InMemory c.mem t [0xF8DF, 0xF000, lowHalf v, highHalf v]) :
    step other ⟨c, t, true⟩ = if v.toNat % 4 = 0 then some ⟨c, v, false⟩ else none := by
  obtain ⟨h₀, h₁, h₂, h₃, -⟩ := hmem
  have hword : word c.mem (alignedPc t) = v := by
    rw [alignedPc_of_aligned ht, show t + 4 = t + 2 + 2 by bv_omega]
    exact word_of_halves h₂ h₃
  rw [step_wide h₀ h₁ (by decide), effect_ldrPc, hword]
  split
  · rw [branchExchange_of_aligned ‹_›]
    rfl
  · rw [branchExchange_of_half (by omega)]
    rfl

variable (other) in
/-- A conditional branch without its offset. -/
theorem effect_masked (hd : getTypeInThumb16 h = b1Thumb16) (hcond : field h 9 3 ≠ 7)
    (a : Word) (c : Core) :
    leads (h &&& 0xFF00) = false ∧ effect other (.narrow (h &&& 0xFF00)) a c =
      some (c, if passed (field h 8 4) c.flags then .jump (a + 4) true else .next) := by
  have hmask (i : Nat) (hi : i < 16) : (0xFF00 : Half).getLsbD i = decide (8 ≤ i) := by
    revert i
    decide
  have hfield (lo len : Nat) (hlo : 8 ≤ lo) (hlen : lo + len ≤ 16) :
      field (h &&& 0xFF00) lo len = field h lo len := by
    apply BitVec.eq_of_getLsbD_eq
    intro i hi
    rw [getLsbD_field _ _ _ hi, getLsbD_field _ _ _ hi, BitVec.getLsbD_and, hmask _ (by omega),
      decide_eq_true (by omega),
      Bool.and_true]
  have h12 : field (h &&& 0xFF00) 12 4 = 13 := (hfield 12 4 (by decide) (by decide)).trans
    (field_of_mask (and_narrowMask hd) 12 4 (by decide))
  have himm : field (h &&& 0xFF00) 0 8 = 0 := by
    apply BitVec.eq_of_getLsbD_eq
    intro i hi
    rw [getLsbD_field _ _ _ hi, BitVec.getLsbD_and, hmask _ (by omega), decide_eq_false (by omega)]
    simp
  refine ⟨leads_eq_false h12 (by decide), ?_⟩
  rw [effect, decode, decodeNarrow, if_pos ⟨h12, by rwa [hfield 9 3 (by decide) (by decide)]⟩,
    hfield 8 4 (by decide) (by decide),
    himm, perform, show a + 4 + ((0 : BitVec 8) ++ 0#1).signExtend 32 =
      a + 4 from BitVec.add_zero _]

/-- A relocated 16-bit branch that is taken never arrives in Thumb state: its
target is executed as ARM code if it is a multiple of four, and else the load
into the program counter is unpredictable. -/
theorem short_branch_leaves_thumb (ha : a.toNat % 2 = 0) (ht : t.toNat % 4 = 0)
    (hd : getTypeInThumb16 h = b2Thumb16 ∨ getTypeInThumb16 h = b1Thumb16 ∧ field h 9 3 ≠ 7)
    {c' : Core} {b : Word}
    (heffect : effect other (.narrow h) a c = some (c', .jump b true))
    (hmem : InMemory c.mem t (relocateInstructionInThumb16 load (a + 4) h)) :
    ∃ s, Steps (step other) ⟨c, t, true⟩ s ∧ step other s = if b.toNat % 4 = 0 then
      some ⟨c, b, false⟩ else none := by
  cases hd with
  | inl hd =>
    have heven := signExtend_even (field h 0 11)
    rw [effect, decode_of_b hd, perform] at heffect
    cases heffect
    rw [emitted_b hd] at hmem
    exact ⟨_, .refl _ _, short_jump ht (by bv_omega) hmem⟩
  | inr hd =>
    obtain ⟨hd, hcond⟩ := hd
    have heven := signExtend_even (field h 0 8)
    rw [effect, decode_of_bCond hd hcond, perform] at heffect
    obtain ⟨hnarrow, hmasked⟩ := effect_masked other hd hcond t c
    have htaken : passed (field h 8 4) c.flags = true ∧
        a + 4 + (field h 0 8 ++ 0#1).signExtend 32 = b := by
      split at heffect
      · cases heffect
        exact ⟨‹_›, rfl⟩
      · cases heffect
    rw [emitted_bCond hd, htaken.2] at hmem
    obtain ⟨h₀, h₁, hjump⟩ := hmem
    rw [show t + 2 + 2 = t + 4 by bv_omega] at hjump
    rw [htaken.1, if_pos rfl] at hmasked
    have hbranch : step other ⟨c, t, true⟩ = some ⟨c, t + 4, true⟩ := by
      rw [step_narrow h₀ hnarrow, hmasked]
      rfl
    refine ⟨_, .one hbranch, short_jump (by bv_omega) ?_ hjump⟩
    rw [← htaken.2]
    bv_omega

theorem short_branch_leaves_thumb_self : ∃ s,
    Steps (step fun _ _ => none) ⟨coreWith [0xF000F8DF, 0] clearFlags, 0x100, true⟩ s ∧
      step (fun _ _ => none) s = some ⟨coreWith [0xF000F8DF, 0] clearFlags, 0, false⟩ := by
  have hbranch : effect (fun _ _ => none) (.narrow 0xE7FE) 0 (coreWith [0xF000F8DF, 0] clearFlags) =
      some (coreWith [0xF000F8DF, 0] clearFlags, .jump 0 true) := by
    rw [effect, show decode (.narrow 0xE7FE) = .b (-4) by decide]
    rfl
  have hchunk : relocateInstructionInThumb16 (fun _ => 0) (0 + 4) 0xE7FE =
      [0xF8DF, 0xF000, 0, 0] := by decide
  have hmem : InMemory (coreWith [0xF000F8DF, 0] clearFlags).mem 0x100
      (relocateInstructionInThumb16 (fun _ => 0) (0 + 4) 0xE7FE) := by
    rw [hchunk]
    exact ⟨by decide, by decide, by decide, by decide, trivial⟩
  exact short_branch_leaves_thumb (by decide) (by decide) (.inl (by decide)) hbranch hmem

end Short

section Addresses

theorem decode_of_adr (hd : getTypeInThumb16 h = adrThumb16) :
    decode (.narrow h) = .adr true (low (field h 8 3)) ((field h 0 8 ++ 0#2).setWidth 32) := by
  have hm := and_narrowMask hd
  have h11 : field h 11 5 = 0x14 := field_of_mask hm 11 5 (by decide)
  have h12 : field h 12 4 = 10 := field_of_mask hm 12 4 (by decide)
  have h44 : field h 8 8 ≠ 0x44 := field_ne 3 (by decide) h11 (by decide)
  have h46 : field h 8 8 ≠ 0x46 := field_ne 3 (by decide) h11 (by decide)
  have h7 : field h 7 9 ≠ 0x8E := field_ne 4 (by decide) h11 (by decide)
  simp only [decode, decodeNarrow, h11, h12, h44, h46, h7]
  simp

theorem emitted_adr (hd : getTypeInThumb16 h = adrThumb16) (p : Word) :
    relocateInstructionInThumb16 load p h = [withRt 0x4800 (field h 8 3), 0xE001,
      lowHalf ((ALIGN_PC p + (field h 0 8).setWidth 32) <<< 2),
        highHalf ((ALIGN_PC p + (field h 0 8).setWidth 32) <<< 2)] := by
  have hr : (h &&& 0x700) >>> 8 = (field h 8 3).setWidth 16 := and_shift_eq_field 8 3 (by decide)
  have himm : h.setWidth 32 &&& 0xFF = (field h 0 8).setWidth 32 := by
    rw [and_eq_field 8 (by decide), field_setWidth h (by decide)]
  simp only [relocateInstructionInThumb16, hd, hr, himm, withRt]
  simp [lowHalf, highHalf]

/-- Three is invertible among the words. -/
theorem eq_zero_of_four_mul {n i : Nat} (hn : n < 2 ^ 32)
    (h : (n + i) * 4 % 2 ^ 32 = (n + 4 * i) % 2 ^ 32) : n = 0 := by
  have hmod : 3 * n + (n + 4 * i) ≡ 0 + (n + 4 * i) [MOD 2 ^ 32] := by
    rw [show 3 * n + (n + 4 * i) = (n + i) * 4 by omega, Nat.zero_add]
    exact h
  have hdvd : 2 ^ 32 ∣ 3 * n := (Nat.modEq_zero_iff_dvd).mp (Nat.ModEq.add_right_cancel' _ hmod)
  exact Nat.eq_zero_of_dvd_of_lt (Nat.Coprime.dvd_of_dvd_mul_left (by decide) hdvd) hn

/-- The shift by two that is meant for the immediate shifts the program counter
as well. -/
theorem shifted_eq_iff (x : Word) (imm : BitVec 8) :
    (x + imm.setWidth 32) <<< 2 = x + (imm ++ 0#2).setWidth 32 ↔ x = 0 := by
  have himm : ((imm ++ 0#2).setWidth 32 : Word).toNat = 4 * imm.toNat := by
    have hlt := imm.isLt
    rw [setWidth_append, BitVec.setWidth_zero, BitVec.or_zero, BitVec.toNat_shiftLeft,
      BitVec.toNat_setWidth_of_le (by decide),
      Nat.shiftLeft_eq]
    omega
  have hleft : ((x + imm.setWidth 32) <<< 2).toNat = (x.toNat + imm.toNat) * 4 % 2 ^ 32 := by
    rw [BitVec.toNat_shiftLeft, BitVec.toNat_add, BitVec.toNat_setWidth_of_le (by decide),
      Nat.shiftLeft_eq, Nat.mod_mul_mod]
  constructor
  · intro heq
    have hnat := congrArg BitVec.toNat heq
    rw [hleft, BitVec.toNat_add, himm] at hnat
    exact BitVec.eq_of_toNat_eq (eq_zero_of_four_mul x.isLt hnat)
  · intro heq
    apply BitVec.eq_of_toNat_eq
    rw [hleft, BitVec.toNat_add, himm, heq, show (0 : Word).toNat = 0 from rfl, Nat.zero_add,
      Nat.zero_add, Nat.mul_comm]

/-- A relocated ADR leaves the address in its register if and only if the
program counter reads as zero there. -/
theorem adr_right_iff (ht : t.toNat % 4 = 0)
    (hd : getTypeInThumb16 h = adrThumb16) {r : Core × Flow}
    (heffect : effect other (.narrow h) a c = some r)
    (hmem : InMemory c.mem t (relocateInstructionInThumb16 load (a + 4) h)) :
    ∃ c', Steps (step other) ⟨c, t, true⟩ ⟨c', t + 8, true⟩ ∧
      ((c', Flow.next) = r ↔ alignedPc a = 0) := by
  rw [emitted_adr hd] at hmem
  refine ⟨_, literal_steps ht hmem, ?_⟩
  rw [effect, decode_of_adr hd, perform, if_neg (low_ne_pc _)] at heffect
  cases heffect
  rw [← shifted_eq_iff (alignedPc a) (field h 0 8), displaced, if_pos rfl]
  constructor
  · intro heq
    have hreg := congrArg (fun r : Core × Flow => r.1.reg (low (field h 8 3))) heq
    rwa [Core.set_same, Core.set_same] at hreg
  · intro heq
    rw [show ALIGN_PC (a + 4) = alignedPc a from rfl, heq]

theorem adr_right_iff_zero : ∃ c', Steps (step fun _ _ => none)
    ⟨coreWith [0xE0014800, 16] clearFlags, 0x100, true⟩
    ⟨c', 0x100 + 8, true⟩ ∧ ((c', Flow.next) =
      ((coreWith [0xE0014800, 16] clearFlags).set 0 4, .next) ↔ alignedPc 0 = 0) := by
  have hadr : effect (fun _ _ => none) (.narrow 0xA000) 0 (coreWith [0xE0014800, 16] clearFlags) =
      some ((coreWith [0xE0014800, 16] clearFlags).set 0 4, .next) := by
    rw [effect, show decode (.narrow 0xA000) = .adr true 0 0 by decide]
    rfl
  have hchunk : relocateInstructionInThumb16 (fun _ => 0) (0 + 4) 0xA000 =
      [0x4800, 0xE001, 16, 0] := by decide
  have hmem : InMemory (coreWith [0xE0014800, 16] clearFlags).mem 0x100
      (relocateInstructionInThumb16 (fun _ => 0) (0 + 4) 0xA000) := by
    rw [hchunk]
    exact ⟨by decide, by decide, by decide, by decide, trivial⟩
  exact adr_right_iff (by decide) (by decide) hadr hmem

end Addresses

section Tables

/-- The register that holds the program counter, and then the target. -/
def targetRegister (l : Half) : BitVec 3 := BitVec.ofNat 3 (spareRegister [(field l 0 4).toNat] 7)

/-- The register that holds the place in the table, and then the entry. -/
def entryRegister (l : Half) : BitVec 3 :=
  BitVec.ofNat 3 (spareRegister [(field l 0 4).toNat, spareRegister [(field l 0 4).toNat] 7] 7)

theorem targetRegister_toNat (l : Half) :
    (targetRegister l).toNat = spareRegister [(field l 0 4).toNat] 7 := by
  have := (spareRegister_one (field l 0 4).toNat 7 (by decide)).2.2
  rw [targetRegister, BitVec.toNat_ofNat, Nat.mod_eq_of_lt (by omega)]

theorem entryRegister_toNat (l : Half) :
    (entryRegister l).toNat = spareRegister
      [(field l 0 4).toNat, spareRegister [(field l 0 4).toNat] 7] 7 := by
  have :=
    (spareRegister_two (field l 0 4).toNat (spareRegister [(field l 0 4).toNat] 7) 7
      (by decide)).2.2.2
  rw [entryRegister, BitVec.toNat_ofNat, Nat.mod_eq_of_lt (by omega)]

theorem registers_ne (l : Half) :
    low (targetRegister l) ≠ field l 0 4 ∧ low (entryRegister l) ≠ field l 0 4 ∧
    low (entryRegister l) ≠ low (targetRegister l) := by
  obtain ⟨ht, -⟩ := spareRegister_one (field l 0 4).toNat 7 (by decide)
  obtain ⟨he, hne, -⟩ :=
    spareRegister_two (field l 0 4).toNat (spareRegister [(field l 0 4).toNat] 7) 7 (by decide)
  rw [← entryRegister_toNat] at he hne
  rw [← targetRegister_toNat] at ht hne
  have hnum (r : BitVec 3) : (low r).toNat = r.toNat := BitVec.toNat_setWidth_of_le (by decide)
  rw [← hnum] at ht he
  refine ⟨fun heq => ht (congrArg _ heq), fun heq => he (congrArg _ heq), fun heq => hne ?_⟩
  rw [← hnum, heq, hnum]

theorem field_high_half {m v : Word} (hm : (h ++ l) &&& m = v) :
    h &&& field m 16 16 = field v 16 16 := by
  have hself : field (h ++ l) 16 16 = h :=
    (field_append_high h l 0 16).trans BitVec.extractLsb'_eq_self
  nth_rewrite 1 [← hself]
  rw [field, field, ← BitVec.extractLsb'_and]
  exact congrArg (fun w => field w 16 16) hm

theorem decode_of_table (hd : getTypeInThumb32 (h ++ l) = tbbThumb32 ∨
    getTypeInThumb32 (h ++ l) = tbhThumb32)
    (hl : field l 8 8 = 0xF0) :
    decode (.wide h l) = .tb (l.getLsbD 4) pc (field l 0 4) ∧
    (l.getLsbD 4 = true ↔ getTypeInThumb32 (h ++ l) = tbhThumb32) := by
  obtain ⟨hh, hbits, hiff⟩ : h = 0xE8DF ∧ field l 5 3 = 0 ∧
      (l.getLsbD 4 = true ↔ getTypeInThumb32 (h ++ l) = tbhThumb32) := by
    cases hd with
    | inl hd =>
      have hm := and_wideMask hd
      refine ⟨?_, ?_, ?_⟩
      · rw [← BitVec.and_allOnes (x := h)]
        exact field_high_half hm
      · rw [← field_append_low h l (by decide)]
        exact field_of_mask hm 5 3 (by decide)
      · rw [low_bit rfl (by decide), bit_of_mask hm 4 (by decide), hd]
        decide
    | inr hd =>
      have hm := and_wideMask hd
      refine ⟨?_, ?_, ?_⟩
      · rw [← BitVec.and_allOnes (x := h)]
        exact field_high_half hm
      · rw [← field_append_low h l (by decide)]
        exact field_of_mask hm 5 3 (by decide)
      · rw [low_bit rfl (by decide), bit_of_mask hm 4 (by decide), hd]
        decide
  refine ⟨?_, hiff⟩
  have hfield : field l 5 11 = 0x780 := by
    apply BitVec.eq_of_getLsbD_eq
    intro i hi
    rw [getLsbD_field _ _ _ hi]
    by_cases h3 : i < 3
    · rw [← getLsbD_field l 5 3 h3, hbits]
      clear hi
      revert i
      decide
    · rw [show 5 + i = 8 + (i - 3) by omega, ← getLsbD_field l 8 8 (by omega), hl]
      clear hbits hiff
      revert i
      decide
  rw [decode, decodeWide, hh, if_neg fun hc => absurd hc.1 (by decide), if_neg (by decide),
    if_neg fun hc => absurd hc.1 (by decide),
    if_neg fun hc => absurd hc.1 (by decide), if_neg fun hc =>
      absurd hc.1 (by decide), if_pos ⟨by decide, hfield⟩]
  rfl

/-- The three halfwords that replace the index by the entry. -/
def readEntry (halfwords : Bool) (r rx : BitVec 3) : List Half :=
  [0xEB00#16 ||| r.setWidth 16, (if halfwords then 0x0040#16 else 0x0000#16) |||
    (rx.setWidth 16 <<< 8) ||| rx.setWidth 16,
    (if halfwords then 0x8800#16 else 0x7800#16) ||| (rx.setWidth 16 <<< 3) ||| rx.setWidth 16]

theorem emitted_table (hd : getTypeInThumb32 (h ++ l) = tbbThumb32 ∨
    getTypeInThumb32 (h ++ l) = tbhThumb32)
    (hiff : l.getLsbD 4 = true ↔ getTypeInThumb32 (h ++ l) = tbhThumb32) (p : Word) :
    relocateInstructionInThumb32 load p h l =
      [0xB400#16 ||| (1#16 <<< (entryRegister l).toNat), withRt 0x4805 (targetRegister l),
        0x4600#16 ||| ((field l 0 4).setWidth 16 <<< 3) ||| (entryRegister l).setWidth 16] ++
      readEntry (l.getLsbD 4) (targetRegister l) (entryRegister l) ++
      [0xEB00#16 ||| (targetRegister l).setWidth 16,
        0x0040#16 ||| ((targetRegister l).setWidth 16 <<< 8) ||| (entryRegister l).setWidth 16,
        withRt 0x3001 (targetRegister l),
        0xBC00#16 ||| (1#16 <<< (entryRegister l).toNat),
        0x4700#16 ||| ((targetRegister l).setWidth 16 <<< 3), 0xBF00,
        lowHalf p, highHalf p] := by
  have hrm : l &&& 0xF = (field l 0 4).setWidth 16 := and_eq_field 4 (by decide)
  have hr (r : BitVec 3) : BitVec.ofNat 16 r.toNat = r.setWidth 16 := by
    apply BitVec.eq_of_toNat_eq
    have hlt := r.isLt
    rw [BitVec.toNat_ofNat, BitVec.toNat_setWidth_of_le (by decide)]
    exact Nat.mod_eq_of_lt (by omega)
  have hbit : l.getLsbD 4 = decide (getTypeInThumb32 (h ++ l) = tbhThumb32) := by
    rw [Bool.eq_iff_iff, hiff, decide_eq_true_iff]
  simp only [relocateInstructionInThumb32, joined, hrm,
    BitVec.toNat_setWidth_of_le (show 4 ≤ 16 by decide), ← targetRegister_toNat,
    readEntry, hbit, withRt]
  rw [targetRegister_toNat, ← entryRegister_toNat, ← targetRegister_toNat, hr, hr]
  obtain hd | hd := hd
  · simp [hd, lowHalf, highHalf]
  · simp [hd, lowHalf, highHalf]

variable (other) in
theorem effect_moveHigh {rm : Reg} (hrm : rm ≠ pc) (rx : BitVec 3) (a : Word) (c : Core) :
    leads (0x4600#16 ||| (rm.setWidth 16 <<< 3) ||| rx.setWidth 16) = false ∧
      effect other (.narrow (0x4600#16 ||| (rm.setWidth 16 <<< 3) ||| rx.setWidth 16)) a c =
        some (c.set (low rx) (c.reg rm), .next) := by
  have hd : leads (0x4600#16 ||| (rm.setWidth 16 <<< 3) ||| rx.setWidth 16) = false ∧
      decode (.narrow (0x4600#16 ||| (rm.setWidth 16 <<< 3) ||| rx.setWidth 16)) =
        .mov (low rx) rm := by
    clear hrm
    revert rm rx
    decide
  refine ⟨hd.1, ?_⟩
  rw [effect, hd.2, perform, write, if_neg (low_ne_pc rx), Core.read_of_ne _ _ hrm]

def shifted (twice : Bool) (v : Word) : Word := if twice then v <<< 1 else v

variable (other) in
theorem effect_addEntry (twice : Bool) (r rd rx : BitVec 3) (a : Word) (c : Core) :
    leads (0xEB00#16 ||| r.setWidth 16) = true ∧
      effect other (.wide (0xEB00#16 ||| r.setWidth 16)
        ((if twice then 0x0040#16 else 0x0000#16) ||| (rd.setWidth 16 <<< 8) ||| rx.setWidth 16)) a
          c =
        some (c.set (low rd) (c.reg (low r) + shifted twice (c.reg (low rx))), .next) := by
  have hd : leads (0xEB00#16 ||| r.setWidth 16) = true ∧ decode (.wide (0xEB00#16 ||| r.setWidth 16)
      ((if twice then 0x0040#16 else 0x0000#16) ||| (rd.setWidth 16 <<< 8) ||| rx.setWidth 16)) =
      .addShifted (low r) (low rd) (low rx) 0 (if twice then 1 else 0) := by
    revert twice r rd rx
    decide
  refine ⟨hd.1, ?_⟩
  rw [effect, hd.2, perform, if_neg (by simp [low_ne_pc])]
  cases twice <;> rfl

/-- An entry of a table, of one byte or of two. -/
def entryAt (m : Memory) (halfwords : Bool) (place : Word) : Word :=
  if halfwords then (half m place).setWidth 32 else (m place).setWidth 32

theorem effect_table {halfwords : Bool} {rm : Reg}
    (hd : decode (.wide h l) = .tb halfwords pc rm) {r : Core × Flow}
    (heffect : effect other (.wide h l) a c = some r) :
    rm ≠ sp ∧ rm ≠ pc ∧
      r =
        (c,
          .jump (a + 4 + shifted true (entryAt c.mem halfwords
            (a + 4 + shifted halfwords (c.reg rm)))) true) := by
  rw [effect, hd, perform, Core.read_pc] at heffect
  split at heffect
  · cases heffect
  · rename_i hrm
    obtain ⟨hsp, hpc⟩ := not_or.mp hrm
    refine ⟨hsp, hpc, ?_⟩
    cases halfwords with
    | true => exact (Option.some.inj heffect).symm
    | false => exact (Option.some.inj heffect).symm

variable (other) in
theorem effect_readEntry (halfwords : Bool) (rx : BitVec 3) (a : Word) (c : Core) :
    leads ((if halfwords then 0x8800#16 else 0x7800#16) ||| (rx.setWidth 16 <<< 3) |||
      rx.setWidth 16) = false ∧
      effect other (.narrow ((if halfwords then 0x8800#16 else 0x7800#16) |||
        (rx.setWidth 16 <<< 3) ||| rx.setWidth 16)) a c =
        some (c.set (low rx) (entryAt c.mem halfwords (c.reg (low rx))), .next) := by
  have hd : leads ((if halfwords then 0x8800#16 else 0x7800#16) ||| (rx.setWidth 16 <<< 3) |||
      rx.setWidth 16) = false ∧
      decode (.narrow ((if halfwords then 0x8800#16 else 0x7800#16) ||| (rx.setWidth 16 <<< 3) |||
        rx.setWidth 16)) =
        if halfwords then .ldrh (low rx) (low rx) 0 else .ldrb (low rx) (low rx) 0 := by
    revert halfwords rx
    decide
  refine ⟨hd.1, ?_⟩
  have hplace : c.reg (low rx) + 0 = c.reg (low rx) := BitVec.add_zero _
  cases halfwords with
  | true =>
    rw [effect, hd.2, ← hplace]
    rfl
  | false =>
    rw [effect, hd.2, ← hplace]
    rfl

theorem effect_ldrTable (r : BitVec 3) (a : Word) (c : Core) :
    effect other (.narrow (withRt 0x4805 r)) a c =
      some (c.set (low r) (word c.mem (alignedPc a + 20)), .next) := by
  have hd : decode (.narrow (withRt 0x4805 r)) = .ldrLiteral true (low r) 20 := by
    revert r
    decide
  rw [effect, hd]
  simp [perform, displaced, low_ne_pc]

theorem leads_table (r rx : BitVec 3) : leads (0xB400#16 ||| (1#16 <<< rx.toNat)) = false ∧
    leads (0xBC00#16 ||| (1#16 <<< rx.toNat)) = false ∧ leads (withRt 0x4805 r) = false := by
  revert r rx
  decide

/-- The flags that an addition of one leaves. -/
def flagsOfSucc (v : Word) : Flags :=
  let r := addWithCarry v 1 false
  ⟨r.1.msb, decide (r.1 = 0), r.2.1, r.2.2⟩

variable (other) in
theorem effect_increment (r : BitVec 3) (a : Word) (c : Core) :
    leads (withRt 0x3001 r) = false ∧ effect other (.narrow (withRt 0x3001 r)) a c =
      some ((c.set (low r) (c.reg (low r) + 1)).setFlags (flagsOfSucc (c.reg (low r))), .next) := by
  have hd : leads (withRt 0x3001 r) = false ∧ decode (.narrow (withRt 0x3001 r)) =
      .addImm (low r) 1 := by
    revert r
    decide
  refine ⟨hd.1, ?_⟩
  have hvalue : (addWithCarry (c.reg (low r)) 1 false).1 = c.reg (low r) + 1 := BitVec.add_zero _
  rw [effect, hd.2, perform, flagsOfSucc, ← hvalue]

variable (other) in
theorem effect_bx (r : BitVec 3) (a : Word) (c : Core) :
    leads (0x4700#16 ||| (r.setWidth 16 <<< 3)) = false ∧
      effect other (.narrow (0x4700#16 ||| (r.setWidth 16 <<< 3))) a c =
        (branchExchange (c.reg (low r))).map (c, ·) := by
  have hd : leads (0x4700#16 ||| (r.setWidth 16 <<< 3)) = false ∧
      decode (.narrow (0x4700#16 ||| (r.setWidth 16 <<< 3))) = .bx (low r) := by
    revert r
    decide
  refine ⟨hd.1, ?_⟩
  rw [effect, hd.2, perform, Core.read_of_ne _ _ (low_ne_pc r)]

/-- A relocated table branch leaves the entry register below the stack pointer. -/
def tableSpill (l : Half) (c : Core) : Core :=
  c.store (c.reg sp - 4) (c.reg (low (entryRegister l)))

/-- A relocated table branch arrives where the instruction goes, with the same
stack pointer and memory; but the register it went by holds the target with
bit 0 set, and the flags are those of an addition. -/
theorem table_steps (ht : t.toNat % 4 = 0)
    (hd : getTypeInThumb32 (h ++ l) = tbbThumb32 ∨ getTypeInThumb32 (h ++ l) = tbhThumb32)
    (hl : field l 8 8 = 0xF0)
    (ha : a.toNat % 2 = 0) {c' : Core} {b : Word}
    (heffect : effect other (.wide h l) a (tableSpill l c) = some (c', .jump b true))
    (hmem : InMemory c.mem t (relocateInstructionInThumb32 load (a + 4) h l))
    (hmem' : InMemory (tableSpill l c).mem t (relocateInstructionInThumb32 load (a + 4) h l)) :
    Steps (step other) ⟨c, t, true⟩ ⟨(c'.set (low (targetRegister l)) (b + 1)).setFlags
      (flagsOfSucc b), b, true⟩ := by
  obtain ⟨hdecode, hiff⟩ := decode_of_table hd hl
  obtain ⟨hr, hrx, hne⟩ := registers_ne l
  obtain ⟨hrmsp, hrmpc, heq⟩ := effect_table hdecode heffect
  clear heffect hdecode
  rw [emitted_table hd hiff] at hmem hmem'
  rw [tableSpill] at *
  generalize targetRegister l = r at *
  generalize entryRegister l = rx at *
  generalize field l 0 4 = rm at *
  generalize l.getLsbD 4 = halfwords at *
  obtain ⟨h₀, -⟩ := hmem
  obtain ⟨-, h₁, h₂, h₃, h₄, h₅, h₆, h₇, h₈, h₉, h₁₀, -, h₁₂, h₁₃, -⟩ := hmem'
  obtain ⟨hpush, hpop, hload⟩ := leads_table r rx
  let cs := c.store (c.reg sp - 4) (c.reg (low rx))
  let place := a + 4 + shifted halfwords (c.reg rm)
  let entry := entryAt cs.mem halfwords place
  obtain ⟨hc', hb⟩ : c' = cs ∧ b = a + 4 + shifted true entry := by
    rw [Prod.mk.injEq, Flow.jump.injEq] at heq
    exact ⟨heq.1, heq.2.1⟩
  have heven : b.toNat % 2 = 0 := by
    have hshift : (shifted true entry).toNat % 2 = 0 := by
      rw [shifted, if_pos rfl, BitVec.toNat_shiftLeft, Nat.shiftLeft_eq]
      omega
    rw [hb]
    bv_omega
  let c₁ := cs.set sp (c.reg sp - 4)
  let c₂ := c₁.set (low r) (a + 4)
  let c₃ := c₂.set (low rx) (c.reg rm)
  let c₄ := c₃.set (low rx) place
  let c₅ := c₄.set (low rx) entry
  let c₆ := c₅.set (low r) b
  let c₇ := (c₆.set (low r) (b + 1)).setFlags (flagsOfSucc b)
  let c₈ := (cs.set (low r) (b + 1)).setFlags (flagsOfSucc b)
  have s₁ : step other ⟨c, t, true⟩ = some ⟨c₁, t + 2, true⟩ := by
    rw [step_narrow h₀ hpush, effect_push]
    rfl
  have s₂ : step other ⟨c₁, t + 2, true⟩ = some ⟨c₂, t + 2 + 2, true⟩ := by
    rw [step_narrow (c := c₁) h₁ hload, effect_ldrTable, alignedPc_of_half (by bv_omega),
      show t + 2 + 2 + 20 = t + 2 + 2 + 2 + 2 + 2 + 2 + 2 + 2 + 2 + 2 + 2 + 2 by
        bv_omega, word_of_halves (m := c₁.mem) h₁₂ h₁₃]
    rfl
  have s₃ : step other ⟨c₂, t + 2 + 2, true⟩ = some ⟨c₃, t + 2 + 2 + 2, true⟩ := by
    obtain ⟨hnarrow, hx⟩ := effect_moveHigh other hrmpc rx (t + 2 + 2) c₂
    rw [step_narrow (c := c₂) h₂ hnarrow, hx, Core.set_other _ _ hr.symm, Core.set_other _ _ hrmsp]
    rfl
  have s₄ : step other ⟨c₃, t + 2 + 2 + 2, true⟩ = some ⟨c₄, t + 2 + 2 + 2 + 2 + 2, true⟩ := by
    obtain ⟨hwide, hx⟩ := effect_addEntry other halfwords r rx rx (t + 2 + 2 + 2) c₃
    rw [step_wide (c := c₃) h₃ h₄ hwide, hx, Core.set_other _ _ hne.symm,
      Core.set_same, Core.set_same,
      show t + 2 + 2 + 2 + 4 = t + 2 + 2 + 2 + 2 + 2 by bv_omega]
    rfl
  have s₅ : step other ⟨c₄, t + 2 + 2 + 2 + 2 + 2, true⟩ =
      some ⟨c₅, t + 2 + 2 + 2 + 2 + 2 + 2, true⟩ := by
    obtain ⟨hnarrow, hx⟩ := effect_readEntry other halfwords rx (t + 2 + 2 + 2 + 2 + 2) c₄
    rw [step_narrow (c := c₄) h₅ hnarrow, hx, Core.set_same]
    rfl
  have s₆ : step other ⟨c₅, t + 2 + 2 + 2 + 2 + 2 + 2, true⟩ =
      some ⟨c₆, t + 2 + 2 + 2 + 2 + 2 + 2 + 2 + 2, true⟩ := by
    obtain ⟨hwide, hx⟩ := effect_addEntry other true r r rx (t + 2 + 2 + 2 + 2 + 2 + 2) c₅
    rw [if_pos rfl] at hx
    have hbase : c₅.reg (low r) = a + 4 := by
      simp only [c₅, c₄, c₃, c₂, Core.set_other _ _ hne.symm, Core.set_same]
    rw [step_wide (c := c₅) h₆ h₇ hwide, hx, hbase, Core.set_same, ← hb,
      show t + 2 + 2 + 2 + 2 + 2 + 2 + 4 = t + 2 + 2 + 2 + 2 + 2 + 2 + 2 + 2 by bv_omega]
    rfl
  have s₇ : step other ⟨c₆, t + 2 + 2 + 2 + 2 + 2 + 2 + 2 + 2, true⟩ =
      some ⟨c₇, t + 2 + 2 + 2 + 2 + 2 + 2 + 2 + 2 + 2, true⟩ := by
    obtain ⟨hnarrow, hx⟩ := effect_increment other r (t + 2 + 2 + 2 + 2 + 2 + 2 + 2 + 2) c₆
    rw [step_narrow (c := c₆) h₈ hnarrow, hx, Core.set_same]
    rfl
  have s₈ : step other ⟨c₇, t + 2 + 2 + 2 + 2 + 2 + 2 + 2 + 2 + 2, true⟩ =
      some ⟨c₈, t + 2 + 2 + 2 + 2 + 2 + 2 + 2 + 2 + 2 + 2, true⟩ := by
    have hreg : c₇.reg sp = c.reg sp - 4 := by
      simp only [c₇, c₆, c₅, c₄, c₃, c₂, c₁, Core.setFlags_reg,
        Core.set_other _ _ (low_ne_sp r).symm,
        Core.set_other _ _ (low_ne_sp rx).symm, Core.set_same]
    have hword : word c₇.mem (c.reg sp - 4) = c.reg (low rx) := word_putWord ..
    have hrest : (c₇.set (low rx) (c.reg (low rx))).set sp (c.reg sp) = c₈ := by
      simp only [c₇, c₆, c₅, c₄, c₃, c₂, c₁, c₈, Core.setFlags_set, Core.set_set]
      rw [Core.set_comm _ _ _ hne, Core.set_set, Core.set_set, Core.set_comm _ _ _ (low_ne_sp rx),
        Core.set_comm _ _ _ (low_ne_sp r), Core.set_set, Core.set_comm _ _ _ hne.symm,
        show c.reg sp = cs.reg sp from rfl,
        Core.set_self, show c.reg (low rx) = cs.reg (low rx) from rfl, Core.set_self]
    rw [step_narrow (c := c₇) h₉ hpop, effect_pop, hreg, hword, show c.reg sp - 4 + 4 =
      c.reg sp by bv_omega, hrest]
    rfl
  have s₉ : step other ⟨c₈, t + 2 + 2 + 2 + 2 + 2 + 2 + 2 + 2 + 2 + 2, true⟩ =
      some ⟨c₈, b, true⟩ := by
    obtain ⟨hnarrow, hx⟩ := effect_bx other r (t + 2 + 2 + 2 + 2 + 2 + 2 + 2 + 2 + 2 + 2) c₈
    have hreg : c₈.reg (low r) = b + 1 := by
      rw [Core.setFlags_reg, Core.set_same]
    rw [step_narrow (c := c₈) h₁₀ hnarrow, hx, hreg, branchExchange_add_one heven]
    rfl
  rw [hc']
  exact .next s₁
    (.next s₂ (.next s₃ (.next s₄ (.next s₅ (.next s₆ (.next s₇ (.next s₈ (.one s₉))))))))

/-- The chunk of a TBB by the register R0 at address 0. -/
def tableChunk : List Word :=
  [0x4F05B440, 0xEB074606, 0x78360606, 0x0746EB07, 0xBC403701, 0xBF004738, 0x00000004]

theorem table_steps_first : Steps (step fun _ _ => none)
    ⟨coreWith tableChunk clearFlags, 0x100, true⟩
    ⟨((tableSpill 0xF000 (coreWith tableChunk clearFlags)).set 7 5).setFlags clearFlags, 4,
      true⟩ := by
  have heffect : effect (fun _ _ => none) (.wide 0xE8DF 0xF000) 0
      (tableSpill 0xF000 (coreWith tableChunk clearFlags)) =
      some (tableSpill 0xF000 (coreWith tableChunk clearFlags), .jump 4 true) := by
    rw [effect, show decode (.wide 0xE8DF 0xF000) = .tb false pc 0 by decide]
    rfl
  have hchunk : relocateInstructionInThumb32 (fun _ => 0) (0 + 4) 0xE8DF 0xF000 =
      [0xB440, 0x4F05, 0x4606, 0xEB07, 0x0606, 0x7836,
      0xEB07, 0x0746, 0x3701, 0xBC40, 0x4738, 0xBF00, 4, 0] := by decide
  have hmem : InMemory (coreWith tableChunk clearFlags).mem 0x100
      (relocateInstructionInThumb32 (fun _ => 0) (0 + 4) 0xE8DF 0xF000) := by
    rw [hchunk]
    exact ⟨by decide, by decide, by decide, by decide, by decide, by decide, by decide, by
      decide, by decide, by decide, by decide,
      by decide, by decide, by decide, trivial⟩
  have hmem' : InMemory (tableSpill 0xF000 (coreWith tableChunk clearFlags)).mem 0x100
      (relocateInstructionInThumb32 (fun _ => 0) (0 + 4) 0xE8DF 0xF000) := by
    rw [hchunk]
    exact ⟨by decide, by decide, by decide, by decide, by decide, by decide, by decide, by
      decide, by decide, by decide, by decide,
      by decide, by decide, by decide, trivial⟩
  exact table_steps (by decide) (.inl (by decide)) (by decide) (by decide) heffect hmem hmem'

end Tables

end ThumbRelocation
