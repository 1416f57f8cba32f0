import AndroidWork.ThumbRelocation

/-!
# What the chunks of Thumb instructions do

Each chunk that is emitted for an instruction that `relocatable` admits does,
wherever it stands, what the instruction does at its own address.
-/
namespace ThumbRelocation

open ArmMachine ThumbInstructions Relocate InstructionType

variable {other : Code → Core → Option Core} {load : Word → Word} {h l : Half}
    {a t : Word} {c : Core}

theorem leads_eq_false {v : BitVec 4} (h12 : field h 12 4 = v) (hv : v < 14) : leads h = false := by
  have hfield : v.toNat = h.toNat / 2 ^ 12 % 2 ^ 4 := by
    rw [← h12, field, BitVec.extractLsb'_toNat, Nat.shiftRight_eq_div_pow]
  have hshift : (h >>> 11).toNat = h.toNat / 2 ^ 11 := by
    rw [BitVec.toNat_ushiftRight, Nat.shiftRight_eq_div_pow]
  have hlt : v.toNat < 14 := hv
  have hh := h.isLt
  apply decide_eq_false
  rw [BitVec.le_def, hshift, show (29#16).toNat = 29 from rfl]
  omega

/-- The register that stands in for the program counter in an addition. -/
def borrowed (h : Half) : BitVec 3 := BitVec.ofNat 3 (spareRegister [(rdn h).toNat] 7)

/-- The relocated addition leaves the borrowed register below the stack pointer. -/
def spill (i : Code) (c : Core) : Core :=
  match i with
  | .narrow h =>
    if getTypeInThumb16 h = addThumb16 then c.store (c.reg sp - 4) (c.reg (low (borrowed h))) else c
  | .wide _ _ => c

section Addition

theorem borrowed_toNat (h : Half) : (borrowed h).toNat = spareRegister [(rdn h).toNat] 7 := by
  have := (spareRegister_one (rdn h).toNat 7 (by decide)).2.2
  rw [borrowed, BitVec.toNat_ofNat, Nat.mod_eq_of_lt (by omega)]

theorem borrowed_ne (h : Half) : low (borrowed h) ≠ rdn h := by
  obtain ⟨hne, -⟩ := spareRegister_one (rdn h).toNat 7 (by decide)
  rw [← borrowed_toNat] at hne
  intro heq
  apply hne
  rw [← heq, low, BitVec.toNat_setWidth_of_le (by decide)]

/-- The instruction with another second operand. -/
def withRm (h : Half) (r : BitVec 3) : Half := (h &&& 0xFF87#16) ||| (r.setWidth 16 <<< 3)

theorem getLsbD_withRm (r : BitVec 3) {i : Nat} (hi : i < 16) :
    (withRm h r).getLsbD i = if 3 ≤ i ∧ i < 7 then (low r).getLsbD (i - 3) else h.getLsbD i := by
  have hmask : (0xFF87#16).getLsbD i = !decide (3 ≤ i ∧ i < 7) := by
    revert i
    decide
  rw [withRm, BitVec.getLsbD_or, BitVec.getLsbD_and, hmask, BitVec.getLsbD_shiftLeft,
    BitVec.getLsbD_setWidth, low,
    BitVec.getLsbD_setWidth]
  by_cases h3 : i < 3
  · simp [h3, show ¬ 3 ≤ i by omega]
  · by_cases h7 : i < 7
    · simp [h3, h7, hi, show 3 ≤ i by omega, show i - 3 < 16 by omega, show i - 3 < 4 by omega]
    · simp [h3, h7, BitVec.getLsbD_of_ge r (i - 3) (by omega)]

theorem field_withRm (r : BitVec 3) {lo len : Nat} (hlo : lo + len ≤ 3 ∨ 7 ≤ lo)
    (hlen : lo + len ≤ 16) :
    field (withRm h r) lo len = field h lo len := by
  apply BitVec.eq_of_getLsbD_eq
  intro i hi
  rw [getLsbD_field _ _ _ hi, getLsbD_field _ _ _ hi, getLsbD_withRm r (by omega),
    if_neg (by omega)]

theorem field_withRm_rm (r : BitVec 3) : field (withRm h r) 3 4 = low r := by
  apply BitVec.eq_of_getLsbD_eq
  intro i hi
  rw [getLsbD_field _ _ _ hi, getLsbD_withRm r (by omega), if_pos (by omega),
    Nat.add_sub_cancel_left]

theorem decode_withRm (hd : getTypeInThumb16 h = addThumb16) (r : BitVec 3) :
    leads (withRm h r) = false ∧ decode (.narrow (withRm h r)) = .add (rdn h) (low r) := by
  have hm := and_narrowMask hd
  have h8 : field (withRm h r) 8 8 = 0x44 :=
    (field_withRm r (by decide) (by decide)).trans (field_of_mask hm 8 8 (by decide))
  have h11 : field (withRm h r) 11 5 = 0x08 :=
    (field_withRm r (by decide) (by decide)).trans (field_of_mask hm 11 5 (by decide))
  have h12 : field (withRm h r) 12 4 = 4 :=
    (field_withRm r (by decide) (by decide)).trans (field_of_mask hm 12 4 (by decide))
  have h0 : field (withRm h r) 0 3 = field h 0 3 := field_withRm r (by decide) (by decide)
  have h7 : (withRm h r).getLsbD 7 = h.getLsbD 7 := by
    rw [getLsbD_withRm r (by decide), if_neg (by decide)]
  constructor
  · exact leads_eq_false h12 (by decide)
  · rw [rdn, decode, decodeNarrow, if_neg (by simp [h12]), if_neg (by simp [h11]),
      if_neg (by simp [h12]), if_pos h8, h7, h0,
      field_withRm_rm]

theorem emitted_add (hd : getTypeInThumb16 h = addThumb16) (p : Word) :
    relocateInstructionInThumb16 load p h =
      [0xB400#16 ||| (1#16 <<< (borrowed h).toNat), withRt 0x4802 (borrowed h),
      withRm h (borrowed h), 0xBC00#16 ||| (1#16 <<< (borrowed h).toNat), 0xE002, 0xBF00,
        lowHalf p, highHalf p] := by
  have hrdn : ((h.setWidth 32 &&& 0x80) >>> 4) ||| (h.setWidth 32 &&& 0x7) = (rdn h).setWidth 32 :=
    rdn_eq h
  have hr : BitVec.ofNat 16 (borrowed h).toNat = (borrowed h).setWidth 16 := by
    apply BitVec.eq_of_toNat_eq
    have hlt := (borrowed h).isLt
    rw [BitVec.toNat_ofNat, BitVec.toNat_setWidth_of_le (by decide)]
    exact Nat.mod_eq_of_lt (by omega)
  simp only [relocateInstructionInThumb16, hd, hrdn,
    BitVec.toNat_setWidth_of_le (show 4 ≤ 32 by decide), ← borrowed_toNat, hr,
    withRt, withRm]
  simp [lowHalf, highHalf]

/-- The relocated addition: what it does is the addition itself, and the spill. -/
theorem add_steps (hd : getTypeInThumb16 h = addThumb16) (hsp : rdn h ≠ sp) (hpc : rdn h ≠ pc)
    (ht : t.toNat % 4 = 0) {p : Word}
    (hmem : InMemory c.mem t (relocateInstructionInThumb16 load p h))
    (hmem' : InMemory (spill (.narrow h) c).mem t (relocateInstructionInThumb16 load p h)) :
    Steps (step other) ⟨c, t, true⟩ ⟨(spill (.narrow h) c).set (rdn h) (c.reg (rdn h) + p),
      t + 16, true⟩ := by
  have hspill : spill (.narrow h) c = c.store (c.reg sp - 4) (c.reg (low (borrowed h))) := if_pos hd
  have hne := borrowed_ne h
  rw [emitted_add hd] at hmem hmem'
  generalize borrowed h = r at *
  obtain ⟨h₀, -⟩ := hmem
  obtain ⟨-, h₁, h₂, h₃, h₄, -, h₆, h₇, -⟩ := hmem'
  obtain ⟨hnarrow, hdecode⟩ := decode_withRm hd r
  have hfirst : leads (0xB400#16 ||| (1#16 <<< r.toNat)) = false ∧
      leads (0xBC00#16 ||| (1#16 <<< r.toNat)) = false ∧
      leads (withRt 0x4802 r) = false := by
    clear hne hspill h₀ h₁ h₂ h₃ hnarrow hdecode
    revert r
    decide
  let c₁ := (spill (.narrow h) c).set sp (c.reg sp - 4)
  let c₂ := c₁.set (low r) p
  let c₃ := c₂.set (rdn h) (c.reg (rdn h) + p)
  let c₄ := (spill (.narrow h) c).set (rdn h) (c.reg (rdn h) + p)
  have hpush : step other ⟨c, t, true⟩ = some ⟨c₁, t + 2, true⟩ := by
    rw [step_narrow h₀ hfirst.1, effect_push, ← hspill]
    rfl
  have hload : step other ⟨c₁, t + 2, true⟩ = some ⟨c₂, t + 2 + 2, true⟩ := by
    rw [step_narrow (c := c₁) h₁ hfirst.2.2, effect_ldrAhead, alignedPc_of_half (by bv_omega),
      show t + 2 + 2 + 8 = t + 2 + 2 + 2 + 2 + 2 + 2 by
        bv_omega, word_of_halves (m := c₁.mem) h₆ h₇]
    rfl
  have hadd : step other ⟨c₂, t + 2 + 2, true⟩ = some ⟨c₃, t + 2 + 2 + 2, true⟩ := by
    have hread : c₂.reg (rdn h) = c.reg (rdn h) := by
      rw [Core.set_other _ _ hne.symm, Core.set_other _ _ hsp, hspill]
      rfl
    rw [step_narrow (c := c₂) h₂ hnarrow, effect, hdecode, perform, write, if_neg hpc,
      Core.read_of_ne _ _ hpc,
      Core.read_of_ne _ _ (low_ne_pc r), hread, Core.set_same]
    rfl
  have hpop : step other ⟨c₃, t + 2 + 2 + 2, true⟩ = some ⟨c₄, t + 2 + 2 + 2 + 2, true⟩ := by
    have hreg : c₃.reg sp = c.reg sp - 4 := by
      rw [Core.set_other _ _ hsp.symm, Core.set_other _ _ (low_ne_sp r).symm, Core.set_same]
    have hword : word c₃.mem (c.reg sp - 4) = c.reg (low r) := by
      rw [show c₃.mem = (spill (.narrow h) c).mem from rfl, hspill, Core.store_mem, word_putWord]
    have hold : c₄.reg sp = c.reg sp ∧ c₄.reg (low r) = c.reg (low r) := by
      rw [Core.set_other _ _ hsp.symm, Core.set_other _ _ hne, hspill]
      exact ⟨rfl, rfl⟩
    have hc₃ : c₃ = (c₄.set sp (c.reg sp - 4)).set (low r) p := by
      rw [show c₃ = (c₁.set (rdn h) (c.reg (rdn h) + p)).set
        (low r) p from Core.set_comm c₁ _ _ hne]
      congr 1
      exact Core.set_comm _ _ _ hsp.symm
    rw [step_narrow (c := c₃) h₃ hfirst.2.1, effect_pop, hreg, hword, hc₃]
    rw [Core.set_set, Core.set_comm _ _ _ (low_ne_sp r), Core.set_set, show c.reg sp - 4 + 4 =
      c.reg sp by bv_omega]
    nth_rewrite 1 [← hold.1]
    rw [Core.set_self, ← hold.2, Core.set_self]
    rfl
  have hskip : step other ⟨c₄, t + 2 + 2 + 2 + 2, true⟩ = some ⟨c₄, t + 16, true⟩ := by
    rw [step_narrow (c := c₄) h₄ (by decide), effect_b 4 (by decide),
      show t + 16 = t + 2 + 2 + 2 + 2 + 4 + 4 by bv_omega]
    rfl
  exact .next hpush (.next hload (.next hadd (.next hpop (.one hskip))))

end Addition

/-- What is emitted for an instruction whose program counter reads as `p`. -/
def chunk (load : Word → Word) (i : Code) (p : Word) : List Half :=
  match i with
  | .narrow h => relocateInstructionInThumb16 load p h
  | .wide h l => relocateInstructionInThumb32 load p h l

/-- A call that is executed in the trampoline returns into the trampoline. -/
def relink (back : Word) (i : Code) (r : Core × Flow) : Core × Flow :=
  match i with
  | .narrow _ => r
  | .wide h l =>
    if getTypeInThumb32 (h ++ l) = blThumb32 ∨ getTypeInThumb32 (h ++ l) = blxThumb32 then
      (r.1.set lr (back + 1), r.2) else r

/-- The address a load from the literal pool reads. -/
def literal (i : Code) (a : Word) : Word :=
  match i with
  | .narrow h => alignedPc a + (field h 0 8 ++ 0#2).setWidth 32
  | .wide h l => displaced (h.getLsbD 7) (alignedPc a) ((field l 0 12).setWidth 32)

def loads (i : Code) : Prop :=
  match i with
  | .narrow h => getTypeInThumb16 h = ldrThumb16
  | .wide h l => getTypeInThumb32 (h ++ l) = ldrThumb32

/-- The instructions whose chunks do what they do. -/
def relocatable (i : Code) (a : Word) : Bool :=
  i.wellFormed &&
    match i with
    | .narrow h =>
      let type := getTypeInThumb16 h
      if type = b1Thumb16 ∨ type = b2Thumb16 ∨ type = adrThumb16 then false
      else if type = addThumb16 then rdn h ≠ sp ∧ rdn h ≠ pc
      else if type = movThumb16 then !h.getLsbD 7
      else if type = undefine then (decode i).pcFree
      else true
    | .wide h l =>
      let type := getTypeInThumb32 (h ++ l)
      if type = adr1Thumb32 ∨ type = adr2Thumb32 ∨ type = tbbThumb32 ∨ type = tbhThumb32 then false
      else if type = blxThumb32 then a.toNat % 4 = 0 ∧ l.getLsbD 0 = false
      else if type = b1Thumb32 then field h 7 3 ≠ 7
      else if type = ldrThumb32 then !l.getLsbD 15
      else if type = undefine then (decode i).pcFree
      else true

section Branches

theorem even_of_bit {v : Word} (h : v.getLsbD 0 = false) : v.toNat % 2 = 0 := by
  rw [getLsbD_zero_eq] at h
  have := of_decide_eq_false h
  omega

theorem signExtend_even {n : Nat} (v : BitVec n) : ((v ++ 0#1).signExtend 32).toNat % 2 = 0 := by
  apply even_of_bit
  rw [BitVec.getLsbD_signExtend, if_pos (by omega), BitVec.getLsbD_append, if_pos (by decide)]
  rfl

theorem setWidth_even {n : Nat} (v : BitVec n) : ((v ++ 0#1).setWidth 32).toNat % 2 = 0 := by
  apply even_of_bit
  rw [BitVec.getLsbD_setWidth, BitVec.getLsbD_append, if_pos (by decide)]
  rfl

/-- The offset of BLX, whose bit 0 is clear, is a multiple of four. -/
theorem farOffset_aligned (hl : l.getLsbD 0 = false) : (farOffset h l).toNat % 4 = 0 := by
  have hzero : (farOffset h l).setWidth 2 = 0 := by
    apply BitVec.eq_of_getLsbD_eq
    intro i hi
    rw [farOffset, BitVec.getLsbD_setWidth, BitVec.getLsbD_signExtend, BitVec.getLsbD_append]
    interval_cases i
    · simp
    · rw [BitVec.getLsbD_append, getLsbD_field _ _ _ (by decide)]
      simp only [hl]
      simp
  have := congrArg BitVec.toNat hzero
  rwa [BitVec.toNat_setWidth] at this

/-- A branch over a jump by way of a literal, and the jump. -/
theorem branch_steps {x : Half} (hnarrow : leads x = false) {taken : Bool}
    (hx : effect other (.narrow x) t c = some (c, if taken then .jump (t + 4) true else .next))
    (ht : t.toNat % 4 = 0) {v : Word}
    (hmem : InMemory c.mem t [x, 0xE003, 0xF8DF, 0xF000, lowHalf v, highHalf v]) {f : Flow}
    (hf : branchExchange v = some f) :
    Steps (step other) ⟨c, t, true⟩ (land (t + 12) true (c, if taken then f else .next)) := by
  obtain ⟨h₀, h₁, hjump⟩ := hmem
  rw [show t + 2 + 2 = t + 4 by bv_omega] at hjump
  cases taken with
  | true =>
    have hbranch : step other ⟨c, t, true⟩ = some ⟨c, t + 4, true⟩ := by
      rw [step_narrow h₀ hnarrow, hx]
      rfl
    exact .next hbranch (jump_steps (by bv_omega) hjump hf _)
  | false =>
    have hpass : step other ⟨c, t, true⟩ = some ⟨c, t + 2, true⟩ := by
      rw [step_narrow h₀ hnarrow, hx]
      rfl
    have hskip : step other ⟨c, t + 2, true⟩ = some ⟨c, t + 12, true⟩ := by
      rw [step_narrow h₁ (by decide), effect_b 6 (by decide),
        show t + 12 = t + 2 + 4 + 6 by bv_omega]
      rfl
    exact .next hpass (.one hskip)

/-- A call by way of a literal: the return address is that behind the literal. -/
theorem call_steps (ht : t.toNat % 4 = 0) {v : Word}
    (hmem : InMemory c.mem t [0xF20F, 0x0E09, 0xF8DF, 0xF000, lowHalf v, highHalf v]) {f : Flow}
    (hf : branchExchange v = some f)
    (follow : Word) : Steps (step other) ⟨c, t, true⟩
      (land follow true (c.set lr (t + 12 + 1), f)) := by
  obtain ⟨h₀, h₁, hjump⟩ := hmem
  rw [show t + 2 + 2 = t + 4 by bv_omega] at hjump
  have hlink : step other ⟨c, t, true⟩ = some ⟨c.set lr (t + 12 + 1), t + 4, true⟩ := by
    rw [step_wide h₀ h₁ (by decide), effect_addLr, alignedPc_of_aligned ht,
      show t + 12 + 1 = t + 4 + 9 by bv_omega]
    rfl
  exact .next hlink (jump_steps (c := c.set lr (t + 12 + 1)) (by bv_omega) hjump hf follow)

variable (other) in
theorem effect_withCond {cond : BitVec 4} (hcond : cond.extractLsb' 1 3 ≠ 7) (a : Word) (c : Core) :
    leads (withCond cond) = false ∧ effect other (.narrow (withCond cond)) a c =
      some (c, if passed cond c.flags then .jump (a + 4) true else .next) := by
  have hdecode : leads (withCond cond) = false ∧ decode (.narrow (withCond cond)) =
      .bCond cond 0 := by
    revert cond
    decide
  refine ⟨hdecode.1, ?_⟩
  rw [effect, hdecode.2, perform, show a + 4 + 0 = a + 4 from BitVec.add_zero _]

/-- A compare and branch without its offset. -/
def withoutOffset (h : Half) : Half := h &&& 0xFD07

theorem getLsbD_withoutOffset {i : Nat} (hi : i < 16) :
    (withoutOffset h).getLsbD i = if i = 9 ∨ 3 ≤ i ∧ i < 8 then false else h.getLsbD i := by
  have hmask : (0xFD07 : Half).getLsbD i = !decide (i = 9 ∨ 3 ≤ i ∧ i < 8) := by
    revert i
    decide
  rw [withoutOffset, BitVec.getLsbD_and, hmask]
  split <;> simp [*]

theorem effect_withoutOffset (hd : getTypeInThumb16 h = cbThumb16) (a : Word) (c : Core) :
    leads (withoutOffset h) = false ∧ effect other (.narrow (withoutOffset h)) a c =
      some (c, if decide ¬ decide (c.reg (low (field h 0 3)) = 0) = h.getLsbD 11 then
        .jump (a + 4) true else .next) := by
  have hmask : withoutOffset h &&& 0xF500 = 0xB100 := by
    rw [withoutOffset, BitVec.and_assoc]
    exact and_narrowMask hd
  have h12 : field (withoutOffset h) 12 4 = 11 := field_of_mask hmask 12 4 (by decide)
  have h11 : field (withoutOffset h) 11 5 ≠ 0x1C := field_ne 1 (by decide) h12 (by decide)
  have h10 : (withoutOffset h).getLsbD 10 = false := bit_of_mask hmask 10 (by decide)
  have h8 : (withoutOffset h).getLsbD 8 = true := bit_of_mask hmask 8 (by decide)
  have h9 : (withoutOffset h).getLsbD 9 = false := by
    rw [getLsbD_withoutOffset (by decide), if_pos (by decide)]
  have hn : (withoutOffset h).getLsbD 11 = h.getLsbD 11 := by
    rw [getLsbD_withoutOffset (by decide), if_neg (by decide)]
  have himm : field (withoutOffset h) 3 5 = 0 := by
    apply BitVec.eq_of_getLsbD_eq
    intro i hi
    rw [getLsbD_field _ _ _ hi, getLsbD_withoutOffset (by omega), if_pos (by omega)]
    simp
  have hrn : field (withoutOffset h) 0 3 = field h 0 3 := by
    apply BitVec.eq_of_getLsbD_eq
    intro i hi
    rw [getLsbD_field _ _ _ hi, getLsbD_field _ _ _ hi, getLsbD_withoutOffset (by omega),
      if_neg (by omega)]
  constructor
  · exact leads_eq_false h12 (by decide)
  · have hdecode : decode (.narrow (withoutOffset h)) =
        .cb (h.getLsbD 11) 0 (low (field h 0 3)) := by
      simp only [decode, decodeNarrow, h12, h11, h10, h8, h9, hn, himm, hrn]
      simp
    rw [effect, hdecode, perform, show a + 4 + 0 = a + 4 from BitVec.add_zero _]
    simp only [decide_eq_true_eq, ite_not]

end Branches

section Instructions

/-- The types that `getTypeInThumb16` can give. -/
theorem getTypeInThumb16_cases (h : Half) :
    getTypeInThumb16 h = b1Thumb16 ∨ getTypeInThumb16 h = b2Thumb16 ∨
    getTypeInThumb16 h = bxThumb16 ∨ getTypeInThumb16 h = addThumb16 ∨
    getTypeInThumb16 h = movThumb16 ∨
    getTypeInThumb16 h = adrThumb16 ∨ getTypeInThumb16 h = ldrThumb16 ∨
    getTypeInThumb16 h = cbThumb16 ∨
    getTypeInThumb16 h = undefine := by
  rw [getTypeInThumb16]
  split_ifs <;> simp

/-- The types that `getTypeInThumb32` can give. -/
theorem getTypeInThumb32_cases (w : Word) :
    getTypeInThumb32 w = blxThumb32 ∨ getTypeInThumb32 w = blThumb32 ∨
    getTypeInThumb32 w = b1Thumb32 ∨ getTypeInThumb32 w = b2Thumb32 ∨
    getTypeInThumb32 w = adr1Thumb32 ∨
    getTypeInThumb32 w = adr2Thumb32 ∨ getTypeInThumb32 w = ldrThumb32 ∨
    getTypeInThumb32 w = tbbThumb32 ∨
    getTypeInThumb32 w = tbhThumb32 ∨ getTypeInThumb32 w = undefine := by
  rw [getTypeInThumb32]
  split_ifs <;> simp

theorem narrow_steps (ha : a.toNat % 2 = 0) (ht : t.toNat % 4 = 0)
    (hright : relocatable (.narrow h) a = true)
    (hmem : InMemory c.mem t (relocateInstructionInThumb16 load (a + 4) h))
    (hmem' : InMemory (spill (.narrow h) c).mem t (relocateInstructionInThumb16 load (a + 4) h))
    (hload : getTypeInThumb16 h = ldrThumb16 → word c.mem (literal (.narrow h) a) =
      load (literal (.narrow h) a))
    {r : Core × Flow} (heffect : effect other (.narrow h) a (spill (.narrow h) c) = some r)
    (hkept : r.2 = .next → InMemory r.1.mem t (relocateInstructionInThumb16 load (a + 4) h)) :
    Steps (step other) ⟨c, t, true⟩
      (land (t + 2 * BitVec.ofNat 32 (relocateInstructionInThumb16 load (a + 4) h).length) true
        r) := by
  have hspill (hd : getTypeInThumb16 h ≠ addThumb16) : spill (.narrow h) c = c := if_neg hd
  rw [relocatable, Bool.and_eq_true] at hright
  obtain ⟨hformed, hright⟩ := hright
  have hnarrow : leads h = false := by simpa [Code.wellFormed] using hformed
  obtain hd | hd | hd | hd | hd | hd | hd | hd | hd := getTypeInThumb16_cases h
  · simp [hd] at hright
  · simp [hd] at hright
  · rw [emitted_bx hd] at hmem ⊢
    rw [hspill (by simp [hd]), effect, decode_of_bx hd, perform, Core.read_pc] at heffect
    obtain ⟨f, hf, rfl⟩ := Option.map_eq_some_iff.mp heffect
    exact jump_steps ht hmem hf _
  · simp only [hd, reduceCtorEq, or_self, if_false, if_true, decide_eq_true_eq] at hright
    have hadd : Steps (step other) ⟨c, t, true⟩ _ := add_steps hd hright.1 hright.2 ht hmem hmem'
    rw [effect, decode_of_add hd, perform, write, if_neg hright.2, Core.read_of_ne _ _ hright.2,
      Core.read_pc] at heffect
    cases heffect
    have hreg : (spill (.narrow h) c).reg = c.reg := by
      rw [spill, if_pos hd]
      rfl
    rw [hreg, emitted_add hd]
    exact hadd
  · have hhigh : h.getLsbD 7 = false := by simpa [hd] using hright
    rw [emitted_mov hd] at hmem ⊢
    have hrd : rdn h = low (field h 0 3) := by
      rw [rdn, hhigh]
      exact (BitVec.setWidth_eq_append (by decide)).symm
    rw [hspill (by simp [hd]), effect, decode_of_mov hd, perform, Core.read_pc, hrd, write,
      if_neg (low_ne_pc _)] at heffect
    cases heffect
    exact literal_steps ht hmem
  · simp [hd] at hright
  · rw [emitted_ldr hd] at hmem ⊢
    rw [hspill (by simp [hd]), effect, decode_of_ldr hd, perform, if_neg (low_ne_pc _)] at heffect
    cases heffect
    have hword := hload hd
    rw [literal] at hword
    rw [displaced, if_pos rfl, hword]
    exact literal_steps ht hmem
  · rw [emitted_cb hd] at hmem ⊢
    rw [hspill (by simp [hd]), effect, decode_of_cb hd, perform] at heffect
    cases heffect
    have heven := setWidth_even (BitVec.ofBool (h.getLsbD 9) ++ field h 3 5)
    have hf := branchExchange_add_one
      (a := a + 4 + (BitVec.ofBool (h.getLsbD 9) ++ field h 3 5 ++ 0#1).setWidth 32) (by bv_omega)
    obtain ⟨hfirst, hx⟩ := effect_withoutOffset hd t c
    have hbranch := branch_steps hfirst hx ht hmem hf
    simp only [decide_eq_true_eq, ite_not] at hbranch
    exact hbranch
  · have hplain : (decode (.narrow h)).pcFree = true := by simpa [hd] using hright
    rw [hspill (by simp [hd]), effect_of_pcFree _ hplain a t] at heffect
    rw [emitted_undefine hd] at hmem hkept ⊢
    obtain ⟨c', f⟩ := r
    have hstep : step other ⟨c, t, true⟩ = some (land (t + 2) true (c', f)) := by
      rw [step_narrow hmem.1 hnarrow, heffect]
      rfl
    cases f with
    | jump b thumb => exact .one hstep
    | next =>
      have hnop : step other ⟨c', t + 2, true⟩ = some ⟨c', t + 2 + 2, true⟩ := by
        rw [step_narrow (hkept rfl).2.1 (by decide), effect_nop]
        rfl
      rw [show t + 2 * BitVec.ofNat 32 [h, 0xBF00].length = t + 2 + 2 by rw [BitVec.add_assoc]; rfl]
      exact .next hstep (.one hnop)

theorem wide_steps (ha : a.toNat % 2 = 0) (ht : t.toNat % 4 = 0)
    (hright : relocatable (.wide h l) a = true)
    (hmem : InMemory c.mem t (relocateInstructionInThumb32 load (a + 4) h l))
    (hload : getTypeInThumb32 (h ++ l) = ldrThumb32 → word c.mem (literal (.wide h l) a) =
      load (literal (.wide h l) a))
    {r : Core × Flow} (heffect : effect other (.wide h l) a c = some r) :
    Steps (step other) ⟨c, t, true⟩ (land
      (t + 2 * BitVec.ofNat 32 (relocateInstructionInThumb32 load (a + 4) h l).length) true
      (relink (t + 2 * BitVec.ofNat 32 (relocateInstructionInThumb32 load (a + 4) h l).length)
        (.wide h l) r)) := by
  rw [relocatable, Bool.and_eq_true] at hright
  obtain ⟨hwide, hright⟩ := hright
  obtain hd | hd | hd | hd | hd | hd | hd | hd | hd | hd := getTypeInThumb32_cases (h ++ l)
  · simp only [hd, reduceCtorEq, or_self, if_false, if_true, decide_eq_true_eq] at hright
    obtain ⟨haligned, hl⟩ := hright
    have hoffset := farOffset_aligned (h := h) hl
    rw [emitted_blx hd hl] at hmem ⊢
    rw [effect, decode_of_blx hd hl, perform, alignedPc_of_aligned haligned] at heffect
    cases heffect
    have hcall : Steps (step other) ⟨c, t, true⟩ _ :=
      call_steps ht hmem (branchExchange_of_aligned (by bv_omega)) (t + 12)
    simpa [relink, hd] using hcall
  · have hoffset : (farOffset h l).toNat % 2 = 0 := signExtend_even _
    rw [emitted_bl hd] at hmem ⊢
    rw [effect, decode_of_bl hd, perform] at heffect
    cases heffect
    have hcall : Steps (step other) ⟨c, t, true⟩ _ :=
      call_steps ht hmem (branchExchange_add_one (by bv_omega)) (t + 12)
    simpa [relink, hd] using hcall
  · have hcond : field h 7 3 ≠ 7 := by simpa [hd] using hright
    have hoffset : (nearOffset h l).toNat % 2 = 0 := signExtend_even _
    rw [emitted_bCondW hd] at hmem ⊢
    rw [effect, decode_of_bCondW hd hcond, perform] at heffect
    cases heffect
    have hfield : (field h 6 4).extractLsb' 1 3 ≠ 7 := by
      rwa [show (field h 6 4).extractLsb' 1 3 = field h 7 3 from field_field h 6 4 1 3 (by decide)]
    obtain ⟨hfirst, hx⟩ := effect_withCond other hfield t c
    have hbranch := branch_steps hfirst hx ht hmem (branchExchange_add_one (by bv_omega))
    simpa [relink, hd] using hbranch
  · have hoffset : (farOffset h l).toNat % 2 = 0 := signExtend_even _
    rw [emitted_bw hd] at hmem ⊢
    rw [effect, decode_of_bw hd, perform] at heffect
    cases heffect
    have hjump : Steps (step other) ⟨c, t, true⟩ _ :=
      jump_steps ht hmem (branchExchange_add_one (by bv_omega)) (t + 8)
    simpa [relink, hd] using hjump
  · simp [hd] at hright
  · simp [hd] at hright
  · have hr : l.getLsbD 15 = false := by simpa [hd] using hright
    have hrt : field l 12 4 = low (field l 12 3) := by
      apply BitVec.eq_of_getLsbD_eq
      intro i hi
      rw [getLsbD_field _ _ _ hi, low, BitVec.getLsbD_setWidth, decide_eq_true hi, Bool.true_and]
      by_cases h3 : i < 3
      · rw [getLsbD_field _ _ _ h3]
      · rw [BitVec.getLsbD_of_ge (field l 12 3) i (by omega), show 12 + i = 15 by omega, hr]
    rw [emitted_ldrW hd hr, show ALIGN_PC (a + 4) = alignedPc a from rfl] at hmem ⊢
    rw [effect, decode_of_ldrW hd, perform, hrt, if_neg (low_ne_pc _)] at heffect
    cases heffect
    have hword := hload hd
    rw [literal] at hword
    rw [hword]
    simpa [relink, hd] using literal_steps ht hmem
  · simp [hd] at hright
  · simp [hd] at hright
  · have hplain : (decode (.wide h l)).pcFree = true := by simpa [hd] using hright
    rw [effect_of_pcFree _ hplain a t] at heffect
    rw [emitted_undefineW hd] at hmem ⊢
    have hstep : step other ⟨c, t, true⟩ = some (land (t + 4) true r) := by
      rw [step_wide hmem.1 hmem.2.1 hwide, heffect]
      rfl
    simpa [relink, hd] using Steps.one hstep

theorem chunk_steps {i : Code} (ha : a.toNat % 2 = 0) (ht : t.toNat % 4 = 0)
    (hright : relocatable i a = true)
    (hmem : InMemory c.mem t (chunk load i (a + 4)))
    (hmem' : InMemory (spill i c).mem t (chunk load i (a + 4)))
    (hload : loads i → word c.mem (literal i a) = load (literal i a)) {r : Core × Flow}
    (heffect : effect other i a (spill i c) = some r)
    (hkept : r.2 = .next → InMemory r.1.mem t (chunk load i (a + 4))) :
    Steps (step other) ⟨c, t, true⟩ (land
      (t + 2 * BitVec.ofNat 32 (chunk load i (a + 4)).length) true
      (relink (t + 2 * BitVec.ofNat 32 (chunk load i (a + 4)).length) i r)) := by
  cases i with
  | narrow h => exact narrow_steps ha ht hright hmem hmem' hload heffect hkept
  | wide h l => exact wide_steps ha ht hright hmem hload heffect

/-- Behind every chunk the next one is at a multiple of four again. -/
theorem chunk_length (load : Word → Word) (i : Code) (p : Word) :
    (chunk load i p).length % 2 = 0 := by
  cases i with
  | narrow h =>
    simp only [chunk, relocateInstructionInThumb16]
    split_ifs <;> simp
  | wide h l =>
    simp only [chunk, relocateInstructionInThumb32]
    split_ifs <;> simp

end Instructions

end ThumbRelocation
