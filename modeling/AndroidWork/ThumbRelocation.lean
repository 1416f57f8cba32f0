import AndroidWork.ThumbInstructions
import AndroidWork.Relocate

/-!
# What relocated Thumb instructions do

The chunks of `relocateInstructionInThumb16` and `relocateInstructionInThumb32`:
which of them do what their instruction does, and what the others do.
-/
namespace ThumbRelocation

open ArmMachine ThumbInstructions Relocate InstructionType

variable {other : Code → Core → Option Core} {load : Word → Word} {h l : Half}
    {a t : Word} {c : Core}

/-- The halfwords of one instruction are in memory. -/
abbrev InMemory (m : Memory) (a : Word) (hs : List Half) : Prop := Stored (half m) 2 a hs

section Halfwords

/-- A word as the two halfwords that are emitted for it. -/
def lowHalf (v : Word) : Half := (v &&& 0xFFFF).truncate 16
def highHalf (v : Word) : Half := (v >>> 16).truncate 16

theorem high_append_low (v : Word) : highHalf v ++ lowHalf v = v := by
  have hmask (i : Nat) (hi : i < 16) : (0xFFFF#32).getLsbD i = true := by
    revert i
    decide
  apply BitVec.eq_of_getLsbD_eq
  intro i hi
  rw [BitVec.getLsbD_append, lowHalf, highHalf, BitVec.truncate_eq_setWidth,
    BitVec.truncate_eq_setWidth,
    BitVec.getLsbD_setWidth, BitVec.getLsbD_setWidth, BitVec.getLsbD_and,
    BitVec.getLsbD_ushiftRight]
  by_cases hlow : i < 16
  · simp [hlow, hmask i hlow]
  · simp [hlow, show i - 16 < 16 by omega, show 16 + (i - 16) = i by omega]

theorem word_of_halves {m : Memory} {v : Word} (h : half m a = lowHalf v)
    (h' : half m (a + 2) = highHalf v) : word m a = v := by
  rw [word, h, h', high_append_low]

theorem alignedPc_of_aligned (h : a.toNat % 4 = 0) : alignedPc a = a + 4 := by
  apply BitVec.eq_of_toNat_eq
  rw [alignedPc, toNat_and_not_three]
  bv_omega

theorem alignedPc_of_half (h : a.toNat % 4 = 2) : alignedPc a = a + 2 := by
  apply BitVec.eq_of_toNat_eq
  rw [alignedPc, toNat_and_not_three]
  bv_omega

theorem effect_ldrPc (a : Word) (c : Core) :
    effect other (.wide 0xF8DF 0xF000) a c =
      (branchExchange (word c.mem (alignedPc a))).map (c, ·) := by
  rw [effect, show decode (.wide 0xF8DF 0xF000) = .ldrLiteral true pc 0 by decide]
  simp [perform, displaced]

theorem effect_addLr (a : Word) (c : Core) :
    effect other (.wide 0xF20F 0x0E09) a c = some (c.set lr (alignedPc a + 9), .next) := by
  rw [effect, show decode (.wide 0xF20F 0x0E09) = .adr true lr 9 by decide]
  simp [perform, displaced]

theorem effect_b (offset : Word) (hd : decode (.narrow h) = .b offset) (a : Word) (c : Core) :
    effect other (.narrow h) a c = some (c, .jump (a + 4 + offset) true) := by
  rw [effect, hd, perform]

/-- A halfword with a low register in its bits 10 to 8. -/
def withRt (h : Half) (r : BitVec 3) : Half := h ||| (r.setWidth 16 <<< 8)

theorem leads_withRt (r : BitVec 3) : leads (withRt 0x4800 r) = false := by
  revert r
  decide

theorem low_ne_pc (r : BitVec 3) : low r ≠ pc := by
  revert r
  decide

theorem low_ne_sp (r : BitVec 3) : low r ≠ sp := by
  revert r
  decide

theorem effect_ldrLiteral (r : BitVec 3) (a : Word) (c : Core) :
    effect other (.narrow (withRt 0x4800 r)) a c =
      some (c.set (low r) (word c.mem (alignedPc a)), .next) := by
  have hd : decode (.narrow (withRt 0x4800 r)) = .ldrLiteral true (low r) 0 := by
    revert r
    decide
  rw [effect, hd]
  simp [perform, displaced, low_ne_pc]

theorem effect_ldrAhead (r : BitVec 3) (a : Word) (c : Core) :
    effect other (.narrow (withRt 0x4802 r)) a c =
      some (c.set (low r) (word c.mem (alignedPc a + 8)), .next) := by
  have hd : decode (.narrow (withRt 0x4802 r)) = .ldrLiteral true (low r) 8 := by
    revert r
    decide
  rw [effect, hd]
  simp [perform, displaced, low_ne_pc]

/-- The list of one register, as PUSH and POP have it. -/
theorem listed_one (r : BitVec 3) : listed (1#8 <<< r.toNat) = [low r] := by
  revert r
  decide

theorem effect_push (r : BitVec 3) (a : Word) (c : Core) :
    effect other (.narrow (0xB400#16 ||| (1#16 <<< r.toNat))) a c =
      some ((c.store (c.reg sp - 4) (c.reg (low r))).set sp (c.reg sp - 4), .next) := by
  have hd : decode (.narrow (0xB400#16 ||| (1#16 <<< r.toNat))) = .push (1#8 <<< r.toNat) := by
    revert r
    decide
  rw [effect, hd]
  simp [perform, listed_one, storeAll]

theorem effect_pop (r : BitVec 3) (a : Word) (c : Core) :
    effect other (.narrow (0xBC00#16 ||| (1#16 <<< r.toNat))) a c =
      some ((c.set (low r) (word c.mem (c.reg sp))).set sp (c.reg sp + 4), .next) := by
  have hd : decode (.narrow (0xBC00#16 ||| (1#16 <<< r.toNat))) = .pop (1#8 <<< r.toNat) := by
    revert r
    decide
  rw [effect, hd]
  simp [perform, listed_one, loadAll]

theorem effect_nop (a : Word) (c : Core) : effect other (.narrow 0xBF00) a c = some (c, .next) := by
  rw [effect, show decode (.narrow 0xBF00) = .nop by decide, perform]

/-- A jump by way of a literal. -/
theorem jump_steps (ht : t.toNat % 4 = 0) {v : Word}
    (hmem : InMemory c.mem t [0xF8DF, 0xF000, lowHalf v, highHalf v])
    {f : Flow} (h : branchExchange v = some f) (follow : Word) :
    Steps (step other) ⟨c, t, true⟩ (land follow true (c, f)) := by
  obtain ⟨h₀, h₁, h₂, h₃, -⟩ := hmem
  have hword : word c.mem (alignedPc t) = v := by
    rw [alignedPc_of_aligned ht, show t + 4 = t + 2 + 2 by bv_omega]
    exact word_of_halves h₂ h₃
  have hload : step other ⟨c, t, true⟩ = some (land (t + 4) true (c, f)) := by
    rw [step_wide h₀ h₁ (by decide), effect_ldrPc, hword, h]
    rfl
  obtain ⟨b, thumb, rfl⟩ := branchExchange_jump h
  exact .one hload

/-- A literal that is loaded into a low register, and jumped over. -/
theorem literal_steps (ht : t.toNat % 4 = 0) {v : Word} {r : BitVec 3}
    (hmem : InMemory c.mem t [withRt 0x4800 r, 0xE001, lowHalf v, highHalf v]) :
    Steps (step other) ⟨c, t, true⟩ ⟨c.set (low r) v, t + 8, true⟩ := by
  obtain ⟨h₀, h₁, h₂, h₃, -⟩ := hmem
  have hword : word c.mem (alignedPc t) = v := by
    rw [alignedPc_of_aligned ht, show t + 4 = t + 2 + 2 by bv_omega]
    exact word_of_halves h₂ h₃
  have hnarrow := leads_withRt r
  have hload : step other ⟨c, t, true⟩ = some ⟨c.set (low r) v, t + 2, true⟩ := by
    rw [step_narrow h₀ hnarrow, effect_ldrLiteral, hword]
    rfl
  have hskip : step other ⟨c.set (low r) v, t + 2, true⟩ = some ⟨c.set (low r) v, t + 8, true⟩ := by
    rw [step_narrow (c := c.set (low r) v) h₁ (by decide), effect_b 2 (by decide),
      show t + 8 = t + 2 + 4 + 2 by bv_omega]
    rfl
  exact .next hload (.one hskip)

end Halfwords

section Given

/-- The bits looked at for a type, and what they are. -/
def narrowMask : InstructionType → Half × Half
  | b1Thumb16 => (0xF000, 0xD000)
  | b2Thumb16 => (0xF800, 0xE000)
  | bxThumb16 => (0xFFF8, 0x4778)
  | addThumb16 => (0xFF78, 0x4478)
  | movThumb16 => (0xFF78, 0x4678)
  | adrThumb16 => (0xF800, 0xA000)
  | ldrThumb16 => (0xF800, 0x4800)
  | cbThumb16 => (0xF500, 0xB100)
  | _ => (0, 0)

def wideMask : InstructionType → Word × Word
  | blxThumb32 => (0xF800D000, 0xF000C000)
  | blThumb32 => (0xF800D000, 0xF000D000)
  | b1Thumb32 => (0xF800D000, 0xF0008000)
  | b2Thumb32 => (0xF800D000, 0xF0009000)
  | adr1Thumb32 => (0xFBFF8000, 0xF2AF0000)
  | adr2Thumb32 => (0xFBFF8000, 0xF20F0000)
  | ldrThumb32 => (0xFF7F0000, 0xF85F0000)
  | tbbThumb32 => (0xFFFF00F0, 0xE8DF0000)
  | tbhThumb32 => (0xFFFF00F0, 0xE8DF0010)
  | _ => (0, 0)

theorem and_narrowMask {type : InstructionType} (h' : getTypeInThumb16 h = type) :
    h &&& (narrowMask type).1 = (narrowMask type).2 := by
  subst h'
  rw [getTypeInThumb16]
  split_ifs <;> simp_all [narrowMask]

theorem and_wideMask {w : Word} {type : InstructionType} (h : getTypeInThumb32 w = type) :
    w &&& (wideMask type).1 = (wideMask type).2 := by
  subst h
  rw [getTypeInThumb32]
  split_ifs <;> simp_all [wideMask]

/-- A part of a field is a field. -/
theorem field_ne {n lo len len' : Nat} {w : BitVec n} {v : BitVec len} {v' : BitVec len'}
    (lo' : Nat) (hlen : lo' + len' ≤ len)
    (h : field w (lo + lo') len' = v') (hne : field v lo' len' ≠ v') : field w lo len ≠ v := by
  intro heq
  apply hne
  rw [← heq, field_field w _ _ _ _ hlen, h]

theorem decode_of_bx (hd : getTypeInThumb16 h = bxThumb16) : decode (.narrow h) = .bx pc := by
  have hm := and_narrowMask hd
  have h8 : field h 8 8 = 0x47 := field_of_mask hm 8 8 (by decide)
  have h11 : field h 11 5 = 0x08 := field_of_mask hm 11 5 (by decide)
  have h12 : field h 12 4 = 4 := field_of_mask hm 12 4 (by decide)
  have h7 : field h 7 9 = 0x8E := field_of_mask hm 7 9 (by decide)
  have h3 : field h 3 4 = pc := field_of_mask hm 3 4 (by decide)
  simp [decode, decodeNarrow, h8, h11, h12, h7, h3]

/-- The destination of an addition or a move, which is also an addition's first operand. -/
def rdn (h : Half) : Reg := BitVec.ofBool (h.getLsbD 7) ++ field h 0 3

theorem decode_of_add (hd : getTypeInThumb16 h = addThumb16) :
    decode (.narrow h) = .add (rdn h) pc := by
  have hm := and_narrowMask hd
  have h8 : field h 8 8 = 0x44 := field_of_mask hm 8 8 (by decide)
  have h11 : field h 11 5 = 0x08 := field_of_mask hm 11 5 (by decide)
  have h12 : field h 12 4 = 4 := field_of_mask hm 12 4 (by decide)
  have h3 : field h 3 4 = pc := field_of_mask hm 3 4 (by decide)
  simp [decode, decodeNarrow, h8, h11, h12, h3, rdn]

theorem decode_of_mov (hd : getTypeInThumb16 h = movThumb16) :
    decode (.narrow h) = .mov (rdn h) pc := by
  have hm := and_narrowMask hd
  have h8 : field h 8 8 = 0x46 := field_of_mask hm 8 8 (by decide)
  have h11 : field h 11 5 = 0x08 := field_of_mask hm 11 5 (by decide)
  have h12 : field h 12 4 = 4 := field_of_mask hm 12 4 (by decide)
  have h3 : field h 3 4 = pc := field_of_mask hm 3 4 (by decide)
  simp [decode, decodeNarrow, h8, h11, h12, h3, rdn]

theorem decode_of_ldr (hd : getTypeInThumb16 h = ldrThumb16) :
    decode (.narrow h) = .ldrLiteral true (low (field h 8 3))
    ((field h 0 8 ++ 0#2).setWidth 32) := by
  have hm := and_narrowMask hd
  have h11 : field h 11 5 = 0x09 := field_of_mask hm 11 5 (by decide)
  have h12 : field h 12 4 = 4 := field_of_mask hm 12 4 (by decide)
  have h44 : field h 8 8 ≠ 0x44 := field_ne 3 (by decide) h11 (by decide)
  have h46 : field h 8 8 ≠ 0x46 := field_ne 3 (by decide) h11 (by decide)
  have h7 : field h 7 9 ≠ 0x8E := field_ne 4 (by decide) h11 (by decide)
  simp only [decode, decodeNarrow, h11, h12, h44, h46, h7]
  simp

theorem decode_of_cb (hd : getTypeInThumb16 h = cbThumb16) :
    decode (.narrow h) = .cb (h.getLsbD 11)
    ((BitVec.ofBool (h.getLsbD 9) ++ field h 3 5 ++ 0#1).setWidth 32)
      (low (field h 0 3)) := by
  have hm := and_narrowMask hd
  have h12 : field h 12 4 = 11 := field_of_mask hm 12 4 (by decide)
  have h11 : field h 11 5 ≠ 0x1C := field_ne 1 (by decide) h12 (by decide)
  have h10 : h.getLsbD 10 = false := bit_of_mask hm 10 (by decide)
  have h8 : h.getLsbD 8 = true := bit_of_mask hm 8 (by decide)
  simp only [decode, decodeNarrow, h12, h11, h10, h8]
  simp

theorem decode_of_b (hd : getTypeInThumb16 h = b2Thumb16) :
    decode (.narrow h) = .b ((field h 0 11 ++ 0#1).signExtend 32) := by
  have hm := and_narrowMask hd
  have h11 : field h 11 5 = 0x1C := field_of_mask hm 11 5 (by decide)
  have h12 : field h 12 4 ≠ 13 := by
    intro heq
    have hlow := field_field h 11 5 1 4 (by decide)
    rw [h11, heq] at hlow
    exact absurd hlow (by decide)
  rw [decode, decodeNarrow, if_neg (fun hcond => h12 hcond.1), if_pos h11]

theorem decode_of_bCond (hd : getTypeInThumb16 h = b1Thumb16) (hcond : field h 9 3 ≠ 7) :
    decode (.narrow h) = .bCond (field h 8 4) ((field h 0 8 ++ 0#1).signExtend 32) := by
  have h12 : field h 12 4 = 13 := field_of_mask (and_narrowMask hd) 12 4 (by decide)
  rw [decode, decodeNarrow, if_pos ⟨h12, hcond⟩]

theorem joined (h l : Half) : (h.setWidth 32 <<< 16) ||| l.setWidth 32 = h ++ l := by
  rw [← setWidth_append]
  exact BitVec.setWidth_eq _

/-- The bits of the second halfword as those of the whole instruction. -/
theorem low_bit {w : Word} (hw : h ++ l = w) {i : Nat} (hi : i < 16) :
    l.getLsbD i = w.getLsbD i := by
  rw [← hw, BitVec.getLsbD_append, if_pos hi]

theorem wide_branch {m v : Word} (hm : (h ++ l) &&& m = v) (hh : field m 27 5 = BitVec.allOnes 5)
    (hh' : field v 27 5 = 0x1E)
    (hb : m.getLsbD 15 = true) (hb' : v.getLsbD 15 = true) :
    field h 11 5 = 0x1E ∧ l.getLsbD 15 = true := by
  constructor
  · rw [← field_append_high h l 11 5, field_of_mask hm 27 5 hh, hh']
  · rw [low_bit rfl (by decide), bit_of_mask hm 15 hb, hb']

theorem decode_of_bl (hd : getTypeInThumb32 (h ++ l) = blThumb32) :
    decode (.wide h l) = .bl (farOffset h l) := by
  have hm := and_wideMask hd
  have h14 : l.getLsbD 14 = true := by
    rw [low_bit rfl (by decide), bit_of_mask hm 14 (by decide)]; rfl
  have h12 : l.getLsbD 12 = true := by
    rw [low_bit rfl (by decide), bit_of_mask hm 12 (by decide)]; rfl
  simp only [decode, decodeWide, if_pos
    (wide_branch hm (by decide) (by decide) (by decide) (by decide)), h14, h12, if_true]

theorem decode_of_blx (hd : getTypeInThumb32 (h ++ l) = blxThumb32) (hl : l.getLsbD 0 = false) :
    decode (.wide h l) = .blx (farOffset h l) := by
  have hm := and_wideMask hd
  have h14 : l.getLsbD 14 = true := by
    rw [low_bit rfl (by decide), bit_of_mask hm 14 (by decide)]; rfl
  have h12 : l.getLsbD 12 = false := by
    rw [low_bit rfl (by decide), bit_of_mask hm 12 (by decide)]; rfl
  simp only [decode, decodeWide, if_pos
    (wide_branch hm (by decide) (by decide) (by decide) (by decide)), h14, h12, hl, if_true,
    Bool.false_eq_true, if_false]

theorem decode_of_bw (hd : getTypeInThumb32 (h ++ l) = b2Thumb32) :
    decode (.wide h l) = .b (farOffset h l) := by
  have hm := and_wideMask hd
  have h14 : l.getLsbD 14 = false := by
    rw [low_bit rfl (by decide), bit_of_mask hm 14 (by decide)]; rfl
  have h12 : l.getLsbD 12 = true := by
    rw [low_bit rfl (by decide), bit_of_mask hm 12 (by decide)]; rfl
  simp only [decode, decodeWide, if_pos
    (wide_branch hm (by decide) (by decide) (by decide) (by decide)), h14, h12, if_true,
    Bool.false_eq_true, if_false]

theorem decode_of_bCondW (hd : getTypeInThumb32 (h ++ l) = b1Thumb32) (hcond : field h 7 3 ≠ 7) :
    decode (.wide h l) = .bCond (field h 6 4) (nearOffset h l) := by
  have hm := and_wideMask hd
  have h14 : l.getLsbD 14 = false := by
    rw [low_bit rfl (by decide), bit_of_mask hm 14 (by decide)]; rfl
  have h12 : l.getLsbD 12 = false := by
    rw [low_bit rfl (by decide), bit_of_mask hm 12 (by decide)]; rfl
  simp only [decode, decodeWide, if_pos
    (wide_branch hm (by decide) (by decide) (by decide) (by decide)), h14, h12,
    Bool.false_eq_true, if_false, if_neg hcond]

theorem decode_of_ldrW (hd : getTypeInThumb32 (h ++ l) = ldrThumb32) :
    decode (.wide h l) = .ldrLiteral (h.getLsbD 7) (field l 12 4) ((field l 0 12).setWidth 32) := by
  have hm := and_wideMask hd
  have hh : h &&& 0xFF7F = 0xF85F := by
    have hself : field (h ++ l) 16 16 = h :=
      (field_append_high h l 0 16).trans BitVec.extractLsb'_eq_self
    rw [← hself, field, show (0xFF7F : Half) =
      field 0xFF7F0000#32 16 16 by decide, field, ← BitVec.extractLsb'_and]
    exact congrArg (fun w => field w 16 16) hm
  have h11 : field h 11 5 = 0x1F := field_of_mask hh 11 5 (by decide)
  have hbranch : ¬ (field h 11 5 = 0x1E ∧ l.getLsbD 15 = true) := by
    rw [h11]
    exact fun hcontra => absurd hcontra.1 (by decide)
  simp only [decode, decodeWide, if_neg hbranch, if_pos hh]

end Given

section Emitted

theorem rdn_eq (h : Half) :
    ((h.setWidth 32 &&& 0x80#32) >>> 4) ||| (h.setWidth 32 &&& 0x7#32) = (rdn h).setWidth 32 := by
  have hbit : (h.setWidth 32 &&& 0x80#32) >>> 4 =
      (BitVec.ofBool (h.getLsbD 7)).setWidth 32 <<< 3 := by
    rw [show 0x80#32 = BitVec.twoPow 32 7 from rfl, BitVec.and_twoPow, BitVec.getLsbD_setWidth]
    cases h.getLsbD 7 <;> rfl
  rw [rdn, setWidth_append, hbit, and_eq_field (m := 0x7#32) 3 (by decide),
    field_setWidth h (by decide)]

theorem cb_offset (h : Half) : ((h.setWidth 32 &&& 0x200#32) >>> 3) |||
    ((h.setWidth 32 &&& 0xF8#32) >>> 2) =
    (BitVec.ofBool (h.getLsbD 9) ++ field h 3 5 ++ 0#1).setWidth 32 := by
  have hbit : (h.setWidth 32 &&& 0x200#32) >>> 3 =
      (BitVec.ofBool (h.getLsbD 9)).setWidth 32 <<< 6 := by
    rw [show 0x200#32 = BitVec.twoPow 32 9 from rfl, BitVec.and_twoPow, BitVec.getLsbD_setWidth]
    cases h.getLsbD 9 <;> rfl
  have himm : (h.setWidth 32 &&& 0xF8#32) >>> 2 = (field h 3 5).setWidth 32 <<< 1 := by
    rw [← field_setWidth h (show 3 + 5 ≤ 32 by decide),
      ← and_shift_eq_field (m := 0xF8#32) 3 5 (by decide)]
    apply BitVec.eq_of_getLsbD_eq
    intro i hi
    simp only [BitVec.getLsbD_ushiftRight, BitVec.getLsbD_shiftLeft, BitVec.getLsbD_and]
    cases i with
    | zero => simp
    | succ i => simp [hi, show 2 + (i + 1) = 3 + i by omega]
  rw [setWidth_append, setWidth_append, hbit, himm, BitVec.shiftLeft_or_distrib,
    ← BitVec.shiftLeft_add, BitVec.setWidth_zero,
    BitVec.or_zero]

theorem emitted_bx (hd : getTypeInThumb16 h = bxThumb16) (p : Word) :
    relocateInstructionInThumb16 load p h = [0xF8DF, 0xF000, lowHalf p, highHalf p] := by
  simp [relocateInstructionInThumb16, hd, lowHalf, highHalf]

theorem emitted_mov (hd : getTypeInThumb16 h = movThumb16) (p : Word) :
    relocateInstructionInThumb16 load p h =
      [withRt 0x4800 (field h 0 3), 0xE001, lowHalf p, highHalf p] := by
  have hr : h &&& 0x7 = (field h 0 3).setWidth 16 := and_eq_field 3 (by decide)
  simp only [relocateInstructionInThumb16, hd, hr, withRt]
  simp [lowHalf, highHalf]

theorem emitted_ldr (hd : getTypeInThumb16 h = ldrThumb16) (p : Word) :
    relocateInstructionInThumb16 load p h = [withRt 0x4800 (field h 8 3), 0xE001,
      lowHalf (load (ALIGN_PC p + (field h 0 8 ++ 0#2).setWidth 32)),
        highHalf (load (ALIGN_PC p + (field h 0 8 ++ 0#2).setWidth 32))] := by
  have hr : (h &&& 0x700) >>> 8 = (field h 8 3).setWidth 16 := and_shift_eq_field 8 3 (by decide)
  have himm : (h.setWidth 32 &&& 0xFF) <<< 2 = (field h 0 8 ++ 0#2).setWidth 32 := by
    rw [setWidth_append, and_eq_field 8 (by decide), field_setWidth h (by decide),
      BitVec.setWidth_zero, BitVec.or_zero]
  simp only [relocateInstructionInThumb16, hd, hr, himm, withRt]
  simp [lowHalf, highHalf]

theorem emitted_cb (hd : getTypeInThumb16 h = cbThumb16) (p : Word) :
    relocateInstructionInThumb16 load p h = [h &&& 0xFD07, 0xE003, 0xF8DF, 0xF000,
      lowHalf (p + (BitVec.ofBool (h.getLsbD 9) ++ field h 3 5 ++ 0#1).setWidth 32 + 1),
      highHalf (p + (BitVec.ofBool (h.getLsbD 9) ++ field h 3 5 ++ 0#1).setWidth 32 + 1)] := by
  rw [← cb_offset]
  simp [relocateInstructionInThumb16, hd, lowHalf, highHalf]

theorem emitted_b (hd : getTypeInThumb16 h = b2Thumb16) (p : Word) :
    relocateInstructionInThumb16 load p h = [0xF8DF, 0xF000,
      lowHalf (p + (field h 0 11 ++ 0#1).signExtend 32),
        highHalf (p + (field h 0 11 ++ 0#1).signExtend 32)] := by
  have himm : (h.setWidth 32 &&& 0x7FF) <<< 1 = (field h 0 11 ++ 0#1).setWidth 32 := by
    rw [setWidth_append, and_eq_field 11 (by decide), field_setWidth h (by decide),
      BitVec.setWidth_zero, BitVec.or_zero]
  have hsign := signExtend_of_or (k := 11) (field h 0 11 ++ 0#1) (by decide) (by decide)
    (by decide) (by decide)
  rw [← hsign]
  simp only [relocateInstructionInThumb16, hd, himm]
  simp [lowHalf, highHalf]

theorem emitted_bCond (hd : getTypeInThumb16 h = b1Thumb16) (p : Word) :
    relocateInstructionInThumb16 load p h = [h &&& 0xFF00, 0xE003, 0xF8DF, 0xF000,
      lowHalf (p + (field h 0 8 ++ 0#1).signExtend 32),
        highHalf (p + (field h 0 8 ++ 0#1).signExtend 32)] := by
  have himm : (h.setWidth 32 &&& 0xFF) <<< 1 = (field h 0 8 ++ 0#1).setWidth 32 := by
    rw [setWidth_append, and_eq_field 8 (by decide), field_setWidth h (by decide),
      BitVec.setWidth_zero, BitVec.or_zero]
  have hsign := signExtend_of_or (k := 8) (field h 0 8 ++ 0#1) (by decide) (by decide)
    (by decide) (by decide)
  rw [← hsign]
  simp only [relocateInstructionInThumb16, hd, himm]
  simp [lowHalf, highHalf]

theorem emitted_undefine (hd : getTypeInThumb16 h = undefine) (p : Word) :
    relocateInstructionInThumb16 load p h = [h, 0xBF00] := by
  simp [relocateInstructionInThumb16, hd]

/-- One bit of an instruction, as it is taken out of it. -/
theorem bit_eq (h : Half) {m : Word} (k : Nat) (hk : k < 32) (hm : m = BitVec.twoPow 32 k) :
    (h.setWidth 32 &&& m) >>> k = (BitVec.ofBool (h.getLsbD k)).setWidth 32 := by
  rw [hm, BitVec.and_twoPow, BitVec.getLsbD_setWidth, decide_eq_true hk, Bool.true_and]
  cases h.getLsbD k with
  | false => simp
  | true =>
    apply BitVec.eq_of_getLsbD_eq
    intro i hi
    simp only [if_true, BitVec.getLsbD_ushiftRight, BitVec.getLsbD_twoPow, hk,
      decide_true, Bool.true_and]
    cases i with
    | zero => simp
    | succ i => simp

theorem inverted_eq (x y : Bool) :
    (if (BitVec.ofBool x).setWidth 32 ^^^ (BitVec.ofBool y).setWidth 32 = 0 then 1 else 0) =
      (BitVec.ofBool (x == y)).setWidth 32 := by
  revert x y
  decide

theorem msb_append_left {n k : Nat} (v : BitVec n) (v' : BitVec k) (hn : n ≠ 0) :
    (v ++ v').msb = v.msb := by
  rw [BitVec.msb_append, if_neg hn]

theorem msb_ofBool (b : Bool) : (BitVec.ofBool b).msb = b := by cases b <;> rfl

theorem s_eq (h : Half) : (h.setWidth 32 &&& 0x400) >>> 10 =
    (BitVec.ofBool (h.getLsbD 10)).setWidth 32 :=
  bit_eq h 10 (by decide) rfl

theorem j1_eq (l : Half) : (l.setWidth 32 &&& 0x2000) >>> 13 =
    (BitVec.ofBool (l.getLsbD 13)).setWidth 32 :=
  bit_eq l 13 (by decide) rfl

theorem j2_eq (l : Half) : (l.setWidth 32 &&& 0x800) >>> 11 =
    (BitVec.ofBool (l.getLsbD 11)).setWidth 32 :=
  bit_eq l 11 (by decide) rfl

theorem low11_eq (l : Half) : l.setWidth 32 &&& 0x7FF = (field l 0 11).setWidth 32 := by
  rw [and_eq_field 11 (by decide), field_setWidth l (by decide)]

/-- Bit 0 of BLX is clear, and not among those that are taken. -/
theorem low11_of_even (hl : l.getLsbD 0 = false) :
    l.setWidth 32 &&& 0x7FE = l.setWidth 32 &&& 0x7FF := by
  apply BitVec.eq_of_getLsbD_eq
  intro i hi
  simp only [BitVec.getLsbD_and, BitVec.getLsbD_setWidth]
  cases i with
  | zero => rw [hl, Bool.and_false, Bool.false_and, Bool.false_and]
  | succ i =>
    have hmask (i : Nat) (hi : i < 31) :
        (0x7FE : Word).getLsbD (i + 1) = (0x7FF : Word).getLsbD (i + 1) := by
      revert i
      decide
    rw [hmask i (by omega)]

theorem farOffset_eq (h l : Half) :
    (let s : Word := (BitVec.ofBool (h.getLsbD 10)).setWidth 32
     let x := (s <<< 24) ||| ((BitVec.ofBool (l.getLsbD 13 == h.getLsbD 10)).setWidth 32 <<< 23) |||
       ((BitVec.ofBool (l.getLsbD 11 == h.getLsbD 10)).setWidth 32 <<< 22) |||
         ((field h 0 10).setWidth 32 <<< 12) |||
       ((field l 0 11).setWidth 32 <<< 1)
     if s ≠ 0 then x ||| (0xFFFFFFFF#32 <<< 25) else x) = farOffset h l := by
  have hsign := signExtend_of_sign (k := 25)
    (BitVec.ofBool (h.getLsbD 10) ++ BitVec.ofBool (l.getLsbD 13 == h.getLsbD 10) ++
    BitVec.ofBool (l.getLsbD 11 == h.getLsbD 10) ++ field h 0 10 ++ field l 0 11 ++ 0#1) (by decide)
      (by decide) (by decide)
  simp only [msb_append_left _ _ (show 1 ≠ 0 by decide), msb_append_left _ _ (Nat.succ_ne_zero _),
    msb_ofBool] at hsign
  rw [farOffset, ← hsign]
  simp only [setWidth_append, BitVec.shiftLeft_or_distrib, ← BitVec.shiftLeft_add,
    BitVec.setWidth_zero, BitVec.or_zero]
  rfl

theorem nearOffset_eq (h l : Half) :
    (let s : Word := (BitVec.ofBool (h.getLsbD 10)).setWidth 32
     let x := (s <<< 20) ||| ((BitVec.ofBool (l.getLsbD 11)).setWidth 32 <<< 19) |||
       ((BitVec.ofBool (l.getLsbD 13)).setWidth 32 <<< 18) |||
         ((field h 0 6).setWidth 32 <<< 12) |||
       ((field l 0 11).setWidth 32 <<< 1)
     if s ≠ 0 then x ||| (0xFFFFFFFF#32 <<< 21) else x) = nearOffset h l := by
  have hsign :=
    signExtend_of_sign (k := 21) (BitVec.ofBool (h.getLsbD 10) ++ BitVec.ofBool (l.getLsbD 11) ++
    BitVec.ofBool (l.getLsbD 13) ++ field h 0 6 ++ field l 0 11 ++ 0#1) (by decide)
      (by decide) (by decide)
  simp only [msb_append_left _ _ (show 1 ≠ 0 by decide), msb_append_left _ _ (Nat.succ_ne_zero _),
    msb_ofBool] at hsign
  rw [nearOffset, ← hsign]
  simp only [setWidth_append, BitVec.shiftLeft_or_distrib, ← BitVec.shiftLeft_add,
    BitVec.setWidth_zero, BitVec.or_zero]
  rfl

theorem high10_eq (h : Half) : h.setWidth 32 &&& 0x3FF = (field h 0 10).setWidth 32 := by
  rw [and_eq_field 10 (by decide), field_setWidth h (by decide)]

theorem high6_eq (h : Half) : h.setWidth 32 &&& 0x3F = (field h 0 6).setWidth 32 := by
  rw [and_eq_field 6 (by decide), field_setWidth h (by decide)]

theorem emitted_bl (hd : getTypeInThumb32 (h ++ l) = blThumb32) (p : Word) :
    relocateInstructionInThumb32 load p h l =
      [0xF20F, 0x0E09, 0xF8DF, 0xF000, lowHalf (p + farOffset h l + 1),
        highHalf (p + farOffset h l + 1)] := by
  simp only [relocateInstructionInThumb32, joined, hd, s_eq, j1_eq, j2_eq, inverted_eq, high10_eq,
    low11_eq, ← farOffset_eq]
  simp [lowHalf, highHalf]

theorem emitted_bw (hd : getTypeInThumb32 (h ++ l) = b2Thumb32) (p : Word) :
    relocateInstructionInThumb32 load p h l =
      [0xF8DF, 0xF000, lowHalf (p + farOffset h l + 1), highHalf (p + farOffset h l + 1)] := by
  simp only [relocateInstructionInThumb32, joined, hd, s_eq, j1_eq, j2_eq, inverted_eq, high10_eq,
    low11_eq, ← farOffset_eq]
  simp [lowHalf, highHalf]

theorem emitted_blx (hd : getTypeInThumb32 (h ++ l) = blxThumb32)
    (hl : l.getLsbD 0 = false) (p : Word) :
    relocateInstructionInThumb32 load p h l =
      [0xF20F, 0x0E09, 0xF8DF, 0xF000, lowHalf (p + farOffset h l),
        highHalf (p + farOffset h l)] := by
  simp only [relocateInstructionInThumb32, joined, hd, s_eq, j1_eq, j2_eq, inverted_eq, high10_eq,
    low11_of_even hl, low11_eq,
    ← farOffset_eq]
  simp [lowHalf, highHalf]

/-- A conditional branch that goes ahead by four. -/
def withCond (cond : BitVec 4) : Half := 0xD000#16 ||| (cond.setWidth 16 <<< 8)

theorem cond_eq (h : Half) : (h &&& 0x3C0) <<< 2 = (field h 6 4).setWidth 16 <<< 8 := by
  have hmask (i : Nat) (hi : i < 16) : (0x3C0 : Half).getLsbD i = decide (6 ≤ i ∧ i < 6 + 4) := by
    revert i
    decide
  rw [← and_shift_eq_field 6 4 hmask]
  apply BitVec.eq_of_getLsbD_eq
  intro i hi
  simp only [BitVec.getLsbD_ushiftRight, BitVec.getLsbD_shiftLeft, BitVec.getLsbD_and, hi,
    decide_true, Bool.true_and]
  by_cases h8 : i < 8
  · simp only [hmask (i - 2) (by omega),
      show ¬ (6 ≤ i - 2 ∧ i - 2 < 6 + 4) by omega, h8, decide_false, decide_true, Bool.and_false,
      Bool.not_true, Bool.false_and]
  · rw [decide_eq_false h8, decide_eq_false (by omega), show 6 + (i - 8) = i - 2 by omega]

theorem emitted_bCondW (hd : getTypeInThumb32 (h ++ l) = b1Thumb32) (p : Word) :
    relocateInstructionInThumb32 load p h l = [withCond (field h 6 4), 0xE003, 0xF8DF, 0xF000,
      lowHalf (p + nearOffset h l + 1), highHalf (p + nearOffset h l + 1)] := by
  simp only [relocateInstructionInThumb32, joined, hd, s_eq, j1_eq, j2_eq, high6_eq, low11_eq,
    cond_eq, withCond, ← nearOffset_eq]
  simp [lowHalf, highHalf]

theorem emitted_ldrW (hd : getTypeInThumb32 (h ++ l) = ldrThumb32)
    (hr : l.getLsbD 15 = false) (p : Word) :
    relocateInstructionInThumb32 load p h l = [withRt 0x4800 (field l 12 3), 0xE001,
      lowHalf (load (displaced (h.getLsbD 7) (ALIGN_PC p) ((field l 0 12).setWidth 32))),
      highHalf (load (displaced (h.getLsbD 7) (ALIGN_PC p) ((field l 0 12).setWidth 32)))] := by
  have hadd : (h.setWidth 32 &&& 0x80) >>> 7 = (BitVec.ofBool (h.getLsbD 7)).setWidth 32 :=
    bit_eq h 7 (by decide) rfl
  have himm : l.setWidth 32 &&& 0xFFF = (field l 0 12).setWidth 32 := by
    rw [and_eq_field 12 (by decide), field_setWidth l (by decide)]
  have hrt : l >>> 12 = (field l 12 3).setWidth 16 := by
    apply BitVec.eq_of_getLsbD_eq
    intro i hi
    rw [BitVec.getLsbD_ushiftRight, BitVec.getLsbD_setWidth]
    by_cases h3 : i < 3
    · rw [getLsbD_field _ _ _ h3, decide_eq_true hi, Bool.true_and]
    · rw [BitVec.getLsbD_of_ge (field l 12 3) i (by omega), Bool.and_false]
      by_cases h4 : i = 3
      · rw [h4, hr]
      · exact BitVec.getLsbD_of_ge l _ (by omega)
  simp only [relocateInstructionInThumb32, joined, hd, hadd, himm, hrt, withRt]
  cases h.getLsbD 7 <;> simp [lowHalf, highHalf, displaced]

theorem emitted_undefineW (hd : getTypeInThumb32 (h ++ l) = undefine) (p : Word) :
    relocateInstructionInThumb32 load p h l = [h, l] := by
  simp [relocateInstructionInThumb32, joined, hd]

end Emitted

end ThumbRelocation
