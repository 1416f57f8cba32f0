import AndroidWork.ArmInstructions
import AndroidWork.Relocate

/-!
# What relocated ARM instructions do

The chunk that `relocateInArm` emits for an instruction does, wherever it
stands, what the instruction does at its own address, if the condition of a
branch, an ADR, a load or a move is left out of account: the chunk has none.
-/
namespace ArmRelocation

open ArmMachine ArmInstructions Relocate InstructionType

variable {other : Word → Core → Option Core} {load : Word → Word} {w a t : Word} {c : Core}

/-- The words of one instruction are in memory. -/
abbrev InMemory (m : Memory) (a : Word) (ws : List Word) : Prop := Stored (word m) 4 a ws

section Words

theorem effect_ldrPc (a : Word) (c : Core) :
    effect other 0xE51FF004 a c = (branchExchange (word c.mem (a + 4))).map (c, ·) := by
  have haddr : a + 8#32 - 4#32 = a + 4#32 := by bv_omega
  rw [effect_always (.inl (by decide)), show decode 0xE51FF004 =
    .ldr ⟨true, false, false⟩ pc pc 4 by decide]
  simp [perform, Indexing.writesBack, Indexing.offset, write, haddr]

theorem effect_addLr (a : Word) (c : Core) :
    effect other 0xE28FE004 a c = some (c.set lr (a + 12), .next) := by
  have haddr : a + 8#32 + 4#32 = a + 12#32 := by bv_omega
  rw [effect_always (.inl (by decide)), show decode 0xE28FE004 =
    .data 4 false pc lr (.imm 4) by decide]
  simp [perform, compares, alu, arith, addWithCarry, operand, write, haddr]

theorem effect_addPc (h : a.toNat % 4 = 0) (c : Core) :
    effect other 0xE28FF000 a c = some (c, .jump (a + 8) false) := by
  have haligned : (a + 8).toNat % 4 = 0 := by bv_omega
  rw [effect_always (.inl (by decide)), show decode 0xE28FF000 =
    .data 4 false pc pc (.imm 0) by decide]
  simp [perform, compares, alu, arith, addWithCarry, operand, write]
  exact branchExchange_of_aligned haligned

/-- A word with a register in its bits 15 to 12. -/
def withRd (w : Word) (r : Reg) : Word := w ||| (r.setWidth 32 <<< 12)

theorem effect_ldrLiteral (r : Reg) (a : Word) (c : Core) :
    effect other (withRd 0xE51F0000 r) a c = write c r (word c.mem (a + 8)) := by
  have h : field (withRd 0xE51F0000 r) 28 4 = 14 ∧ decode (withRd 0xE51F0000 r) =
      .ldr ⟨true, false, false⟩ pc r 0 := by
    revert r
    decide
  rw [effect_always (.inl h.1), h.2]
  simp [perform, Indexing.writesBack, Indexing.offset]

theorem effect_ldrAhead (r : Reg) (a : Word) (c : Core) :
    effect other (withRd 0xE59F0008 r) a c = write c r (word c.mem (a + 16)) := by
  have haddr : a + 8#32 + 8#32 = a + 16#32 := by bv_omega
  have h : field (withRd 0xE59F0008 r) 28 4 = 14 ∧ decode (withRd 0xE59F0008 r) =
      .ldr ⟨true, true, false⟩ pc r 8 := by
    revert r
    decide
  rw [effect_always (.inl h.1), h.2]
  simp [perform, Indexing.writesBack, Indexing.offset, haddr]

theorem effect_push {r : Reg} (hsp : r ≠ sp) (hpc : r ≠ pc) (a : Word) (c : Core) :
    effect other (withRd 0xE52D0004 r) a c =
      some ((c.store (c.reg sp - 4) (c.reg r)).set sp (c.reg sp - 4), .next) := by
  have h : field (withRd 0xE52D0004 r) 28 4 = 14 ∧ decode (withRd 0xE52D0004 r) =
      .str ⟨true, false, true⟩ sp r 4 := by
    revert r
    decide
  rw [effect_always (.inl h.1), h.2]
  simp [perform, Indexing.writesBack, Indexing.offset, Core.read_of_ne, hpc, hsp.symm]

theorem effect_pop {r : Reg} (hsp : r ≠ sp) (a : Word) (c : Core) :
    effect other (withRd 0xE49D0004 r) a c =
      write (c.set sp (c.reg sp + 4)) r (word c.mem (c.reg sp)) := by
  have h : field (withRd 0xE49D0004 r) 28 4 = 14 ∧ decode (withRd 0xE49D0004 r) =
      .ldr ⟨false, true, false⟩ sp r 4 := by
    revert r
    decide
  rw [effect_always (.inl h.1), h.2]
  simp [perform, Indexing.writesBack, Indexing.offset, Core.read_of_ne, hsp.symm]

end Words

/-- The instruction without its condition. -/
def always (w : Word) : Word := (w &&& 0x0FFFFFFF#32) ||| 0xE0000000#32

/-- What is emitted for a branch, an ADR, a load or a move has no condition. An
addition keeps its own, and so does what is copied as it is. -/
def unconditional (w : Word) : Word :=
  if getTypeInArm w = undefine ∨ getTypeInArm w = addArm ∨
    getTypeInArm w = blxArm then w else always w

section Given

theorem getLsbD_always {i : Nat} (h : i < 28) : (always w).getLsbD i = w.getLsbD i := by
  have hlow : (0x0FFFFFFF#32).getLsbD i = true := by
    revert i
    decide
  have hhigh : (0xE0000000#32).getLsbD i = false := by
    revert i
    decide
  rw [always, BitVec.getLsbD_or, BitVec.getLsbD_and, hlow, hhigh, Bool.and_true, Bool.or_false]

theorem field_always {lo len : Nat} (h : lo + len ≤ 28) :
    field (always w) lo len = field w lo len := by
  apply BitVec.eq_of_getLsbD_eq
  intro i hi
  rw [getLsbD_field _ _ _ hi, getLsbD_field _ _ _ hi, getLsbD_always (by omega)]

theorem field_always_cond : field (always w) 28 4 = 14 := by
  apply BitVec.eq_of_getLsbD_eq
  intro i hi
  rw [getLsbD_field _ _ _ hi, always, BitVec.getLsbD_or, BitVec.getLsbD_and]
  interval_cases i <;> simp

theorem always_cond_ne : field (always w) 28 4 ≠ 15 := by
  rw [field_always_cond]
  decide

/-- The bits looked at for a type, and what they are. -/
def maskOf : InstructionType → Word × Word
  | blxArm => (0xFE000000, 0xFA000000)
  | blArm => (0xF000000, 0xB000000)
  | bArm => (0xF000000, 0xA000000)
  | bxArm => (0xFF000FF, 0x120001F)
  | addArm => (0xFEF0010, 0x8F0000)
  | adr1Arm => (0xFFF0000, 0x28F0000)
  | adr2Arm => (0xFFF0000, 0x24F0000)
  | ldrArm => (0xE5F0000, 0x41F0000)
  | movArm => (0xFE00FFF, 0x1A0000F)
  | _ => (0, 0)

theorem and_maskOf {type : InstructionType} (h : getTypeInArm w = type) :
    w &&& (maskOf type).1 = (maskOf type).2 := by
  subst h
  rw [getTypeInArm]
  split_ifs <;> simp_all [maskOf]

theorem decode_of_blx (h : getTypeInArm w = blxArm) :
    decode w = .blx (w.getLsbD 24) (field w 0 24) :=
  decode_blx (field_of_mask (and_maskOf h) 28 4 (by decide))
    (field_of_mask (and_maskOf h) 25 3 (by decide))

theorem decode_of_bl (h : getTypeInArm w = blArm) : decode (always w) = .bl (field w 0 24) := by
  rw [decode_bl always_cond_ne, field_always (by decide)]
  · rw [field_always (by decide)]
    exact field_of_mask (and_maskOf h) 25 3 (by decide)
  · rw [getLsbD_always (by decide)]
    exact bit_of_mask (and_maskOf h) 24 (by decide)

theorem decode_of_b (h : getTypeInArm w = bArm) : decode (always w) = .b (field w 0 24) := by
  rw [decode_b always_cond_ne, field_always (by decide)]
  · rw [field_always (by decide)]
    exact field_of_mask (and_maskOf h) 25 3 (by decide)
  · rw [getLsbD_always (by decide)]
    exact bit_of_mask (and_maskOf h) 24 (by decide)

theorem decode_of_bx (h : getTypeInArm w = bxArm) : decode (always w) = .bx pc := by
  rw [decode_bx always_cond_ne, field_always (by decide),
    field_of_mask (and_maskOf h) 0 4 (by decide)]
  · rfl
  · rw [field_always (by decide)]
    exact field_of_mask (and_maskOf h) 20 8 (by decide)
  · rw [field_always (by decide)]
    exact field_of_mask (and_maskOf h) 4 4 (by decide)

theorem decode_of_adr {type : InstructionType} (h : getTypeInArm w = type)
    (htype : type = adr1Arm ∨ type = adr2Arm) :
    decode (always w) = .data (if type = adr1Arm then 4 else 2) false pc (field w 12 4)
    (.imm (field w 0 12)) := by
  have hm := and_maskOf h
  have hop : field w 21 4 = if type = adr1Arm then 4 else 2 := by
    obtain rfl | rfl := htype
    · exact field_of_mask hm 21 4 (by decide)
    · exact field_of_mask hm 21 4 (by decide)
  have hclass : field w 25 3 = 1 := by
    obtain rfl | rfl := htype
    · exact field_of_mask hm 25 3 (by decide)
    · exact field_of_mask hm 25 3 (by decide)
  have hs : w.getLsbD 20 = false := by
    obtain rfl | rfl := htype
    · exact bit_of_mask hm 20 (by decide)
    · exact bit_of_mask hm 20 (by decide)
  have hrn : field w 16 4 = pc := by
    obtain rfl | rfl := htype
    · exact field_of_mask hm 16 4 (by decide)
    · exact field_of_mask hm 16 4 (by decide)
  have hcompares : compares (field w 21 4) = false := by
    rw [hop]
    split <;> rfl
  rw [decode_data_imm always_cond_ne (by rwa [field_always (by decide)])
    (by rwa [field_always (by decide)])]
  simp only [field_always (show 21 + 4 ≤ 28 by decide), field_always (show 16 + 4 ≤ 28 by decide),
    field_always (show 12 + 4 ≤ 28 by decide), field_always (show 0 + 12 ≤ 28 by decide),
    getLsbD_always (show 20 < 28 by decide), hop, hs, hrn]

theorem decode_of_ldr (h : getTypeInArm w = ldrArm) :
    decode (always w) = .ldr ⟨w.getLsbD 24, w.getLsbD 23, w.getLsbD 21⟩ pc (field w 12 4)
    (field w 0 12) := by
  have hm := and_maskOf h
  have hrn : field w 16 4 = pc := field_of_mask hm 16 4 (by decide)
  rw [decode_ldr always_cond_ne]
  · simp only [field_always (show 16 + 4 ≤ 28 by decide), field_always (show 12 + 4 ≤ 28 by decide),
      field_always (show 0 + 12 ≤ 28 by decide), getLsbD_always (show 24 < 28 by decide),
      getLsbD_always (show 23 < 28 by decide), getLsbD_always (show 21 < 28 by decide), hrn]
  · rw [field_always (by decide)]
    exact field_of_mask hm 25 3 (by decide)
  · rw [getLsbD_always (by decide)]
    exact bit_of_mask hm 22 (by decide)
  · rw [getLsbD_always (by decide)]
    exact bit_of_mask hm 20 (by decide)

theorem decode_of_mov (h : getTypeInArm w = movArm) :
    decode (always w) = .data 13 (w.getLsbD 20) (field w 16 4) (field w 12 4)
    (.shifted pc 0 0) := by
  have hm := and_maskOf h
  have hop : field w 21 4 = 13 := field_of_mask hm 21 4 (by decide)
  have hrm : field w 0 4 = pc := field_of_mask hm 0 4 (by decide)
  have htype : field w 5 2 = 0 := field_of_mask hm 5 2 (by decide)
  have himm5 : field w 7 5 = 0 := field_of_mask hm 7 5 (by decide)
  rw [decode_data_reg always_cond_ne]
  · simp only [field_always (show 21 + 4 ≤ 28 by decide), field_always (show 16 + 4 ≤ 28 by decide),
      field_always (show 12 + 4 ≤ 28 by decide), field_always (show 0 + 4 ≤ 28 by decide),
      field_always (show 5 + 2 ≤ 28 by decide), field_always (show 7 + 5 ≤ 28 by decide),
      getLsbD_always (show 20 < 28 by decide), hop, hrm, htype, himm5]
  · rw [field_always (by decide)]
    exact field_of_mask hm 25 3 (by decide)
  · rw [getLsbD_always (by decide)]
    exact bit_of_mask hm 4 (by decide)
  · rw [field_always (by decide), hop]
    rfl

theorem decode_of_add (h : getTypeInArm w = addArm) (hcond : field w 28 4 ≠ 15) :
    decode w = .data 4 (w.getLsbD 20) pc (field w 12 4)
    (.shifted (field w 0 4) (field w 5 2) (field w 7 5)) := by
  have hm := and_maskOf h
  have hop : field w 21 4 = 4 := field_of_mask hm 21 4 (by decide)
  have hrn : field w 16 4 = pc := field_of_mask hm 16 4 (by decide)
  rw [decode_data_reg hcond (field_of_mask hm 25 3 (by decide))
    (bit_of_mask hm 4 (by decide)), hop, hrn]
  rw [hop]
  rfl

end Given

/-- The address a load from the literal pool reads. -/
def literal (p w : Word) : Word := if w.getLsbD 23 then p + (w &&& 0xFFF) else p - (w &&& 0xFFF)

section Emitted

theorem and_FFFFFF (w : Word) : w &&& 0xFFFFFF = (field w 0 24).setWidth 32 :=
  and_eq_field 24 (by decide)

theorem shiftLeft_two (v : BitVec 24) : v.setWidth 32 <<< 2 = (v ++ 0#2).setWidth 32 := by
  rw [setWidth_append, BitVec.setWidth_zero, BitVec.or_zero]

theorem bit_24 (w : Word) : (w &&& 0x1000000) >>> 23 =
    (BitVec.ofBool (w.getLsbD 24) ++ 0#1).setWidth 32 := by
  rw [show (0x1000000 : Word) = BitVec.twoPow 32 24 from rfl, BitVec.and_twoPow]
  cases w.getLsbD 24
  · rfl
  · rfl

theorem bit_23 (w : Word) : (w &&& 0x800000) >>> 23 ≠ 0 ↔ w.getLsbD 23 = true := by
  rw [show (0x800000 : Word) = BitVec.twoPow 32 23 from rfl, BitVec.and_twoPow]
  cases w.getLsbD 23 <;> decide

theorem rd_eq (w : Word) : (w &&& 0xF000) >>> 12 = (field w 12 4).setWidth 32 :=
  and_shift_eq_field 12 4 (by decide)

theorem signExtend_eq_branchOffset (v : BitVec 24) (l : BitVec 2) :
    (if (v ++ l).setWidth 32 >>> 25 ≠ 0 then
      (v ++ l).setWidth 32 ||| (0xFFFFFFFF#32 <<< 26) else (v ++ l).setWidth 32) =
      branchOffset v l :=
  signExtend_of_or (v ++ l) (by decide) (by decide) (by decide) (by decide)

theorem relocateInArm_b (h : getTypeInArm w = bArm) (p : Word) :
    relocateInArm load p w = [0xE51FF004, p + branchOffset (field w 0 24) 0] := by
  simp only [relocateInArm, h, and_FFFFFF, shiftLeft_two, ← signExtend_eq_branchOffset]
  simp

theorem relocateInArm_bl (h : getTypeInArm w = blArm) (p : Word) :
    relocateInArm load p w = [0xE28FE004, 0xE51FF004, p + branchOffset (field w 0 24) 0] := by
  simp only [relocateInArm, h, and_FFFFFF, shiftLeft_two, ← signExtend_eq_branchOffset]
  simp

theorem relocateInArm_blx (h : getTypeInArm w = blxArm) (p : Word) :
    relocateInArm load p w =
      [0xE28FE004, 0xE51FF004, p + branchOffset (field w 0 24)
        (BitVec.ofBool (w.getLsbD 24) ++ 0#1) + 1] := by
  simp only [relocateInArm, h, and_FFFFFF, bit_24, ← setWidth_append, ← signExtend_eq_branchOffset]
  simp

theorem relocateInArm_bx (h : getTypeInArm w = bxArm) (p : Word) :
    relocateInArm load p w = [0xE51FF004, p] := by
  simp [relocateInArm, h]

theorem relocateInArm_mov (h : getTypeInArm w = movArm) (p : Word) :
    relocateInArm load p w = [withRd 0xE51F0000 (field w 12 4), 0xE28FF000, p] := by
  simp only [relocateInArm, h, rd_eq, withRd]
  simp

theorem relocateInArm_ldr (h : getTypeInArm w = ldrArm) (p : Word) :
    relocateInArm load p w = [withRd 0xE51F0000 (field w 12 4), 0xE28FF000,
      load (literal p w)] := by
  simp only [relocateInArm, h, rd_eq, withRd, bit_23, literal]
  cases w.getLsbD 23 <;> simp

theorem relocateInArm_adr1 (h : getTypeInArm w = adr1Arm) (p : Word) :
    relocateInArm load p w = [withRd 0xE51F0000 (field w 12 4), 0xE28FF000, p + (w &&& 0xFFF)] := by
  simp only [relocateInArm, h, rd_eq, withRd]
  simp

theorem relocateInArm_adr2 (h : getTypeInArm w = adr2Arm) (p : Word) :
    relocateInArm load p w = [withRd 0xE51F0000 (field w 12 4), 0xE28FF000, p - (w &&& 0xFFF)] := by
  simp only [relocateInArm, h, rd_eq, withRd]
  simp

end Emitted

/-- A call that is executed in the trampoline returns into the trampoline. -/
def relink (back : Word) (w : Word) (r : Core × Flow) : Core × Flow :=
  if getTypeInArm w = blArm ∨ getTypeInArm w = blxArm then (r.1.set lr back, r.2) else r

/-- The register that stands in for the program counter in an addition. -/
def borrowed (w : Word) : Reg :=
  BitVec.ofNat 4 (spareRegister [(field w 12 4).toNat, (field w 0 4).toNat] 12)

/-- The relocated addition leaves the borrowed register below the stack pointer. -/
def spill (w : Word) (c : Core) : Core :=
  if getTypeInArm w = addArm then c.store (c.reg sp - 4) (c.reg (borrowed w)) else c

section Chunks

theorem branchOffset_mod (v : BitVec 24) (l : BitVec 2) :
    (branchOffset v l).toNat % 4 = l.toNat := by
  have h : (branchOffset v l).setWidth 2 = l := by
    apply BitVec.eq_of_getLsbD_eq
    intro i hi
    simp only [branchOffset, BitVec.getLsbD_setWidth, BitVec.getLsbD_signExtend,
      BitVec.getLsbD_append, hi,
      show i < 32 by omega, show i < 24 + 2 by omega, decide_true, Bool.true_and, if_true]
  have := congrArg BitVec.toNat h
  rwa [BitVec.toNat_setWidth] at this

/-- A literal that is loaded into a register, and jumped over. -/
theorem literal_steps {r : Reg} {v : Word} (ht : t.toNat % 4 = 0)
    (hmem : InMemory c.mem t [withRd 0xE51F0000 r, 0xE28FF000, v]) {res : Core × Flow}
    (h : write c r v = some res) :
    Steps (step other) ⟨c, t, false⟩ (land (t + 12) false res) := by
  obtain ⟨h₀, h₁, h₂, -⟩ := hmem
  rw [show t + 4 + 4 = t + 8 by bv_omega] at h₂
  have hload : step other ⟨c, t, false⟩ = some (land (t + 4) false res) := by
    rw [step_eq h₀, effect_ldrLiteral, h₂, h]
    rfl
  rw [write] at h
  split at h
  · obtain ⟨f, hf, rfl⟩ := Option.map_eq_some_iff.mp h
    obtain ⟨b, thumb, rfl⟩ := branchExchange_jump hf
    exact .one hload
  · cases h
    have hskip : step other ⟨c.set r v, t + 4, false⟩ =
        some (land (t + 12) false (c.set r v, .next)) := by
      rw [step_eq (c := c.set r v) h₁, effect_addPc (by bv_omega)]
      simp only [Option.map_some, land_jump, land_next]
      rw [show t + 4 + 8 = t + 12 by bv_omega]
    exact .next hload (.one hskip)

/-- A jump by way of a literal. -/
theorem jump_steps {v : Word} (hmem : InMemory c.mem t [0xE51FF004, v]) {f : Flow}
    (h : branchExchange v = some f)
    (follow : Word) : Steps (step other) ⟨c, t, false⟩ (land follow false (c, f)) := by
  obtain ⟨h₀, h₁, -⟩ := hmem
  have hload : step other ⟨c, t, false⟩ = some (land (t + 4) false (c, f)) := by
    rw [step_eq h₀, effect_ldrPc, h₁, h]
    rfl
  obtain ⟨b, thumb, rfl⟩ := branchExchange_jump h
  exact .one hload

/-- A call by way of a literal: the return address is that behind the literal. -/
theorem call_steps {v : Word} (hmem : InMemory c.mem t [0xE28FE004, 0xE51FF004, v]) {f : Flow}
    (h : branchExchange v = some f) (follow : Word) :
    Steps (step other) ⟨c, t, false⟩ (land follow false (c.set lr (t + 12), f)) := by
  obtain ⟨h₀, h₁, h₂, -⟩ := hmem
  have hlink : step other ⟨c, t, false⟩ = some ⟨c.set lr (t + 12), t + 4, false⟩ := by
    rw [step_eq h₀, effect_addLr]
    rfl
  exact .next hlink (jump_steps (c := c.set lr (t + 12)) ⟨h₁, h₂, trivial⟩ h follow)

end Chunks

section Addition

/-- An addition with what its first operand reads as. -/
def added (w x : Word) (c : Core) : Core :=
  let r :=
    arith c.flags x (shiftC (field w 5 2) (field w 7 5) (c.reg (field w 0 4)) c.flags.c).1 false
  if passed (field w 28 4) c.flags then
    if w.getLsbD 20 then (c.set (field w 12 4) r.1).setFlags r.2 else c.set (field w 12 4) r.1
  else c

theorem added_set {q : Reg} (v x : Word) (c : Core) (hrd : q ≠ field w 12 4)
    (hrm : q ≠ field w 0 4) :
    added w x (c.set q v) = (added w x c).set q v := by
  simp only [added, Core.set_flags, Core.set_other c v hrm.symm]
  split
  · rw [Core.set_comm c _ _ hrd]
    split <;> rfl
  · rfl

theorem added_reg {q : Reg} (x : Word) (c : Core) (hrd : q ≠ field w 12 4) :
    (added w x c).reg q = c.reg q := by
  rw [added]
  split_ifs <;> simp [hrd]

theorem added_mem (x : Word) (c : Core) : (added w x c).mem = c.mem := by
  rw [added]
  split_ifs <;> rfl

theorem effect_data_add {v : Word} {rn : Reg}
    (hv : decode v = .data 4 (w.getLsbD 20) rn (field w 12 4)
      (.shifted (field w 0 4) (field w 5 2) (field w 7 5)))
    (hcond : field v 28 4 = field w 28 4) (hrd : field w 12 4 ≠ pc) (hrm : field w 0 4 ≠ pc)
    (a : Word) (c : Core) :
    effect other v a c = some (added w (c.read (a + 8) rn) c, .next) := by
  have halu (f : Flags) (x : Word) (y : Word × Bool) : alu f 4 x y = arith f x y.1 false := rfl
  have hcompares : compares 4 = false := rfl
  simp only [effect, hv, hcond, added, perform, operand, Core.read_of_ne c (a + 8) hrm, write,
    if_neg hrd, halu, hcompares,
    Bool.false_eq_true, if_false]
  split
  · split <;> rfl
  · rfl

theorem borrowed_toNat (w : Word) :
    (borrowed w).toNat = spareRegister [(field w 12 4).toNat, (field w 0 4).toNat] 12 := by
  have := (spareRegister_two (field w 12 4).toNat (field w 0 4).toNat 12 (by decide)).2.2.2
  rw [borrowed, BitVec.toNat_ofNat, Nat.mod_eq_of_lt (by omega)]

theorem borrowed_ne (w : Word) :
    borrowed w ≠ field w 12 4 ∧ borrowed w ≠ field w 0 4 ∧ borrowed w ≠ sp ∧ borrowed w ≠ pc := by
  obtain ⟨hrd, hrm, -, hle⟩ :=
    spareRegister_two (field w 12 4).toNat (field w 0 4).toNat 12 (by decide)
  rw [← borrowed_toNat] at hrd hrm hle
  refine ⟨fun h => hrd (congrArg _ h), fun h => hrm (congrArg _ h), fun h => ?_, fun h => ?_⟩
  · rw [h] at hle
    exact absurd hle (by decide)
  · rw [h] at hle
    exact absurd hle (by decide)

/-- The instruction with another first operand. -/
def withRn (w : Word) (r : Reg) : Word := (w &&& 0xFFF0FFFF#32) ||| (r.setWidth 32 <<< 16)

theorem getLsbD_withRn (r : Reg) {i : Nat} (hi : i < 32) :
    (withRn w r).getLsbD i = if 16 ≤ i ∧ i < 20 then r.getLsbD (i - 16) else w.getLsbD i := by
  have hmask : (0xFFF0FFFF#32).getLsbD i = !decide (16 ≤ i ∧ i < 20) := by
    revert i
    decide
  rw [withRn, BitVec.getLsbD_or, BitVec.getLsbD_and, hmask, BitVec.getLsbD_shiftLeft,
    BitVec.getLsbD_setWidth]
  by_cases h : i < 16
  · simp [h, show ¬ 16 ≤ i by omega]
  · by_cases h' : i < 20
    · simp [h, h', hi, show 16 ≤ i by omega, show i - 16 < 32 by omega]
    · simp [h, h', BitVec.getLsbD_of_ge r (i - 16) (by omega)]

theorem field_withRn (r : Reg) {lo len : Nat} (h : lo + len ≤ 16 ∨ 20 ≤ lo) (hlen : lo + len ≤ 32) :
    field (withRn w r) lo len = field w lo len := by
  apply BitVec.eq_of_getLsbD_eq
  intro i hi
  rw [getLsbD_field _ _ _ hi, getLsbD_field _ _ _ hi, getLsbD_withRn r (by omega),
    if_neg (by omega)]

theorem field_withRn_rn (r : Reg) : field (withRn w r) 16 4 = r := by
  apply BitVec.eq_of_getLsbD_eq
  intro i hi
  rw [getLsbD_field _ _ _ hi, getLsbD_withRn r (by omega), if_pos (by omega),
    Nat.add_sub_cancel_left]

theorem decode_withRn (h : getTypeInArm w = addArm) (hcond : field w 28 4 ≠ 15) (r : Reg) :
    decode (withRn w r) =
      .data 4 (w.getLsbD 20) r (field w 12 4)
      (.shifted (field w 0 4) (field w 5 2) (field w 7 5)) := by
  have hm := and_maskOf h
  have hop : field w 21 4 = 4 := field_of_mask hm 21 4 (by decide)
  have hf (lo len : Nat) (h : lo + len ≤ 16 ∨ 20 ≤ lo) (hlen : lo + len ≤ 32) :=
    field_withRn (w := w) r h hlen
  rw [decode_data_reg]
  · rw [hf 21 4 (by decide) (by decide), hf 12 4 (by decide) (by decide),
      hf 0 4 (by decide) (by decide),
      hf 5 2 (by decide) (by decide), hf 7 5 (by decide) (by decide), field_withRn_rn,
      getLsbD_withRn r (by decide), hop]
    rfl
  · rwa [hf 28 4 (by decide) (by decide)]
  · rw [hf 25 3 (by decide) (by decide)]
    exact field_of_mask hm 25 3 (by decide)
  · rw [getLsbD_withRn r (by decide)]
    exact bit_of_mask hm 4 (by decide)
  · rw [hf 21 4 (by decide) (by decide), hop]
    rfl

theorem relocateInArm_add (h : getTypeInArm w = addArm) (p : Word) :
    relocateInArm load p w = [withRd 0xE52D0004 (borrowed w), withRd 0xE59F0008 (borrowed w),
      withRn w (borrowed w),
      withRd 0xE49D0004 (borrowed w), 0xE28FF000, p] := by
  have hrm : w &&& 0xF = (field w 0 4).setWidth 32 := and_eq_field 4 (by decide)
  have hr : BitVec.ofNat 32 (spareRegister
      [((field w 12 4).setWidth 32).toNat, ((field w 0 4).setWidth 32).toNat] 12) =
      (borrowed w).setWidth 32 := by
    apply BitVec.eq_of_toNat_eq
    have hlt := (borrowed w).isLt
    rw [BitVec.toNat_setWidth_of_le (b := borrowed w) (by decide), BitVec.toNat_ofNat,
      BitVec.toNat_setWidth_of_le (by decide),
      BitVec.toNat_setWidth_of_le (by decide), ← borrowed_toNat]
    exact Nat.mod_eq_of_lt (by omega)
  simp only [relocateInArm, h, rd_eq, hrm, hr, withRd, withRn]
  simp

/-- The relocated addition: what it does is the addition itself, and the spill. -/
theorem add_steps (htype : getTypeInArm w = addArm) (hcond : field w 28 4 ≠ 15)
    (hrd : field w 12 4 ≠ sp ∧ field w 12 4 ≠ pc)
    (hrm : field w 0 4 ≠ sp ∧ field w 0 4 ≠ pc) (ht : t.toNat % 4 = 0) {p : Word}
    (hmem : InMemory c.mem t (relocateInArm load p w))
    (hmem' : InMemory (spill w c).mem t (relocateInArm load p w)) :
    Steps (step other) ⟨c, t, false⟩ ⟨added w p (spill w c), t + 24, false⟩ := by
  obtain ⟨hne, hne', hsp, hpc⟩ := borrowed_ne w
  have hspill : spill w c = c.store (c.reg sp - 4) (c.reg (borrowed w)) := if_pos htype
  rw [relocateInArm_add htype] at hmem hmem'
  generalize borrowed w = r at *
  obtain ⟨h₀, -⟩ := hmem
  obtain ⟨-, h₁, h₂, h₃, h₄, h₅, -⟩ := hmem'
  let c₁ := (spill w c).set sp (c.reg sp - 4)
  let c₂ := c₁.set r p
  let c₃ := added w p c₂
  have hpush : step other ⟨c, t, false⟩ = some ⟨c₁, t + 4, false⟩ := by
    rw [step_eq h₀, effect_push hsp hpc, ← hspill]
    rfl
  have hload : step other ⟨c₁, t + 4, false⟩ = some ⟨c₂, t + 4 + 4, false⟩ := by
    rw [step_eq (c := c₁) h₁, effect_ldrAhead, write, if_neg hpc,
      show t + 4 + 16 = t + 4 + 4 + 4 + 4 + 4 by bv_omega]
    rw [show word c₁.mem (t + 4 + 4 + 4 + 4 + 4) = p from h₅]
    rfl
  have hadd : step other ⟨c₂, t + 4 + 4, false⟩ = some ⟨c₃, t + 4 + 4 + 4, false⟩ := by
    rw [step_eq (c := c₂) h₂, effect_data_add (decode_withRn htype hcond r)
      (field_withRn r (by decide) (by decide)) hrd.2 hrm.2, Core.read_of_ne _ _ hpc, Core.set_same]
    rfl
  have hmem₃ : c₃.mem = (spill w c).mem := added_mem p c₂
  have hc₃ : c₃ = ((added w p (spill w c)).set sp (c.reg sp - 4)).set r p := by
    simp only [c₃, c₂, c₁]
    rw [added_set _ _ _ hne hne', added_set _ _ _ hrd.1.symm hrm.1.symm]
  have hpop : step other ⟨c₃, t + 4 + 4 + 4, false⟩ =
      some ⟨added w p (spill w c), t + 4 + 4 + 4 + 4, false⟩ := by
    have hreg : c₃.reg sp = c.reg sp - 4 := by
      rw [hc₃, Core.set_other _ _ hsp.symm, Core.set_same]
    have hword : word c₃.mem (c.reg sp - 4) = c.reg r := by
      rw [hmem₃, hspill, Core.store_mem, word_putWord]
    have hold : (added w p (spill w c)).reg sp = c.reg sp ∧
        (added w p (spill w c)).reg r = c.reg r := by
      rw [added_reg p _ hrd.1.symm, added_reg p _ hne, hspill]
      exact ⟨rfl, rfl⟩
    have hword₃ : word c₃.mem (t + 4 + 4 + 4) = withRd 0xE49D0004 r := by
      rw [hmem₃]
      exact h₃
    rw [step_eq hword₃, effect_pop hsp, write, if_neg hpc, hreg, hword, hc₃]
    rw [Core.set_comm _ _ _ hsp, Core.set_set, Core.set_set, show c.reg sp - 4 + 4 =
      c.reg sp by bv_omega]
    nth_rewrite 1 [← hold.1]
    rw [Core.set_self, ← hold.2, Core.set_self]
    rfl
  have hskip : step other ⟨added w p (spill w c), t + 4 + 4 + 4 + 4, false⟩ =
      some ⟨added w p (spill w c), t + 24, false⟩ := by
    have hword₄ : word (added w p (spill w c)).mem (t + 4 + 4 + 4 + 4) = 0xE28FF000 := by
      rw [added_mem]
      exact h₄
    rw [step_eq hword₄, effect_addPc (by bv_omega),
      show t + 24 = t + 4 + 4 + 4 + 4 + 8 by bv_omega]
    rfl
  exact .next hpush (.next hload (.next hadd (.next hpop (.one hskip))))

end Addition

/-- The instructions whose chunks do what they do. The immediate of an ADR must
not be rotated, a MOVS sets flags that its chunk leaves alone, and what is copied
as it is must not name the program counter. -/
def relocatable (w : Word) : Bool :=
  let rd := field w 12 4
  let rm := field w 0 4
  if getTypeInArm w ≠ blxArm ∧ field w 28 4 = 15 then false
  else if getTypeInArm w = addArm then rd ≠ sp ∧ rd ≠ pc ∧ rm ≠ sp ∧ rm ≠ pc
  else if getTypeInArm w = adr1Arm ∨ getTypeInArm w = adr2Arm then field w 8 4 = 0
  else if getTypeInArm w = movArm then !w.getLsbD 20
  else if getTypeInArm w = undefine then (decode w).pcFree
  else true

section Instructions

/-- The types that `getTypeInArm` can give. -/
theorem getTypeInArm_cases (w : Word) : getTypeInArm w = blxArm ∨ getTypeInArm w = blArm ∨
    getTypeInArm w = bArm ∨
    getTypeInArm w = bxArm ∨ getTypeInArm w = addArm ∨
    (getTypeInArm w = adr1Arm ∨ getTypeInArm w = adr2Arm) ∨
    getTypeInArm w = ldrArm ∨ getTypeInArm w = movArm ∨ getTypeInArm w = undefine := by
  rw [getTypeInArm]
  split_ifs <;> simp

theorem effect_unconditional {type : InstructionType} (h : getTypeInArm w = type)
    (htype : type ≠ undefine ∧ type ≠ addArm ∧ type ≠ blxArm) (a : Word) (c : Core) :
    effect other (unconditional w) a c = perform other a c (decode (always w)) := by
  rw [unconditional, h, if_neg (by simp [htype]), effect_always (.inl field_always_cond)]

theorem and_FFF (w : Word) : w &&& 0xFFF = (field w 0 12).setWidth 32 := and_eq_field 12 (by decide)

theorem operand_of_unrotated (h : field w 8 4 = 0) (p : Word) (c : Core) :
    (operand c p (.imm (field w 0 12))).1 = w &&& 0xFFF := by
  have hrot : (field w 0 12).extractLsb' 8 4 = 0 := by
    rw [← h]
    exact field_field w 0 12 8 4 (by decide)
  have hvalue : ((field w 0 12).extractLsb' 0 8).setWidth 32 = (field w 0 12).setWidth 32 := by
    apply BitVec.eq_of_getLsbD_eq
    intro i hi
    rw [BitVec.getLsbD_setWidth, BitVec.getLsbD_setWidth, BitVec.getLsbD_extractLsb', Nat.zero_add]
    by_cases h8 : i < 8
    · simp [h8]
    · by_cases h12 : i < 12
      · have hbit := congrArg (fun v => v.getLsbD (i - 8)) hrot
        simp only [BitVec.getLsbD_extractLsb',
          show i - 8 < 4 by omega, show 8 + (i - 8) = i by omega, decide_true,
          Bool.true_and] at hbit
        rw [hbit]
        simp [h8]
      · simp [h8, BitVec.getLsbD_of_ge (field w 0 12) i (by omega)]
  simp only [operand, hrot, and_FFF, hvalue]
  rfl

theorem alu_add (f : Flags) (x : Word) (y : Word × Bool) :
    (alu f 4 x y).1 = x + y.1 := BitVec.add_zero _

theorem alu_sub (f : Flags) (x : Word) (y : Word × Bool) : (alu f 2 x y).1 = x - y.1 := by
  rw [BitVec.sub_eq_add_neg, BitVec.neg_eq_not_add, ← BitVec.add_assoc]
  rfl

theorem perform_data {op : BitVec 4} (h : compares op = false) (a : Word) (c : Core)
    (rn rd : Reg) (o : Operand) :
    perform other a c (.data op false rn rd o) =
      write c rd (alu c.flags op (c.read (a + 8) rn) (operand c (a + 8) o)).1 := by
  simp only [perform, h, Bool.false_eq_true, if_false]

/-- A load from the literal pool that has an effect neither writes back nor is
post-indexed. -/
theorem perform_ldrLiteral {i : Bool} {r : Core × Flow} {rd : Reg}
    (h : perform other a c (.ldr ⟨i, w.getLsbD 23, w.getLsbD 21⟩ pc rd (field w 0 12)) = some r) :
    perform other a c (.ldr ⟨i, w.getLsbD 23, w.getLsbD 21⟩ pc rd (field w 0 12)) =
      write c rd (word c.mem (literal (a + 8) w)) := by
  simp only [perform, true_or, if_true] at h ⊢
  by_cases hback : (Indexing.mk i (w.getLsbD 23) (w.getLsbD 21)).writesBack = true
  · rw [if_pos hback] at h
    cases h
  · have hi : i = true := by
      simp only [Indexing.writesBack, Bool.or_eq_true, not_or, Bool.not_eq_true'] at hback
      simpa using hback.1
    rw [if_neg hback, if_pos hi, Core.read_pc, Indexing.offset, literal, and_FFF]

theorem cond_of_relocatable (h : relocatable w = true) (htype : getTypeInArm w ≠ blxArm) :
    field w 28 4 ≠ 15 := by
  intro hcond
  simp [relocatable, htype, hcond] at h

theorem chunk_steps (ha : a.toNat % 4 = 0) (ht : t.toNat % 4 = 0) (hright : relocatable w = true)
    (hmem : InMemory c.mem t (relocateInArm load (a + 8) w))
    (hmem' : InMemory (spill w c).mem t (relocateInArm load (a + 8) w))
    (hload : getTypeInArm w = ldrArm → word c.mem (literal (a + 8) w) = load (literal (a + 8) w))
    {r : Core × Flow}
    (h : effect other (unconditional w) a (spill w c) = some r) :
    Steps (step other) ⟨c, t, false⟩ (land
      (t + 4 * BitVec.ofNat 32 (relocateInArm load (a + 8) w).length) false
      (relink (t + 4 * BitVec.ofNat 32 (relocateInArm load (a + 8) w).length) w r)) := by
  have hspill (htype : getTypeInArm w ≠ addArm) : spill w c = c := if_neg htype
  obtain htype | htype | htype | htype | htype | htype | htype | htype | htype :=
    getTypeInArm_cases w
  · have hcond : field w 28 4 = 15 := field_of_mask (and_maskOf htype) 28 4 (by decide)
    have hv := branchOffset_mod (field w 0 24) (BitVec.ofBool (w.getLsbD 24) ++ 0#1)
    have heven : (BitVec.ofBool (w.getLsbD 24) ++ 0#1).toNat % 2 = 0 := by
      cases w.getLsbD 24 <;> rfl
    rw [relocateInArm_blx htype] at hmem ⊢
    rw [unconditional, if_pos (by simp [htype]), hspill (by simp [htype]),
      effect_always (.inr hcond), decode_of_blx htype] at h
    cases h
    have hcall : Steps (step other) ⟨c, t, false⟩ _ :=
      call_steps hmem (branchExchange_add_one (by bv_omega)) (t + 12)
    simpa [relink, htype] using hcall
  · have hv := branchOffset_mod (field w 0 24) 0
    rw [relocateInArm_bl htype] at hmem ⊢
    rw [hspill (by simp [htype]), effect_unconditional htype (by decide), decode_of_bl htype] at h
    cases h
    have hcall : Steps (step other) ⟨c, t, false⟩ _ :=
      call_steps hmem (branchExchange_of_aligned (by bv_omega)) (t + 12)
    simpa [relink, htype] using hcall
  · have hv := branchOffset_mod (field w 0 24) 0
    rw [relocateInArm_b htype] at hmem ⊢
    rw [hspill (by simp [htype]), effect_unconditional htype (by decide), decode_of_b htype] at h
    cases h
    have hjump : Steps (step other) ⟨c, t, false⟩ _ :=
      jump_steps hmem (branchExchange_of_aligned (by bv_omega)) (t + 8)
    simpa [relink, htype] using hjump
  · rw [relocateInArm_bx htype] at hmem ⊢
    rw [hspill (by simp [htype]), effect_unconditional htype (by decide), decode_of_bx htype,
      perform, Core.read_pc,
      branchExchange_of_aligned (by bv_omega)] at h
    cases h
    have hjump : Steps (step other) ⟨c, t, false⟩ _ :=
      jump_steps hmem (branchExchange_of_aligned (by bv_omega)) (t + 8)
    simpa [relink, htype] using hjump
  · have hcond : field w 28 4 ≠ 15 := cond_of_relocatable hright (by simp [htype])
    obtain ⟨-, hrdsp, hrdpc, hrmsp, hrmpc⟩ :
        field w 28 4 ≠ 15 ∧ field w 12 4 ≠ sp ∧ field w 12 4 ≠ pc ∧
        field w 0 4 ≠ sp ∧ field w 0 4 ≠ pc := by
      simpa [relocatable, htype] using hright
    rw [unconditional, if_pos (by simp [htype]),
      effect_data_add (decode_of_add htype hcond) rfl hrdpc hrmpc, Core.read_pc] at h
    cases h
    have hadd : Steps (step other) ⟨c, t, false⟩ _ :=
      add_steps htype hcond ⟨hrdsp, hrdpc⟩ ⟨hrmsp, hrmpc⟩ ht hmem hmem'
    simpa [relink, htype, relocateInArm_add htype] using hadd
  · obtain ⟨-, hrot⟩ : field w 28 4 ≠ 15 ∧ field w 8 4 = 0 := by
      cases htype with
      | inl htype => simpa [relocatable, htype] using hright
      | inr htype => simpa [relocatable, htype] using hright
    rw [hspill (by cases htype <;> simp [*])] at h
    cases htype with
    | inl htype =>
      rw [relocateInArm_adr1 htype] at hmem ⊢
      rw [effect_unconditional htype (by decide), decode_of_adr htype (.inl rfl), perform_data rfl,
        if_pos rfl, alu_add,
        operand_of_unrotated hrot, Core.read_pc] at h
      simpa [relink, htype] using literal_steps ht hmem h
    | inr htype =>
      rw [relocateInArm_adr2 htype] at hmem ⊢
      rw [effect_unconditional htype (by decide), decode_of_adr htype (.inr rfl), perform_data rfl,
        if_neg (by decide), alu_sub,
        operand_of_unrotated hrot, Core.read_pc] at h
      simpa [relink, htype] using literal_steps ht hmem h
  · rw [relocateInArm_ldr htype] at hmem ⊢
    rw [hspill (by simp [htype]), effect_unconditional htype (by decide), decode_of_ldr htype] at h
    have hwrite : write c (field w 12 4) (load (literal (a + 8) w)) = some r := by
      rw [← hload htype, ← h, perform_ldrLiteral h]
    simpa [relink, htype] using literal_steps ht hmem hwrite
  · obtain ⟨-, hs⟩ : field w 28 4 ≠ 15 ∧ w.getLsbD 20 = false := by
      simpa [relocatable, htype] using hright
    rw [relocateInArm_mov htype] at hmem ⊢
    rw [hspill (by simp [htype]), effect_unconditional htype (by decide), decode_of_mov htype, hs,
      perform_data rfl] at h
    have hvalue : (alu c.flags 13 (c.read (a + 8) (field w 16 4))
        (operand c (a + 8) (.shifted pc 0 0))).1 = a + 8 := rfl
    rw [hvalue] at h
    simpa [relink, htype] using literal_steps ht hmem h
  · obtain ⟨-, hplain⟩ : field w 28 4 ≠ 15 ∧ (decode w).pcFree = true := by
      simpa [relocatable, htype] using hright
    rw [hspill (by simp [htype]), unconditional, if_pos (.inl htype),
      effect_of_pcFree _ hplain a t] at h
    have hchunk : relocateInArm load (a + 8) w = [w] := by simp [relocateInArm, htype]
    rw [hchunk] at hmem ⊢
    have hstep : step other ⟨c, t, false⟩ = some (land (t + 4) false r) := by
      rw [step_eq hmem.1, h]
      rfl
    simpa [relink, htype] using Steps.one hstep

end Instructions

end ArmRelocation
