import AndroidWork.CallFrames
import AndroidWork.EhStep
import AndroidWork.Leb128Shifts

/-!
# The instructions of an unwinding step

Call frame instructions as they are encoded, what they mean, and that the loop
of `execute_insns` over their bytes carries out these meanings one by one, as
long as the location is not behind the program counter of the frame.
-/
namespace EhStep

open EhFrame
open Leb128 (Byte value signedValue)
open EhFrameWalk (IsLeb At)
open CallFrames (Insn)
open BitPacking (toBytes)

/-- An unsigned number of 32 bits in one of its encodings. -/
structure Uleb where
  enc : List Byte
  leb : IsLeb enc
  short : enc.length ≤ 5
  small : value enc < 2 ^ 32

/-- A signed number whose sign bits fit. -/
structure Sleb where
  enc : List Byte
  leb : IsLeb enc
  short : enc.length ≤ 4

/-- The instructions but for those with an address or an expression. -/
inductive Op where
  | advanceLoc (delta : BitVec 6)
  | advanceLoc1 (delta : BitVec 8)
  | advanceLoc2 (delta : BitVec 16)
  | advanceLoc4 (delta : BitVec 32)
  | offset (r : BitVec 6) (n : Uleb)
  | offsetExtended (r n : Uleb)
  | offsetExtendedSf (r : Uleb) (n : Sleb)
  | valOffset (r n : Uleb)
  | valOffsetSf (r : Uleb) (n : Sleb)
  | register (r q : Uleb)
  | undefined (r : Uleb)
  | sameValue (r : Uleb)
  | restore (r : BitVec 6)
  | restoreExtended (r : Uleb)
  | rememberState
  | restoreState
  | defCfa (r n : Uleb)
  | defCfaSf (r : Uleb) (n : Sleb)
  | defCfaRegister (r : Uleb)
  | defCfaOffset (n : Uleb)
  | defCfaOffsetSf (n : Sleb)
  | nop

def Op.opcode : Op → Byte
  | .advanceLoc delta => DW_CFA_advance_loc ||| delta.setWidth 8
  | .advanceLoc1 _ => DW_CFA_advance_loc1
  | .advanceLoc2 _ => DW_CFA_advance_loc2
  | .advanceLoc4 _ => DW_CFA_advance_loc4
  | .offset r _ => DW_CFA_offset ||| r.setWidth 8
  | .offsetExtended _ _ => DW_CFA_offset_extended
  | .offsetExtendedSf _ _ => DW_CFA_offset_extended_sf
  | .valOffset _ _ => DW_CFA_val_offset
  | .valOffsetSf _ _ => DW_CFA_val_offset_sf
  | .register _ _ => DW_CFA_register
  | .undefined _ => DW_CFA_undefined
  | .sameValue _ => DW_CFA_same_value
  | .restore r => DW_CFA_restore ||| r.setWidth 8
  | .restoreExtended _ => DW_CFA_restore_extended
  | .rememberState => DW_CFA_remember_state
  | .restoreState => DW_CFA_restore_state
  | .defCfa _ _ => DW_CFA_def_cfa
  | .defCfaSf _ _ => DW_CFA_def_cfa_sf
  | .defCfaRegister _ => DW_CFA_def_cfa_register
  | .defCfaOffset _ => DW_CFA_def_cfa_offset
  | .defCfaOffsetSf _ => DW_CFA_def_cfa_offset_sf
  | .nop => DW_CFA_nop

def Op.operands : Op → List Byte
  | .advanceLoc1 delta => toBytes 1 delta.toNat
  | .advanceLoc2 delta => toBytes 2 delta.toNat
  | .advanceLoc4 delta => toBytes 4 delta.toNat
  | .offset _ n | .defCfaOffset n => n.enc
  | .offsetExtended r n | .valOffset r n | .register r n | .defCfa r n => r.enc ++ n.enc
  | .offsetExtendedSf r n | .valOffsetSf r n | .defCfaSf r n => r.enc ++ n.enc
  | .undefined r | .sameValue r | .restoreExtended r | .defCfaRegister r => r.enc
  | .defCfaOffsetSf n => n.enc
  | .advanceLoc _ | .restore _ | .rememberState | .restoreState | .nop => []

def Op.bytes (op : Op) : List Byte := op.opcode :: op.operands

section Meaning

variable (cie : Cie)

/-- A location moved by a factored delta. -/
def advanceBy (delta : Nat) : Insn Nat Word Word :=
  .advance (BitVec.ofNat 64 (delta * cie.codeAlignmentFactor.toNat))

/-- A factored offset. -/
def offsetBy (n : Int) : Word := BitVec.ofInt 64 (n * cie.dataAlignmentFactor.toInt)

def Op.insn : Op → Insn Nat Word Word
  | .advanceLoc delta => advanceBy cie delta.toNat
  | .advanceLoc1 delta => advanceBy cie delta.toNat
  | .advanceLoc2 delta => advanceBy cie delta.toNat
  | .advanceLoc4 delta => advanceBy cie delta.toNat
  | .offset r n => .setRule r.toNat (.offset (offsetBy cie (value n.enc)))
  | .offsetExtended r n => .setRule (value r.enc) (.offset (offsetBy cie (value n.enc)))
  | .offsetExtendedSf r n => .setRule (value r.enc) (.offset (offsetBy cie (signedValue n.enc)))
  | .valOffset r n => .setRule (value r.enc) (.valOffset (offsetBy cie (value n.enc)))
  | .valOffsetSf r n => .setRule (value r.enc) (.valOffset (offsetBy cie (signedValue n.enc)))
  | .register r q => .setRule (value r.enc) (.register (value q.enc))
  | .undefined r => .setRule (value r.enc) .undefined
  | .sameValue r => .setRule (value r.enc) .sameValue
  | .restore r => .restore r.toNat
  | .restoreExtended r => .restore (value r.enc)
  | .rememberState => .rememberState
  | .restoreState => .restoreState
  | .defCfa r n => .defCfa (value r.enc) (BitVec.ofNat 64 (value n.enc))
  | .defCfaSf r n => .defCfa (value r.enc) (offsetBy cie (signedValue n.enc))
  | .defCfaRegister r => .defCfaRegister (value r.enc)
  | .defCfaOffset n => .defCfaOffset (BitVec.ofNat 64 (value n.enc))
  | .defCfaOffsetSf n => .defCfaOffset (offsetBy cie (signedValue n.enc))
  | .nop => .nop

/-- The delta and the signed offset stay within 32 bits. -/
def Op.Fits : Op → Prop
  | .advanceLoc delta => delta.toNat * cie.codeAlignmentFactor.toNat < 2 ^ 32
  | .advanceLoc1 delta => delta.toNat * cie.codeAlignmentFactor.toNat < 2 ^ 32
  | .advanceLoc2 delta => delta.toNat * cie.codeAlignmentFactor.toNat < 2 ^ 32
  | .advanceLoc4 delta => delta.toNat * cie.codeAlignmentFactor.toNat < 2 ^ 32
  | .offsetExtendedSf _ n | .valOffsetSf _ n | .defCfaSf _ n | .defCfaOffsetSf n =>
    -2 ^ 31 ≤ signedValue n.enc * cie.dataAlignmentFactor.toInt ∧
      signedValue n.enc * cie.dataAlignmentFactor.toInt < 2 ^ 31
  | _ => True

end Meaning

/-- What `execute_insns` makes of an instruction: registers are set when their
rule is read, and what restores rules or states has no effect. -/
def DwarfFrame.exec (load : Word → Option Word) (f : DwarfFrame) :
    Insn Nat Word Word → Option DwarfFrame
  | .advance delta => some { f with cfa_pc := f.cfa_pc + delta }
  | .setRule r (.offset n) => (load (f.cfa + n)).bind (f.setReg r)
  | .setRule r (.valOffset n) => f.setReg r (f.cfa + n)
  | .setRule r (.register q) => (f.reg q).bind (f.setReg r)
  | .defCfa r n => f.setCfa r n
  | .defCfaRegister r => some { f with cfa_register := r }
  | .defCfaOffset n => f.setCfa f.cfa_register n
  | _ => some f

def run (load : Word → Option Word) (cie : Cie) :
    List (Insn Nat Word Word) → DwarfFrame → Option DwarfFrame
  | [], f => f.finish cie
  | i :: is, f => if i ≠ .nop ∧ f.cfa_pc ≤ f.regs ARM64_PC then
    (f.exec load i).bind (run load cie is) else f.finish cie

section Operands

variable {m : Memory} {off : Nat} {post : List Byte}

theorem uleb_at (n : Uleb) (h : At m off (n.enc ++ post)) :
    uleb m off = some (BitVec.ofNat 32 (value n.enc), off + n.enc.length) ∧
    At m (off + n.enc.length) post := by
  refine ⟨?_, h.add rfl⟩
  rw [uleb, h.drop, ← Leb128Shifts.read_uleb128_eq,
    Leb128Shifts.read_uleb128_value (fun _ _ _ => rfl) n.leb n.short]
  rfl

theorem sleb_at (n : Sleb) (h : At m off (n.enc ++ post)) :
    sleb m off = some (BitVec.ofInt 32 (signedValue n.enc), off + n.enc.length) ∧
    At m (off + n.enc.length) post := by
  refine ⟨?_, h.add rfl⟩
  have hshl (x : BitVec 32) (s : Nat) (_ : s < 32) : x <<< s = x <<< s := rfl
  obtain ⟨shifts, hread, -⟩ := Leb128Shifts.read_leb128_short hshl n.leb n.short post
  rw [sleb, h.drop, ← Leb128Shifts.read_leb128_eq, hread]
  rfl

theorem Uleb.toNat_ofNat (n : Uleb) : (BitVec.ofNat 32 (value n.enc)).toNat = value n.enc := by
  rw [BitVec.toNat_ofNat, Nat.mod_eq_of_lt n.small]

theorem Uleb.setWidth_ofNat (n : Uleb) :
    (BitVec.ofNat 32 (value n.enc)).setWidth 64 = BitVec.ofNat 64 (value n.enc) := by
  apply BitVec.eq_of_toNat_eq
  rw [BitVec.toNat_setWidth, n.toNat_ofNat, BitVec.toNat_ofNat]

theorem factored_eq (cie : Cie) (n : Uleb) :
    factored cie (BitVec.ofNat 32 (value n.enc)) = offsetBy cie (value n.enc) := by
  rw [factored, offsetBy, BitVec.ofInt_mul, BitVec.ofInt_natCast, n.setWidth_ofNat]
  rfl

theorem factoredSf_eq (cie : Cie) {n : Int} (hle : -2 ^ 31 ≤ n * cie.dataAlignmentFactor.toInt)
    (hlt : n * cie.dataAlignmentFactor.toInt < 2 ^ 31) :
    factoredSf cie (BitVec.ofInt 32 n) = offsetBy cie n := by
  have hproduct : BitVec.ofInt 32 n * cie.dataAlignmentFactor =
      BitVec.ofInt 32 (n * cie.dataAlignmentFactor.toInt) := by
    rw [BitVec.ofInt_mul, BitVec.ofInt_toInt]
  rw [factoredSf, offsetBy, hproduct, BitVec.signExtend, BitVec.toInt_ofInt]
  congr 1
  exact Int.bmod_eq_of_le_mul_two (by omega) (by omega)

theorem advance_eq (cie : Cie) {delta : Nat}
    (hlt : delta * cie.codeAlignmentFactor.toNat < 2 ^ 32) :
    (BitVec.ofNat 32 delta * cie.codeAlignmentFactor).setWidth 64 =
      BitVec.ofNat 64 (delta * cie.codeAlignmentFactor.toNat) := by
  apply BitVec.eq_of_toNat_eq
  rw [BitVec.toNat_setWidth, BitVec.toNat_mul, BitVec.toNat_ofNat, BitVec.toNat_ofNat,
    Nat.mod_mul_mod, Nat.mod_eq_of_lt hlt]

end Operands

section Turn

variable {load : Word → Option Word} {m : Memory} {cie : Cie} {off : Nat} {post : List Byte}

/-- The opcodes with an operand of six bits. -/
theorem opcode_fields (x : BitVec 6) :
    ((DW_CFA_advance_loc ||| x.setWidth 8) &&& 0xc0 = DW_CFA_advance_loc ∧
        ((DW_CFA_advance_loc ||| x.setWidth 8) &&& 0x3f).setWidth 32 = BitVec.ofNat 32 x.toNat) ∧
      ((DW_CFA_offset ||| x.setWidth 8) &&& 0xc0 = DW_CFA_offset ∧
        ((DW_CFA_offset ||| x.setWidth 8) &&& 0x3f).toNat = x.toNat) ∧
      (DW_CFA_restore ||| x.setWidth 8) &&& 0xc0 = DW_CFA_restore := by
  revert x
  decide

theorem Uleb.mod_eq (n : Uleb) : value n.enc % 4294967296 = value n.enc := Nat.mod_eq_of_lt n.small

theorem advance_exec {delta : Nat} (hfits : delta * cie.codeAlignmentFactor.toNat < 2 ^ 32)
    (f : DwarfFrame) :
    f.exec load (advanceBy cie delta) = some (f.advance cie (BitVec.ofNat 32 delta)) := by
  rw [advanceBy, ← advance_eq cie hfits]
  rfl

/-- A turn of the loop carries out the instruction. -/
theorem executeInsn_at (op : Op) (hfits : op.Fits cie) (h : At m off (op.operands ++ post))
    (f : DwarfFrame) :
    executeInsn load m cie op.opcode off f = (f.exec load (op.insn cie)).map fun g =>
  (g, off + op.operands.length) := by
  cases op with
  | advanceLoc delta =>
    obtain ⟨⟨hclass, hlow⟩, -, -⟩ := opcode_fields delta
    rw [Op.opcode, executeInsn, if_pos hclass, hlow, Op.insn, advance_exec hfits]
    rfl
  | advanceLoc1 delta =>
    rw [Op.insn, advance_exec hfits]
    simp [Op.opcode, executeInsn, h.read_toBytes delta.isLt, Op.operands, BitPacking.length_toBytes]
  | advanceLoc2 delta =>
    rw [Op.insn, advance_exec hfits]
    simp [Op.opcode, executeInsn, h.read_toBytes delta.isLt, Op.operands, BitPacking.length_toBytes]
  | advanceLoc4 delta =>
    rw [Op.insn, advance_exec hfits]
    simp [Op.opcode, executeInsn, h.read_toBytes delta.isLt, Op.operands, BitPacking.length_toBytes]
  | offset r n =>
    obtain ⟨-, ⟨hclass, hlow⟩, -⟩ := opcode_fields r
    obtain ⟨hn, -⟩ := uleb_at n h
    rw [Op.opcode, executeInsn, if_neg (by rw [hclass]; decide), if_pos hclass, hlow]
    simp [hn, Op.insn, DwarfFrame.exec, factored_eq, Op.operands, Option.map_eq_bind,
      Option.bind_assoc]
  | restore r =>
    obtain ⟨-, -, hclass⟩ := opcode_fields r
    rw [Op.opcode, executeInsn, if_neg (by rw [hclass]; decide),
      if_neg (by rw [hclass]; decide), if_pos hclass]
    rfl
  | offsetExtended r n | valOffset r n | register r n | defCfa r n =>
    rw [Op.operands, List.append_assoc] at h
    obtain ⟨hr, h⟩ := uleb_at r h
    obtain ⟨hn, -⟩ := uleb_at n h
    simp [Op.opcode, executeInsn, hr, hn, Op.insn, DwarfFrame.exec, factored_eq, n.setWidth_ofNat,
      Uleb.mod_eq, Op.operands,
      Option.map_eq_bind, Option.bind_assoc, Nat.add_assoc]
  | offsetExtendedSf r n | valOffsetSf r n | defCfaSf r n =>
    rw [Op.operands, List.append_assoc] at h
    obtain ⟨hr, h⟩ := uleb_at r h
    obtain ⟨hn, -⟩ := sleb_at n h
    simp [Op.opcode, executeInsn, hr, hn, Op.insn, DwarfFrame.exec,
      factoredSf_eq cie hfits.1 hfits.2, Uleb.mod_eq, Op.operands,
      Option.map_eq_bind, Option.bind_assoc, Nat.add_assoc]
  | defCfaOffsetSf n =>
    obtain ⟨hn, -⟩ := sleb_at n h
    simp [Op.opcode, executeInsn, hn, Op.insn, DwarfFrame.exec,
      factoredSf_eq cie hfits.1 hfits.2, Op.operands,
      Option.map_eq_bind]
  | undefined n | sameValue n | restoreExtended n | defCfaRegister n | defCfaOffset n =>
    obtain ⟨hn, -⟩ := uleb_at n h
    simp [Op.opcode, executeInsn, hn, Op.insn, DwarfFrame.exec, n.setWidth_ofNat,
      Uleb.mod_eq, Op.operands,
      Option.map_eq_bind]
  | rememberState | restoreState | nop => rfl

theorem opcode_nop_iff (op : Op) : op.opcode = DW_CFA_nop ↔ op.insn cie = .nop := by
  have hwide (x : BitVec 6) : DW_CFA_advance_loc ||| x.setWidth 8 ≠ DW_CFA_nop ∧
      DW_CFA_offset ||| x.setWidth 8 ≠ DW_CFA_nop ∧
      DW_CFA_restore ||| x.setWidth 8 ≠ DW_CFA_nop := by
    revert x
    decide
  cases op with
  | advanceLoc delta => exact iff_of_false (hwide delta).1 (by simp [Op.insn, advanceBy])
  | offset r n => exact iff_of_false (hwide r).2.1 (by simp [Op.insn])
  | restore r => exact iff_of_false (hwide r).2.2 (by simp [Op.insn])
  | nop => exact iff_of_true rfl rfl
  | _ => simp [Op.opcode, Op.insn, advanceBy]

theorem executeLoop_at {ops : List Op} (hfits : ∀ op ∈ ops, op.Fits cie)
    (h : At m off (ops.flatMap Op.bytes ++ post))
    {turns : Nat} (hturns : (ops.flatMap Op.bytes).length ≤ turns) (f : DwarfFrame) :
    executeLoop load m cie (off + (ops.flatMap Op.bytes).length) turns off f =
      run load cie (ops.map (Op.insn cie)) f := by
  induction ops generalizing turns off f with
  | nil =>
    cases turns with
    | zero => rfl
    | succ turns => exact if_neg (by simp)
  | cons op ops ih =>
    obtain ⟨hop, hops⟩ := List.forall_mem_cons.mp hfits
    rw [List.flatMap_cons, List.append_assoc, Op.bytes] at h
    have hread : m.read 1 off = some op.opcode.toNat := by
      have := h.read (x := [op.opcode]) rfl
      simpa [BitPacking.bytesValue] using this
    have hoperands : At m (off + 1) (op.operands ++ (ops.flatMap Op.bytes ++ post)) :=
      h.add (x := [op.opcode]) rfl
    rw [List.flatMap_cons, List.length_append, Op.bytes, List.length_cons] at hturns ⊢
    obtain ⟨turns, rfl⟩ : ∃ n, turns = n + 1 := ⟨turns - 1, by omega⟩
    rw [executeLoop, List.map_cons, run]
    by_cases hpc : f.cfa_pc ≤ f.regs ARM64_PC
    · rw [if_pos ⟨by omega, hpc⟩, hread, Option.bind_eq_bind, Option.bind_some, BitVec.ofNat_toNat,
        BitVec.setWidth_eq]
      by_cases hnop : op.opcode = DW_CFA_nop
      · rw [if_pos hnop, if_neg fun hne => hne.1 ((opcode_nop_iff op).mp hnop)]
      · rw [if_neg hnop, if_pos ⟨fun heq => hnop ((opcode_nop_iff op).mpr heq), hpc⟩,
          executeInsn_at op hop hoperands]
        cases f.exec load (op.insn cie) with
        | none => rfl
        | some g =>
          have hrest :=
            ih hops (hoperands.add rfl) (show (ops.flatMap Op.bytes).length ≤ turns by omega) g
          rw [show off + (op.operands.length + 1 + (ops.flatMap Op.bytes).length) =
            off + 1 + op.operands.length + (ops.flatMap Op.bytes).length by omega]
          exact hrest
    · rw [if_neg fun hne => hpc hne.2, if_neg fun hne => hpc hne.2]

/-- The program of a record is carried out instruction by instruction. -/
theorem execute_insns_at {ops : List Op} (hfits : ∀ op ∈ ops, op.Fits cie)
    (h : At m off (ops.flatMap Op.bytes ++ post)) (f : DwarfFrame) :
    execute_insns load m cie off (off + (ops.flatMap Op.bytes).length) f =
      run load cie (ops.map (Op.insn cie)) f :=
  executeLoop_at hfits h (by omega) f

end Turn

end EhStep
