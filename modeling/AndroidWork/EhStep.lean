import AndroidWork.EhFrame

/-!
# One unwinding step by .eh_frame

`execute_insns`, and `step` behind the selection of a record. A signed product
that overflows, undefined in C, wraps here. A register behind the last one and
an address that cannot be read are `none`.
-/
namespace EhStep

open EhFrame
open Leb128 (Byte)

abbrev Word := BitVec 64

def ARM64_SP : Nat := 31
def ARM64_PC : Nat := 32
def NUM_REGS : Nat := 33

@[simp] def DW_CFA_advance_loc : Byte := 0x40
@[simp] def DW_CFA_offset : Byte := 0x80
@[simp] def DW_CFA_restore : Byte := 0xc0
@[simp] def DW_CFA_nop : Byte := 0x00
@[simp] def DW_CFA_set_loc : Byte := 0x01
@[simp] def DW_CFA_advance_loc1 : Byte := 0x02
@[simp] def DW_CFA_advance_loc2 : Byte := 0x03
@[simp] def DW_CFA_advance_loc4 : Byte := 0x04
@[simp] def DW_CFA_offset_extended : Byte := 0x05
@[simp] def DW_CFA_restore_extended : Byte := 0x06
@[simp] def DW_CFA_undefined : Byte := 0x07
@[simp] def DW_CFA_same_value : Byte := 0x08
@[simp] def DW_CFA_register : Byte := 0x09
@[simp] def DW_CFA_remember_state : Byte := 0x0a
@[simp] def DW_CFA_restore_state : Byte := 0x0b
@[simp] def DW_CFA_def_cfa : Byte := 0x0c
@[simp] def DW_CFA_def_cfa_register : Byte := 0x0d
@[simp] def DW_CFA_def_cfa_offset : Byte := 0x0e
@[simp] def DW_CFA_offset_extended_sf : Byte := 0x11
@[simp] def DW_CFA_def_cfa_sf : Byte := 0x12
@[simp] def DW_CFA_def_cfa_offset_sf : Byte := 0x13
@[simp] def DW_CFA_val_offset : Byte := 0x14
@[simp] def DW_CFA_val_offset_sf : Byte := 0x15

/-- `dwarf_frame` without its pointers to the records. -/
structure DwarfFrame where
  regs : Nat → Word
  cfa : Word
  cfa_pc : Word
  cfa_register : Nat
  cfa_offset : Word

def DwarfFrame.reg (f : DwarfFrame) (r : Nat) : Option Word :=
  if r < NUM_REGS then some (f.regs r) else none

def DwarfFrame.setReg (f : DwarfFrame) (r : Nat) (v : Word) : Option DwarfFrame :=
  if r < NUM_REGS then some { f with regs := Function.update f.regs r v } else none

/-- The canonical frame address is computed from what its register holds now. -/
def DwarfFrame.setCfa (f : DwarfFrame) (r : Nat) (offset : Word) : Option DwarfFrame :=
  (f.reg r).map fun v => { f with cfa_register := r, cfa_offset := offset, cfa := v + offset }

/-- `frame->regs[ARM64_PC] = frame->regs[frame->cie->return_address_register] - 4`. -/
def DwarfFrame.finish (cie : Cie) (f : DwarfFrame) : Option DwarfFrame :=
  (f.reg cie.returnAddressRegister.toNat).map fun v =>
    { f with regs := Function.update f.regs ARM64_PC (v - 4) }

/-- An operand, and where the next one stands. -/
def uleb (m : Memory) (current : Nat) : Option (BitVec 32 × Nat) :=
  (readUleb128 (m.bytes.drop current)).map fun r => (r.1, current + r.2)

def sleb (m : Memory) (current : Nat) : Option (BitVec 32 × Nat) :=
  (readLeb128 (m.bytes.drop current)).map fun r => (r.1, current + r.2)

/-- `(int64_t) operand_uint32_2 * frame->cie->data_alignment_factor`. -/
def factored (cie : Cie) (operand : BitVec 32) : Word :=
  operand.setWidth 64 * cie.dataAlignmentFactor.signExtend 64

/-- `operand_int32_1 * frame->cie->data_alignment_factor`, an `int`. -/
def factoredSf (cie : Cie) (operand : BitVec 32) : Word :=
  (operand * cie.dataAlignmentFactor).signExtend 64

def DwarfFrame.advance (cie : Cie) (f : DwarfFrame) (operand : BitVec 32) : DwarfFrame :=
  { f with cfa_pc := f.cfa_pc + (operand * cie.codeAlignmentFactor).setWidth 64 }

section Execute

variable (load : Word → Option Word) (m : Memory) (cie : Cie)

/-- One turn of the loop for any instruction but `DW_CFA_nop`: what the frame is
then, and where the next instruction stands. Of the instructions with a block or
an address none is skipped; their operands are taken for instructions. -/
def executeInsn (op : Byte) (current : Nat) (f : DwarfFrame) : Option (DwarfFrame × Nat) :=
  if op &&& 0xc0 = DW_CFA_advance_loc then some (f.advance cie ((op &&& 0x3f).setWidth 32), current)
  else if op &&& 0xc0 = DW_CFA_offset then do
    let (n, current) ← uleb m current
    let v ← load (f.cfa + factored cie n)
    let f ← f.setReg (op &&& 0x3f).toNat v
    some (f, current)
  else if op &&& 0xc0 = DW_CFA_restore then some (f, current)
  else if op = DW_CFA_advance_loc1 then do
    let n ← m.read 1 current
    some (f.advance cie (BitVec.ofNat 32 n), current + 1)
  else if op = DW_CFA_advance_loc2 then do
    let n ← m.read 2 current
    some (f.advance cie (BitVec.ofNat 32 n), current + 2)
  else if op = DW_CFA_advance_loc4 then do
    let n ← m.read 4 current
    some (f.advance cie (BitVec.ofNat 32 n), current + 4)
  else if op = DW_CFA_offset_extended then do
    let (r, current) ← uleb m current
    let (n, current) ← uleb m current
    let v ← load (f.cfa + factored cie n)
    let f ← f.setReg r.toNat v
    some (f, current)
  else if op = DW_CFA_restore_extended ∨ op = DW_CFA_undefined ∨ op = DW_CFA_same_value then do
    let (_, current) ← uleb m current
    some (f, current)
  else if op = DW_CFA_register then do
    let (r, current) ← uleb m current
    let (q, current) ← uleb m current
    let v ← f.reg q.toNat
    let f ← f.setReg r.toNat v
    some (f, current)
  else if op = DW_CFA_def_cfa then do
    let (r, current) ← uleb m current
    let (n, current) ← uleb m current
    let f ← f.setCfa r.toNat (n.setWidth 64)
    some (f, current)
  else if op = DW_CFA_def_cfa_register then do
    let (r, current) ← uleb m current
    some ({ f with cfa_register := r.toNat }, current)
  else if op = DW_CFA_def_cfa_offset then do
    let (n, current) ← uleb m current
    let f ← f.setCfa f.cfa_register (n.setWidth 64)
    some (f, current)
  else if op = DW_CFA_offset_extended_sf then do
    let (r, current) ← uleb m current
    let (n, current) ← sleb m current
    let v ← load (f.cfa + factoredSf cie n)
    let f ← f.setReg r.toNat v
    some (f, current)
  else if op = DW_CFA_def_cfa_sf then do
    let (r, current) ← uleb m current
    let (n, current) ← sleb m current
    let f ← f.setCfa r.toNat (factoredSf cie n)
    some (f, current)
  else if op = DW_CFA_def_cfa_offset_sf then do
    let (n, current) ← sleb m current
    let f ← f.setCfa f.cfa_register (factoredSf cie n)
    some (f, current)
  else if op = DW_CFA_val_offset then do
    let (r, current) ← uleb m current
    let (n, current) ← uleb m current
    let f ← f.setReg r.toNat (f.cfa + factored cie n)
    some (f, current)
  else if op = DW_CFA_val_offset_sf then do
    let (r, current) ← uleb m current
    let (n, current) ← sleb m current
    let f ← f.setReg r.toNat (f.cfa + factoredSf cie n)
    some (f, current)
  else some (f, current)

/-- The loop from `current` on; each turn moves on by a byte at least, so that as
many turns as there are bytes are enough. -/
def executeLoop (insn_end : Nat) : Nat → Nat → DwarfFrame → Option DwarfFrame
  | 0, _, f => f.finish cie
  | turns + 1, current, f =>
    if current < insn_end ∧ f.cfa_pc ≤ f.regs ARM64_PC then do
      let op ← m.read 1 current
      if BitVec.ofNat 8 op = DW_CFA_nop then f.finish cie
      else
        let (f, current) ← executeInsn load m cie (BitVec.ofNat 8 op) (current + 1) f
        executeLoop insn_end turns current f
    else f.finish cie

def execute_insns (insn_start insn_end : Nat) (f : DwarfFrame) : Option DwarfFrame :=
  executeLoop load m cie insn_end (insn_end - insn_start) insn_start f

/-- `step` behind the selection of `fde`: the registers it leaves in `sig_ctx`. -/
def unwind (fde : Fde) (regs : Nat → Word) : Option (Nat → Word) := do
  let frame : DwarfFrame := ⟨regs, 0, BitVec.ofNat 64 fde.pcBegin, 0, 0⟩
  let frame ← execute_insns load m cie cie.initialInstructions
    (cie.initialInstructions + cie.instLength) frame
  let insn_start ← fde.callFrameInstructions.toNat?
  let frame ← execute_insns load m cie insn_start (insn_start + fde.instLength) frame
  some frame.regs

end Execute

end EhStep
