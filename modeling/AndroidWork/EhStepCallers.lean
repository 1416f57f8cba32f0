import AndroidWork.EhStepRows

/-!
# The caller's frame

When `step` leaves the frame that the row for the program counter describes. It
takes the stack pointer from no canonical frame address, and the row from the
return address; a rule is carried out where it stands, and nothing is restored.
-/
namespace EhStep

open EhFrame
open CallFrames (Row reached rowAt)

section Callers

variable (load : Word → Option Word) (m : Memory) (cie : Cie) (fde : Fde) (common own : List Op)
  (c : Nat → Word)

/-- The row for the program counter. -/
def pcRow : Row Nat Word :=
  rowAt (c ARM64_PC) (BitVec.ofNat 64 fde.pcBegin) (common.map (Op.insn cie))
    (own.map (Op.insn cie))

/-- What has been made behind both programs, if the common one leaves the return
address `back`. -/
def madeAll (back : Word) : Made :=
  (reached (back - 4) (madeCommon cie fde common c).loc (own.map (Op.insn cie))).foldl
    (Made.next c) (madeCommon cie fde common c)

/-- The instructions that are carried out are proper, and the rules carried out last
are those of the row; the one for the stack pointer gives the canonical frame
address `k`. -/
structure Carries (k back : Word) : Prop where
  cfa : (pcRow cie fde common own c).cfaValue c = some k
  returnAddress : cie.returnAddressRegister.toNat < ARM64_PC
  settlesCommon : (Made.start (BitVec.ofNat 64 fde.pcBegin)).Settles load c k
    (reached (c ARM64_PC) (BitVec.ofNat 64 fde.pcBegin) (common.map (Op.insn cie)))
  returns : ((madeCommon cie fde common c).rule cie.returnAddressRegister.toNat).value load c k
    cie.returnAddressRegister.toNat = some back
  settlesOwn : (madeCommon cie fde common c).Settles load c k
    (reached (back - 4) (madeCommon cie fde common c).loc (own.map (Op.insn cie)))
  rules : ∀ r < ARM64_PC, r ≠ ARM64_SP ∨ r = cie.returnAddressRegister.toNat →
    (pcRow cie fde common own c).rule r = .undefined ∨
      (madeAll cie fde common own c back).rule r = (pcRow cie fde common own c).rule r
  sp : ((madeAll cie fde common own c back).rule ARM64_SP).value load c k ARM64_SP = some k

variable {load m cie fde common own c}

theorem Carries.value {k back : Word} (h : Carries load cie fde common own c k back) {r : Nat}
    (hr : r < ARM64_PC) (hne : r ≠ ARM64_SP ∨ r = cie.returnAddressRegister.toNat) {v : Word}
    (hv : (pcRow cie fde common own c).caller load c r = some v) :
    ((madeAll cie fde common own c back).rule r).value load c k r = some v := by
  rw [Row.caller, h.cfa, Option.bind_some] at hv
  cases h.rules r hr hne with
  | inl hundefined =>
    rw [hundefined] at hv
    cases hv
  | inr hrule => rwa [hrule]

end Callers

end EhStep
