import AndroidWork.EhStepInsns

/-!
# What an unwinding step carries out

`execute_insns` carries a rule out when it comes to it. As long as nothing that it
reads was overwritten before, what it leaves is told by the rules it has come to,
in terms of the callee's registers.
-/
namespace EhStep

open EhFrame
open EhFrameWalk (At)
open CallFrames (Insn Rule reached)

/-- The location, the rule that was carried out last for each register, the
canonical frame address and the register it was computed from. -/
structure Made where
  loc : Word
  rule : Nat → Rule Nat Word
  cfa : Word
  cfaRegister : Nat

def Made.start (loc : Word) : Made := ⟨loc, fun _ => .sameValue, 0, 0⟩

section Instructions

variable (load : Word → Option Word) (c : Nat → Word) (k : Word)

/-- `DW_CFA_undefined`, `DW_CFA_same_value` and what restores are not carried out. -/
def Made.next (s : Made) : Insn Nat Word Word → Made
  | .advance delta => { s with loc := s.loc + delta }
  | .setRule r (.offset n) => { s with rule := Function.update s.rule r (.offset n) }
  | .setRule r (.valOffset n) => { s with rule := Function.update s.rule r (.valOffset n) }
  | .setRule r (.register q) => { s with rule := Function.update s.rule r (.register q) }
  | .defCfa r n => { s with cfa := c r + n, cfaRegister := r }
  | .defCfaRegister r => { s with cfaRegister := r }
  | .defCfaOffset n => { s with cfa := c s.cfaRegister + n }
  | _ => s

/-- What an instruction reads of the registers is still the callee's, and what it
reads of the canonical frame address is `k`. -/
def Made.Proper (s : Made) : Insn Nat Word Word → Prop
  | .setRule r (.offset n) => r < ARM64_PC ∧ s.cfa = k ∧ (load (k + n)).isSome
  | .setRule r (.valOffset _) => r < ARM64_PC ∧ s.cfa = k
  | .setRule r (.register q) => r < ARM64_PC ∧ q < ARM64_PC ∧ s.rule q = .sameValue
  | .defCfa r _ => r < ARM64_PC ∧ s.rule r = .sameValue
  | .defCfaOffset _ => s.cfaRegister < ARM64_PC ∧ s.rule s.cfaRegister = .sameValue
  | _ => True

/-- All instructions are proper, and padding is at the end. -/
def Made.Settles : Made → List (Insn Nat Word Word) → Prop
  | _, [] => True
  | s, i :: is =>
    if i = .nop then ∀ j ∈ is, j = .nop else s.Proper load k i ∧ Settles (s.next c i) is

/-- The frame has what was made, and `limit` for its program counter. -/
structure Made.Holds (s : Made) (limit : Word) (f : DwarfFrame) : Prop where
  loc : f.cfa_pc = s.loc
  limit : f.regs ARM64_PC = limit
  regs : ∀ r < ARM64_PC, ∀ v, (s.rule r).value load c k r = some v → f.regs r = v
  cfa : f.cfa = s.cfa
  cfaRegister : f.cfa_register = s.cfaRegister

variable {load c k} {limit : Word} {s : Made} {f : DwarfFrame}

theorem reg_of_lt (f : DwarfFrame) {r : Nat} (h : r < ARM64_PC) : f.reg r = some (f.regs r) :=
  if_pos (Nat.lt_succ_of_lt h)

theorem setReg_of_lt (f : DwarfFrame) {r : Nat} (h : r < ARM64_PC) (v : Word) :
    f.setReg r v = some { f with regs := Function.update f.regs r v } :=
  if_pos (Nat.lt_succ_of_lt h)

theorem Made.next_loc (c : Nat → Word) (s : Made) (i : Insn Nat Word Word) :
    (s.next c i).loc = i.loc s.loc := by
  cases i with
  | setRule r rule => cases rule <;> rfl
  | _ => rfl

theorem Made.foldl_nops {is : List (Insn Nat Word Word)} (h : ∀ i ∈ is, i = .nop) (s : Made) :
    is.foldl (Made.next c) s = s := by
  induction is with
  | nil => rfl
  | cons i is ih =>
    rw [h i List.mem_cons_self, List.foldl_cons]
    exact ih fun j hj => h j (List.mem_cons_of_mem i hj)

theorem Made.Settles.cons {i : Insn Nat Word Word} {is : List (Insn Nat Word Word)}
    (hnop : i ≠ .nop) (hproper : s.Proper load k i) (h : (s.next c i).Settles load c k is) :
    s.Settles load c k (i :: is) := by
  rw [Made.Settles, if_neg hnop]
  exact ⟨hproper, h⟩

theorem Made.Holds.regs_same (h : s.Holds load c k limit f) {r : Nat} (hr : r < ARM64_PC)
    (hsame : s.rule r = .sameValue) : f.regs r = c r := h.regs r hr _ (by rw [hsame]; rfl)

/-- A register is set to what its new rule gives. -/
theorem Made.Holds.setRule (h : s.Holds load c k limit f) {r : Nat} (hr : r < ARM64_PC)
    {rule : Rule Nat Word} {v : Word} (hv : rule.value load c k r = some v) :
    Made.Holds load c k { s with rule := Function.update s.rule r rule } limit
      { f with regs := Function.update f.regs r v } := by
  constructor
  · exact h.loc
  · change Function.update f.regs r v ARM64_PC = limit
    rw [Function.update_of_ne (Nat.ne_of_gt hr), h.limit]
  · intro q hq w hw
    change (Function.update s.rule r rule q).value load c k q = some w at hw
    change Function.update f.regs r v q = w
    by_cases hqr : q = r
    · subst hqr
      rw [Function.update_self, hv] at hw
      rw [Function.update_self, Option.some.inj hw]
    · rw [Function.update_of_ne hqr] at hw
      rw [Function.update_of_ne hqr, h.regs q hq w hw]
  · exact h.cfa
  · exact h.cfaRegister

theorem Made.Holds.setCfa (h : s.Holds load c k limit f) {r : Nat} (hr : r < ARM64_PC)
    (hsame : s.rule r = .sameValue) (n : Word) :
    ∃ g, f.setCfa r n = some g ∧
      Made.Holds load c k { s with cfa := c r + n, cfaRegister := r } limit g := by
  refine ⟨{ f with cfa_register := r, cfa_offset := n, cfa := f.regs r + n }, ?_, h.loc,
    h.limit, h.regs, ?_, rfl⟩
  · rw [DwarfFrame.setCfa, reg_of_lt f hr]
    rfl
  · rw [h.regs_same hr hsame]

/-- One instruction. -/
theorem Made.Holds.exec (h : s.Holds load c k limit f) {i : Insn Nat Word Word}
    (hproper : s.Proper load k i) :
    ∃ g, f.exec load i = some g ∧ (s.next c i).Holds load c k limit g := by
  cases i with
  | advance delta => exact ⟨_, rfl, by rw [h.loc]; rfl, h.limit, h.regs, h.cfa, h.cfaRegister⟩
  | setRule r rule =>
    cases rule with
    | undefined => exact ⟨f, rfl, h⟩
    | sameValue => exact ⟨f, rfl, h⟩
    | offset n =>
      obtain ⟨hr, hk, hload⟩ := hproper
      obtain ⟨v, hv⟩ := Option.isSome_iff_exists.mp hload
      refine ⟨_, ?_, h.setRule hr (v := v) hv⟩
      rw [← h.cfa.trans hk] at hv
      rw [DwarfFrame.exec, hv, Option.bind_some, setReg_of_lt f hr]
    | valOffset n =>
      obtain ⟨hr, hk⟩ := hproper
      refine ⟨_, ?_, h.setRule hr (v := k + n) rfl⟩
      rw [DwarfFrame.exec, setReg_of_lt f hr, h.cfa.trans hk]
    | register q =>
      obtain ⟨hr, hq, hsame⟩ := hproper
      refine ⟨_, ?_, h.setRule hr (v := c q) rfl⟩
      rw [DwarfFrame.exec, reg_of_lt f hq, h.regs_same hq hsame, Option.bind_some,
        setReg_of_lt f hr]
  | defCfa r n => exact h.setCfa hproper.1 hproper.2 n
  | defCfaRegister r => exact ⟨_, rfl, h.loc, h.limit, h.regs, h.cfa, rfl⟩
  | defCfaOffset n =>
    obtain ⟨hlt, hsame⟩ := hproper
    obtain ⟨g, hg, hholds⟩ := h.setCfa hlt hsame n
    refine ⟨g, ?_, hholds⟩
    rw [DwarfFrame.exec, h.cfaRegister, hg]
  | restore r => exact ⟨f, rfl, h⟩
  | rememberState => exact ⟨f, rfl, h⟩
  | restoreState => exact ⟨f, rfl, h⟩
  | nop => exact ⟨f, rfl, h⟩

/-- A whole program, up to the limit. -/
theorem Made.Holds.run {is : List (Insn Nat Word Word)} (h : s.Holds load c k limit f)
    (hsettles : s.Settles load c k (reached limit s.loc is)) (cie : Cie) :
    ∃ g, run load cie is f = g.finish cie ∧
      Made.Holds load c k ((reached limit s.loc is).foldl (Made.next c) s) limit g := by
  induction is generalizing s f with
  | nil => exact ⟨f, rfl, h⟩
  | cons i is ih =>
    rw [EhStep.run, h.loc, h.limit]
    rw [reached] at hsettles ⊢
    by_cases hloc : s.loc ≤ limit
    · rw [if_pos hloc] at hsettles ⊢
      rw [Made.Settles] at hsettles
      by_cases hnop : i = .nop
      · rw [if_pos hnop] at hsettles
        subst hnop
        rw [if_neg fun hne => hne.1 rfl, List.foldl_cons, Made.foldl_nops hsettles]
        exact ⟨f, rfl, h⟩
      · rw [if_neg hnop] at hsettles
        obtain ⟨g, hg, hholds⟩ := h.exec hsettles.1
        rw [if_pos ⟨hnop, hloc⟩, hg, Option.bind_some, List.foldl_cons, ← Made.next_loc c]
        refine ih hholds ?_
        rw [Made.next_loc]
        exact hsettles.2
    · rw [if_neg fun hne => hloc hne.2, if_neg hloc]
      exact ⟨f, rfl, h⟩

end Instructions

section Step

/-- The program of a record, as it stands in memory. -/
structure Program (m : Memory) (cie : Cie) (start length : Nat) (ops : List Op) : Prop where
  stands : ∃ post, At m start (ops.flatMap Op.bytes ++ post)
  length : length = (ops.flatMap Op.bytes).length
  fits : ∀ op ∈ ops, op.Fits cie

variable {load : Word → Option Word} {m : Memory} {cie : Cie} {fde : Fde} {common own : List Op}

theorem Program.run {start length : Nat} {ops : List Op} (h : Program m cie start length ops)
    (f : DwarfFrame) :
    execute_insns load m cie start (start + length) f =
      EhStep.run load cie (ops.map (Op.insn cie)) f := by
  obtain ⟨post, hat⟩ := h.stands
  rw [h.length]
  exact execute_insns_at h.fits hat f

theorem finish_eq (hra : cie.returnAddressRegister.toNat < ARM64_PC) (f : DwarfFrame) : f.finish
    cie =
    some { f with regs := Function.update f.regs ARM64_PC (f.regs
      cie.returnAddressRegister.toNat - 4) } := by
  rw [DwarfFrame.finish, reg_of_lt f hra]
  rfl

/-- Behind a program the return address takes the place of the program counter. -/
theorem Made.Holds.finish {c : Nat → Word} {k limit back : Word} {s : Made} {f : DwarfFrame}
    (h : s.Holds load c k limit f) (hra : cie.returnAddressRegister.toNat < ARM64_PC)
    (hback : (s.rule cie.returnAddressRegister.toNat).value load c k
      cie.returnAddressRegister.toNat = some back) :
    ∃ g, f.finish cie = some g ∧ s.Holds load c k (back - 4) g := by
  refine ⟨_, finish_eq hra f, h.loc, ?_, fun r hr w hw => ?_, h.cfa, h.cfaRegister⟩
  · rw [← h.regs _ hra _ hback]
    exact Function.update_self ARM64_PC _ f.regs
  · change Function.update f.regs ARM64_PC _ r = w
    rw [Function.update_of_ne (Nat.ne_of_lt hr), h.regs r hr w hw]

/-- What `step` leaves. -/
theorem Made.Holds.caller {c : Nat → Word} {k limit : Word} {s : Made} {f : DwarfFrame}
    (h : s.Holds load c k limit f) (hra : cie.returnAddressRegister.toNat < ARM64_PC) :
    ∃ regs, (f.finish cie).map DwarfFrame.regs = some regs ∧
      (∀ r < ARM64_PC, ∀ v, (s.rule r).value load c k r = some v → regs r = v) ∧
      ∀ v, (s.rule cie.returnAddressRegister.toNat).value load c k
        cie.returnAddressRegister.toNat = some v → regs ARM64_PC = v - 4 := by
  refine ⟨Function.update f.regs ARM64_PC (f.regs cie.returnAddressRegister.toNat - 4),
    ?_, fun r hr v hv => ?_, fun v hv => ?_⟩
  · rw [finish_eq hra]
    rfl
  · rw [Function.update_of_ne (Nat.ne_of_lt hr), h.regs r hr v hv]
  · rw [Function.update_self, h.regs _ hra v hv]

/-- What has been made behind the common instructions. -/
def madeCommon (cie : Cie) (fde : Fde) (common : List Op) (c : Nat → Word) : Made :=
  (reached (c ARM64_PC) (BitVec.ofNat 64 fde.pcBegin) (common.map (Op.insn cie))).foldl
    (Made.next c) (Made.start (BitVec.ofNat 64 fde.pcBegin))

/-- The common instructions are proper as far as the program counter, and leave a
return address, `back`. -/
structure CommonMade (load : Word → Option Word) (m : Memory) (cie : Cie) (fde : Fde)
    (common : List Op) (c : Nat → Word) (k back : Word) : Prop where
  program : Program m cie cie.initialInstructions cie.instLength common
  returnAddress : cie.returnAddressRegister.toNat < ARM64_PC
  settles : (Made.start (BitVec.ofNat 64 fde.pcBegin)).Settles load c k
    (reached (c ARM64_PC) (BitVec.ofNat 64 fde.pcBegin) (common.map (Op.insn cie)))
  back : ((madeCommon cie fde common c).rule cie.returnAddressRegister.toNat).value load c k
    cie.returnAddressRegister.toNat = some back

variable {c : Nat → Word} {k back : Word}

theorem CommonMade.holds (h : CommonMade load m cie fde common c k back) : ∃ f,
    execute_insns load m cie cie.initialInstructions (cie.initialInstructions + cie.instLength)
      ⟨c, 0, BitVec.ofNat 64 fde.pcBegin, 0, 0⟩ = some f ∧
    (madeCommon cie fde common c).Holds load c k (back - 4) f := by
  have hstart : (Made.start (BitVec.ofNat 64 fde.pcBegin)).Holds load c k (c ARM64_PC)
      ⟨c, 0, BitVec.ofNat 64 fde.pcBegin, 0, 0⟩ :=
    ⟨rfl, rfl, fun r _ v hv => Option.some.inj hv, rfl, rfl⟩
  obtain ⟨g, hrun, hholds⟩ := hstart.run h.settles cie
  obtain ⟨f, hfinish, hholds'⟩ := Made.Holds.finish hholds h.returnAddress h.back
  exact ⟨f, by rw [h.program.run, hrun, hfinish], hholds'⟩

/-- The registers behind `step` are those of what was made. -/
theorem CommonMade.unwind (h : CommonMade load m cie fde common c k back) {start : Nat}
    (hstart : fde.callFrameInstructions = (start : Nat))
    (hprogram : Program m cie start fde.instLength own)
    {is : List (Insn Nat Word Word)}
    (his : is = reached (back - 4) (madeCommon cie fde common c).loc (own.map (Op.insn cie)))
    (hsettles : (madeCommon cie fde common c).Settles load c k is) {s : Made}
    (hs : s = is.foldl (Made.next c) (madeCommon cie fde common c)) :
    ∃ regs, unwind load m cie fde c = some regs ∧
      (∀ r < ARM64_PC, ∀ v, (s.rule r).value load c k r = some v → regs r = v) ∧
      ∀ v, (s.rule cie.returnAddressRegister.toNat).value load c k
        cie.returnAddressRegister.toNat = some v → regs ARM64_PC = v - 4 := by
  obtain ⟨f, hrun, hholds⟩ := h.holds
  subst his hs
  obtain ⟨g, hrun', hholds'⟩ := hholds.run hsettles cie
  have hunwind : EhStep.unwind load m cie fde c = (g.finish cie).map DwarfFrame.regs := by
    rw [EhStep.unwind, hrun, hstart, ← hrun', ← hprogram.run]
    exact (Option.map_eq_bind ..).symm
  rw [hunwind]
  exact hholds'.caller h.returnAddress

end Step

end EhStep
