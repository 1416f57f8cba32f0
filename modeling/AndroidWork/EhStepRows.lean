import AndroidWork.EhStepMade

/-!
# Unwinding steps and call frame tables

When the registers that `step` leaves are the caller's by the table of the
common and the own instructions of a function: the row is the one of the return
address less four, whatever the program counter, and what is read on the way to
it must not depend on what was already overwritten.
-/
namespace EhStep

open EhFrame
open EhFrameWalk (At IsLeb)
open CallFrames (Insn Rule Row Table reached reached_nops)

section Rows

variable (load : Word → Option Word) (c : Nat → Word) (k : Word)

/-- What an instruction must find in the table, if it is carried out at once: what
it reads is as it was in the callee, the canonical frame address of a saved
register is `k`, and nothing is restored that differs. -/
def Ready (t : Table Nat Word Word) : Insn Nat Word Word → Prop
  | .setRule r (.offset n) => r < ARM64_PC ∧ t.row.cfaValue c = some k ∧ (load (k + n)).isSome
  | .setRule r (.valOffset _) => r < ARM64_PC ∧ t.row.cfaValue c = some k
  | .setRule r (.register q) => r < ARM64_PC ∧ q < ARM64_PC ∧ t.row.rule q = .sameValue
  | .setRule r .sameValue => t.row.rule r = .sameValue
  | .restore r => t.row.rule r = t.initial r
  | .restoreState => (t.exec .restoreState).row = t.row
  | .defCfa r _ => r < ARM64_PC ∧ t.row.rule r = .sameValue
  | .defCfaRegister r => r < ARM64_PC ∧ ∀ p, t.row.cfa = some p → c r = c p.1
  | .defCfaOffset _ => ∃ p, t.row.cfa = some p ∧ t.row.rule p.1 = .sameValue
  | _ => True

/-- Every instruction up to `limit` finds what it must; padding is at the end. -/
def Settled (limit : Word) : List (Insn Nat Word Word) → Table Nat Word Word → Prop
  | [], _ => True
  | i :: is, t => t.loc ≤ limit → if i = .nop then
    ∀ j ∈ is, j = .nop else Ready load c k t i ∧ Settled limit is (t.exec i)

/-- What was made is what the table says. -/
structure Agrees (t : Table Nat Word Word) (s : Made) : Prop where
  loc : s.loc = t.loc
  rule : ∀ r < ARM64_PC, t.row.rule r ≠ .undefined → s.rule r = t.row.rule r
  cfa : ∀ p, t.row.cfa = some p → p.1 < ARM64_PC ∧ s.cfaRegister = p.1 ∧ s.cfa = c p.1 + p.2

variable {load c k} {limit : Word} {t : Table Nat Word Word} {s : Made}

theorem Settled.cons {i : Insn Nat Word Word} {is : List (Insn Nat Word Word)} (hnop : i ≠ .nop)
    (hready : Ready load c k t i) (h : Settled load c k limit is (t.exec i)) :
    Settled load c k limit (i :: is) t := by
  intro _
  rw [if_neg hnop]
  exact ⟨hready, h⟩

theorem Agrees.cfa_eq (h : Agrees c t s) (hk : t.row.cfaValue c = some k) : s.cfa = k := by
  obtain ⟨p, hp, rfl⟩ := Option.map_eq_some_iff.mp hk
  exact (h.cfa p hp).2.2

theorem Agrees.same (h : Agrees c t s) {r : Nat} (hr : r < ARM64_PC)
    (hsame : t.row.rule r = .sameValue) : s.rule r = .sameValue := by
  rw [h.rule r hr (by rw [hsame]; exact nofun), hsame]

theorem Agrees.setRule (h : Agrees c t s) (r : Nat) (rule : Rule Nat Word) :
    Agrees c (t.exec (.setRule r rule)) { s with rule := Function.update s.rule r rule } := by
  refine ⟨h.loc, fun q hq hdefined => ?_, h.cfa⟩
  change (t.row.set r rule).rule q ≠ .undefined at hdefined
  change Function.update s.rule r rule q = (t.row.set r rule).rule q
  by_cases hqr : q = r
  · subst hqr
    rw [Function.update_self, Row.set_same]
  · rw [Row.set_other _ _ hqr] at hdefined ⊢
    rw [Function.update_of_ne hqr, h.rule q hq hdefined]

theorem Agrees.value (h : Agrees c t s) {r : Nat} (hr : r < ARM64_PC) {v : Word}
    (hv : (t.row.rule r).value load c k r = some v) : (s.rule r).value load c k r = some v := by
  rw [h.rule r hr ?_, hv]
  intro hundefined
  rw [hundefined] at hv
  cases hv

/-- One instruction. -/
theorem Agrees.exec (h : Agrees c t s) {i : Insn Nat Word Word} (hready : Ready load c k t i) :
    s.Proper load k i ∧ Agrees c (t.exec i) (s.next c i) := by
  cases i with
  | advance delta => exact ⟨trivial, congrArg (· + delta) h.loc, h.rule, h.cfa⟩
  | setRule r rule =>
    cases rule with
    | undefined =>
      refine ⟨trivial, h.loc, fun q hq hdefined => ?_, h.cfa⟩
      change (t.row.set r .undefined).rule q ≠ .undefined at hdefined
      change s.rule q = (t.row.set r .undefined).rule q
      by_cases hqr : q = r
      · subst hqr
        exact absurd (Row.set_same ..) hdefined
      · rw [Row.set_other _ _ hqr] at hdefined ⊢
        exact h.rule q hq hdefined
    | sameValue =>
      have hrow : t.exec (.setRule r .sameValue) = t := by
        rw [Table.exec, Row.set_self hready]
      rw [hrow]
      exact ⟨trivial, h⟩
    | offset n =>
      obtain ⟨hr, hk, hload⟩ := hready
      exact ⟨⟨hr, h.cfa_eq hk, hload⟩, h.setRule r _⟩
    | valOffset n => exact ⟨⟨hready.1, h.cfa_eq hready.2⟩, h.setRule r _⟩
    | register q =>
      obtain ⟨hr, hq, hsame⟩ := hready
      exact ⟨⟨hr, hq, h.same hq hsame⟩, h.setRule r _⟩
  | restore r =>
    have hrow : t.exec (.restore r) = t := by
      rw [Table.exec, Row.set_self hready]
    rw [hrow]
    exact ⟨trivial, h⟩
  | rememberState => exact ⟨trivial, h.loc, h.rule, h.cfa⟩
  | restoreState =>
    have hrow : (t.exec .restoreState).row = t.row := hready
    exact ⟨trivial, h.loc.trans (t.exec_loc .restoreState).symm, hrow ▸ h.rule, hrow ▸ h.cfa⟩
  | defCfa r n =>
    obtain ⟨hr, hsame⟩ := hready
    refine ⟨⟨hr, h.same hr hsame⟩, h.loc, h.rule, fun p hp => ?_⟩
    cases hp
    exact ⟨hr, rfl, rfl⟩
  | defCfaRegister r =>
    obtain ⟨hr, hsame⟩ := hready
    refine ⟨trivial, h.loc, h.rule, fun p hp => ?_⟩
    obtain ⟨q, hq, rfl⟩ := Option.map_eq_some_iff.mp hp
    exact ⟨hr, rfl, by rw [hsame q hq]; exact (h.cfa q hq).2.2⟩
  | defCfaOffset n =>
    obtain ⟨p, hp, hsame⟩ := hready
    obtain ⟨hlt, hregister, -⟩ := h.cfa p hp
    refine ⟨⟨hregister ▸ hlt, by rw [hregister]; exact h.same hlt hsame⟩, h.loc, h.rule, ?_⟩
    intro q hq
    change t.row.cfa.map (fun p => (p.1, n)) = some q at hq
    rw [hp] at hq
    cases hq
    exact ⟨hlt, hregister, congrArg (c · + n) hregister⟩
  | nop => exact ⟨trivial, h⟩

/-- A whole program, up to the limit. -/
theorem Agrees.run {is : List (Insn Nat Word Word)} (h : Agrees c t s)
    (hsettled : Settled load c k limit is t) :
    s.Settles load c k (reached limit t.loc is) ∧
      Agrees c (t.upTo limit is) ((reached limit t.loc is).foldl (Made.next c) s) := by
  induction is generalizing t s with
  | nil => exact ⟨trivial, h⟩
  | cons i is ih =>
    rw [reached, Table.upTo]
    by_cases hloc : t.loc ≤ limit
    · have hrest := hsettled hloc
      rw [if_pos hloc, if_pos hloc, Made.Settles, List.foldl_cons]
      by_cases hnop : i = .nop
      · rw [if_pos hnop] at hrest ⊢
        have hnops := reached_nops hrest limit (i.loc t.loc)
        subst hnop
        have hrow : t.exec .nop = t := rfl
        rw [hrow, Table.upTo_nops hrest]
        exact ⟨hnops, by rw [Made.foldl_nops hnops]; exact h⟩
      · rw [if_neg hnop] at hrest ⊢
        obtain ⟨hproper, hexec⟩ := h.exec hrest.1
        obtain ⟨hsettles, hagrees⟩ := ih hexec hrest.2
        rw [Table.exec_loc] at hsettles hagrees
        exact ⟨⟨hproper, hsettles⟩, hagrees⟩
    · rw [if_neg hloc, if_neg hloc]
      exact ⟨trivial, h⟩

end Rows

section Step

variable {load : Word → Option Word} {m : Memory} {cie : Cie} {fde : Fde} {common own : List Op}

/-- The table behind the common instructions. -/
def commonTable (cie : Cie) (fde : Fde) (common : List Op) : Table Nat Word Word :=
  (Table.start (BitVec.ofNat 64 fde.pcBegin)).common (common.map (Op.insn cie))

theorem upTo_still {limit : Word} {is : List (Insn Nat Word Word)}
    (hstill : ∀ i ∈ is, ∀ delta, i ≠ .advance delta)
    {t : Table Nat Word Word} (hloc : t.loc ≤ limit) :
    t.upTo limit is = is.foldl Table.exec t ∧ (is.foldl Table.exec t).loc = t.loc := by
  induction is generalizing t with
  | nil => exact ⟨rfl, rfl⟩
  | cons i is ih =>
    obtain ⟨hi, his⟩ := List.forall_mem_cons.mp hstill
    have hexec : (t.exec i).loc = t.loc := by
      rw [Table.exec_loc]
      cases i with
      | advance delta => exact absurd rfl (hi delta)
      | _ => rfl
    obtain ⟨hupTo, hfold⟩ := ih his (t := t.exec i) (by rwa [hexec])
    rw [Table.upTo, if_pos hloc]
    exact ⟨hupTo, hfold.trans hexec⟩

/-- The common instructions settle, leave the return address alone and stay at the
begin of the function. -/
structure CommonSettled (load : Word → Option Word) (m : Memory) (cie : Cie) (fde : Fde)
    (common : List Op) (c : Nat → Word) (k : Word) :
    Prop where
  program : Program m cie cie.initialInstructions cie.instLength common
  returnAddress : cie.returnAddressRegister.toNat < ARM64_PC
  still : ∀ op ∈ common, ∀ delta, op.insn cie ≠ .advance delta
  begins : BitVec.ofNat 64 fde.pcBegin ≤ c ARM64_PC
  settled : Settled load c k (c ARM64_PC) (common.map (Op.insn cie))
    (Table.start (BitVec.ofNat 64 fde.pcBegin))
  keeps : (commonTable cie fde common).row.rule cie.returnAddressRegister.toNat = .sameValue

theorem CommonSettled.made {c : Nat → Word} {k : Word}
    (h : CommonSettled load m cie fde common c k) :
    (commonTable cie fde common).loc = BitVec.ofNat 64 fde.pcBegin ∧
      Agrees c (commonTable cie fde common) (madeCommon cie fde common c) ∧
      CommonMade load m cie fde common c k (c cie.returnAddressRegister.toNat) := by
  have hstart : Agrees c (Table.start (BitVec.ofNat 64 fde.pcBegin))
      (Made.start (BitVec.ofNat 64 fde.pcBegin)) := by
    refine ⟨rfl, fun _ _ _ => rfl, fun p hp => ?_⟩
    cases hp
  have hstill : ∀ i ∈ common.map (Op.insn cie), ∀ delta, i ≠ .advance delta := by
    intro i hi delta
    obtain ⟨op, hop, rfl⟩ := List.mem_map.mp hi
    exact h.still op hop delta
  obtain ⟨hsettles, hagrees⟩ := hstart.run h.settled
  obtain ⟨hupTo, hloc⟩ := upTo_still hstill
    (t := Table.start (BitVec.ofNat 64 fde.pcBegin)) h.begins
  rw [hupTo] at hagrees
  have hcommon : Agrees c (commonTable cie fde common) (madeCommon cie fde common c) :=
    ⟨hagrees.loc, hagrees.rule, hagrees.cfa⟩
  refine ⟨hloc, hcommon, h.program, h.returnAddress, hsettles, ?_⟩
  rw [hcommon.same h.returnAddress h.keeps]
  rfl

end Step

end EhStep
