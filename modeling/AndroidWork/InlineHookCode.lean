import AndroidWork.ArmTrampoline
import AndroidWork.InlineHookMemory
import AndroidWork.ThumbTrampoline

/-!
# Hooked functions when they are called

What the processor does at the target of a hooked item and at the address that
`proto_addr` was given: the one leads to the new function, the other does what
the target did before.
-/
namespace InlineHook

open ArmMachine CodeRelocation

variable {p : Process} {i : Nat}

section Bits

theorem TEST_BIT0_eq (a : Word) : TEST_BIT0 a = decide (a.toNat % 2 = 1) := by
  have h : (a &&& 1).toNat = a.toNat % 2 := by
    rw [BitVec.toNat_and]
    exact Nat.and_one_is_mod _
  rw [TEST_BIT0, decide_eq_decide]
  constructor
  · intro hne
    have : (a &&& 1).toNat ≠ 0 := fun hzero => hne (BitVec.eq_of_toNat_eq hzero)
    omega
  · intro hone hzero
    rw [hzero] at h
    have : (0 : Word).toNat = 0 := rfl
    omega

theorem toNat_CLEAR_BIT0 (a : Word) : (CLEAR_BIT0 a).toNat = a.toNat / 2 * 2 := toNat_and_not_one a

theorem CLEAR_BIT0_of_arm {a : Word} (h : TEST_BIT0 a = false) : CLEAR_BIT0 a = a := by
  rw [TEST_BIT0_eq] at h
  have := of_decide_eq_false h
  apply BitVec.eq_of_toNat_eq
  rw [toNat_CLEAR_BIT0]
  omega

theorem CLEAR_BIT0_of_thumb {a : Word} (h : TEST_BIT0 a = true) : CLEAR_BIT0 a = a - 1 := by
  rw [TEST_BIT0_eq] at h
  have := of_decide_eq_true h
  apply BitVec.eq_of_toNat_eq
  rw [toNat_CLEAR_BIT0]
  bv_omega

end Bits

section Target

theorem Kept.patched {code pool : Word → Prop} {m₀ : Memory}
    (h : Kept code pool m₀ p) (hi : i < p.size)
    (hhooked : (p.item i).status = .HOOKED) :
    bytesAt p.mem (CLEAR_BIT0 (p.item i).target_addr)
    (patch (p.item i).target_addr (p.item i).new_addr).length =
      patch (p.item i).target_addr (p.item i).new_addr := by
  have hlength : (patch (p.item i).target_addr (p.item i).new_addr).length ≤ 2 ^ 32 :=
    Nat.le_trans (length_patch ..) (Nat.le_trans (windowLength_le _) (by decide))
  nth_rewrite 2 [← bytesAt_put m₀ (CLEAR_BIT0 (p.item i).target_addr) hlength]
  exact bytesAt_congr hlength fun b hb => h.hooked i hi hhooked m₀ b hb

/-- From the target of a hooked item on ARM code comes to the new function. -/
theorem arm_redirected {other : Word → Core → Option Core} {t new : Word} {c : Core}
    (hbit : TEST_BIT0 t = false)
    (hpatch : bytesAt c.mem t (patch t new).length = patch t new) {f : Flow}
    (hf : branchExchange new = some f) (follow : Word) :
    Steps (ArmInstructions.step other) ⟨c, t, false⟩ (land follow false (c, f)) := by
  have hbytes : patch t new = [0xe51ff004, new].flatMap wordBytes := by
    rw [patch, if_neg (by simp [hbit])]
  rw [hbytes, length_wordBytes] at hpatch
  exact ArmRelocation.jump_steps (stored_of_wordBytes hpatch) hf follow

/-- So does Thumb code, by way of a NOP where the target is no multiple of four. -/
theorem thumb_redirected {other : ThumbInstructions.Code → Core → Option Core} {t new : Word}
    {c : Core} (hbit : TEST_BIT0 t = true)
    (hpatch : bytesAt c.mem (CLEAR_BIT0 t) (patch t new).length = patch t new) {f : Flow}
    (hf : branchExchange new = some f)
    (follow : Word) : Steps (ThumbInstructions.step other) ⟨c, CLEAR_BIT0 t, true⟩
      (land follow true (c, f)) := by
  have heven : (CLEAR_BIT0 t).toNat % 2 = 0 := by
    rw [toNat_CLEAR_BIT0]
    omega
  by_cases haligned : (CLEAR_BIT0 t).toNat % 4 = 0
  · have hbytes : patch t new = [0xF8DF, 0xF000, ThumbRelocation.lowHalf new,
        ThumbRelocation.highHalf new].flatMap halfBytes := by
      rw [patch, if_pos hbit, if_neg (not_not_intro haligned)]
      rfl
    rw [hbytes, length_halfBytes] at hpatch
    exact ThumbRelocation.jump_steps haligned (stored_of_halfBytes hpatch) hf follow
  · have hbytes : patch t new =
        [0xBF00, 0xF8DF, 0xF000, ThumbRelocation.lowHalf new,
          ThumbRelocation.highHalf new].flatMap halfBytes := by
      rw [patch, if_pos hbit, if_pos haligned]
      rfl
    rw [hbytes, length_halfBytes] at hpatch
    obtain ⟨hnop, hjump⟩ := stored_of_halfBytes hpatch
    have hstep : ThumbInstructions.step other ⟨c, CLEAR_BIT0 t, true⟩ =
      some ⟨c, CLEAR_BIT0 t + 2, true⟩ := by
      rw [ThumbInstructions.step_narrow hnop (by decide), ThumbRelocation.effect_nop]
      rfl
    exact .next hstep (ThumbRelocation.jump_steps (by bv_omega) hjump hf follow)

/-- In every run, whoever comes to the target of a hooked item arrives at its new
function, in the instruction set of the latter's bit 0 and with all registers,
flags and memory as they were. -/
theorem hooked_redirects {code pool : Word → Prop} (hpool : ∀ b, pool b → code b) {m₀ : Memory}
    {threads : List Word}
    {maps : List Mapping} (h : Reachable (Admissible code pool) (.start m₀ threads maps) p)
    (hi : i < p.size)
    (hhooked : (p.item i).status = .HOOKED) {a : Word} {thumb : Bool}
    (hf : branchExchange (p.item i).new_addr = some (.jump a thumb)) {c : Core} (hc : c.mem = p.mem)
    (other : Word → Core → Option Core) (other' : ThumbInstructions.Code → Core → Option Core) :
    Steps (if TEST_BIT0 (p.item i).target_addr then
      ThumbInstructions.step other' else ArmInstructions.step other)
      ⟨c, CLEAR_BIT0 (p.item i).target_addr, TEST_BIT0 (p.item i).target_addr⟩ ⟨c, a, thumb⟩ := by
  have hpatch := (kept_reachable hpool h).patched hi hhooked
  rw [← hc] at hpatch
  cases hbit : TEST_BIT0 (p.item i).target_addr with
  | true => exact thumb_redirected hbit hpatch hf 0
  | false =>
    rw [CLEAR_BIT0_of_arm hbit] at hpatch ⊢
    exact arm_redirected hbit hpatch hf 0

def sampleCore (p : Process) : Core := { coreWith [] clearFlags with mem := p.mem }

theorem hooked_redirects_branch : Steps (ArmInstructions.step fun _ _ => none)
    ⟨sampleCore (sampleHooked 0xEAFFFFFE 0x100), 0x100, false⟩
      ⟨sampleCore (sampleHooked 0xEAFFFFFE 0x100), 0x200, false⟩ := by
  have hreachable := sampleHooked_reachable (w := 0xEAFFFFFE) (t := 0x100) (.inl rfl) (by decide)
  have hnew : branchExchange ((sampleHooked 0xEAFFFFFE 0x100).item 0).new_addr =
      some (.jump 0x200 false) := by decide
  exact hooked_redirects samplePool_code hreachable (i := 0) (by decide) (by decide) hnew rfl
    (fun _ _ => none) (fun _ _ => none)

end Target

section Trampoline

variable {code pool : Word → Prop} {m₀ : Memory}

/-- The core finds the trampoline and the literal pool as they are in the process. -/
def Agrees (pool : Word → Prop) (p : Process) (item : InlineHookItem) (c : Core) : Prop :=
  ∀ b, Page item b ∨ pool b → c.mem b = p.mem b

theorem Agrees.literal {item : InlineHookItem} {c : Core} (hpool : ∀ b, pool b → code b)
    (h : Kept code pool m₀ p)
    (hc : Agrees pool p item c) {x : Word} (hx : ∀ b, Inside x 4 b → pool b) :
    word c.mem x = word m₀ x := by
  refine word_congr fun b hb => ?_
  have hb := hx b hb
  rw [hc b (.inr hb)]
  exact h.plain b (hpool b hb) fun j hj _ hpatched => (h.windows j hj b hpatched.window).2 hb

theorem Standing.bytes {item : InlineHookItem} (h : Standing pool m₀ p.mem item) :
    ∃ load : Word → Word, (∀ x, (∀ b, Inside x 4 b → pool b) → load x = word m₀ x) ∧
      ∀ c, Agrees pool p item c → bytesAt c.mem item.trampoline_instructions
        (relocateInstruction load item.target_addr item.orig_instructions).1.length =
          (relocateInstruction load item.target_addr item.orig_instructions).1 := by
  obtain ⟨load, hload, hle, hbytes⟩ := h
  refine ⟨load, hload, fun c hc => ?_⟩
  rw [bytesAt_congr (Nat.le_trans hle (by decide)) fun b hb => hc b (.inl (hb.mono hle))]
  exact hbytes

open ArmTrampoline in
/-- In every run, from every boundary on the trampoline of an ARM item does what
the instructions that stood at its target in the beginning do there, if all of
them are relocatable and load only from the pool. -/
theorem arm_item_runs (hpool : ∀ b, pool b → code b) {threads : List Word} {maps : List Mapping}
    (h : Reachable (Admissible code pool) (.start m₀ threads maps) p) (hi : i < p.size)
    (hbit : TEST_BIT0 (p.item i).target_addr = false)
    (htarget : (p.item i).target_addr.toNat % 4 = 0)
    (hpage : (p.item i).trampoline_instructions.toNat % 4 = 0)
    (hright : ∀ w ∈ words (bytesAt m₀ (p.item i).target_addr 8), ArmRelocation.relocatable w = true)
    (hliterals : All (fun _ => 4) (fun w a => Relocate.getTypeInArm w = .ldrArm →
      ∀ b, Inside (ArmRelocation.literal (a + 8) w) 4 b → pool b) (p.item i).target_addr
        (words (bytesAt m₀ (p.item i).target_addr 8)))
    (other : Word → Core → Option Core) :
    ∃ load : Word → Word, ∀ k q, (relocateInstruction load (p.item i).target_addr
      (p.item i).orig_instructions).2[k]? = some q →
      ∀ c s, Runs (fun v : Word × Word => relocatedEffect other v.1 v.2)
      (fun v => ArmRelocation.spill v.1) (fun _ => 4)
        (Agrees pool p (p.item i)) false ((p.item i).target_addr + BitVec.ofNat 32 q.1)
        (((relocation load).linked (p.item i).target_addr (p.item i).trampoline_instructions
          (words (bytesAt m₀ (p.item i).target_addr 8))).drop k) c s →
      Steps (ArmInstructions.step other) ⟨c,
        (p.item i).trampoline_instructions + BitVec.ofNat 32 q.2, false⟩ s := by
  have hkept := kept_reachable hpool h
  have horig : (p.item i).orig_instructions = bytesAt m₀ (p.item i).target_addr 8 := by
    rw [hkept.saved i hi, CLEAR_BIT0_of_arm hbit, windowLength, if_neg (by simp [hbit])]
  obtain ⟨load, hload, hbytes⟩ := (hkept.standing i hi).bytes
  have hrelocate : relocateInstruction load (p.item i).target_addr (p.item i).orig_instructions =
      ((Relocate.relocateInstructionInArm load (p.item i).target_addr
          (words (bytesAt m₀ (p.item i).target_addr 8))).trampoline_instructions.flatMap wordBytes,
        (Relocate.relocateInstructionInArm load (p.item i).target_addr
          (words (bytesAt m₀ (p.item i).target_addr 8))).boundaries) := by
    rw [relocateInstruction, if_neg (by simp [hbit]), horig]
  rw [hrelocate] at hbytes
  refine ⟨load, fun k q hq c s hruns => ?_⟩
  rw [hrelocate] at hq
  obtain ⟨haddr, hchunk⟩ :=
    boundaries_addr (p.item i).target_addr (p.item i).trampoline_instructions 0 0
    (BitVec.add_zero _).symm (BitVec.add_zero _).symm hq
  refine (laid htarget hpage hright).steps right haddr hchunk (hruns.mono fun c' hc' => ⟨?_, ?_⟩)
  · have hstored := hbytes c' hc'
    rw [length_wordBytes] at hstored
    exact stored_of_wordBytes hstored
  · refine hliterals.mono fun w a hw htype => ?_
    rw [hc'.literal hpool hkept (hw htype), hload _ (hw htype)]

open ArmTrampoline CodeRelocation in
theorem arm_item_runs_second : Steps (ArmInstructions.step fun _ _ => none)
    ⟨sampleCore (sampleHooked 0xEAFFFFFE 0x100), 0x1000 + BitVec.ofNat 32 8, false⟩
    ⟨sampleCore (sampleHooked 0xEAFFFFFE 0x100), 0x104, false⟩ := by
  have hreachable := sampleHooked_reachable (w := 0xEAFFFFFE) (t := 0x100) (.inl rfl) (by decide)
  have htype : Relocate.getTypeInArm 0xEAFFFFFE = .bArm := by decide
  have hright : ArmRelocation.relocatable 0xEAFFFFFE = true := by
    rw [ArmRelocation.relocatable, htype]
    decide
  have hwords : words (bytesAt (sample 0xEAFFFFFE).mem 0x100 8) = [0xEAFFFFFE, 0xEAFFFFFE] := by
    decide
  obtain ⟨load, hruns⟩ := arm_item_runs samplePool_code hreachable (i := 0) (by decide) (by decide)
    (by decide) (by decide)
    (by
      change ∀ w ∈ words (bytesAt (sample 0xEAFFFFFE).mem 0x100 8), _
      rw [hwords]
      exact List.forall_mem_cons.mpr ⟨hright, List.forall_mem_singleton.mpr hright⟩)
    (by
      change All _ _ 0x100 (words (bytesAt (sample 0xEAFFFFFE).mem 0x100 8))
      rw [hwords]
      exact ⟨fun h => absurd (htype.symm.trans h) (by decide),
        fun h => absurd (htype.symm.trans h) (by decide), trivial⟩)
    (fun _ _ => none)
  refine hruns 1 (4, 8) rfl _ _ ?_
  change Runs _ _ _ _ _ _
    (((relocation load).linked 0x100 0x1000 (words (bytesAt (sample 0xEAFFFFFE).mem 0x100 8))).drop
      1) _ _
  rw [hwords]
  have hspill (c : Core) : ArmRelocation.spill 0xEAFFFFFE c = c := if_neg (by decide)
  have hbranch (back : Word) (c : Core) :
      relocatedEffect (fun _ _ => none) 0xEAFFFFFE back 0x104 c = some (c, .jump 0x104 false) := by
    rw [relocatedEffect, ArmInstructions.effect_always (.inl (by decide)),
      show ArmInstructions.decode (ArmRelocation.unconditional 0xEAFFFFFE) = .b 0xFFFFFE by decide]
    rfl
  refine .jump (fun b _ => rfl) (fun b _ => ?_) ?_
  · rw [hspill]
    rfl
  · rw [hspill]
    exact hbranch _ _

open ThumbTrampoline in
/-- So does the trampoline of a Thumb item. -/
theorem thumb_item_runs (hpool : ∀ b, pool b → code b) {threads : List Word} {maps : List Mapping}
    (h : Reachable (Admissible code pool) (.start m₀ threads maps) p) (hi : i < p.size)
    (hbit : TEST_BIT0 (p.item i).target_addr = true)
    (hpage : (p.item i).trampoline_instructions.toNat % 4 = 0)
    (hright : All ThumbInstructions.Code.size (fun v a => ThumbRelocation.relocatable v a = true)
      ((p.item i).target_addr - 1)
      (codes (halves (bytesAt m₀ ((p.item i).target_addr - 1) 12))))
    (hliterals : All ThumbInstructions.Code.size (fun v a => ThumbRelocation.loads v →
      ∀ b, Inside (ThumbRelocation.literal v a) 4 b → pool b) ((p.item i).target_addr - 1)
      (codes (halves (bytesAt m₀ ((p.item i).target_addr - 1) 12))))
    (other : ThumbInstructions.Code → Core → Option Core) :
    ∃ load : Word → Word, ∀ k q, (relocateInstruction load (p.item i).target_addr
      (p.item i).orig_instructions).2[k]? = some q →
      ∀ c s, Runs (fun v : ThumbInstructions.Code × Word => relocatedEffect other v.1 v.2)
      (fun v => ThumbRelocation.spill v.1)
        (fun v => v.1.size) (Agrees pool p (p.item i)) true
          ((p.item i).target_addr - 1 + BitVec.ofNat 32 q.1)
        (((relocation load).linked ((p.item i).target_addr - 1) (p.item i).trampoline_instructions
          (codes (halves (bytesAt m₀ ((p.item i).target_addr - 1) 12)))).drop k) c s →
      Steps (ThumbInstructions.step other)
        ⟨c, (p.item i).trampoline_instructions + BitVec.ofNat 32 q.2, true⟩ s := by
  have hkept := kept_reachable hpool h
  have heven : ((p.item i).target_addr - 1).toNat % 2 = 0 := by
    rw [← CLEAR_BIT0_of_thumb hbit, toNat_CLEAR_BIT0]
    omega
  have horig : (p.item i).orig_instructions = bytesAt m₀ ((p.item i).target_addr - 1) 12 := by
    rw [hkept.saved i hi, CLEAR_BIT0_of_thumb hbit, windowLength, if_pos hbit]
  obtain ⟨load, hload, hbytes⟩ := (hkept.standing i hi).bytes
  have hrelocate : relocateInstruction load (p.item i).target_addr (p.item i).orig_instructions =
      ((Relocate.relocateInstructionInThumb load ((p.item i).target_addr - 1)
          (halves (bytesAt m₀ ((p.item i).target_addr - 1) 12))).trampoline_instructions.flatMap
            halfBytes,
        (Relocate.relocateInstructionInThumb load ((p.item i).target_addr - 1)
          (halves (bytesAt m₀ ((p.item i).target_addr - 1) 12))).boundaries) := by
    rw [relocateInstruction, if_pos hbit, horig]
  rw [hrelocate] at hbytes
  refine ⟨load, fun k q hq c s hruns => ?_⟩
  rw [hrelocate] at hq
  obtain ⟨haddr, hchunk⟩ := boundaries_addr ((p.item i).target_addr - 1)
    (p.item i).trampoline_instructions (o := 0) (b := 0)
    (BitVec.add_zero _).symm (BitVec.add_zero _).symm hq
  refine (laid heven hpage hright).steps right haddr hchunk (hruns.mono fun c' hc' => ⟨?_, ?_⟩)
  · have hstored := hbytes c' hc'
    rw [length_halfBytes] at hstored
    exact stored_of_halfBytes hstored
  · refine hliterals.mono fun v a hv hloads => ?_
    rw [hc'.literal hpool hkept (hv hloads), hload _ (hv hloads)]

open ThumbTrampoline CodeRelocation in
theorem thumb_item_runs_second : Steps (ThumbInstructions.step fun _ _ => none)
    ⟨sampleCore (sampleHooked 0xBFFEF7FF 0x101), 0x1000 + BitVec.ofNat 32 8, true⟩
    ⟨sampleCore (sampleHooked 0xBFFEF7FF 0x101), 0x104, true⟩ := by
  have hreachable := sampleHooked_reachable (w := 0xBFFEF7FF) (t := 0x101) (.inr rfl) (by decide)
  have htype : Relocate.getTypeInThumb32 ((0xF7FF : Half) ++ (0xBFFE : Half)) = .b2Thumb32 := by
    decide
  have hright (a : Word) : ThumbRelocation.relocatable (.wide 0xF7FF 0xBFFE) a = true := by
    rw [ThumbRelocation.relocatable, htype]
    rfl
  have hcodes : codes (halves (bytesAt (sample 0xBFFEF7FF).mem 0x100 12)) =
      [.wide 0xF7FF 0xBFFE, .wide 0xF7FF 0xBFFE, .wide 0xF7FF 0xBFFE] := by decide
  have hload : ¬ ThumbRelocation.loads (.wide 0xF7FF 0xBFFE) :=
    fun h => absurd (htype.symm.trans h) (by decide)
  obtain ⟨load, hruns⟩ := thumb_item_runs samplePool_code hreachable (i := 0) (by decide)
    (by decide) (by decide)
    (by
      change All _ _ 0x100 (codes (halves (bytesAt (sample 0xBFFEF7FF).mem 0x100 12)))
      rw [hcodes]
      exact ⟨hright _, hright _, hright _, trivial⟩)
    (by
      change All _ _ 0x100 (codes (halves (bytesAt (sample 0xBFFEF7FF).mem 0x100 12)))
      rw [hcodes]
      exact ⟨fun h => absurd h hload, fun h => absurd h hload, fun h => absurd h hload, trivial⟩)
    (fun _ _ => none)
  refine hruns 1 (4, 8) rfl _ _ ?_
  change Runs _ _ _ _ _ _
    (((relocation load).linked 0x100 0x1000
      (codes (halves (bytesAt (sample 0xBFFEF7FF).mem 0x100 12)))).drop 1) _ _
  rw [hcodes]
  have hspill (c : Core) : ThumbRelocation.spill (.wide 0xF7FF 0xBFFE) c = c := rfl
  have hbranch (back : Word) (c : Core) :
      relocatedEffect (fun _ _ => none) (.wide 0xF7FF 0xBFFE) back 0x104 c =
        some (c, .jump 0x104 true) := by
    rw [relocatedEffect, ThumbInstructions.effect,
      show ThumbInstructions.decode (.wide 0xF7FF 0xBFFE) = .b (-4) by decide,
      ThumbInstructions.perform, Option.map_some, ThumbRelocation.relink, htype]
    rfl
  exact .jump (fun b _ => rfl) (fun b _ => rfl) (hbranch _ _)

end Trampoline

end InlineHook
