import AndroidWork.ArmRelocation
import AndroidWork.CodeRelocation

/-!
# Whole runs through an ARM trampoline

The instructions given to `relocateInstructionInArm`, executed at their own
address, against its trampoline, from any of the boundaries on.
-/
namespace ArmTrampoline

open ArmMachine ArmInstructions CodeRelocation Relocate InstructionType
open ArmRelocation (relocatable unconditional always relink spill literal chunk_steps jump_steps)

variable {other : Word → Core → Option Core} {load : Word → Word} {target t : Word} {ws : List Word}

def relocation (load : Word → Word) : Relocation Word 32 where
  size := fun _ => 4
  chunk := fun w a => relocateInArm load (a + 8) w
  ending := fun a => [0xe51ff004, a]
  thumb := false
  read := word
  unit := 4

/-- The word of the literal pool that an instruction loads is what it was. -/
def LiteralKept (load : Word → Word) (c : Core) (w a : Word) : Prop :=
  getTypeInArm w = ldrArm → word c.mem (literal (a + 8) w) = load (literal (a + 8) w)

/-- An instruction as its chunk has it: without condition where the chunk has
none, and with a return address in the trampoline. -/
def relocatedEffect (other : Word → Core → Option Core) (w back a : Word) (c : Core) :
    Option (Core × Flow) :=
  (effect other (unconditional w) a c).map (relink back w)

/-- The trampoline of the instructions of address `target` stands at `t`, and the
words they load are what they were when they were relocated. -/
structure Installed (load : Word → Word) (target t : Word) (ws : List Word) (c : Core) : Prop where
  code : Stored (word c.mem) 4 t (relocateInstructionInArm load target ws).trampoline_instructions
  literals : All (fun _ => 4) (LiteralKept load c) target ws

theorem aligned_add (ht : t.toNat % 4 = 0) (n : Nat) :
    (t + 4 * BitVec.ofNat 32 n).toNat % 4 = 0 := by
  have h : (t + 4 * BitVec.ofNat 32 n).toNat = (t.toNat + 4 * (n % 2 ^ 32) % 2 ^ 32) % 2 ^ 32 := by
    rw [BitVec.toNat_add, BitVec.toNat_mul, BitVec.toNat_ofNat]
    rfl
  omega

theorem right : (relocation load).Right (relocatedEffect other) spill (step other)
    (fun w _ => relocatable w = true)
    (LiteralKept load) (fun a => a.toNat % 4 = 0) (fun t => t.toNat % 4 = 0) := by
  constructor
  · intro w a ha _
    change (a + 4).toNat % 4 = 0
    bv_omega
  · exact fun w a t ht => aligned_add ht _
  · intro w a t c r ha hright ht hmem hmem' hliteral h _
    obtain ⟨r', heffect, rfl⟩ := Option.map_eq_some_iff.mp h
    exact chunk_steps ha ht hright hmem hmem' hliteral heffect
  · exact fun a t c ha _ hmem => jump_steps hmem (branchExchange_of_aligned ha) 0

theorem emitted_eq (a : Word) (o b : Nat) :
    (relocateInArmLoop load (a + 8) o b ws).trampoline_instructions ++
      [0xe51ff004, a + BitVec.ofNat 32 (4 * ws.length)] =
      (relocation load).emitted a ws := by
  induction ws generalizing a o b with
  | nil =>
    rw [List.length_nil, show a + BitVec.ofNat 32 (4 * 0) = a from BitVec.add_zero a]
    rfl
  | cons w ws ih =>
    rw [Relocation.emitted, ← ih _ (o + 1) (b + (relocateInArm load (a + 8) w).length),
      relocateInArmLoop,
      List.append_assoc, List.length_cons, Nat.mul_succ, Nat.add_comm (4 * ws.length),
      BitVec.ofNat_add, ← BitVec.add_assoc,
      show a + 8 + 4 = a + 4 + 8 by bv_omega]
    rfl

theorem boundaries_addr (base base' : Word) {a t : Word} (o b : Nat) {k : Nat} {p : Nat × Nat}
    (ha : a = base + BitVec.ofNat 32 (o * 4))
    (ht : t = base' + BitVec.ofNat 32 (b * 4))
    (h : (relocateInArmLoop load (a + 8) o b ws).boundaries[k]? = some p) :
    (relocation load).addr a ws k = base + BitVec.ofNat 32 p.1 ∧
      (relocation load).chunkAddr a t ws k = base' + BitVec.ofNat 32 p.2 := by
  induction ws generalizing a t o b k with
  | nil => cases h
  | cons w ws ih =>
    cases k with
    | zero =>
      cases h
      exact ⟨ha, ht⟩
    | succ k =>
      rw [relocateInArmLoop, List.getElem?_cons_succ, show a + 8 + 4 = a + 4 + 8 by bv_omega] at h
      refine ih _ _ ?_ ?_ h
      · rw [ha, Nat.add_mul, BitVec.ofNat_add, ← BitVec.add_assoc]
        rfl
      · have hlength (n : Nat) : BitVec.ofNat 32 (n * 4) = 4 * BitVec.ofNat 32 n := by
          rw [Nat.mul_comm]
          exact BitVec.ofNat_mul ..
        rw [Relocation.follow, ht, Nat.add_mul, BitVec.ofNat_add, ← BitVec.add_assoc,
          hlength (relocateInArm load (a + 8) w).length]
        rfl

theorem laid (htarget : target.toNat % 4 = 0) (ht : t.toNat % 4 = 0)
    (hright : ∀ w ∈ ws, relocatable w = true) :
    (relocation load).Laid (fun w _ => relocatable w = true) (LiteralKept load)
    (fun a => a.toNat % 4 = 0)
      (fun t => t.toNat % 4 = 0) (Installed load target t ws) target t ws := by
  constructor
  · exact htarget
  · exact ht
  · clear ht htarget
    induction ws generalizing target with
    | nil => trivial
    | cons w ws ih =>
      exact ⟨hright w List.mem_cons_self, ih fun v hv => hright v (List.mem_cons_of_mem w hv)⟩
  · intro c hc
    rw [← emitted_eq target 0 0]
    exact hc.code
  · exact fun c hc => hc.literals

/-- From every boundary on the trampoline does what the instructions do at their
own address, until control leaves them. -/
theorem arm_trampoline_runs (htarget : target.toNat % 4 = 0) (ht : t.toNat % 4 = 0)
    (hright : ∀ w ∈ ws, relocatable w = true)
    {k : Nat} {p : Nat × Nat} (hp : (relocateInstructionInArm load target ws).boundaries[k]? =
      some p) {c : Core} {s : State}
    (h : Runs (fun i : Word × Word => relocatedEffect other i.1 i.2)
      (fun i => spill i.1) (fun _ => 4)
      (Installed load target t ws) false (target + BitVec.ofNat 32 p.1)
      (((relocation load).linked target t ws).drop k) c s) :
    Steps (step other) ⟨c, t + BitVec.ofNat 32 p.2, false⟩ s := by
  obtain ⟨haddr, hchunk⟩ := boundaries_addr target t 0 0 (BitVec.add_zero _).symm
    (BitVec.add_zero _).symm hp
  exact (laid htarget ht hright).steps right haddr hchunk h

/-- `sub sp, sp, #16`, `add r1, pc, #4`, `b .`. -/
def threeWords : List Word := [0xE24DD010, 0xE28F1004, 0xEAFFFFFE]

/-- Their trampoline. -/
def threeWordsCore : Core :=
  coreWith [0xE24DD010, 0xE51F1000, 0xE28FF000, 0x10, 0xE51FF004, 8, 0xE51FF004, 12] clearFlags

/-- From the second boundary on. -/
theorem arm_trampoline_runs_second :
    Steps (step fun _ _ => none) ⟨threeWordsCore, 0x100 + BitVec.ofNat 32 4, false⟩
    ⟨threeWordsCore.set 1 0x10, 8, false⟩ := by
  have hboundary : (relocateInstructionInArm (fun _ => 0) 0 threeWords).boundaries[1]? =
      some (4, 4) := by decide
  have hsub : relocatable 0xE24DD010 = true := by
    rw [relocatable, show getTypeInArm 0xE24DD010 = undefine by decide,
      show decode 0xE24DD010 = .data 2 false sp sp (.imm 16) by decide]
    decide
  have hadd : relocatable 0xE28F1004 = true := by
    rw [relocatable, show getTypeInArm 0xE28F1004 = adr1Arm by decide]
    decide
  have hb : relocatable 0xEAFFFFFE = true := by
    rw [relocatable, show getTypeInArm 0xEAFFFFFE = bArm by decide]
    decide
  have hright : ∀ w ∈ threeWords, relocatable w = true := by
    simp only [threeWords, List.forall_mem_cons, hsub, hadd, hb, true_and]
    exact List.forall_mem_nil _
  have hinstalled (c : Core) (hmem : c.mem = threeWordsCore.mem) :
      Installed (fun _ => 0) 0 0x100 threeWords c := by
    refine ⟨?_, fun h => ?_, fun h => ?_, fun h => ?_, trivial⟩
    · rw [hmem]
      exact ⟨by decide, by decide, by decide, by decide, by decide, by decide, by
        decide, by decide, trivial⟩
    · exact absurd h (by decide)
    · exact absurd h (by decide)
    · exact absurd h (by decide)
  have hadr : relocatedEffect (fun _ _ => none) 0xE28F1004 0x110 4 threeWordsCore =
      some (threeWordsCore.set 1 0x10, .next) := by
    rw [relocatedEffect, effect_always (.inl (by decide)),
      show decode (unconditional 0xE28F1004) = .data 4 false pc 1 (.imm 4) by decide]
    rfl
  have hbranch (c : Core) : relocatedEffect (fun _ _ => none) 0xEAFFFFFE 0x118 8 c =
      some (c, .jump 8 false) := by
    rw [relocatedEffect, effect_always (.inl (by decide)), show decode (unconditional 0xEAFFFFFE) =
      .b 0xFFFFFE by decide]
    rfl
  exact arm_trampoline_runs (by decide) (by decide) hright hboundary
    (.next (hinstalled _ rfl) (hinstalled _ rfl) hadr
      (.jump (hinstalled _ rfl) (hinstalled _ rfl) (hbranch _)))

/-- Flags for which the condition fails. -/
def failing (cond : BitVec 4) : Flags :=
  if cond.getLsbD 0 then ⟨true, cond = 1, true, true⟩ else ⟨10 ≤ cond, false, false, false⟩

theorem failing_fails {cond : BitVec 4} (h : cond ≠ 14) (h' : cond ≠ 15) :
    passed cond (failing cond) = false := by
  revert cond
  decide

/-- An instruction whose chunk has no condition is executed by the trampoline
also where its own condition fails. -/
theorem condition_lost {w : Word} (htype : getTypeInArm w ≠ undefine)
    (htype' : getTypeInArm w ≠ addArm)
    (hcond : field w 28 4 ≠ 14) (hcond' : field w 28 4 ≠ 15) (hright : relocatable w = true) :
    ∃ f : Flags, ∀ (other : Word → Core → Option Core) (load : Word → Word) (a t : Word) (c : Core)
    (r : Core × Flow),
      c.flags = f → a.toNat % 4 = 0 → t.toNat % 4 = 0 →
      Stored (word c.mem) 4 t (relocateInArm load (a + 8) w) →
      LiteralKept load c w a → effect other (always w) a c = some r →
      effect other w a c = some (c, .next) ∧ Steps (step other) ⟨c, t, false⟩
        (land ((relocation load).follow w a t) false
          (relink ((relocation load).follow w a t) w r)) := by
  refine ⟨failing (field w 28 4), fun other load a t c r hflags ha ht hmem hliteral h => ⟨?_, ?_⟩⟩
  · rw [effect, hflags, failing_fails hcond hcond']
    rfl
  · have hblx : getTypeInArm w ≠ blxArm := by
      intro hblx
      exact hcond' (field_of_mask (ArmRelocation.and_maskOf hblx) 28 4 (by decide))
    have hspill : spill w c = c := if_neg htype'
    have hunconditional : unconditional w = always w := if_neg (by simp [htype, htype', hblx])
    have hmem' := hmem
    rw [← hspill] at hmem'
    exact chunk_steps ha ht hright hmem hmem' hliteral (by rw [hunconditional, hspill, h])

theorem condition_lost_beq : ∃ f : Flags,
    effect (fun _ _ => none) 0x0AFFFFFE 0 (coreWith [0xE51FF004, 0] f) =
      some (coreWith [0xE51FF004, 0] f, .next) ∧
    Steps (step fun _ _ => none) ⟨coreWith [0xE51FF004, 0] f, 0x100, false⟩
      ⟨coreWith [0xE51FF004, 0] f, 0, false⟩ := by
  have htype : getTypeInArm 0x0AFFFFFE = bArm := by decide
  have hright : relocatable 0x0AFFFFFE = true := by
    rw [relocatable, htype]
    decide
  have hcode : Stored (word (coreWith [0xE51FF004, 0] clearFlags).mem) 4 0x100
      (relocateInArm (fun _ => 0) (0 + 8) 0x0AFFFFFE) :=
    ⟨by decide, by decide, trivial⟩
  have hbranch (c : Core) : effect (fun _ _ => none) (always 0x0AFFFFFE) 0 c =
      some (c, .jump 0 false) := by
    rw [effect_always (.inl (by decide)), show decode (always 0x0AFFFFFE) = .b 0xFFFFFE by decide]
    rfl
  obtain ⟨f, hlost⟩ := condition_lost (by rw [htype]; decide) (by rw [htype]; decide) (by decide)
    (by decide) hright
  exact ⟨f, hlost _ (fun _ => 0) 0 0x100 (coreWith [0xE51FF004, 0] f) _ rfl (by decide)
    (by decide) hcode (fun h => absurd (htype.symm.trans h) (by decide))
    (hbranch _)⟩

end ArmTrampoline
