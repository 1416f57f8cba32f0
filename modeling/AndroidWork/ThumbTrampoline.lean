import AndroidWork.CodeRelocation
import AndroidWork.ThumbChunks

/-!
# Whole runs through a Thumb trampoline

The instructions given to `relocateInstructionInThumb`, executed at their own
address, against its trampoline, from any of the boundaries on. The halfwords
given may end within an instruction; that one is left where it is.
-/
namespace ThumbTrampoline

open ArmMachine ThumbInstructions CodeRelocation Relocate InstructionType
open ThumbRelocation (relocatable chunk relink spill literal loads lowHalf highHalf chunk_steps
  jump_steps chunk_length)

variable {other : Code → Core → Option Core} {load : Word → Word} {target t : Word} {hs : List Half}

/-- The whole instructions among the halfwords. -/
def codes : List Half → List Code
  | [] => []
  | [h] => if leads h then [] else [.narrow h]
  | h :: l :: rest => if leads h then .wide h l :: codes rest else .narrow h :: codes (l :: rest)

def relocation (load : Word → Word) : Relocation Code 16 where
  size := Code.size
  chunk := fun i a => chunk load i (a + 4)
  ending := fun a => [0xF8DF, 0xF000, lowHalf (a + 1), highHalf (a + 1)]
  thumb := true
  read := half
  unit := 2

/-- The word of the literal pool that an instruction loads is what it was. -/
def LiteralKept (load : Word → Word) (c : Core) (i : Code) (a : Word) : Prop :=
  loads i → word c.mem (literal i a) = load (literal i a)

/-- An instruction with a return address in the trampoline. -/
def relocatedEffect (other : Code → Core → Option Core) (i : Code) (back a : Word) (c : Core) :
    Option (Core × Flow) :=
  (effect other i a c).map (relink back i)

/-- The trampoline of the halfwords of address `target` stands at `t`, and the
words they load are what they were when they were relocated. -/
structure Installed (load : Word → Word) (target t : Word) (hs : List Half) (c : Core) : Prop where
  code : Stored (half c.mem) 2 t (relocateInstructionInThumb load target hs).trampoline_instructions
  literals : All Code.size (LiteralKept load c) target (codes hs)

theorem isWide_eq (h : Half) : isWide h = leads h := by
  have hle : h >>> 11 ≤ 0x1F#16 := by
    have hlt := h.isLt
    rw [BitVec.le_def, BitVec.toNat_ushiftRight, Nat.shiftRight_eq_div_pow,
      show (0x1F#16).toNat = 31 from rfl]
    omega
  simp [isWide, leads, hle]

theorem relink_eq (back : Word) (i : Code) (r : Core × Flow) :
    (relink back i r).1.mem = r.1.mem ∧ (relink back i r).2 = r.2 := by
  cases i with
  | narrow h => exact ⟨rfl, rfl⟩
  | wide h l =>
    rw [relink]
    split <;> exact ⟨rfl, rfl⟩

theorem right : (relocation load).Right (relocatedEffect other) spill (step other)
    (fun i a => relocatable i a = true)
    (LiteralKept load) (fun a => a.toNat % 2 = 0) (fun t => t.toNat % 4 = 0) := by
  constructor
  · intro i a ha _
    cases i with
    | narrow h =>
      change (a + 2).toNat % 2 = 0
      bv_omega
    | wide h l =>
      change (a + 4).toNat % 2 = 0
      bv_omega
  · intro i a t ht
    have hlength := chunk_length load i (a + 4)
    change (t + 2 * BitVec.ofNat 32 (chunk load i (a + 4)).length).toNat % 4 = 0
    rw [BitVec.toNat_add, BitVec.toNat_mul, BitVec.toNat_ofNat, show (2 : Word).toNat = 2 from rfl]
    omega
  · intro i a t c r ha hright ht hmem hmem' hliteral h hkept
    obtain ⟨r', heffect, rfl⟩ := Option.map_eq_some_iff.mp h
    rw [(relink_eq _ i r').1, (relink_eq _ i r').2] at hkept
    exact chunk_steps ha ht hright hmem hmem' hliteral heffect hkept
  · exact fun a t c ha ht hmem => jump_steps ht hmem (branchExchange_add_one ha) 0

theorem emitted_eq (base : Word) {a : Word} {o : Nat} (b : Nat)
    (ha : a = base + BitVec.ofNat 32 (o * 2)) :
    (relocateInThumbLoop load (a + 4) o b hs).1.trampoline_instructions ++
        (relocation load).ending (base + BitVec.ofNat 32
          ((relocateInThumbLoop load (a + 4) o b hs).2 * 2)) =
      (relocation load).emitted a (codes hs) := by
  induction hs using codes.induct generalizing a o b with
  | case1 =>
    rw [codes, Relocation.emitted, ha]
    rfl
  | case2 h hwide =>
    rw [relocateInThumbLoop, isWide_eq, if_pos hwide, codes, if_pos hwide, Relocation.emitted, ha]
    rfl
  | case3 h hnarrow =>
    rw [relocateInThumbLoop, isWide_eq, if_neg hnarrow, codes, if_neg hnarrow, Relocation.emitted,
      Relocation.emitted, ha,
      Nat.add_mul, BitVec.ofNat_add, ← BitVec.add_assoc]
    rfl
  | case4 h l rest hwide ih =>
    rw [codes, if_pos hwide, Relocation.emitted,
      ← ih (o := o + 2) (b + (relocateInstructionInThumb32 load (a + 4) h l).length),
      relocateInThumbLoop, isWide_eq, if_pos hwide]
    · exact List.append_assoc ..
    · rw [ha, Nat.add_mul, BitVec.ofNat_add, ← BitVec.add_assoc]
      rfl
  | case5 h l rest hnarrow ih =>
    rw [codes, if_neg hnarrow, Relocation.emitted,
      ← ih (o := o + 1) (b + (relocateInstructionInThumb16 load (a + 4) h).length),
      relocateInThumbLoop, isWide_eq, if_neg hnarrow, show a + 4 + 2 = a + 2 + 4 by bv_omega]
    · exact List.append_assoc ..
    · rw [ha, Nat.add_mul, BitVec.ofNat_add, ← BitVec.add_assoc]
      rfl

theorem boundaries_addr (base base' : Word) {a t : Word} {o b : Nat} {k : Nat} {p : Nat × Nat}
    (ha : a = base + BitVec.ofNat 32 (o * 2))
    (ht : t = base' + BitVec.ofNat 32 (b * 2))
    (h : (relocateInThumbLoop load (a + 4) o b hs).1.boundaries[k]? = some p) :
    (relocation load).addr a (codes hs) k = base + BitVec.ofNat 32 p.1 ∧
      (relocation load).chunkAddr a t (codes hs) k = base' + BitVec.ofNat 32 p.2 := by
  have hlength (n : Nat) : BitVec.ofNat 32 (n * 2) = 2 * BitVec.ofNat 32 n := by
    rw [Nat.mul_comm]
    exact BitVec.ofNat_mul ..
  induction hs using codes.induct generalizing a t o b k with
  | case1 => cases h
  | case2 h hwide =>
    rw [relocateInThumbLoop, isWide_eq, if_pos hwide] at h
    rw [codes, if_pos hwide]
    cases k with
    | zero =>
      cases h
      exact ⟨ha, ht⟩
    | succ k => cases h
  | case3 h hnarrow =>
    rw [relocateInThumbLoop, isWide_eq, if_neg hnarrow] at h
    rw [codes, if_neg hnarrow]
    cases k with
    | zero =>
      cases h
      exact ⟨ha, ht⟩
    | succ k => cases h
  | case4 h' l rest hwide ih =>
    rw [relocateInThumbLoop, isWide_eq, if_pos hwide] at h
    rw [codes, if_pos hwide]
    cases k with
    | zero =>
      cases h
      exact ⟨ha, ht⟩
    | succ k =>
      rw [List.getElem?_cons_succ] at h
      refine ih (o := o + 2) ?_ ?_ h
      · rw [ha, Nat.add_mul, BitVec.ofNat_add, ← BitVec.add_assoc]
        rfl
      · rw [Relocation.follow, ht, Nat.add_mul, BitVec.ofNat_add, ← BitVec.add_assoc,
          hlength (relocateInstructionInThumb32 load (a + 4) h' l).length]
        rfl
  | case5 h' l rest hnarrow ih =>
    rw [relocateInThumbLoop, isWide_eq, if_neg hnarrow] at h
    rw [codes, if_neg hnarrow]
    cases k with
    | zero =>
      cases h
      exact ⟨ha, ht⟩
    | succ k =>
      rw [List.getElem?_cons_succ, show a + 4 + 2 = a + 2 + 4 by bv_omega] at h
      refine ih (o := o + 1) ?_ ?_ h
      · rw [ha, Nat.add_mul, BitVec.ofNat_add, ← BitVec.add_assoc]
        rfl
      · rw [Relocation.follow, ht, Nat.add_mul, BitVec.ofNat_add, ← BitVec.add_assoc,
          hlength (relocateInstructionInThumb16 load (a + 4) h').length]
        rfl

theorem laid (htarget : target.toNat % 2 = 0) (ht : t.toNat % 4 = 0)
    (hright : All Code.size (fun i a => relocatable i a = true) target (codes hs)) :
    (relocation load).Laid (fun i a => relocatable i a = true) (LiteralKept load)
    (fun a => a.toNat % 2 = 0)
      (fun t => t.toNat % 4 = 0) (Installed load target t hs) target t (codes hs) := by
  constructor
  · exact htarget
  · exact ht
  · exact hright
  · intro c hc
    rw [← emitted_eq target (o := 0) 0 (BitVec.add_zero _).symm]
    exact hc.code
  · exact fun c hc => hc.literals

/-- From every boundary on the trampoline does what the instructions do at their
own address, until control leaves them; also from that of an instruction whose
second half is not among those given. -/
theorem thumb_trampoline_runs (htarget : target.toNat % 2 = 0) (ht : t.toNat % 4 = 0)
    (hright : All Code.size (fun i a => relocatable i a = true) target (codes hs))
    {k : Nat} {p : Nat × Nat}
    (hp : (relocateInstructionInThumb load target hs).boundaries[k]? = some p)
    {c : Core} {s : State}
    (h : Runs (fun i : Code × Word => relocatedEffect other i.1 i.2) (fun i => spill i.1)
      (fun i => i.1.size)
      (Installed load target t hs) true (target + BitVec.ofNat 32 p.1)
      (((relocation load).linked target t (codes hs)).drop k) c s) :
    Steps (step other) ⟨c, t + BitVec.ofNat 32 p.2, true⟩ s := by
  obtain ⟨haddr, hchunk⟩ := boundaries_addr target t (o := 0) (b := 0) (BitVec.add_zero _).symm
    (BitVec.add_zero _).symm hp
  exact (laid htarget ht hright).steps right haddr hchunk h

/-- `adds r0, #1`, `add.w r0, r0, r1`, `b.w .`. -/
def mixedHalves : List Half := [0x3001, 0xEB00, 0x0001, 0xF7FF, 0xBFFE]

/-- Their trampoline, r1 being five. -/
def mixedCore : Core :=
  (coreWith [0xBF003001, 0x0001EB00, 0xF000F8DF, 7, 0xF000F8DF, 11] clearFlags).set 1 5

/-- From the second boundary on. -/
theorem thumb_trampoline_runs_second :
    Steps (step fun _ _ => none) ⟨mixedCore, 0x100 + BitVec.ofNat 32 4, true⟩
    ⟨mixedCore.set 0 5, 6, true⟩ := by
  have hboundary : (relocateInstructionInThumb (fun _ => 0) 0 mixedHalves).boundaries[1]? =
      some (2, 4) := by decide
  have hcodes : codes mixedHalves = [.narrow 0x3001, .wide 0xEB00 0x0001, .wide 0xF7FF 0xBFFE] :=
    rfl
  have hnarrow : getTypeInThumb16 0x3001 = undefine := by decide
  have hadds : relocatable (.narrow 0x3001) 0 = true := by
    rw [relocatable, hnarrow, show decode (.narrow 0x3001) = .addImm 0 1 by decide]
    decide
  have htype : getTypeInThumb32 ((0xEB00 : Half) ++ (0x0001 : Half)) = undefine := by decide
  have hadd : relocatable (.wide 0xEB00 0x0001) 2 = true := by
    rw [relocatable, htype, show decode (.wide 0xEB00 0x0001) = .addShifted 0 0 1 0 0 by decide]
    decide
  have htype' : getTypeInThumb32 ((0xF7FF : Half) ++ (0xBFFE : Half)) = b2Thumb32 := by decide
  have hb : relocatable (.wide 0xF7FF 0xBFFE) 6 = true := by
    rw [relocatable, htype']
    decide
  have hinstalled (c : Core) (hmem : c.mem = mixedCore.mem) :
      Installed (fun _ => 0) 0 0x100 mixedHalves c := by
    refine ⟨?_, fun h => ?_, fun h => ?_, fun h => ?_, trivial⟩
    · rw [hmem]
      exact ⟨by decide, by decide, by decide, by decide, by decide, by decide, by decide, by
        decide, by decide, by decide,
        by decide, by decide, trivial⟩
    · exact absurd (hnarrow.symm.trans h) (by decide)
    · exact absurd (htype.symm.trans h) (by decide)
    · exact absurd (htype'.symm.trans h) (by decide)
  have hsum : relocatedEffect (fun _ _ => none) (.wide 0xEB00 0x0001) 0x108 2 mixedCore =
      some (mixedCore.set 0 5, .next) := by
    rw [relocatedEffect, effect, show decode (.wide 0xEB00 0x0001) =
      .addShifted 0 0 1 0 0 by decide, perform,
      if_neg (by decide), Option.map_some, relink, htype]
    rfl
  have hbranch (c : Core) : relocatedEffect (fun _ _ => none) (.wide 0xF7FF 0xBFFE) 0x110 6 c =
      some (c, .jump 6 true) := by
    rw [relocatedEffect, effect, show decode (.wide 0xF7FF 0xBFFE) =
      .b (-4) by decide, perform, Option.map_some, relink, htype']
    rfl
  exact thumb_trampoline_runs (by decide) (by decide)
    (by rw [hcodes]; exact ⟨hadds, hadd, hb, trivial⟩) hboundary
    (.next (hinstalled _ rfl) (hinstalled _ rfl) hsum
      (.jump (hinstalled _ rfl) (hinstalled _ rfl) (hbranch _)))

end ThumbTrampoline
