import AndroidWork.ArmMachine

/-!
# The ARM instruction set

Decoding and execution of data processing with an immediate or an immediately
shifted operand, of word loads and stores with an immediate offset, and of the
branches. All other words are `other`. Those of them that name the program
counter nowhere act on the core alone, by a function that is a parameter, and
have no effect where that function gives none; what the rest do is left open.
-/
namespace ArmInstructions

open ArmMachine

inductive Operand where
  | imm (imm12 : BitVec 12)
  | shifted (rm : Reg) (type : BitVec 2) (imm5 : BitVec 5)
  deriving DecidableEq, Repr

/-- A load or store has the bits P (pre-indexed), U (add) and W (write back). -/
structure Indexing where
  p : Bool
  u : Bool
  w : Bool
  deriving DecidableEq, Repr

inductive Instr where
  | data (op : BitVec 4) (s : Bool) (rn rd : Reg) (o : Operand)
  | ldr (x : Indexing) (rn rt : Reg) (imm12 : BitVec 12)
  | str (x : Indexing) (rn rt : Reg) (imm12 : BitVec 12)
  | b (imm24 : BitVec 24)
  | bl (imm24 : BitVec 24)
  | blx (h : Bool) (imm24 : BitVec 24)
  | bx (rm : Reg)
  | other (w : Word)
  deriving DecidableEq, Repr

/-- The comparisons, which have no destination and always set the flags. -/
def compares (op : BitVec 4) : Bool := op.extractLsb' 2 2 = 2

def decode (w : Word) : Instr :=
  let rn := field w 16 4
  let rd := field w 12 4
  let x : Indexing := ⟨w.getLsbD 24, w.getLsbD 23, w.getLsbD 21⟩
  if field w 28 4 = 15 then
    if field w 25 3 = 5 then .blx (w.getLsbD 24) (field w 0 24) else .other w
  else if field w 25 3 = 5 then if w.getLsbD 24 then .bl (field w 0 24) else .b (field w 0 24)
  else if (field w 25 3 = 1 ∨ field w 25 3 = 0 ∧ w.getLsbD 4 = false) ∧
    (compares (field w 21 4) → w.getLsbD 20) then
    .data (field w 21 4) (w.getLsbD 20) rn rd
      (if w.getLsbD 25 then .imm (field w 0 12)
        else .shifted (field w 0 4) (field w 5 2) (field w 7 5))
  else if field w 25 3 = 2 ∧ w.getLsbD 22 = false then
    if w.getLsbD 20 then .ldr x rn rd (field w 0 12) else .str x rn rd (field w 0 12)
  else if field w 20 8 = 0x12 ∧ field w 4 4 = 1 then .bx (field w 0 4)
  else .other w

/-- A word outside of the decoded classes that neither reads nor writes the program
counter, as far as its fields tell: a block transfer without r15 in its base or
its list, or a word none of whose register fields is r15. Unconditional words,
supervisor calls and the miscellaneous words (BXJ, BLX, BKPT, ERET) are left out. -/
def coreOnly (w : Word) : Bool :=
  decide (field w 28 4 ≠ 15) &&
    if field w 25 3 = 4 then decide (field w 16 4 ≠ pc) && !w.getLsbD 15 && !w.getLsbD 22
    else
      decide (field w 24 4 ≠ 15) && !(decide (field w 23 5 = 2) && !w.getLsbD 20 && !w.getLsbD 7) &&
        decide (field w 16 4 ≠ pc ∧ field w 12 4 ≠ pc ∧ field w 8 4 ≠ pc ∧ field w 0 4 ≠ pc)

/-- Where a result goes: into a register, or into the program counter. -/
def write (c : Core) (rd : Reg) (v : Word) : Option (Core × Flow) :=
  if rd = pc then (branchExchange v).map (c, ·) else some (c.set rd v, .next)

def operand (c : Core) (pcValue : Word) : Operand → Word × Bool
  | .imm imm12 =>
    let v : Word := (imm12.extractLsb' 0 8).setWidth 32
    let n := 2 * (imm12.extractLsb' 8 4).toNat
    if n = 0 then (v, c.flags.c) else (v.rotateRight n, (v.rotateRight n).msb)
  | .shifted rm type imm5 => shiftC type imm5 (c.read pcValue rm) c.flags.c

def arith (f : Flags) (x y : Word) (carry : Bool) : Word × Flags :=
  let r := addWithCarry x y carry
  (r.1, { f with n := r.1.msb, z := decide (r.1 = 0), c := r.2.1, v := r.2.2 })

def logic (f : Flags) (r : Word) (carry : Bool) : Word × Flags :=
  (r, { f with n := r.msb, z := decide (r = 0), c := carry })

/-- The operations by their numbers; TST, TEQ, CMP and CMN are AND, EOR, SUB and
ADD without a destination. -/
def alu (f : Flags) (op : BitVec 4) (x : Word) (y : Word × Bool) : Word × Flags :=
  if op = 0 ∨ op = 8 then logic f (x &&& y.1) y.2
  else if op = 1 ∨ op = 9 then logic f (x ^^^ y.1) y.2
  else if op = 2 ∨ op = 10 then arith f x (~~~y.1) true
  else if op = 3 then arith f (~~~x) y.1 true
  else if op = 4 ∨ op = 11 then arith f x y.1 false
  else if op = 5 then arith f x y.1 f.c
  else if op = 6 then arith f x (~~~y.1) f.c
  else if op = 7 then arith f (~~~x) y.1 f.c
  else if op = 12 then logic f (x ||| y.1) y.2
  else if op = 13 then logic f y.1 y.2
  else if op = 14 then logic f (x &&& ~~~y.1) y.2
  else logic f (~~~y.1) y.2

def Indexing.offset (x : Indexing) (base : Word) (imm12 : BitVec 12) : Word :=
  if x.u then base + imm12.setWidth 32 else base - imm12.setWidth 32

def Indexing.writesBack (x : Indexing) : Bool := !x.p || x.w

def branchOffset (imm24 : BitVec 24) (low : BitVec 2) : Word := (imm24 ++ low).signExtend 32

/-- What an instruction does whose own address is `a`; `none` where the
architecture or this model leaves it open. The program counter reads as `a + 8`. -/
def perform (other : Word → Core → Option Core) (a : Word) (c : Core) : Instr → Option (Core × Flow)
  | .data op sf rn rd o =>
    let r := alu c.flags op (c.read (a + 8) rn) (operand c (a + 8) o)
    if compares op then some (c.setFlags r.2, .next)
    else if sf then if rd = pc then none else some ((c.set rd r.1).setFlags r.2, .next)
    else write c rd r.1
  | .ldr x rn rt imm12 =>
    let moved := x.offset (c.read (a + 8) rn) imm12
    let v := word c.mem (if x.p then moved else c.read (a + 8) rn)
    if x.writesBack then if rn = pc ∨ rn = rt then none else write (c.set rn moved) rt v
    else write c rt v
  | .str x rn rt imm12 =>
    let moved := x.offset (c.read (a + 8) rn) imm12
    let c' := c.store (if x.p then moved else c.read (a + 8) rn) (c.read (a + 8) rt)
    if x.writesBack then if rn = pc ∨ rn = rt then none else some (c'.set rn moved, .next)
    else some (c', .next)
  | .b imm24 => some (c, .jump (a + 8 + branchOffset imm24 0) false)
  | .bl imm24 => some (c.set lr (a + 4), .jump (a + 8 + branchOffset imm24 0) false)
  | .blx h imm24 =>
    some (c.set lr (a + 4), .jump (a + 8 + branchOffset imm24 (BitVec.ofBool h ++ 0#1)) true)
  | .bx rm => (branchExchange (c.read (a + 8) rm)).map (c, ·)
  | .other w => if coreOnly w then (other w c).map (·, .next) else none

def effect (other : Word → Core → Option Core) (w a : Word) (c : Core) : Option (Core × Flow) :=
  if passed (field w 28 4) c.flags then perform other a c (decode w) else some (c, .next)

def step (other : Word → Core → Option Core) (s : State) : Option State :=
  if s.thumb then none else (effect other (word s.core.mem s.addr) s.addr s.core).map
    (land (s.addr + 4) false)

section Decode

variable {w : Word}

theorem decode_blx (hcond : field w 28 4 = 15) (hclass : field w 25 3 = 5) :
    decode w = .blx (w.getLsbD 24) (field w 0 24) := by
  simp only [decode, hcond, hclass, if_true]

theorem decode_bl (hcond : field w 28 4 ≠ 15) (hclass : field w 25 3 = 5)
    (hl : w.getLsbD 24 = true) :
    decode w = .bl (field w 0 24) := by
  simp only [decode, hcond, hclass, hl, if_true, if_false]

theorem decode_b (hcond : field w 28 4 ≠ 15) (hclass : field w 25 3 = 5)
    (hl : w.getLsbD 24 = false) :
    decode w = .b (field w 0 24) := by
  simp only [decode, hcond, hclass, hl, if_true, if_false, Bool.false_eq_true]

theorem decode_data_imm (hcond : field w 28 4 ≠ 15) (hclass : field w 25 3 = 1)
    (hop : compares (field w 21 4) = false) :
    decode w = .data (field w 21 4) (w.getLsbD 20) (field w 16 4) (field w 12 4)
    (.imm (field w 0 12)) := by
  have hi : w.getLsbD 25 = true := by
    rw [← getLsbD_field w 25 3 (show 0 < 3 by decide), hclass]
    rfl
  simp only [decode, hcond, hclass, hop, hi]
  simp

theorem decode_data_reg (hcond : field w 28 4 ≠ 15) (hclass : field w 25 3 = 0)
    (hbit : w.getLsbD 4 = false)
    (hop : compares (field w 21 4) = false) :
    decode w = .data (field w 21 4) (w.getLsbD 20) (field w 16 4) (field w 12 4)
      (.shifted (field w 0 4) (field w 5 2) (field w 7 5)) := by
  have hi : w.getLsbD 25 = false := by
    rw [← getLsbD_field w 25 3 (show 0 < 3 by decide), hclass]
    rfl
  simp only [decode, hcond, hclass, hop, hi, hbit]
  simp

theorem decode_ldr (hcond : field w 28 4 ≠ 15) (hclass : field w 25 3 = 2)
    (hbyte : w.getLsbD 22 = false)
    (hl : w.getLsbD 20 = true) :
    decode w = .ldr ⟨w.getLsbD 24, w.getLsbD 23, w.getLsbD 21⟩ (field w 16 4) (field w 12 4)
    (field w 0 12) := by
  simp only [decode, hcond, hclass, hbyte, hl]
  simp

theorem decode_bx (hcond : field w 28 4 ≠ 15) (hop : field w 20 8 = 0x12) (hlow : field w 4 4 = 1) :
    decode w = .bx (field w 0 4) := by
  have hclass : field w 25 3 = 0 := by
    rw [← field_field w 20 8 5 3 (by decide), hop]
    rfl
  have hbit : w.getLsbD 4 = true := by
    rw [← getLsbD_field w 4 4 (show 0 < 4 by decide), hlow]
    rfl
  simp only [decode, hcond, hop, hlow, hclass, hbit]
  simp

end Decode

def Operand.pcFree : Operand → Bool
  | .imm _ => true
  | .shifted rm _ _ => rm ≠ pc

/-- The instruction does not read the program counter; a modelled one may write it. -/
def Instr.pcFree : Instr → Bool
  | .data _ _ rn _ o => rn ≠ pc && o.pcFree
  | .ldr _ rn _ _ => rn ≠ pc
  | .str _ rn rt _ => rn ≠ pc && rt ≠ pc
  | .b _ | .bl _ | .blx _ _ => false
  | .bx rm => rm ≠ pc
  | .other w => coreOnly w

variable {other : Word → Core → Option Core} {w : Word}

theorem operand_of_pcFree (c : Core) {o : Operand} (h : o.pcFree = true) (a b : Word) :
    operand c a o = operand c b o := by
  cases o with
  | imm imm12 => rfl
  | shifted rm type imm5 =>
    have hrm : rm ≠ pc := of_decide_eq_true h
    rw [operand, operand, Core.read_of_ne _ _ hrm, Core.read_of_ne _ _ hrm]

theorem perform_of_pcFree (c : Core) {i : Instr} (h : i.pcFree = true) (a b : Word) :
    perform other a c i = perform other b c i := by
  cases i with
  | data op s rn rd o =>
    simp only [Instr.pcFree, Bool.and_eq_true, decide_eq_true_eq] at h
    simp only [perform, Core.read_of_ne _ _ h.1, operand_of_pcFree c h.2 (a + 8) (b + 8)]
  | ldr x rn rt imm12 =>
    simp only [Instr.pcFree, decide_eq_true_eq] at h
    simp only [perform, Core.read_of_ne _ _ h]
  | str x rn rt imm12 =>
    simp only [Instr.pcFree, Bool.and_eq_true, decide_eq_true_eq] at h
    simp only [perform, Core.read_of_ne _ _ h.1, Core.read_of_ne _ _ h.2]
  | b imm24 => cases h
  | bl imm24 => cases h
  | blx hbit imm24 => cases h
  | bx rm =>
    simp only [Instr.pcFree, decide_eq_true_eq] at h
    simp only [perform, Core.read_of_ne _ _ h]
  | other w => rfl

theorem effect_of_pcFree (c : Core) (h : (decode w).pcFree = true) (a b : Word) :
    effect other w a c = effect other w b c := by
  rw [effect, effect, perform_of_pcFree c h a b]

theorem effect_always (h : field w 28 4 = 14 ∨ field w 28 4 = 15) (a : Word) (c : Core) :
    effect other w a c = perform other a c (decode w) := by
  rw [effect, if_pos]
  cases h with
  | inl h =>
    rw [h]
    rfl
  | inr h =>
    rw [h]
    rfl

theorem step_eq {c : Core} {a : Word} (hw : word c.mem a = w) :
    step other ⟨c, a, false⟩ = (effect other w a c).map (land (a + 4) false) := by
  simp only [step, hw, Bool.false_eq_true, if_false]

end ArmInstructions
