import AndroidWork.ArmMachine

/-!
# The Thumb instruction set

Instructions of one and of two halfwords, executed outside IT blocks: branches,
what reads the literal pool or the program counter, and what code that stands in
for such instructions is made of. All other instructions are `other`. Those of
them that name the program counter nowhere act on the core alone, by a function
that is a parameter; what the rest do is left open.
-/
namespace ThumbInstructions

open ArmMachine

inductive Code where
  | narrow (h : Half)
  | wide (h l : Half)
  deriving DecidableEq, Repr

def Code.halves : Code → List Half
  | .narrow h => [h]
  | .wide h l => [h, l]

/-- The first halfword of an instruction of two. -/
def leads (h : Half) : Bool := 0x1D#16 ≤ h >>> 11

/-- The first halfword tells how many there are. -/
def Code.wellFormed : Code → Bool
  | .narrow h => !leads h
  | .wide h _ => leads h

inductive Instr where
  | b (offset : Word)
  | bCond (cond : BitVec 4) (offset : Word)
  | cb (nonzero : Bool) (offset : Word) (rn : Reg)
  | bl (offset : Word)
  | blx (offset : Word)
  | bx (rm : Reg)
  | add (rdn rm : Reg)
  | mov (rd rm : Reg)
  | adr (add : Bool) (rd : Reg) (imm : Word)
  | ldrLiteral (add : Bool) (rt : Reg) (imm : Word)
  | push (registers : BitVec 8)
  | pop (registers : BitVec 8)
  | addImm (rdn : Reg) (imm : Word)
  | addShifted (rn rd rm : Reg) (type : BitVec 2) (imm5 : BitVec 5)
  | ldrb (rn rt : Reg) (imm : Word)
  | ldrh (rn rt : Reg) (imm : Word)
  | tb (halfwords : Bool) (rn rm : Reg)
  | nop
  | it
  | other (i : Code)
  deriving DecidableEq, Repr

/-- A register field of three bits. -/
def low (r : BitVec 3) : Reg := r.setWidth 4

def decodeNarrow (h : Half) : Instr :=
  if field h 12 4 = 13 ∧ field h 9 3 ≠ 7 then
    .bCond (field h 8 4) ((field h 0 8 ++ 0#1).signExtend 32)
  else if field h 11 5 = 0x1C then .b ((field h 0 11 ++ 0#1).signExtend 32)
  else if field h 12 4 = 11 ∧ h.getLsbD 10 = false ∧ h.getLsbD 8 then
    .cb (h.getLsbD 11) ((BitVec.ofBool (h.getLsbD 9) ++ field h 3 5 ++ 0#1).setWidth 32)
      (low (field h 0 3))
  else if field h 8 8 = 0x44 then .add (BitVec.ofBool (h.getLsbD 7) ++ field h 0 3) (field h 3 4)
  else if field h 8 8 = 0x46 then .mov (BitVec.ofBool (h.getLsbD 7) ++ field h 0 3) (field h 3 4)
  else if field h 7 9 = 0x8E then .bx (field h 3 4)
  else if field h 11 5 = 0x14 then .adr true (low (field h 8 3)) ((field h 0 8 ++ 0#2).setWidth 32)
  else if field h 11 5 = 0x09 then .ldrLiteral true (low (field h 8 3))
    ((field h 0 8 ++ 0#2).setWidth 32)
  else if field h 8 8 = 0xB4 then .push (field h 0 8)
  else if field h 8 8 = 0xBC then .pop (field h 0 8)
  else if field h 11 5 = 0x06 then .addImm (low (field h 8 3)) ((field h 0 8).setWidth 32)
  else if field h 11 5 = 0x0F then .ldrb (low (field h 3 3)) (low (field h 0 3))
    ((field h 6 5).setWidth 32)
  else if field h 11 5 = 0x11 then .ldrh (low (field h 3 3)) (low (field h 0 3))
    ((field h 6 5 ++ 0#1).setWidth 32)
  else if h = 0xBF00 then .nop
  else if field h 8 8 = 0xBF then .it
  else .other (.narrow h)

/-- The offset of BL and B.W, with its bits J1 and J2 inverted where S is clear. -/
def farOffset (h l : Half) : Word :=
  let i1 := BitVec.ofBool (l.getLsbD 13 == h.getLsbD 10)
  let i2 := BitVec.ofBool (l.getLsbD 11 == h.getLsbD 10)
  (BitVec.ofBool (h.getLsbD 10) ++ i1 ++ i2 ++ field h 0 10 ++ field l 0 11 ++ 0#1).signExtend 32

def nearOffset (h l : Half) : Word :=
  (BitVec.ofBool (h.getLsbD 10) ++ BitVec.ofBool (l.getLsbD 11) ++
    BitVec.ofBool (l.getLsbD 13) ++ field h 0 6 ++
    field l 0 11 ++ 0#1).signExtend 32

def decodeWide (h l : Half) : Instr :=
  let imm12 : Word := (BitVec.ofBool (h.getLsbD 10) ++ field l 12 3 ++ field l 0 8).setWidth 32
  if field h 11 5 = 0x1E ∧ l.getLsbD 15 then
    if l.getLsbD 14 then
      if l.getLsbD 12 then .bl (farOffset h l)
      else if l.getLsbD 0 then .other (.wide h l)
      else .blx (farOffset h l)
    else if l.getLsbD 12 then .b (farOffset h l)
    else if field h 7 3 = 7 then .other (.wide h l)
    else .bCond (field h 6 4) (nearOffset h l)
  else if h &&& 0xFF7F = 0xF85F then .ldrLiteral (h.getLsbD 7) (field l 12 4)
    ((field l 0 12).setWidth 32)
  else if h &&& 0xFBFF = 0xF20F ∧ l.getLsbD 15 = false then .adr true (field l 8 4) imm12
  else if h &&& 0xFBFF = 0xF2AF ∧ l.getLsbD 15 = false then .adr false (field l 8 4) imm12
  else if field h 4 12 = 0xEB0 ∧ l.getLsbD 15 = false then
    .addShifted (field h 0 4) (field l 8 4) (field l 0 4) (field l 4 2)
      (field l 12 3 ++ field l 6 2)
  else if field h 4 12 = 0xE8D ∧ field l 5 11 = 0x780 then
    .tb (l.getLsbD 4) (field h 0 4) (field l 0 4)
  else .other (.wide h l)

def decode : Code → Instr
  | .narrow h => decodeNarrow h
  | .wide h l => decodeWide h l

/-- An instruction outside of the decoded classes that neither reads nor writes the
program counter, as far as its fields tell. Of the narrow ones this leaves out
UDF, SVC, BLX, POP with r15, BKPT, SETEND, CPS and a comparison with r15; of the
wide ones branches and control, block transfers with r15 in their base or list,
and whatever has r15 in a register field. -/
def coreOnly : Code → Bool
  | .narrow h =>
    decide (field h 12 4 ≠ 13 ∧ field h 7 9 ≠ 0x8F ∧ field h 8 8 ≠ 0xBD ∧ field h 8 8 ≠ 0xBE ∧
      field h 8 8 ≠ 0xB6) &&
      !(decide (field h 8 8 = 0x45) && decide
        (field h 3 4 = pc ∨ BitVec.ofBool (h.getLsbD 7) ++ field h 0 3 = pc))
  | .wide h l =>
    if field h 11 5 = 0x1E ∧ l.getLsbD 15 then false
    else if field h 9 7 = 0x74 ∧ h.getLsbD 6 = false then
      decide (field h 7 2 ≠ 0 ∧ field h 7 2 ≠ 3 ∧ field h 0 4 ≠ pc) && !l.getLsbD 15
    else decide (field h 0 4 ≠ pc ∧ field l 12 4 ≠ pc ∧ field l 8 4 ≠ pc ∧ field l 0 4 ≠ pc)

def Code.size : Code → Word
  | .narrow _ => 2
  | .wide _ _ => 4

/-- `Align(PC, 4)`. -/
def alignedPc (a : Word) : Word := (a + 4) &&& ~~~3#32

def displaced (add : Bool) (base imm : Word) : Word := if add then base + imm else base - imm

/-- A result that goes into the program counter stays in Thumb code. -/
def write (c : Core) (rd : Reg) (v : Word) : Core × Flow :=
  if rd = pc then (c, .jump (v &&& ~~~1#32) true) else (c.set rd v, .next)

def listed (registers : BitVec 8) : List Reg :=
  ((List.range 8).filter fun i => registers.getLsbD i).map fun i => BitVec.ofNat 4 i

def storeAll (c : Core) : Word → List Reg → Core
  | _, [] => c
  | a, r :: rs => storeAll (c.store a (c.reg r)) (a + 4) rs

def loadAll (c : Core) : Word → List Reg → Core
  | _, [] => c
  | a, r :: rs => loadAll (c.set r (word c.mem a)) (a + 4) rs

/-- What an instruction does whose own address is `a`; `none` where the
architecture or this model leaves it open, and for IT. The program counter reads
as `a + 4`. -/
def perform (other : Code → Core → Option Core) (i : Code) (a : Word) (c : Core) :
    Instr → Option (Core × Flow)
  | .b offset => some (c, .jump (a + 4 + offset) true)
  | .bCond cond offset =>
    some (c, if passed cond c.flags then .jump (a + 4 + offset) true else .next)
  | .cb nonzero offset rn =>
    some (c, if decide (c.reg rn = 0) = nonzero then .next else .jump (a + 4 + offset) true)
  | .bl offset => some (c.set lr (a + 4 ||| 1), .jump (a + 4 + offset) true)
  | .blx offset => some (c.set lr (a + 4 ||| 1), .jump (alignedPc a + offset) false)
  | .bx rm => (branchExchange (c.read (a + 4) rm)).map (c, ·)
  | .add rdn rm => some (write c rdn (c.read (a + 4) rdn + c.read (a + 4) rm))
  | .mov rd rm => some (write c rd (c.read (a + 4) rm))
  | .adr add rd imm =>
    if rd = pc then none else some (c.set rd (displaced add (alignedPc a) imm), .next)
  | .ldrLiteral add rt imm =>
    let v := word c.mem (displaced add (alignedPc a) imm)
    if rt = pc then (branchExchange v).map (c, ·) else some (c.set rt v, .next)
  | .push registers =>
    let bottom := c.reg sp - 4 * BitVec.ofNat 32 (listed registers).length
    some ((storeAll c bottom (listed registers)).set sp bottom, .next)
  | .pop registers =>
    some ((loadAll c (c.reg sp) (listed registers)).set sp
      (c.reg sp + 4 * BitVec.ofNat 32 (listed registers).length), .next)
  | .addImm rdn imm =>
    let r := addWithCarry (c.reg rdn) imm false
    some ((c.set rdn r.1).setFlags ⟨r.1.msb, decide (r.1 = 0), r.2.1, r.2.2⟩, .next)
  | .addShifted rn rd rm type imm5 =>
    if rn = pc ∨ rd = pc ∨ rm = pc then none
    else some (c.set rd (c.reg rn + (shiftC type imm5 (c.reg rm) c.flags.c).1), .next)
  | .ldrb rn rt imm => some (c.set rt ((c.mem (c.reg rn + imm)).setWidth 32), .next)
  | .ldrh rn rt imm => some (c.set rt ((half c.mem (c.reg rn + imm)).setWidth 32), .next)
  | .tb halfwords rn rm =>
    if rm = sp ∨ rm = pc then none
    else
      let base := c.read (a + 4) rn
      let entry : Word :=
        if halfwords then (half c.mem (base + (c.reg rm <<< 1))).setWidth 32
          else (c.mem (base + c.reg rm)).setWidth 32
      let offset : Word := entry <<< 1
      some (c, .jump (a + 4 + offset) true)
  | .nop => some (c, .next)
  | .it => none
  | .other _ => if coreOnly i then (other i c).map (·, .next) else none

def effect (other : Code → Core → Option Core) (i : Code) (a : Word) (c : Core) :
    Option (Core × Flow) :=
  perform other i a c (decode i)

def fetch (m : Memory) (a : Word) : Code :=
  if leads (half m a) then .wide (half m a) (half m (a + 2)) else .narrow (half m a)

def step (other : Code → Core → Option Core) (s : State) : Option State :=
  if s.thumb then
    let i := fetch s.core.mem s.addr
    (effect other i s.addr s.core).map (land (s.addr + i.size) true)
  else none

/-- The instruction does not read the program counter; a modelled one may write it.
What IT makes of the instructions behind it is not its own. -/
def Instr.pcFree : Instr → Bool
  | .b _ | .bCond _ _ | .cb _ _ _ | .bl _ | .blx _ | .adr _ _ _ | .ldrLiteral _ _ _ | .tb _
    _ _ | .it => false
  | .bx rm => rm ≠ pc
  | .add rdn rm => rdn ≠ pc && rm ≠ pc
  | .mov _ rm => rm ≠ pc
  | .push _ | .pop _ | .addImm _ _ | .addShifted _ _ _ _ _ | .ldrb _ _ _ | .ldrh _ _ _ | .nop =>
    true
  | .other i => coreOnly i

variable {other : Code → Core → Option Core} {i : Code}

theorem perform_of_pcFree (c : Core) {instr : Instr} (h : instr.pcFree = true) (a b : Word) :
    perform other i a c instr = perform other i b c instr := by
  cases instr with
  | bx rm =>
    simp only [Instr.pcFree, decide_eq_true_eq] at h
    simp only [perform, Core.read_of_ne _ _ h]
  | add rdn rm =>
    simp only [Instr.pcFree, Bool.and_eq_true, decide_eq_true_eq] at h
    simp only [perform, Core.read_of_ne _ _ h.1, Core.read_of_ne _ _ h.2]
  | mov rd rm =>
    simp only [Instr.pcFree, decide_eq_true_eq] at h
    simp only [perform, Core.read_of_ne _ _ h]
  | b offset => cases h
  | bCond cond offset => cases h
  | cb nonzero offset rn => cases h
  | bl offset => cases h
  | blx offset => cases h
  | adr add rd imm => cases h
  | ldrLiteral add rt imm => cases h
  | tb halfwords rn rm => cases h
  | it => cases h
  | push registers => simp only [perform]
  | pop registers => simp only [perform]
  | addImm rdn imm => simp only [perform]
  | addShifted rn rd rm type imm5 => simp only [perform]
  | ldrb rn rt imm => simp only [perform]
  | ldrh rn rt imm => simp only [perform]
  | nop => simp only [perform]
  | other i => simp only [perform]

theorem effect_of_pcFree (c : Core) (h : (decode i).pcFree = true) (a b : Word) :
    effect other i a c = effect other i b c :=
  perform_of_pcFree c h a b

theorem step_narrow {c : Core} {a : Word} {h : Half} (hmem : half c.mem a = h)
    (hnarrow : leads h = false) :
    step other ⟨c, a, true⟩ = (effect other (.narrow h) a c).map (land (a + 2) true) := by
  simp only [step, fetch, hmem, hnarrow, if_true, Bool.false_eq_true, if_false, Code.size]

theorem step_wide {c : Core} {a : Word} {h l : Half} (hmem : half c.mem a = h)
    (hmem' : half c.mem (a + 2) = l)
    (hwide : leads h = true) : step other ⟨c, a, true⟩ =
      (effect other (.wide h l) a c).map (land (a + 4) true) := by
  simp only [step, fetch, hmem, hmem', hwide, if_true, Code.size]

end ThumbInstructions
