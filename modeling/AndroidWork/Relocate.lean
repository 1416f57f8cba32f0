import AndroidWork.ArmMachine

/-!
# Relocating the first instructions of a function

relocate.c of the inline hook. The words that are read through a pointer at that
time come from `load`; what is written behind `trampoline_instructions` is the
list that is returned, beside the pairs that go into `orig_boundaries` and
`trampoline_boundaries`. `length` is the size of the instructions given.
-/
namespace Relocate

open ArmMachine (Word Half)

/-- `INSTRUCTION_TYPE`. -/
inductive InstructionType where
  | b1Thumb16 | b2Thumb16 | bxThumb16 | addThumb16 | movThumb16 | adrThumb16
    | ldrThumb16 | cbThumb16
  | blxThumb32 | blThumb32 | b1Thumb32 | b2Thumb32 | adr1Thumb32 | adr2Thumb32 | ldrThumb32
    | tbbThumb32 | tbhThumb32
  | blxArm | blArm | bArm | bxArm | addArm | adr1Arm | adr2Arm | movArm | ldrArm
  | undefine
  deriving DecidableEq, Repr

open InstructionType

def ALIGN_PC (pc : Word) : Word := pc &&& 0xFFFFFFFC

def getTypeInThumb16 (instruction : Half) : InstructionType :=
  if instruction &&& 0xF000 = 0xD000 then b1Thumb16
  else if instruction &&& 0xF800 = 0xE000 then b2Thumb16
  else if instruction &&& 0xFFF8 = 0x4778 then bxThumb16
  else if instruction &&& 0xFF78 = 0x4478 then addThumb16
  else if instruction &&& 0xFF78 = 0x4678 then movThumb16
  else if instruction &&& 0xF800 = 0xA000 then adrThumb16
  else if instruction &&& 0xF800 = 0x4800 then ldrThumb16
  else if instruction &&& 0xF500 = 0xB100 then cbThumb16
  else undefine

def getTypeInThumb32 (instruction : Word) : InstructionType :=
  if instruction &&& 0xF800D000 = 0xF000C000 then blxThumb32
  else if instruction &&& 0xF800D000 = 0xF000D000 then blThumb32
  else if instruction &&& 0xF800D000 = 0xF0008000 then b1Thumb32
  else if instruction &&& 0xF800D000 = 0xF0009000 then b2Thumb32
  else if instruction &&& 0xFBFF8000 = 0xF2AF0000 then adr1Thumb32
  else if instruction &&& 0xFBFF8000 = 0xF20F0000 then adr2Thumb32
  else if instruction &&& 0xFF7F0000 = 0xF85F0000 then ldrThumb32
  else if instruction &&& 0xFFFF00F0 = 0xE8DF0000 then tbbThumb32
  else if instruction &&& 0xFFFF00F0 = 0xE8DF0010 then tbhThumb32
  else undefine

def getTypeInArm (instruction : Word) : InstructionType :=
  if instruction &&& 0xFE000000 = 0xFA000000 then blxArm
  else if instruction &&& 0xF000000 = 0xB000000 then blArm
  else if instruction &&& 0xF000000 = 0xA000000 then bArm
  else if instruction &&& 0xFF000FF = 0x120001F then bxArm
  else if instruction &&& 0xFEF0010 = 0x8F0000 then addArm
  else if instruction &&& 0xFFF0000 = 0x28F0000 then adr1Arm
  else if instruction &&& 0xFFF0000 = 0x24F0000 then adr2Arm
  else if instruction &&& 0xE5F0000 = 0x41F0000 then ldrArm
  else if instruction &&& 0xFE00FFF = 0x1A0000F then movArm
  else undefine

/-- `for (r = start; ; --r)` up to the first register that is not taken. -/
def spareRegister (taken : List Nat) : Nat → Nat
  | 0 => 0
  | r + 1 => if r + 1 ∈ taken then spareRegister taken r else r + 1

theorem spareRegister_one (x n : Nat) (h : 1 < n) :
    spareRegister [x] n ≠ x ∧ n ≤ spareRegister [x] n + 1 ∧ spareRegister [x] n ≤ n := by
  obtain ⟨k, rfl⟩ : ∃ k, n = k + 2 := ⟨n - 2, by omega⟩
  simp only [spareRegister, List.mem_singleton]
  split_ifs <;> omega

theorem spareRegister_two (x y n : Nat) (h : 2 < n) :
    spareRegister [x, y] n ≠ x ∧ spareRegister [x, y] n ≠ y ∧ n ≤ spareRegister [x, y] n + 2 ∧
    spareRegister [x, y] n ≤ n := by
  obtain ⟨k, rfl⟩ : ∃ k, n = k + 3 := ⟨n - 3, by omega⟩
  simp only [spareRegister, List.mem_cons, List.not_mem_nil, or_false]
  split_ifs <;> omega

/-- What the loop of `relocateInstructionInArm` emits for one instruction. -/
def relocateInArm (load : Word → Word) (pc instruction : Word) : List Word :=
  let type := getTypeInArm instruction
  if type = blxArm ∨ type = blArm ∨ type = bArm ∨ type = bxArm then
    let x :=
      if type = blxArm then ((instruction &&& 0xFFFFFF) <<< 2) |||
        ((instruction &&& 0x1000000) >>> 23)
      else if type = blArm ∨ type = bArm then (instruction &&& 0xFFFFFF) <<< 2
      else 0
    let top_bit := x >>> 25
    let imm32 := if top_bit ≠ 0 then x ||| (0xFFFFFFFF#32 <<< 26) else x
    let value := if type = blxArm then pc + imm32 + 1 else pc + imm32
    (if type = blxArm ∨ type = blArm then [0xE28FE004] else []) ++ [0xE51FF004, value]
  else if type = addArm then
    let rd := (instruction &&& 0xF000) >>> 12
    let rm := instruction &&& 0xF
    let r := BitVec.ofNat 32 (spareRegister [rd.toNat, rm.toNat] 12)
    [0xE52D0004#32 ||| (r <<< 12), 0xE59F0008#32 ||| (r <<< 12),
      (instruction &&& 0xFFF0FFFF#32) ||| (r <<< 16),
      0xE49D0004#32 ||| (r <<< 12), 0xE28FF000, pc]
  else if type = adr1Arm ∨ type = adr2Arm ∨ type = ldrArm ∨ type = movArm then
    let r := (instruction &&& 0xF000) >>> 12
    let imm32 := instruction &&& 0xFFF
    let value :=
      if type = adr1Arm then pc + imm32
      else if type = adr2Arm then pc - imm32
      else if type = ldrArm then
        if (instruction &&& 0x800000) >>> 23 ≠ 0 then load (pc + imm32) else load (pc - imm32)
      else pc
    [0xE51F0000#32 ||| (r <<< 12), 0xE28FF000, value]
  else [instruction]

/-- What was written so far: the trampoline and the two boundaries of each instruction. -/
structure Emitted (n : Nat) where
  trampoline_instructions : List (BitVec n)
  boundaries : List (Nat × Nat)
  deriving DecidableEq, Repr

def relocateInArmLoop (load : Word → Word) : Word → Nat → Nat → List Word → Emitted 32
  | _, _, _, [] => ⟨[], []⟩
  | pc, orig_pos, trampoline_pos, instruction :: rest =>
    let chunk := relocateInArm load pc instruction
    let r := relocateInArmLoop load (pc + 4) (orig_pos + 1) (trampoline_pos + chunk.length) rest
    ⟨chunk ++ r.trampoline_instructions, (orig_pos * 4, trampoline_pos * 4) :: r.boundaries⟩

def relocateInstructionInArm (load : Word → Word) (target_addr : Word)
    (orig_instructions : List Word) : Emitted 32 :=
  let length := 4 * orig_instructions.length
  let lr := target_addr + BitVec.ofNat 32 length
  let r := relocateInArmLoop load (target_addr + 8) 0 0 orig_instructions
  ⟨r.trampoline_instructions ++ [0xe51ff004, lr], r.boundaries⟩

def relocateInstructionInThumb16 (load : Word → Word) (pc : Word)
    (instruction : Half) : List Half :=
  let type := getTypeInThumb16 instruction
  let i : Word := instruction.setWidth 32
  if type = b1Thumb16 ∨ type = b2Thumb16 ∨ type = bxThumb16 then
    let value :=
      if type = b1Thumb16 then
        let x := (i &&& 0xFF) <<< 1
        let top_bit := x >>> 8
        pc + (if top_bit ≠ 0 then x ||| (0xFFFFFFFF#32 <<< 8) else x)
      else if type = b2Thumb16 then
        let x := (i &&& 0x7FF) <<< 1
        let top_bit := x >>> 11
        pc + (if top_bit ≠ 0 then x ||| (0xFFFFFFFF#32 <<< 11) else x)
      else pc
    (if type = b1Thumb16 then [instruction &&& 0xFF00, 0xE003] else []) ++
      [0xF8DF, 0xF000, (value &&& 0xFFFF).truncate 16, (value >>> 16).truncate 16]
  else if type = addThumb16 then
    let rdn := ((i &&& 0x80) >>> 4) ||| (i &&& 0x7)
    let r := spareRegister [rdn.toNat] 7
    [0xB400#16 ||| (1#16 <<< r), 0x4802#16 ||| (BitVec.ofNat 16 r <<< 8),
      (instruction &&& 0xFF87#16) ||| (BitVec.ofNat 16 r <<< 3),
      0xBC00#16 ||| (1#16 <<< r), 0xE002, 0xBF00, (pc &&& 0xFFFF).truncate 16,
      (pc >>> 16).truncate 16]
  else if type = movThumb16 ∨ type = adrThumb16 ∨ type = ldrThumb16 then
    let r := if type = movThumb16 then instruction &&& 0x7 else (instruction &&& 0x700) >>> 8
    let value :=
      if type = movThumb16 then pc
      else if type = adrThumb16 then (ALIGN_PC pc + (i &&& 0xFF)) <<< 2
      else load (ALIGN_PC pc + ((i &&& 0xFF) <<< 2))
    [0x4800#16 ||| (r <<< 8), 0xE001, (value &&& 0xFFFF).truncate 16, (value >>> 16).truncate 16]
  else if type = cbThumb16 then
    let imm32 := ((i &&& 0x200) >>> 3) ||| ((i &&& 0xF8) >>> 2)
    let value := pc + imm32 + 1
    [instruction &&& 0xFD07, 0xE003, 0xF8DF, 0xF000, (value &&& 0xFFFF).truncate 16,
      (value >>> 16).truncate 16]
  else [instruction, 0xBF00]

/-- The shifts into bit 31 and beyond keep what still fits into the word. -/
def relocateInstructionInThumb32 (load : Word → Word) (pc : Word)
    (high_instruction low_instruction : Half) : List Half :=
  let hi : Word := high_instruction.setWidth 32
  let lo : Word := low_instruction.setWidth 32
  let instruction := (hi <<< 16) ||| lo
  let type := getTypeInThumb32 instruction
  if type = blxThumb32 ∨ type = blThumb32 ∨ type = b1Thumb32 ∨ type = b2Thumb32 then
    let j1 := (lo &&& 0x2000) >>> 13
    let j2 := (lo &&& 0x800) >>> 11
    let s := (hi &&& 0x400) >>> 10
    let i1 : Word := if j1 ^^^ s = 0 then 1 else 0
    let i2 : Word := if j2 ^^^ s = 0 then 1 else 0
    let value :=
      if type = blxThumb32 then
        let x := (s <<< 24) ||| (i1 <<< 23) ||| (i2 <<< 22) ||| ((hi &&& 0x3FF) <<< 12) |||
          ((lo &&& 0x7FE) <<< 1)
        pc + (if s ≠ 0 then x ||| (0xFFFFFFFF#32 <<< 25) else x)
      else if type = b1Thumb32 then
        let x := (s <<< 20) ||| (j2 <<< 19) ||| (j1 <<< 18) ||| ((hi &&& 0x3F) <<< 12) |||
          ((lo &&& 0x7FF) <<< 1)
        pc + (if s ≠ 0 then x ||| (0xFFFFFFFF#32 <<< 21) else x) + 1
      else
        let x := (s <<< 24) ||| (i1 <<< 23) ||| (i2 <<< 22) ||| ((hi &&& 0x3FF) <<< 12) |||
          ((lo &&& 0x7FF) <<< 1)
        pc + (if s ≠ 0 then x ||| (0xFFFFFFFF#32 <<< 25) else x) + 1
    let first : List Half :=
      if type = blxThumb32 ∨ type = blThumb32 then [0xF20F, 0x0E09]
      else if type = b1Thumb32 then [0xD000#16 ||| ((high_instruction &&& 0x3C0) <<< 2), 0xE003]
      else []
    first ++ [0xF8DF, 0xF000, (value &&& 0xFFFF).truncate 16, (value >>> 16).truncate 16]
  else if type = adr1Thumb32 ∨ type = adr2Thumb32 ∨ type = ldrThumb32 then
    let r := if type = ldrThumb32 then low_instruction >>> 12 else (low_instruction &&& 0xF00) >>> 8
    let value :=
      if type = ldrThumb32 then
        if (hi &&& 0x80) >>> 7 ≠ 0 then load (ALIGN_PC pc + (lo &&& 0xFFF))
          else load (ALIGN_PC pc - (lo &&& 0xFFF))
      else
        let i := (hi &&& 0x400) >>> 10
        let imm3 := (lo &&& 0x7000) >>> 12
        let imm8 := instruction &&& 0xFF
        let imm32 := (i <<< 31) ||| (imm3 <<< 30) ||| (imm8 <<< 27)
        if type = adr1Thumb32 then ALIGN_PC pc + imm32 else ALIGN_PC pc - imm32
    [0x4800#16 ||| (r <<< 8), 0xE001, (value &&& 0xFFFF).truncate 16, (value >>> 16).truncate 16]
  else if type = tbbThumb32 ∨ type = tbhThumb32 then
    let rm := low_instruction &&& 0xF
    let r := spareRegister [rm.toNat] 7
    let rx := spareRegister [rm.toNat, r] 7
    let rr : Half := BitVec.ofNat 16 r
    let rrx : Half := BitVec.ofNat 16 rx
    let start : List Half :=
      [0xB400#16 ||| (1#16 <<< rx), 0x4805#16 ||| (rr <<< 8), 0x4600#16 ||| (rm <<< 3) ||| rrx]
    let entry : List Half :=
      if type = tbbThumb32 then
        [0xEB00#16 ||| rr, 0x0000#16 ||| (rrx <<< 8) ||| rrx, 0x7800#16 ||| (rrx <<< 3) ||| rrx]
      else [0xEB00#16 ||| rr, 0x0040#16 ||| (rrx <<< 8) ||| rrx, 0x8800#16 ||| (rrx <<< 3) ||| rrx]
    start ++ entry ++
      [0xEB00#16 ||| rr, 0x0040#16 ||| (rr <<< 8) ||| rrx, 0x3001#16 ||| (rr <<< 8),
        0xBC00#16 ||| (1#16 <<< rx), 0x4700#16 ||| (rr <<< 3),
        0xBF00, (pc &&& 0xFFFF).truncate 16, (pc >>> 16).truncate 16]
  else [high_instruction, low_instruction]

/-- The first half of a 32-bit instruction: its five upper bits are at least 0x1D. -/
def isWide (h : Half) : Bool := 0x1D#16 ≤ h >>> 11 ∧ h >>> 11 ≤ 0x1F#16

/-- A wide instruction whose second half is not among those given ends the loop
behind its boundary. Beside what is emitted stands `orig_pos` at the end. -/
def relocateInThumbLoop (load : Word → Word) : Word → Nat → Nat → List Half → Emitted 16 × Nat
  | _, orig_pos, _, [] => (⟨[], []⟩, orig_pos)
  | pc, orig_pos, trampoline_pos, [h] =>
    if isWide h then (⟨[], [(orig_pos * 2, trampoline_pos * 2)]⟩, orig_pos)
    else (⟨relocateInstructionInThumb16 load pc h, [(orig_pos * 2, trampoline_pos * 2)]⟩,
      orig_pos + 1)
  | pc, orig_pos, trampoline_pos, h :: l :: rest =>
    if isWide h then
      let chunk := relocateInstructionInThumb32 load pc h l
      let r := relocateInThumbLoop load (pc + 4) (orig_pos + 2) (trampoline_pos + chunk.length) rest
      (⟨chunk ++ r.1.trampoline_instructions, (orig_pos * 2, trampoline_pos * 2) :: r.1.boundaries⟩,
        r.2)
    else
      let chunk := relocateInstructionInThumb16 load pc h
      let r := relocateInThumbLoop load (pc + 2) (orig_pos + 1)
        (trampoline_pos + chunk.length) (l :: rest)
      (⟨chunk ++ r.1.trampoline_instructions, (orig_pos * 2, trampoline_pos * 2) :: r.1.boundaries⟩,
        r.2)

def relocateInstructionInThumb (load : Word → Word) (target_addr : Word)
    (orig_instructions : List Half) : Emitted 16 :=
  let r := relocateInThumbLoop load (target_addr + 4) 0 0 orig_instructions
  let lr := target_addr + BitVec.ofNat 32 (r.2 * 2) + 1
  ⟨r.1.trampoline_instructions ++ [0xF8DF, 0xF000, (lr &&& 0xFFFF).truncate 16,
    (lr >>> 16).truncate 16], r.1.boundaries⟩

end Relocate
