import AndroidWork.BitPacking
import AndroidWork.Leb128

/-!
# The records of .eh_frame, as the arm64 unwinder reads them

`decode_cie` and `decode_fde` over the bytes from the start of the section on.
A pointer is an offset from that start; a read past the mapped bytes faults,
`none` here. A shift past the width of its operand, undefined in C, gives 0.
-/
namespace EhFrame

open Leb128 (Byte)

/-- The mapped bytes from the start of `.eh_frame` on, and its address. -/
structure Memory where
  start : Nat
  bytes : List Byte

def USE_EXTENDED_LENGTH : Nat := 0xFFFFFFFF

/-- A little-endian number of `n` bytes. -/
def Memory.read (m : Memory) (n off : Nat) : Option Nat :=
  if off + n ≤ m.bytes.length then some (BitPacking.bytesValue ((m.bytes.drop off).take n))
    else none

/-- The loop of `read_uleb128`, `pos` bytes in: the value and the length. -/
def readUlebLoop (value : BitVec 32) (pos : Nat) : List Byte → Option (BitVec 32 × Nat)
  | [] => none
  | byte :: buf =>
    let value := value ||| (((byte &&& 0x7f).setWidth 32) <<< (7 * pos))
    if byte &&& 0x80 = 0 then some (value, pos + 1) else readUlebLoop value (pos + 1) buf

def readUleb128 (buf : List Byte) : Option (BitVec 32 × Nat) := readUlebLoop 0 0 buf

/-- The loop of `read_leb128`, and the sign bits behind it. -/
def readLebLoop (value : BitVec 32) (pos : Nat) : List Byte → Option (BitVec 32 × Nat)
  | [] => none
  | byte :: buf =>
    let value := value ||| (((byte &&& 0x7f).setWidth 32) <<< (7 * pos))
    if byte &&& 0x80 = 0 then
      some (if byte &&& 0x40 ≠ 0 then value ||| -((1 : BitVec 32) <<< (7 * (pos + 1)))
        else value, pos + 1)
    else readLebLoop value (pos + 1) buf

def readLeb128 (buf : List Byte) : Option (BitVec 32 × Nat) := readLebLoop 0 0 buf

/-- A string up to its NUL. -/
def cString : List Byte → Option (List Byte)
  | [] => none
  | b :: buf => if b = 0 then some [] else (cString buf).map (b :: ·)

structure Cie where
  totalLength : Nat
  length : Nat
  cieId : Nat
  version : Nat
  augmentation : List Byte
  enData : Nat
  codeAlignmentFactor : BitVec 32
  dataAlignmentFactor : BitVec 32
  returnAddressRegister : BitVec 32
  augmentationDataLength : BitVec 32
  initialInstructions : Nat
  instLength : Nat
  deriving DecidableEq, Repr

structure Fde where
  totalLength : Nat
  length : Nat
  ciePointer : Nat
  pcBegin : Nat
  pcRange : Nat
  augmentationDataLength : BitVec 32
  callFrameInstructions : Int
  instLength : Nat
  deriving DecidableEq, Repr

/-- The length both decoders begin with, and the size of the field. -/
def readLength (m : Memory) (off : Nat) : Option (Nat × Nat) := do
  let length ← m.read 4 off
  if length = USE_EXTENDED_LENGTH then
    let length ← m.read 8 (off + 4)
    some (length, 12)
  else some (length, 4)

/-- `strstr(cie->augmentation, "zh")`: eight bytes of data follow the string. -/
def enDataSize (augmentation : List Byte) : Nat := if [0x7a, 0x68] <:+: augmentation then 8 else 0

def decodeCie (m : Memory) (eh_frame_start : Nat) : Option Cie := do
  let (length, header) ← readLength m eh_frame_start
  let current := eh_frame_start + header
  let cieEnd := current + length
  let cieId ← m.read 4 current
  let version ← m.read 1 (current + 4)
  let current := current + 4 + 1
  let augmentation ← cString (m.bytes.drop current)
  let current := current + (augmentation.length + 1)
  let enData ← m.read (enDataSize augmentation) current
  let current := current + enDataSize augmentation
  let (code, n) ← readUleb128 (m.bytes.drop current)
  let current := current + n
  let (data, n) ← readLeb128 (m.bytes.drop current)
  let current := current + n
  let (returnAddress, n) ← readUleb128 (m.bytes.drop current)
  let current := current + n
  let (augmentationDataLength, current) ←
    if 0x7a ∈ augmentation then do
      let (v, n) ← readUleb128 (m.bytes.drop current)
      some (v, current + n + v.toNat)
    else some (0, current)
  some ⟨(length + header) % 2 ^ 64, length, cieId, version, augmentation, enData, code,
    data, returnAddress,
    augmentationDataLength, current, ((cieEnd - current : Int) % 2 ^ 64).toNat⟩

def decodeFde (m : Memory) (fde_start : Nat) (cie : Cie) : Option Fde := do
  let (length, header) ← readLength m fde_start
  if length = 0 then some ⟨header, 0, 0, 0, 0, 0, 0, 0⟩
  else
    let current := fde_start + header
    let fdeEnd := current + length
    let ciePointer ← m.read 4 current
    let current := current + 4
    let pcRelative ← m.read 4 current
    let pcBegin := ((BitVec.ofNat 32 pcRelative).toInt + (m.start + current : Nat)) % 2 ^ 64
    let current := current + 4
    let pcRange ← m.read 4 current
    let current := current + 4
    let (augmentationDataLength, current) ←
      if cie.augmentation.head? = some 0x7a then do
        let (v, n) ← readUleb128 (m.bytes.drop current)
        some (v, (current : Int) + (BitVec.ofNat 32 n + v).toInt)
      else some (0, (current : Int))
    some ⟨(length + header) % 2 ^ 64, length, ciePointer, pcBegin.toNat, pcRange,
      augmentationDataLength, current,
      (((fdeEnd : Int) - current) % 2 ^ 64).toNat⟩

/-- What the loop of `step` comes to. -/
inductive Found where
  | fault
  | notFound
  | selected (fde : Fde) (cie : Cie)
  deriving DecidableEq, Repr

/-- The loop of `step` from a record on, and where it decoded an FDE; `none` for
too few turns. -/
def stepLoop (m : Memory) (pc : Nat) (cie : Cie) : Nat → Nat → Option (Found × List Nat)
  | 0, _ => none
  | turns + 1, off =>
    match decodeFde m off cie with
    | none => some (.fault, [off])
    | some fde =>
      if fde.length = 0 then some (.notFound, [off])
      else if pc < (fde.pcBegin + fde.pcRange) % 2 ^ 64 ∧ pc ≥ fde.pcBegin then
        some (.selected fde cie, [off])
      else (stepLoop m pc cie turns ((off + fde.totalLength) % 2 ^ 64)).map fun r =>
        (r.1, off :: r.2)

/-- `step` from the start of the section on, up to the call of `execute_insns`. -/
def step (m : Memory) (pc turns : Nat) : Option (Found × List Nat) :=
  match decodeCie m 0 with
  | none => some (.fault, [])
  | some cie => stepLoop m pc cie turns cie.totalLength

end EhFrame
