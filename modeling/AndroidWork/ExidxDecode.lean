import AndroidWork.EhabiTable

/-!
# The unwinding instruction interpreter of the ARM unwinders

`arm_exidx_decode` and `arm_exidx_apply_cmd`, which the crash collector and
libmemcheck hold in identical copies (they differ in log calls only). A read
behind the buffer is a fault here, and a shift past the operand's width is one
on request: C leaves both undefined.
-/
namespace ExidxDecode

open Leb128 (Byte)
open EhabiTable (Word Mem)

inductive Fault where
  | readPastEnd
  | shiftPastWidth
  deriving DecidableEq, Repr

/-- How a shift by 32 or more is taken: undefined as in C, which is a fault, or
with the result 0 that the ARM instruction has. -/
inductive WideShift where
  | undefined
  | zero
  deriving DecidableEq, Repr

/-- `arm_exbuf_cmd`. -/
inductive ArmExbufCmd where
  | finish | dataPush | dataPop | regPop | regToSp | vfpPop | wregPop | wcgrPop | reserved | refused
  deriving DecidableEq, Repr

/-- `arm_exbuf_data`. The commands that carry no data get 0, which no case of
`armExidxApplyCmd` reads (the source leaves the word of the previous opcode). -/
structure ArmExbufData where
  cmd : ArmExbufCmd
  data : Word := 0
  deriving DecidableEq, Repr

def stepStop : Int := -1
def stepPcLr : Int := -2

/-- `t_cursor`. -/
structure TCursor where
  regs : Fin 17 → Word
  baseAddr : Word
  pcOffest : Word
  stepStatus : Int
  exidxStartAddr : Word
  exidxEndAddr : Word

abbrev armSp : Fin 17 := 13
abbrev armLr : Fin 17 := 14
abbrev armPc : Fin 17 := 15

def TCursor.setReg (c : TCursor) (i : Fin 17) (v : Word) : TCursor :=
  { c with regs := Function.update c.regs i v }

def armExidxVfpShift16 : Word := 1 <<< 16
def armExidxVfpDouble : Word := 1 <<< 17

/-- `READ_OP ()` of a second opcode byte, which `f` turns into the command. -/
def readOp2 (buf : List Byte) (f : Byte → ArmExbufData) : Except Fault (ArmExbufData × List Byte) :=
  match buf with
  | [] => .error .readPastEnd
  | op2 :: buf => .ok (f op2, buf)

/-- The loop that reads a uleb128 operand; `shift` is a `uint8_t` and grows by
seven, `offset` is the value so far. -/
def readUleb (wide : WideShift) (offset : Word) (shift : Byte) :
    List Byte → Except Fault (Word × List Byte)
  | [] => .error .readPastEnd
  | b :: bs =>
    if wide = .undefined ∧ 32 ≤ shift.toNat then .error .shiftPastWidth
    else
      let offset := offset ||| ((b &&& 0x7f#8).setWidth 32 <<< shift.toNat)
      if b &&& 0x80#8 ≠ 0#8 then readUleb wide offset (shift + 7#8) bs else .ok (offset, bs)

def word (b : Byte) : Word := b.setWidth 32

/-- The mask of the `1010` opcodes, as the source builds it. -/
def rangeMask (op : Byte) : Word :=
  let data : Word := ((1#32 <<< ((op &&& 0x07#8).toNat + 1)) - 1) <<< 4
  if op &&& 0x08#8 ≠ 0#8 then data ||| 1#32 <<< 14 else data

/-- One turn of the loop in `arm_exidx_decode` up to the call that applies the
command: the command and where `buf` then stands. -/
def decodeOp (wide : WideShift) : List Byte → Except Fault (ArmExbufData × List Byte)
  | [] => .error .readPastEnd
  | op :: buf =>
    if op &&& 0xc0#8 = 0x00#8 then .ok (⟨.dataPop, (word op &&& 0x3f) <<< 2 + 4⟩, buf)
    else if op &&& 0xc0#8 = 0x40#8 then .ok (⟨.dataPush, (word op &&& 0x3f) <<< 2 + 4⟩, buf)
    else if op &&& 0xf0#8 = 0x80#8 then readOp2 buf fun op2 =>
      if op = 0x80#8 ∧ op2 = 0x00#8 then { cmd := .refused }
      else ⟨.regPop, ((word op &&& 0xf) <<< 8 ||| word op2) <<< 4⟩
    else if op &&& 0xf0#8 = 0x90#8 then
      if op = 0x9d#8 ∨ op = 0x9f#8 then .ok ({ cmd := .reserved }, buf)
      else .ok (⟨.regToSp, word op &&& 0x0f⟩, buf)
    else if op &&& 0xf0#8 = 0xa0#8 then .ok (⟨.regPop, rangeMask op⟩, buf)
    -- `buf = end`
    else if op = 0xb0#8 then .ok ({ cmd := .finish }, [])
    else if op = 0xb1#8 then readOp2 buf fun op2 =>
      if op2 = 0#8 ∨ op2 &&& 0xf0#8 ≠ 0#8 then
        { cmd := .reserved } else ⟨.regPop, word op2 &&& 0x0f⟩
    else if op = 0xb2#8 then
      match readUleb wide 0 0 buf with
      | .error e => .error e
      | .ok (offset, buf) => .ok (⟨.dataPop, offset * 4 + 0x204⟩, buf)
    else if op = 0xb3#8 ∨ op = 0xc8#8 ∨ op = 0xc9#8 then readOp2 buf fun op2 =>
      let data := if op = 0xc8#8 then word op2 ||| armExidxVfpShift16 else word op2
      ⟨.vfpPop, if op ≠ 0xb3#8 then data ||| armExidxVfpDouble else data⟩
    else if op &&& 0xf8#8 = 0xb8#8 ∨ op &&& 0xf8#8 = 0xd0#8 then
      let data : Word := 0x80 ||| (word op &&& 0x07)
      .ok (⟨.vfpPop, if op &&& 0xf8#8 = 0xd0#8 then data ||| armExidxVfpDouble else data⟩, buf)
    else if 0xc0#8 ≤ op ∧ op ≤ 0xc5#8 then .ok (⟨.wregPop, 0xa0 ||| (word op &&& 0x07)⟩, buf)
    else if op = 0xc6#8 then readOp2 buf fun op2 => ⟨.wregPop, word op2⟩
    else if op = 0xc7#8 then readOp2 buf fun op2 =>
      if op2 = 0#8 ∨ op2 &&& 0xf0#8 ≠ 0#8 then
        { cmd := .reserved } else ⟨.wcgrPop, word op2 &&& 0x0f⟩
    else .ok ({ cmd := .reserved }, buf)

/-- One turn of the pop loop: pop r[i] if its bit is set. -/
def popTurn (mem : Mem) (data : Word) (c : TCursor) (i : Nat) : TCursor :=
  if data &&& 1#32 <<< i ≠ 0 then
    let c := c.setReg (Fin.ofNat 17 i) (mem (c.regs armSp))
    c.setReg armSp (c.regs armSp + 4)
  else c

/-- `for (i = 0; i < n; i++)`, which the source runs with `n = 16`. -/
def regPopLoop (mem : Mem) (data : Word) (n : Nat) (c : TCursor) : TCursor :=
  (List.range n).foldl (popTurn mem data) c

/-- `arm_exidx_apply_cmd`: the returned `ret` and the cursor. -/
def armExidxApplyCmd (mem : Mem) (edata : ArmExbufData) (c : TCursor) : Int × TCursor :=
  match edata.cmd with
  | .finish =>
    if c.regs armPc = c.regs armLr then (0, { c with stepStatus := stepPcLr })
    else (0, c.setReg armPc (c.regs armLr))
  | .dataPush => (0, c.setReg armSp (c.regs armSp - edata.data))
  | .dataPop => (0, c.setReg armSp (c.regs armSp + edata.data))
  | .regPop => (0, regPopLoop mem edata.data 16 c)
  | .regToSp => (0, c.setReg armSp (c.regs (Fin.ofNat 17 edata.data.toNat)))
  -- the comment there asks for the stack adjustment, the case makes none
  | .vfpPop => (0, c)
  | .wregPop => (0, c)
  | .wcgrPop => (0, c)
  | .refused => (-1, c)
  | .reserved => (-1, c)

theorem readUleb_suffix {wide : WideShift} {buf rest : List Byte} {offset v : Word} {shift : Byte}
    (h : readUleb wide offset shift buf = .ok (v, rest)) : rest <:+ buf := by
  induction buf generalizing offset shift with
  | nil => simp [readUleb] at h
  | cons b bs ih =>
    simp only [readUleb] at h
    split at h
    · simp at h
    · split at h
      · exact (ih h).trans (List.suffix_cons b bs)
      · obtain ⟨-, rfl⟩ := by simpa using h
        exact List.suffix_cons b bs

theorem readOp2_ok {buf rest : List Byte} {f : Byte → ArmExbufData} {e : ArmExbufData}
    (h : readOp2 buf f = .ok (e, rest)) : ∃ op2, buf = op2 :: rest ∧ e = f op2 := by
  cases buf with
  | nil => simp [readOp2] at h
  | cons b bs =>
    obtain ⟨rfl, rfl⟩ := by simpa [readOp2] using h
    exact ⟨b, rfl, rfl⟩

/-- Both arms of a conditional that is known to give `x`. -/
theorem ite_elim {α : Type} {p q : Prop} [Decidable p] {a b x : α} (h : (if p then a else b) = x)
    (ha : p → a = x → q) (hb : ¬ p → b = x → q) : q := by
  by_cases hp : p
  · exact ha hp (by simpa only [if_pos hp] using h)
  · exact hb hp (by simpa only [if_neg hp] using h)

/-- Every turn of the loop moves `buf` past the opcode at least. -/
theorem decodeOp_suffix {wide : WideShift} {op : Byte} {buf rest : List Byte} {e : ArmExbufData}
    (h : decodeOp wide (op :: buf) = .ok (e, rest)) : rest <:+ buf := by
  have hop : ∀ {f : ArmExbufData},
      Except.ok (f, buf) = (Except.ok (e, rest) : Except Fault _) → rest <:+ buf := by
    intro f h
    cases h
    exact List.suffix_rfl
  have hop2 : ∀ {f : Byte → ArmExbufData}, readOp2 buf f = .ok (e, rest) → rest <:+ buf := by
    intro f h
    obtain ⟨op2, rfl, -⟩ := readOp2_ok h
    exact List.suffix_cons op2 rest
  rw [decodeOp] at h
  refine ite_elim h (fun _ => hop) fun _ h => ?_
  refine ite_elim h (fun _ => hop) fun _ h => ?_
  refine ite_elim h (fun _ => hop2) fun _ h => ?_
  refine ite_elim h (fun _ h => ite_elim h (fun _ => hop) fun _ => hop) fun _ h => ?_
  refine ite_elim h (fun _ => hop) fun _ h => ?_
  refine ite_elim h (fun _ h => ?_) fun _ h => ?_
  · cases h
    exact List.nil_suffix
  refine ite_elim h (fun _ => hop2) fun _ h => ?_
  refine ite_elim h (fun _ h => ?_) fun _ h => ?_
  · split at h
    · simp at h
    · rename_i he
      cases h
      exact readUleb_suffix he
  refine ite_elim h (fun _ => hop2) fun _ h => ?_
  refine ite_elim h (fun _ => hop) fun _ h => ?_
  refine ite_elim h (fun _ => hop) fun _ h => ?_
  refine ite_elim h (fun _ => hop2) fun _ h => ?_
  exact ite_elim h (fun _ => hop2) fun _ => hop

/-- `arm_exidx_decode`, `buf` holding the `len` bytes up to `end`. -/
def armExidxDecode (wide : WideShift) (mem : Mem) :
    List Byte → TCursor → Except Fault (Int × TCursor)
  | [], c => .ok (0, c)
  | op :: buf, c =>
    match _h : decodeOp wide (op :: buf) with
    | .error e => .error e
    | .ok (edata, rest) =>
      let r := armExidxApplyCmd mem edata c
      if r.1 < 0 then .ok r else armExidxDecode wide mem rest r.2
termination_by buf => buf.length
decreasing_by
  have := (decodeOp_suffix _h).length_le
  simp only [List.length_cons]
  omega

end ExidxDecode
