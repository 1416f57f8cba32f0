import AndroidWork.Leb128

/-!
# The ARM EHABI unwinding instructions

The instruction table as the ABI states it: how bytes are read as instructions
and what each one does to the virtual registers r0-r15, r13 being the virtual
stack pointer. Loads read an arbitrary word memory.
-/
namespace EhabiTable

open Leb128 (Byte)

abbrev Word := BitVec 32
abbrev Mem := Word → Word

/-- A number of bytes that a coprocessor pop takes off the stack. -/
structure StackBytes where
  bytes : Nat
  pos : 0 < bytes
  small : bytes < 2 ^ 32

/-- One table row with its operands. Coprocessor registers are not tracked, so
their pops carry only what they take off the stack. -/
inductive Insn where
  | addVsp (n : Nat)
  | subVsp (n : Nat)
  | refuse
  | pop (m : Fin 16 → Bool)
  | setVsp (r : Fin 16)
  | finish
  | addVspLong (operand : List Byte)
  | popVfp (n : StackBytes)
  | popWmmx (n : StackBytes)
  | spare

/-- `n + 1` double words saved as if by FSTMFDX, which adds a pad word. -/
def fstmx (n : Nat) (h : n ≤ 16) : StackBytes :=
  ⟨8 * (n + 1) + 4, by omega, by omega⟩

/-- `n + 1` double words with no padding. -/
def doubles (n : Nat) (h : n ≤ 16) : StackBytes :=
  ⟨8 * (n + 1), by omega, by omega⟩

/-- The number of set bits among the low four. -/
def maskCount (n : Nat) : Nat :=
  (n.testBit 0).toNat + (n.testBit 1).toNat + (n.testBit 2).toNat + (n.testBit 3).toNat

theorem maskCount_pos (n : Nat) (h : ¬ (n = 0 ∨ 16 ≤ n)) :
    0 < 4 * maskCount n ∧ 4 * maskCount n < 2 ^ 32 := by
  have hall : ∀ k : Fin 16, k.val ≠ 0 → 0 < 4 * maskCount k.val ∧ 4 * maskCount k.val < 2 ^ 32 := by
    decide
  exact hall ⟨n, by omega⟩ (by simp only; omega)

/-- What follows an opcode: nothing, one operand byte, or a uleb128 number. -/
inductive Form where
  | plain (i : Insn)
  | operand (f : Byte → Insn)
  | uleb

/-- The table, by the value of the opcode. -/
def form (b : Byte) : Form :=
  let v := b.toNat
  if v < 0x40 then .plain (.addVsp (4 * v + 4))
  else if v < 0x80 then .plain (.subVsp (4 * (v - 0x40) + 4))
  else if v < 0x90 then .operand fun c =>
    if v = 0x80 ∧ c.toNat = 0 then .refuse
    else .pop fun r => if r.val < 4 then false
      else if r.val < 12 then c.toNat.testBit (r.val - 4) else (v - 0x80).testBit (r.val - 12)
  else if v = 0x9d ∨ v = 0x9f then .plain .spare
  else if v < 0xa0 then .plain (.setVsp (Fin.ofNat 16 (v - 0x90)))
  else if v < 0xa8 then .plain (.pop fun r => decide (4 ≤ r.val ∧ r.val ≤ 4 + (v - 0xa0)))
  else if v < 0xb0 then
    .plain (.pop fun r => decide ((4 ≤ r.val ∧ r.val ≤ 4 + (v - 0xa8)) ∨ r.val = 14))
  else if v = 0xb0 then .plain .finish
  else if v = 0xb1 then .operand fun c =>
    if c.toNat = 0 ∨ 16 ≤ c.toNat then .spare
    else .pop fun r => decide (r.val < 4) && c.toNat.testBit r.val
  else if v = 0xb2 then .uleb
  else if v = 0xb3 then .operand fun c => .popVfp (fstmx (c.toNat % 16) (by omega))
  else if v < 0xb8 then .plain .spare
  else if v < 0xc0 then .plain (.popVfp (fstmx (v % 8) (by omega)))
  else if v < 0xc6 then .plain (.popWmmx (doubles (v % 8) (by omega)))
  else if v = 0xc6 then .operand fun c => .popWmmx (doubles (c.toNat % 16) (by omega))
  else if v = 0xc7 then .operand fun c =>
    if h : c.toNat = 0 ∨ 16 ≤ c.toNat then .spare
    else .popWmmx ⟨4 * maskCount c.toNat, (maskCount_pos _ h).1, (maskCount_pos _ h).2⟩
  else if v = 0xc8 ∨ v = 0xc9 then .operand fun c => .popVfp (doubles (c.toNat % 16) (by omega))
  else if v < 0xd0 then .plain .spare
  else if v < 0xd8 then .plain (.popVfp (doubles (v % 8) (by omega)))
  else .plain .spare

def Form.read : Form → List Byte → Option (Insn × List Byte)
  | .plain i, bs => some (i, bs)
  | .operand _, [] => none
  | .operand f, c :: bs => some (f c, bs)
  | .uleb, bs => (Leb128.split bs).map fun p => (.addVspLong p.1, p.2)

/-- The instruction at the head of a byte list and the bytes behind it; `none`
when its operands are not complete. -/
def parse : List Byte → Option (Insn × List Byte)
  | [] => none
  | b :: bs => (form b).read bs

/-- An instruction is read from its own bytes, whatever follows them. -/
theorem parse_local {bs rest : List Byte} {i : Insn} (h : parse bs = some (i, rest)) :
    ∃ used, bs = used ++ rest ∧ ∀ more, parse (used ++ more) = some (i, more) := by
  cases bs with
  | nil => simp [parse] at h
  | cons b bs =>
    simp only [parse] at h
    cases hf : form b with
    | plain j =>
      rw [hf] at h
      cases h
      exact ⟨[b], rfl, fun more => by simp [parse, hf, Form.read]⟩
    | operand f =>
      rw [hf] at h
      cases bs with
      | nil => simp [Form.read] at h
      | cons c bs =>
        cases h
        exact ⟨[b, c], rfl, fun more => by simp [parse, hf, Form.read]⟩
    | uleb =>
      rw [hf] at h
      obtain ⟨p, hp, he⟩ := Option.map_eq_some_iff.mp h
      cases he
      obtain ⟨hbs, -⟩ := Leb128.split_eq_append hp
      refine ⟨b :: p.1, by simp [hbs], fun more => ?_⟩
      rw [List.cons_append, parse, hf, Form.read, Leb128.split_self hp more]
      rfl

/-- The virtual registers, and whether some pop has already loaded r15. -/
structure Frame where
  reg : Fin 16 → Word
  pcSet : Bool

/-- How many registers of the mask lie below `i`, `i` itself left out. -/
def below (m : Fin 16 → Bool) : Nat → Nat
  | 0 => 0
  | i + 1 => below m i + (if h : i < 16 then (m ⟨i, h⟩).toNat else 0)

/-- Masked registers are loaded in order from the stack pointer at the start of
the pop; the stack pointer moves past them unless the pop loads it itself. -/
def popRegs (mem : Mem) (m : Fin 16 → Bool) (r : Fin 16 → Word) : Fin 16 → Word := fun i =>
  if m i then mem (r 13 + BitVec.ofNat 32 (4 * below m i.val))
  else if i = 13 then r 13 + BitVec.ofNat 32 (4 * below m 16) else r i

def addSp (f : Frame) (n : Nat) : Frame :=
  { f with reg := Function.update f.reg 13 (f.reg 13 + BitVec.ofNat 32 n) }

/-- What an instruction prescribes; `refuse` and `spare` stop before this. -/
def step (mem : Mem) : Insn → Frame → Frame
  | .addVsp n, f => addSp f n
  | .subVsp n, f => { f with reg := Function.update f.reg 13 (f.reg 13 - BitVec.ofNat 32 n) }
  | .refuse, f => f
  | .pop m, f => ⟨popRegs mem m f.reg, f.pcSet || m 15⟩
  | .setVsp r, f => { f with reg := Function.update f.reg 13 (f.reg r) }
  | .finish, f => if f.pcSet then f else { f with reg := Function.update f.reg 15 (f.reg 14) }
  | .addVspLong operand, f => addSp f (0x204 + 4 * Leb128.value operand)
  | .popVfp n, f => addSp f n.bytes
  | .popWmmx n, f => addSp f n.bytes
  | .spare, f => f

def Insn.refuses : Insn → Bool
  | .refuse => true
  | .spare => true
  | _ => false

/-- Nothing behind a finish, a refusal or a spare opcode is looked at. -/
def Insn.terminal : Insn → Bool
  | .finish => true
  | i => i.refuses

/-- The byte list reads as these instructions, operands complete, up to its end
or to a terminal instruction. -/
inductive Sequence : List Byte → List Insn → Prop where
  | nil : Sequence [] []
  | stop {bs i rest} (h : parse bs = some (i, rest)) (ht : i.terminal) : Sequence bs [i]
  | next {bs i rest is} (h : parse bs = some (i, rest)) (ht : i.terminal = false)
      (hs : Sequence rest is) : Sequence bs (i :: is)

/-- The registers a sequence prescribes, and whether it was refused. -/
def run (mem : Mem) : List Insn → Frame → Frame × Bool
  | [], f => (f, false)
  | i :: is, f => if i.refuses then (f, true) else run mem is (step mem i f)

@[simp] theorem run_nil (mem : Mem) (f : Frame) : run mem [] f = (f, false) := rfl

theorem run_cons_refuses (mem : Mem) (i : Insn) (is : List Insn) (f : Frame)
    (h : i.refuses = true) : run mem (i :: is) f = (f, true) := by simp [run, h]

theorem run_cons_step (mem : Mem) (i : Insn) (is : List Insn) (f : Frame)
    (h : i.refuses = false) : run mem (i :: is) f = run mem is (step mem i f) := by simp [run, h]

end EhabiTable
