import Mathlib.Data.BitVec
import Mathlib.Logic.Relation
import Mathlib.Tactic

/-!
# A 32-bit ARM core

Registers, flags and little-endian memory of an ARMv7 core in user mode, and
what its two instruction sets share. The program counter stands beside the other
registers: an instruction that does not name it acts on `Core` alone.
-/
namespace ArmMachine

abbrev Byte := BitVec 8
abbrev Half := BitVec 16
abbrev Word := BitVec 32
abbrev Reg := BitVec 4
abbrev Memory := Word → Byte

def sp : Reg := 13
def lr : Reg := 14
def pc : Reg := 15

@[simp] theorem sp_ne_pc : sp ≠ pc := by decide
@[simp] theorem lr_ne_pc : lr ≠ pc := by decide

structure Flags where
  n : Bool
  z : Bool
  c : Bool
  v : Bool
  deriving DecidableEq, Repr

structure Core where
  reg : Reg → Word
  flags : Flags
  mem : Memory

/-- The address of the instruction to be executed, and its instruction set. -/
structure State where
  core : Core
  addr : Word
  thumb : Bool

/-- Where control goes behind an instruction. -/
inductive Flow where
  | next
  | jump (a : Word) (thumb : Bool)
  deriving DecidableEq, Repr

def half (m : Memory) (a : Word) : Half := m (a + 1) ++ m a
def word (m : Memory) (a : Word) : Word := half m (a + 2) ++ half m a

def putWord (m : Memory) (a w : Word) : Memory := fun b =>
  if b - a < 4 then (w >>> (8 * (b - a))).truncate 8 else m b

def Core.set (c : Core) (r : Reg) (w : Word) : Core :=
  { c with reg := fun q => if q = r then w else c.reg q }
def Core.setFlags (c : Core) (f : Flags) : Core := { c with flags := f }
def Core.store (c : Core) (a w : Word) : Core := { c with mem := putWord c.mem a w }

/-- A register as an operand, with what the program counter reads as. -/
def Core.read (c : Core) (pcValue : Word) (r : Reg) : Word := if r = pc then pcValue else c.reg r

@[simp] theorem Core.read_pc (c : Core) (pcValue : Word) : c.read pcValue pc = pcValue := if_pos rfl
theorem Core.read_of_ne (c : Core) (pcValue : Word) {r : Reg} (h : r ≠ pc) :
    c.read pcValue r = c.reg r := if_neg h

/-- A core with these words in its memory from 0x100 on. -/
def coreWith (ws : List Word) (f : Flags) : Core where
  reg := fun _ => 0
  flags := f
  mem := fun b => (ws.getD ((b - 0x100).toNat / 4) 0 >>> (8 * (b.toNat % 4))).truncate 8

def clearFlags : Flags := ⟨false, false, false, false⟩

@[simp] theorem Core.set_same (c : Core) (r : Reg) (w : Word) : (c.set r w).reg r = w := if_pos rfl
@[simp] theorem Core.set_other (c : Core) {r q : Reg} (w : Word) (h : q ≠ r) :
    (c.set r w).reg q = c.reg q := if_neg h
@[simp] theorem Core.set_mem (c : Core) (r : Reg) (w : Word) : (c.set r w).mem = c.mem := rfl
@[simp] theorem Core.set_flags (c : Core) (r : Reg) (w : Word) : (c.set r w).flags = c.flags := rfl
@[simp] theorem Core.setFlags_reg (c : Core) (f : Flags) : (c.setFlags f).reg = c.reg := rfl
@[simp] theorem Core.setFlags_mem (c : Core) (f : Flags) : (c.setFlags f).mem = c.mem := rfl
@[simp] theorem Core.setFlags_flags (c : Core) (f : Flags) : (c.setFlags f).flags = f := rfl
@[simp] theorem Core.setFlags_set (c : Core) (f : Flags) (r : Reg) (w : Word) :
    (c.setFlags f).set r w = (c.set r w).setFlags f := rfl
@[simp] theorem Core.store_reg (c : Core) (a w : Word) : (c.store a w).reg = c.reg := rfl
@[simp] theorem Core.store_flags (c : Core) (a w : Word) : (c.store a w).flags = c.flags := rfl
@[simp] theorem Core.store_mem (c : Core) (a w : Word) : (c.store a w).mem = putWord c.mem a w :=
  rfl

@[simp] theorem Core.set_set (c : Core) (r : Reg) (w w' : Word) :
    (c.set r w).set r w' = c.set r w' := by
  rw [set, set, set]
  congr 1
  funext q
  simp only
  split <;> rfl

@[simp] theorem Core.set_self (c : Core) (r : Reg) : c.set r (c.reg r) = c := by
  rw [set]
  congr 1
  funext q
  split
  · rename_i h
    rw [h]
  · rfl

theorem Core.set_comm (c : Core) {r q : Reg} (w w' : Word) (h : r ≠ q) :
    (c.set r w).set q w' = (c.set q w').set r w := by
  rw [set, set, set, set]
  congr 1
  funext p
  simp only
  split
  · rename_i hp
    rw [if_neg (hp ▸ h.symm)]
  · rfl

theorem word_putWord (m : Memory) (a w : Word) : word (putWord m a w) a = w := by
  have h (k : Word) : a + k - a = k := by bv_omega
  have h2 : a + 2 + 1 - a = 3 := by bv_omega
  simp only [word, half, putWord, h, h2, BitVec.sub_self]
  ext i hi
  simp
  grind

/-- Items of `size` bytes that stand in memory from `a` on. -/
def Stored {n : Nat} (read : Word → BitVec n) (size : Word) : Word → List (BitVec n) → Prop
  | _, [] => True
  | a, x :: xs => read a = x ∧ Stored read size (a + size) xs

theorem stored_append {n : Nat} {read : Word → BitVec n} {size : Word} (a : Word)
    (xs ys : List (BitVec n)) :
    Stored read size a (xs ++ ys) ↔
      Stored read size a xs ∧ Stored read size (a + size * BitVec.ofNat 32 xs.length) ys := by
  induction xs generalizing a with
  | nil => simp [Stored]
  | cons x xs ih =>
    have h : a + size + size * BitVec.ofNat 32 xs.length =
        a + size * BitVec.ofNat 32 (x :: xs).length := by
      rw [List.length_cons, BitVec.ofNat_add, BitVec.mul_add, BitVec.add_assoc,
        BitVec.add_comm size,
        BitVec.mul_one]
    simp only [List.cons_append, Stored, ih, h, and_assoc]

section Fields

variable {n : Nat}

/-- The bits from `lo` on, `len` of them. -/
def field (w : BitVec n) (lo len : Nat) : BitVec len := w.extractLsb' lo len

variable {w m v : BitVec n}

theorem getLsbD_field (w : BitVec n) (lo len : Nat) {i : Nat} (hi : i < len) :
    (field w lo len).getLsbD i = w.getLsbD (lo + i) := by
  simp [field, hi]

theorem field_field (w : BitVec n) (lo len lo' len' : Nat) (h : lo' + len' ≤ len) :
    field (field w lo len) lo' len' = field w (lo + lo') len' := by
  apply BitVec.eq_of_getLsbD_eq
  intro i hi
  rw [getLsbD_field _ _ _ hi, getLsbD_field _ _ _ (by omega), getLsbD_field _ _ _ hi, Nat.add_assoc]

theorem field_of_mask (h : w &&& m = v) (lo len : Nat) (hm : field m lo len = BitVec.allOnes len) :
    field w lo len = field v lo len := by
  have hfield := congrArg (fun x => field x lo len) h
  simp only [field] at hfield hm ⊢
  rw [BitVec.extractLsb'_and, hm, BitVec.and_allOnes] at hfield
  exact hfield

theorem bit_of_mask (h : w &&& m = v) (i : Nat) (hm : m.getLsbD i = true) :
    w.getLsbD i = v.getLsbD i := by
  have hbit := congrArg (fun x => x.getLsbD i) h
  simp only [BitVec.getLsbD_and, hm, Bool.and_true] at hbit
  exact hbit

theorem and_shift_eq_field (lo len : Nat)
    (hm : ∀ i < n, m.getLsbD i = decide (lo ≤ i ∧ i < lo + len)) :
    (w &&& m) >>> lo = (field w lo len).setWidth n := by
  ext i hi
  simp only [field, BitVec.getElem_ushiftRight, BitVec.getLsbD_and, BitVec.getElem_setWidth,
    BitVec.getLsbD_extractLsb']
  by_cases h : lo + i < n
  · rw [hm _ h]
    simp only [show lo ≤ lo + i by omega, Nat.add_lt_add_iff_left, true_and, Bool.and_comm]
  · rw [BitVec.getLsbD_of_ge w _ (by omega)]
    simp

theorem field_setWidth {k : Nat} (w : BitVec n) {lo len : Nat} (h : lo + len ≤ k) :
    field (w.setWidth k) lo len = field w lo len := by
  apply BitVec.eq_of_getLsbD_eq
  intro i hi
  rw [getLsbD_field _ _ _ hi, getLsbD_field _ _ _ hi, BitVec.getLsbD_setWidth,
    decide_eq_true (by omega), Bool.true_and]

theorem field_append_high {k : Nat} (h : BitVec n) (l : BitVec k) (lo len : Nat) :
    field (h ++ l) (k + lo) len = field h lo len := by
  apply BitVec.eq_of_getLsbD_eq
  intro i hi
  rw [getLsbD_field _ _ _ hi, getLsbD_field _ _ _ hi, BitVec.getLsbD_append, if_neg (by omega)]
  congr 1
  omega

theorem field_append_low {k : Nat} (h : BitVec n) (l : BitVec k) {lo len : Nat}
    (hlen : lo + len ≤ k) :
    field (h ++ l) lo len = field l lo len := by
  apply BitVec.eq_of_getLsbD_eq
  intro i hi
  rw [getLsbD_field _ _ _ hi, getLsbD_field _ _ _ hi, BitVec.getLsbD_append, if_pos (by omega)]

theorem ones_getLsbD {i : Nat} (hi : i < 32) : (0xFFFFFFFF#32).getLsbD i = true := by
  rw [show 0xFFFFFFFF#32 = BitVec.allOnes 32 from rfl, BitVec.getLsbD_allOnes]
  exact decide_eq_true hi

theorem shiftRight_eq_msb (v : BitVec n) (hn : 0 < n) (hn' : n ≤ 32) :
    v.setWidth 32 >>> (n - 1) = (BitVec.ofBool v.msb).setWidth 32 := by
  ext i hi
  simp only [BitVec.getElem_ushiftRight, BitVec.getLsbD_setWidth, BitVec.getElem_setWidth,
    BitVec.getLsbD_ofBool]
  cases i with
  | zero => simp [BitVec.msb_eq_getLsbD_last, show n - 1 < 32 by omega]
  | succ i => simp [BitVec.getLsbD_of_ge v (n - 1 + (i + 1)) (by omega)]

/-- Sign extension as C code does it, with the upper bits set by hand. -/
theorem signExtend_of_sign {k : Nat} (v : BitVec n) (hn : 0 < n) (hk : n ≤ k + 1) (hk' : k ≤ n) :
    (if (BitVec.ofBool v.msb).setWidth 32 ≠ 0#32 then
      v.setWidth 32 ||| (0xFFFFFFFF#32 <<< k) else v.setWidth 32) =
      v.signExtend 32 := by
  cases hmsb : v.msb with
  | false => rw [if_neg (by simp), BitVec.signExtend_eq_setWidth_of_msb_false hmsb]
  | true =>
    rw [if_pos (by decide)]
    apply BitVec.eq_of_getLsbD_eq
    intro i hi
    simp only [BitVec.getLsbD_signExtend, BitVec.getLsbD_or, BitVec.getLsbD_setWidth,
      BitVec.getLsbD_shiftLeft, hmsb, hi,
      decide_true, Bool.true_and, ones_getLsbD (Nat.lt_of_le_of_lt (Nat.sub_le i k) hi),
      Bool.and_true]
    by_cases h : i < n
    · by_cases hik : i < k
      · simp [h, hik]
      · have hlast : v.getLsbD i = true := by
          rw [show i = n - 1 by omega, ← BitVec.msb_eq_getLsbD_last, hmsb]
        simp [h, hlast]
    · simp [h, show ¬ i < k by omega]

theorem signExtend_of_or {k : Nat} (v : BitVec n) (hn : 0 < n) (hn' : n ≤ 32)
    (hk : n ≤ k + 1) (hk' : k ≤ n) :
    (if v.setWidth 32 >>> (n - 1) ≠ 0 then
      v.setWidth 32 ||| (0xFFFFFFFF#32 <<< k) else v.setWidth 32) =
      v.signExtend 32 := by
  rw [shiftRight_eq_msb v hn hn']
  exact signExtend_of_sign v hn hk hk'

theorem setWidth_append {k : Nat} (v : BitVec n) (l : BitVec k) :
    (v ++ l).setWidth 32 = (v.setWidth 32 <<< k) ||| l.setWidth 32 := by
  apply BitVec.eq_of_getLsbD_eq
  intro i hi
  simp only [BitVec.getLsbD_or, BitVec.getLsbD_shiftLeft, BitVec.getLsbD_setWidth,
    BitVec.getLsbD_append, hi]
  by_cases h : i < k
  · simp [h]
  · simp [h, BitVec.getLsbD_of_ge l i (by omega), show i - k < 32 by omega]

theorem and_eq_field (len : Nat) (hm : ∀ i < n, m.getLsbD i = decide (i < len)) :
    w &&& m = (field w 0 len).setWidth n := by
  rw [← and_shift_eq_field (m := m) 0 len (by simpa using hm)]
  rfl

end Fields

def passed (cond : BitVec 4) (f : Flags) : Bool :=
  let holds :=
    if cond >>> 1 = 0 then f.z
    else if cond >>> 1 = 1 then f.c
    else if cond >>> 1 = 2 then f.n
    else if cond >>> 1 = 3 then f.v
    else if cond >>> 1 = 4 then f.c && !f.z
    else if cond >>> 1 = 5 then f.n == f.v
    else if cond >>> 1 = 6 then f.n == f.v && !f.z
    else true
  if cond.getLsbD 0 && cond ≠ 15 then !holds else holds

def addWithCarry (x y : Word) (carry : Bool) : Word × Bool × Bool :=
  let r := x + y + BitVec.setWidth 32 (BitVec.ofBool carry)
  (r, decide (2 ^ 32 ≤ x.toNat + y.toNat + carry.toNat),
    decide (r.toInt ≠ x.toInt + y.toInt + (carry.toNat : Int)))

/-- `Shift_C` for a shift by an immediate, with the amounts of `DecodeImmShift`. -/
def shiftC (type : BitVec 2) (imm5 : BitVec 5) (x : Word) (carry : Bool) : Word × Bool :=
  let n := if imm5 = 0 then 32 else imm5.toNat
  if type = 0 then if imm5 = 0 then (x, carry) else (x <<< imm5.toNat, x.getLsbD (32 - imm5.toNat))
  else if type = 1 then (x >>> n, x.getLsbD (n - 1))
  else if type = 2 then (x.sshiftRight n, x.getLsbD (n - 1))
  else if imm5 = 0 then (BitVec.ofBool carry ++ x.extractLsb' 1 31, x.getLsbD 0)
  else (x.rotateRight imm5.toNat, (x.rotateRight imm5.toNat).msb)

/-- `BXWritePC`: bit 0 tells the instruction set; an ARM address that is not a
multiple of four is unpredictable. -/
def branchExchange (a : Word) : Option Flow :=
  if a.getLsbD 0 then some (.jump (a &&& ~~~1#32) true)
  else if a.getLsbD 1 then none
  else some (.jump a false)

theorem branchExchange_jump {a : Word} {f : Flow} (h : branchExchange a = some f) :
    ∃ b thumb, f = .jump b thumb := by
  rw [branchExchange] at h
  split_ifs at h
  · exact ⟨_, _, (Option.some.inj h).symm⟩
  · exact ⟨_, _, (Option.some.inj h).symm⟩

theorem getLsbD_zero_eq (a : Word) : a.getLsbD 0 = decide (a.toNat % 2 = 1) := by
  rw [BitVec.getLsbD, Nat.testBit_zero]

theorem getLsbD_one_eq (a : Word) : a.getLsbD 1 = decide (a.toNat / 2 % 2 = 1) := by
  rw [BitVec.getLsbD, Nat.testBit_add_one, Nat.testBit_zero]

theorem toNat_shiftRight_shiftLeft (a : Word) (k : Nat) :
    ((a >>> k) <<< k).toNat = a.toNat / 2 ^ k * 2 ^ k := by
  have hlt := a.isLt
  have hle : a.toNat / 2 ^ k * 2 ^ k ≤ a.toNat := Nat.div_mul_le_self ..
  rw [BitVec.toNat_shiftLeft, BitVec.toNat_ushiftRight, Nat.shiftRight_eq_div_pow, Nat.shiftLeft_eq]
  exact Nat.mod_eq_of_lt (by omega)

theorem and_not_one_eq (a : Word) : a &&& ~~~1#32 = (a >>> 1) <<< 1 := by
  apply BitVec.eq_of_getLsbD_eq
  intro i hi
  simp only [BitVec.getLsbD_and, BitVec.getLsbD_not, BitVec.getLsbD_one, BitVec.getLsbD_shiftLeft,
    BitVec.getLsbD_ushiftRight]
  cases i with
  | zero => simp
  | succ i => simp [hi, Nat.add_comm 1]

theorem and_not_three_eq (a : Word) : a &&& ~~~3#32 = (a >>> 2) <<< 2 := by
  have hthree (i : Nat) (hi : i < 32) : (3#32).getLsbD i = decide (i < 2) := by
    revert i
    decide
  apply BitVec.eq_of_getLsbD_eq
  intro i hi
  simp only [BitVec.getLsbD_and, BitVec.getLsbD_not, BitVec.getLsbD_shiftLeft,
    BitVec.getLsbD_ushiftRight, hthree i hi, hi,
    decide_true, Bool.true_and]
  by_cases h : i < 2
  · simp [h]
  · simp [h, show 2 + (i - 2) = i by omega]

theorem toNat_and_not_one (a : Word) : (a &&& ~~~1#32).toNat = a.toNat / 2 * 2 := by
  rw [and_not_one_eq]
  exact toNat_shiftRight_shiftLeft a 1

theorem toNat_and_not_three (a : Word) : (a &&& ~~~3#32).toNat = a.toNat / 4 * 4 := by
  rw [and_not_three_eq]
  exact toNat_shiftRight_shiftLeft a 2

theorem branchExchange_of_aligned {a : Word} (h : a.toNat % 4 = 0) :
    branchExchange a = some (.jump a false) := by
  rw [branchExchange, getLsbD_zero_eq, getLsbD_one_eq, if_neg (by simp; omega),
    if_neg (by simp; omega)]

/-- An address with bit 0 set leads to Thumb code. -/
theorem branchExchange_add_one {a : Word} (h : a.toNat % 2 = 0) :
    branchExchange (a + 1) = some (.jump a true) := by
  have hsucc : (a + 1).toNat = a.toNat + 1 := by
    have := a.isLt
    rw [BitVec.toNat_add]
    exact Nat.mod_eq_of_lt (by simp; omega)
  rw [branchExchange, getLsbD_zero_eq, if_pos (by rw [hsucc]; exact decide_eq_true (by omega))]
  congr 2
  apply BitVec.eq_of_toNat_eq
  rw [toNat_and_not_one, hsucc]
  omega

/-- The state behind an instruction whose successor stands at `follow`. -/
def land (follow : Word) (thumb : Bool) (r : Core × Flow) : State :=
  r.2.casesOn ⟨r.1, follow, thumb⟩ fun a thumb' => ⟨r.1, a, thumb'⟩

@[simp] theorem land_next (follow : Word) (thumb : Bool) (c : Core) :
    land follow thumb (c, .next) = ⟨c, follow, thumb⟩ := rfl
@[simp] theorem land_jump (follow : Word) (thumb : Bool) (c : Core) (a : Word) (thumb' : Bool) :
    land follow thumb (c, .jump a thumb') = ⟨c, a, thumb'⟩ := rfl

/-- The machine comes from one state to the other. -/
def Steps (step : State → Option State) : State → State → Prop :=
  Relation.ReflTransGen fun s s' => step s = some s'

section Steps

variable {step : State → Option State} {s s' s'' : State}

theorem Steps.refl (step : State → Option State) (s : State) : Steps step s s :=
  Relation.ReflTransGen.refl

theorem Steps.next (h : step s = some s') (h' : Steps step s' s'') : Steps step s s'' :=
  Relation.ReflTransGen.head h h'

theorem Steps.one (h : step s = some s') : Steps step s s' := .next h (.refl step s')

theorem Steps.trans (h : Steps step s s') (h' : Steps step s' s'') : Steps step s s'' :=
  Relation.ReflTransGen.trans h h'

end Steps

end ArmMachine
