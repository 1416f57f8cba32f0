import AndroidWork.ExidxBytes

/-!
# Progress of an ARM unwinding step

When a step of either unwinder lets its caller go on, and whether pc or sp has
then changed. A finish copies r14 into r15 and stops the walk where they are
equal already, so bytes that reach a finish with the old pc make progress. With
r15 popped in front of it, the distance that sp has moved decides, and the words
that were popped.
-/
namespace ExidxProgress

open Leb128 (Byte)
open EhabiTable (Mem Insn Word Sequence parse)
open ExidxDecode
open ExidxExtract

/-- What `step` of the crash collector and `Step` of libmemcheck return for the
result of `arm_exidx_step`. -/
def stepReturn : Copy → Int → Int
  | .crash, ret => ret
  | .memcheck, ret => if ret < 0 then ret else 1

/-- The condition of the loop around the step: `ret >= 0` in the crash handler,
`ret > 0` in `show_stack`. -/
def Continues : Copy → Int → Prop
  | .crash, ret => 0 ≤ ret
  | .memcheck, ret => 0 < ret

/-- The walk may go on after this result of `arm_exidx_step`. -/
def GoesOn (copy : Copy) (ret : Int) : Prop := Continues copy (stepReturn copy ret)

/-- No entry, or one that forbids unwinding. -/
def Ends (mem : Mem) (c : TCursor) : Prop :=
  keyValueAddr mem c = 0 ∨ mem (keyValueAddr mem c + 4) = armExidxCantUnwind

/-- The status says stop before the step: it is not initialised by the callers. -/
def Stale (c : TCursor) : Prop := c.stepStatus = stepStop ∨ c.stepStatus = stepPcLr

/-- The bytes that reach the interpreter. -/
def passed (copy : Copy) (mem : Mem) (c : TCursor) : List Byte :=
  let buf := terminated ((content copy mem c).bytes mem)
  buf.take (BitVec.ofInt 8 (buf.length : Int)).toNat

-- the proof that the numerals of registers share
local instance registers_neZero : NeZero 16 := ⟨by decide⟩

/-- The instructions come to a refusal. -/
def Refused (is : List Insn) : Prop := ∃ i ∈ is, i.refuses = true

/-- The instructions come to a finish or a refusal before the bytes are used up. -/
def Terminated (is : List Insn) : Prop := ∃ i ∈ is, i.terminal = true

/-- How far an instruction moves sp, where no register decides it. -/
def moves : Insn → Option Word
  | .addVsp n => some (BitVec.ofNat 32 n)
  | .subVsp n => some (-BitVec.ofNat 32 n)
  | .pop m => if m 13 then none else some (BitVec.ofNat 32 (4 * EhabiTable.below m 16))
  | .setVsp _ => none
  | .addVspLong operand =>
    if operand.length ≤ 5 then some (BitVec.ofNat 32 (0x204 + 4 * Leb128.value operand)) else none
  -- the interpreter leaves sp where it is behind a coprocessor pop
  | _ => some 0

/-- The word that an instruction at the stack pointer `sp` leaves in the register
`r`, for those above r13: the one it pops, or the one that was there. -/
def popped (mem : Mem) (r : Fin 16) (sp v : Word) : Insn → Word
  | .pop m => if m r then mem (sp + BitVec.ofNat 32 (4 * EhabiTable.below m r.val)) else v
  | _ => v

/-- The word of the stack that was popped last into `r`, `v` if none was. -/
def lastPopped (mem : Mem) (r : Fin 16) : List Insn → (sp v : Word) → Word
  | [], _, v => v
  | i :: is, sp, v => lastPopped mem r is (sp + (moves i).getD 0) (popped mem r sp v i)

/-- An entry without instruction bytes that ends the walk all the same: there is
none, or the collector's CANT_UNWIND, or the generic model in libmemcheck. -/
def Reported (copy : Copy) (mem : Mem) (c : TCursor) : Prop :=
  keyValueAddr mem c = 0 ∨
    match copy with
    | .crash => mem (keyValueAddr mem c + 4) = armExidxCantUnwind
    | .memcheck => mem (keyValueAddr mem c + 4) ≠ armExidxCantUnwind

/-- What `arm_exidx_step` decodes, before the status is looked at. -/
def decoded (copy : Copy) (wide : WideShift) (mem : Mem) (c : TCursor) :
    Except Fault (Int × TCursor) :=
  let r := armExidxExtract copy mem c
  if 0 < r.ret then armExidxDecode wide mem (r.buf.take (BitVec.ofInt 8 r.ret).toNat) r.cursor
  else .ok (r.ret, r.cursor)

section

variable {copy : Copy} {mem : Mem} {c : TCursor}

theorem decoded_none (wide : WideShift) (h : keyValueAddr mem c = 0) :
    decoded copy wide mem c = .ok (0, { c with stepStatus := stepStop }) := by
  simp only [decoded, armExidxExtract, if_pos h, lt_irrefl, if_false]

theorem decoded_cantUnwind (wide : WideShift) (hfound : keyValueAddr mem c ≠ 0)
    (h : mem (keyValueAddr mem c + 4) = armExidxCantUnwind) :
    decoded copy wide mem c = .ok (0, match copy with
      | .crash => { c with stepStatus := stepStop }
      | .memcheck => c) := by
  cases copy with
  | crash => simp only [decoded, armExidxExtract, if_neg hfound, if_pos h, lt_irrefl, if_false]
  | memcheck => simp only [decoded, armExidxExtract, if_neg hfound, if_pos h, lt_irrefl, if_false]

/-- A generic entry that has no instruction bytes for this copy. -/
theorem decoded_generic (wide : WideShift) (hfound : keyValueAddr mem c ≠ 0)
    (hcant : mem (keyValueAddr mem c + 4) ≠ armExidxCantUnwind)
    (h : (content copy mem c).bytes mem = []) :
    decoded copy wide mem c = .ok (if copy = .memcheck then -1 else 0, c) := by
  unfold content at h
  simp only [hfound, hcant, or_self, if_false] at h
  -- the opcodes of the compact models are never empty
  by_cases hinline : mem (keyValueAddr mem c + 4) &&& armExidxCompact ≠ 0
  · rw [if_pos hinline] at h
    cases h
  rw [if_neg hinline] at h
  generalize ht : keyValueAddr mem c + 4 + getOffPre31 (mem (keyValueAddr mem c + 4)) = table at h
  by_cases hcompact : mem table &&& armExidxCompact ≠ 0
  · rw [if_pos hcompact] at h
    split at h <;> cases h
  rw [if_neg hcompact] at h
  cases copy with
  | crash =>
    have hn : (mem (table + 4) >>> 24).toNat = 0 := by
      by_contra hn
      have := congrArg List.length h
      simp only [Content.bytes, List.length_append, List.length_take, List.length_cons,
        List.length_nil] at this
      omega
    simp only [decoded, armExidxExtract, if_neg hfound, if_neg hcant, if_neg hinline, ht,
      if_neg hcompact, hn]
    rfl
  | memcheck =>
    simp only [decoded, armExidxExtract, if_neg hfound, if_neg hcant, if_neg hinline,
      ht, if_neg hcompact]
    rfl

end

theorem regPopLoop_status (mem : Mem) (data : Word) (c : TCursor) (n : Nat) :
    (regPopLoop mem data n c).stepStatus = c.stepStatus := by
  induction n with
  | zero => rfl
  | succ n ih =>
    rw [regPopLoop_succ, popTurn]
    split <;> exact ih

/-- What a finish does: it reports that pc and lr are equal, or moves lr into pc. -/
def finished (c : TCursor) : TCursor :=
  if c.regs armPc = c.regs armLr then
    { c with stepStatus := stepPcLr } else c.setReg armPc (c.regs armLr)

section Runs

variable {wide : WideShift} {mem : Mem} {bs : List Byte} {is : List Insn} {c c' : TCursor}
    {r : Int} {d : Word}

/-- An instruction that moves sp by a known distance. -/
structure Moved (mem : Mem) (i : Insn) (d : Word) (c c' : TCursor) : Prop where
  sp : c'.regs armSp = c.regs armSp + d
  lr : c'.regs armLr = popped mem 14 (c.regs armSp) (c.regs armLr) i
  pc : c'.regs armPc = popped mem 15 (c.regs armSp) (c.regs armPc) i
  status : c'.stepStatus = c.stepStatus

theorem Moved.pop {m : Fin 16 → Bool} {data : Word}
    (hm : ∀ r : Fin 16, data &&& 1#32 <<< r.val ≠ 0 ↔ m r = true)
    (h13 : m 13 = false) (c : TCursor) :
    Moved mem (.pop m) (BitVec.ofNat 32 (4 * EhabiTable.below m 16)) c
      (regPopLoop mem data 16 c) := by
  have hregs := regPopLoop_regs mem data m hm c 16 (by decide) (.inr h13)
  refine ⟨?_, ?_, ?_, regPopLoop_status mem data c 16⟩
  · have h := hregs 13
    rw [if_neg (by simp [h13]), if_pos rfl] at h
    exact h
  · have h := hregs 14
    rw [if_neg (show (14 : Fin 16) ≠ 13 by decide)] at h
    rw [popped]
    exact h.trans (if_congr (by simp) rfl rfl)
  · have h := hregs 15
    rw [if_neg (show (15 : Fin 16) ≠ 13 by decide)] at h
    rw [popped]
    exact h.trans (if_congr (by simp) rfl rfl)

/-- How instructions that move sp by `d` end: at a finish, or where the bytes do. -/
structure Ended (mem : Mem) (is : List Insn) (d : Word) (c c' : TCursor) : Prop where
  sp : c'.regs armSp = c.regs armSp + d
  finish : Terminated is → ∃ c₁, c' = finished c₁ ∧ c₁.stepStatus = c.stepStatus ∧
    c₁.regs armLr = lastPopped mem 14 is (c.regs armSp) (c.regs armLr) ∧
    c₁.regs armPc = lastPopped mem 15 is (c.regs armSp) (c.regs armPc)
  runsOut : ¬ Terminated is → c'.stepStatus = c.stepStatus ∧
    c'.regs armPc = lastPopped mem 15 is (c.regs armSp) (c.regs armPc)

end Runs

/-- With instruction bytes, the interpreter is run on them. -/
theorem decoded_bytes {copy : Copy} {mem : Mem} {c : TCursor} (wide : WideShift)
    (h : (content copy mem c).bytes mem ≠ []) :
    decoded copy wide mem c = armExidxDecode wide mem (passed copy mem c) c := by
  rcases armExidxExtract_content copy mem c with ⟨hnothing, -⟩ | hbytes
  · rw [hnothing] at h
    exact absurd rfl h
  · have hlen := (terminated_length ((content copy mem c).bytes mem)).1
    have hpos := List.length_pos_iff.mpr h
    simp only [decoded, hbytes, extracted]
    rw [if_pos (by omega)]
    rfl

end ExidxProgress
