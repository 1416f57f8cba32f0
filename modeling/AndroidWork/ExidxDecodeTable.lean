import AndroidWork.ExidxDecode

/-!
# The interpreter against the instruction table

Reading opcodes is compared with the table class by class, then one applied
command with one prescribed step, and from both whole byte sequences.
-/
namespace ExidxDecode

open Leb128 (Byte)
open EhabiTable (Word Mem Insn Frame Sequence Form)

theorem and_c0_eq_00 (op : Byte) : op &&& 0xc0#8 = 0x00#8 ↔ op.toNat < 0x40 := by
  revert op; decide
theorem and_c0_eq_40 (op : Byte) : op &&& 0xc0#8 = 0x40#8 ↔ 0x40 ≤ op.toNat ∧ op.toNat < 0x80 := by
  revert op; decide
theorem and_f0_eq_80 (op : Byte) : op &&& 0xf0#8 = 0x80#8 ↔ 0x80 ≤ op.toNat ∧ op.toNat < 0x90 := by
  revert op; decide
theorem and_f0_eq_90 (op : Byte) : op &&& 0xf0#8 = 0x90#8 ↔ 0x90 ≤ op.toNat ∧ op.toNat < 0xa0 := by
  revert op; decide
theorem and_f0_eq_a0 (op : Byte) : op &&& 0xf0#8 = 0xa0#8 ↔ 0xa0 ≤ op.toNat ∧ op.toNat < 0xb0 := by
  revert op; decide
theorem and_f8_eq_b8 (op : Byte) : op &&& 0xf8#8 = 0xb8#8 ↔ 0xb8 ≤ op.toNat ∧ op.toNat < 0xc0 := by
  revert op; decide
theorem and_f8_eq_d0 (op : Byte) : op &&& 0xf8#8 = 0xd0#8 ↔ 0xd0 ≤ op.toNat ∧ op.toNat < 0xd8 := by
  revert op; decide
theorem eq_iff_toNat (op : Byte) (n : Nat) (h : n < 256) :
    op = BitVec.ofNat 8 n ↔ op.toNat = n := by
  constructor
  · rintro rfl
    simp [Nat.mod_eq_of_lt h]
  · rintro rfl
    simp

/-- The command a table row is decoded to. -/
def Codes : Insn → ArmExbufData → Prop
  | .addVsp n, e => e = ⟨.dataPop, BitVec.ofNat 32 n⟩
  | .subVsp n, e => e = ⟨.dataPush, BitVec.ofNat 32 n⟩
  | .refuse, e => e.cmd = .refused
  | .pop m, e => e.cmd = .regPop ∧ ∀ r : Fin 16, e.data &&& 1#32 <<< r.val ≠ 0 ↔ m r = true
  | .setVsp r, e => e = ⟨.regToSp, BitVec.ofNat 32 r.val⟩
  | .finish, e => e.cmd = .finish
  | .addVspLong operand, e => e = ⟨.dataPop, BitVec.ofNat 32 (0x204 + 4 * Leb128.value operand)⟩
  | .popVfp _, e => e.cmd = .vfpPop
  | .popWmmx _, e => e.cmd = .wregPop ∨ e.cmd = .wcgrPop
  | .spare, e => e.cmd = .reserved

theorem getLsbD_bit (i j : Nat) (h : i < 32) : (1#32 <<< i).getLsbD j = decide (j = i) := by
  by_cases hj : j < 32
  · by_cases hi : j = i
    · subst hi; simp [hj]
    · simp [hi, hj]; omega
  · have : j ≠ i := by omega
    simp [this, hj]

theorem and_bit_ne_zero (x : Word) (i : Nat) (h : i < 32) :
    x &&& 1#32 <<< i ≠ 0 ↔ x.getLsbD i = true := by
  constructor
  · intro hx
    by_contra hb
    apply hx
    apply BitVec.eq_of_getLsbD_eq
    intro j hj
    rw [BitVec.getLsbD_and, getLsbD_bit i j h]
    by_cases hji : j = i
    · subst hji; simp [hb]
    · simp [hji]
  · intro hb hx
    have hbit := congrArg (fun v => BitVec.getLsbD v i) hx
    simp only [BitVec.getLsbD_and, getLsbD_bit i i h, hb] at hbit
    simp at hbit

theorem word_getLsbD (b : Byte) (i : Nat) : (word b).getLsbD i = b.getLsbD i := by
  simp only [word, BitVec.getLsbD_setWidth]
  by_cases h : i < 32
  · simp [h]
  · simp [h, BitVec.getLsbD_of_ge b i (by omega)]

theorem codes_dataPop (op : Byte) (h : op.toNat < 0x40) :
    (word op &&& 0x3f) <<< 2 + 4 = BitVec.ofNat 32 (4 * op.toNat + 4) := by
  revert op; decide

theorem codes_dataPush (op : Byte) (h : 0x40 ≤ op.toNat ∧ op.toNat < 0x80) :
    (word op &&& 0x3f) <<< 2 + 4 = BitVec.ofNat 32 (4 * (op.toNat - 0x40) + 4) := by
  revert op; decide

theorem codes_regToSp (op : Byte) (h : 0x90 ≤ op.toNat ∧ op.toNat < 0xa0) :
    word op &&& 0x0f = BitVec.ofNat 32 (Fin.ofNat 16 (op.toNat - 0x90)).val := by
  revert op; decide

/-- `1000iiii iiiiiiii`: the twelve mask bits select r4-r15. -/
theorem codes_pop12 (op op2 : Byte) (h : 0x80 ≤ op.toNat ∧ op.toNat < 0x90) (r : Fin 16) :
    ((word op &&& 0xf) <<< 8 ||| word op2) <<< 4 &&& 1#32 <<< r.val ≠ 0 ↔
      (if r.val < 4 then false else if r.val < 12 then op2.toNat.testBit (r.val - 4)
        else (op.toNat - 0x80).testBit (r.val - 12)) = true := by
  have hop : ∀ k : Fin 4, (op.toNat - 0x80).testBit k = op.getLsbD k := by
    clear r op2
    revert op; decide
  have hf : ∀ k : Fin 4, (0xf : Word).getLsbD k = true := by decide
  rw [and_bit_ne_zero _ _ (by omega)]
  simp only [BitVec.getLsbD_shiftLeft, BitVec.getLsbD_or, BitVec.getLsbD_and, word_getLsbD]
  by_cases h4 : r.val < 4
  · simp [h4]
  · have hr : r.val < 32 := by omega
    by_cases h12 : r.val < 12
    · have h8 : r.val - 4 < 8 := by omega
      simp only [h4, h12, h8, hr]
      simp [BitVec.getLsbD]
    · have h8 : ¬ r.val - 4 < 8 := by omega
      have hlt : r.val - 4 < 32 := by omega
      have hk := hop ⟨r.val - 12, by omega⟩
      have hk' := hf ⟨r.val - 12, by omega⟩
      have he : r.val - 4 - 8 = r.val - 12 := by omega
      have hz : op2.getLsbD (r.val - 4) = false := BitVec.getLsbD_of_ge _ _ (by omega)
      simp only at hk hk'
      simp only [h4, h12, h8, hr, hlt, he, hk, hk', hz]
      simp

theorem codes_popLow (op2 : Byte) (h : ¬ (op2.toNat = 0 ∨ 16 ≤ op2.toNat)) (r : Fin 16) :
    word op2 &&& 0x0f &&& 1#32 <<< r.val ≠ 0 ↔
      (decide (r.val < 4) && op2.toNat.testBit r.val) = true := by
  revert op2 r; decide

theorem codes_popRange (op : Byte) (h : 0xa0 ≤ op.toNat ∧ op.toNat < 0xa8) (r : Fin 16) :
    rangeMask op &&& 1#32 <<< r.val ≠ 0 ↔
      decide (4 ≤ r.val ∧ r.val ≤ 4 + (op.toNat - 0xa0)) = true := by
  revert op r; decide

theorem codes_popRangeLr (op : Byte) (h : 0xa8 ≤ op.toNat ∧ op.toNat < 0xb0) (r : Fin 16) :
    rangeMask op &&& 1#32 <<< r.val ≠ 0 ↔
      decide ((4 ≤ r.val ∧ r.val ≤ 4 + (op.toNat - 0xa8)) ∨ r.val = 14) = true := by
  revert op r; decide

theorem or_shift_digit (n k : Nat) (b : Byte) (hn : n < 2 ^ (7 * k)) :
    BitVec.ofNat 32 n ||| ((b &&& 0x7f#8).setWidth 32 <<< (7 * k)) =
      BitVec.ofNat 32 (n + 2 ^ (7 * k) * (b.toNat % 128)) := by
  have hb : (b &&& 0x7f#8).setWidth 32 = BitVec.ofNat 32 (b.toNat % 128) := by
    revert b; decide
  have hs : BitVec.ofNat 32 (b.toNat % 128) <<< (7 * k) =
      BitVec.ofNat 32 ((b.toNat % 128) <<< (7 * k)) := by
    apply BitVec.eq_of_toNat_eq
    simp [Nat.shiftLeft_eq]
  rw [hb, hs, ← BitVec.ofNat_or, Nat.or_comm, ← Nat.shiftLeft_add_eq_or_of_lt hn, Nat.shiftLeft_eq]
  congr 1
  ring

theorem and_80_ne_zero (b : Byte) : b &&& 0x80#8 ≠ 0#8 ↔ ¬ b.toNat < 128 := by
  revert b; decide

/-- The operand loop computes the value modulo the word, or meets an undefined
shift when there are more than five bytes. -/
theorem readUleb_split {buf operand rest : List Byte} (h : Leb128.split buf = some (operand, rest))
    (k n : Nat) (hk : k ≤ 5) (hn : n < 2 ^ (7 * k)) :
    readUleb .undefined (BitVec.ofNat 32 n) (BitVec.ofNat 8 (7 * k)) buf =
      if k + operand.length ≤ 5 then
        .ok (BitVec.ofNat 32 (n + 2 ^ (7 * k) * Leb128.value operand), rest)
      else .error .shiftPastWidth := by
  have hshift : (BitVec.ofNat 8 (7 * k)).toNat = 7 * k := by
    simp only [BitVec.toNat_ofNat]
    omega
  induction buf generalizing operand k n with
  | nil => simp [Leb128.split] at h
  | cons b bs ih =>
    have hne := (Leb128.split_eq_append h).2
    have hlen : 0 < operand.length := List.length_pos_iff.mpr hne
    rw [readUleb, hshift]
    by_cases hk5 : k = 5
    · rw [if_pos ⟨rfl, by omega⟩, if_neg (by omega)]
    · rw [if_neg (by omega), or_shift_digit n k b hn]
      have hdigit : b.toNat % 128 < 128 := Nat.mod_lt _ (by decide)
      by_cases hb : b.toNat < 128
      · rw [Leb128.split_cons_last b bs hb] at h
        cases h
        rw [if_neg (by rw [and_80_ne_zero]; omega),
          if_pos (by simp only [List.length_singleton]; omega)]
        simp
      · rw [Leb128.split_cons_more b bs hb] at h
        obtain ⟨p, hp, he⟩ := Option.map_eq_some_iff.mp h
        cases he
        have hnext : n + 2 ^ (7 * k) * (b.toNat % 128) < 2 ^ (7 * (k + 1)) := by
          have : 2 ^ (7 * (k + 1)) = 2 ^ (7 * k) * 128 := by rw [Nat.mul_succ, pow_add]; norm_num
          rw [this]
          nlinarith [Nat.mul_le_mul_left (2 ^ (7 * k)) (Nat.le_of_lt_succ hdigit)]
        have hadd : BitVec.ofNat 8 (7 * k) + 7#8 = BitVec.ofNat 8 (7 * (k + 1)) := by
          rw [← BitVec.ofNat_add]
          rfl
        rw [if_pos ((and_80_ne_zero b).mpr hb), hadd,
          ih hp (k + 1) _ (by omega) hnext (by simp only [BitVec.toNat_ofNat]; omega)]
        simp only [List.length_cons, Leb128.value_cons, Nat.add_right_comm, Nat.add_assoc,
          Nat.add_comm 1]
        congr 4
        rw [Nat.mul_succ, pow_add]
        ring

/-- Where the interpreter continues: a finish sets `buf` to `end`. -/
def after : Insn → List Byte → List Byte
  | .finish, _ => []
  | _, rest => rest

/-- The operand of `10110010`, empty for every other instruction. -/
def longOperand : Insn → List Byte
  | .addVspLong operand => operand
  | _ => []

/-- A turn of the loop that read what the table reads. -/
def Reads (op : Byte) (buf : List Byte) (i : Insn) (rest : List Byte) : Prop :=
  (longOperand i).length ≤ 5 ∧ ∃ e, decodeOp .undefined (op :: buf) =
    .ok (e, after i rest) ∧ Codes i e

theorem readOp2_codes {buf rest : List Byte} {i : Insn} {f : Byte → Insn} {g : Byte → ArmExbufData}
    (h : (Form.operand f).read buf = some (i, rest)) (hc : ∀ c, Codes (f c) (g c))
    (hf : ∀ c, after (f c) rest = rest ∧ longOperand (f c) = []) :
    (longOperand i).length ≤ 5 ∧ ∃ e, readOp2 buf g = .ok (e, after i rest) ∧ Codes i e := by
  cases buf with
  | nil => simp [Form.read] at h
  | cons c cs =>
    cases h
    obtain ⟨hafter, hlong⟩ := hf c
    exact ⟨by simp [hlong], g c, by rw [hafter]; rfl, hc c⟩

theorem codes_ite {p q : Prop} [Decidable p] [Decidable q] {i : p → Insn} {j : ¬ p → Insn}
    {d e : ArmExbufData} (hpq : p ↔ q) (hi : ∀ h, Codes (i h) d) (hj : ∀ h, Codes (j h) e) :
    Codes (if h : p then i h else j h) (if q then d else e) := by
  by_cases h : p
  · simpa only [dif_pos h, if_pos (hpq.mp h)] using hi h
  · simpa only [dif_neg h, if_neg (fun hq => h (hpq.mpr hq))] using hj h

theorem spare_operand (c : Byte) : c.toNat = 0 ∨ 16 ≤ c.toNat ↔ c = 0#8 ∨ c &&& 0xf0#8 ≠ 0#8 := by
  revert c; decide

theorem byte_range (op : Byte) (n m : Nat) (hn : n < 256) (hm : m < 256) :
    BitVec.ofNat 8 n ≤ op ∧ op ≤ BitVec.ofNat 8 m ↔ n ≤ op.toNat ∧ op.toNat ≤ m := by
  simp [BitVec.le_def, Nat.mod_eq_of_lt hn, Nat.mod_eq_of_lt hm]

/-- The branches of the source, by the value of the opcode. -/
theorem decodeOp_cons (wide : WideShift) (op : Byte) (buf : List Byte) :
    decodeOp wide (op :: buf) =
      if op.toNat < 0x40 then .ok (⟨.dataPop, (word op &&& 0x3f) <<< 2 + 4⟩, buf)
      else if 0x40 ≤ op.toNat ∧ op.toNat < 0x80 then
        .ok (⟨.dataPush, (word op &&& 0x3f) <<< 2 + 4⟩, buf)
      else if 0x80 ≤ op.toNat ∧ op.toNat < 0x90 then readOp2 buf fun op2 =>
        if op.toNat = 0x80 ∧ op2 = 0x00#8 then { cmd := .refused }
        else ⟨.regPop, ((word op &&& 0xf) <<< 8 ||| word op2) <<< 4⟩
      else if 0x90 ≤ op.toNat ∧ op.toNat < 0xa0 then
        if op.toNat = 0x9d ∨ op.toNat = 0x9f then .ok ({ cmd := .reserved }, buf)
        else .ok (⟨.regToSp, word op &&& 0x0f⟩, buf)
      else if 0xa0 ≤ op.toNat ∧ op.toNat < 0xb0 then .ok (⟨.regPop, rangeMask op⟩, buf)
      else if op.toNat = 0xb0 then .ok ({ cmd := .finish }, [])
      else if op.toNat = 0xb1 then readOp2 buf fun op2 =>
        if op2 = 0#8 ∨ op2 &&& 0xf0#8 ≠ 0#8 then
            { cmd := .reserved } else ⟨.regPop, word op2 &&& 0x0f⟩
      else if op.toNat = 0xb2 then
        match readUleb wide 0 0 buf with
        | .error e => .error e
        | .ok (offset, buf) => .ok (⟨.dataPop, offset * 4 + 0x204⟩, buf)
      else if op.toNat = 0xb3 ∨ op.toNat = 0xc8 ∨ op.toNat = 0xc9 then readOp2 buf fun op2 =>
        let data := if op.toNat = 0xc8 then word op2 ||| armExidxVfpShift16 else word op2
        ⟨.vfpPop, if op.toNat ≠ 0xb3 then data ||| armExidxVfpDouble else data⟩
      else if (0xb8 ≤ op.toNat ∧ op.toNat < 0xc0) ∨ 0xd0 ≤ op.toNat ∧ op.toNat < 0xd8 then
        let data : Word := 0x80 ||| (word op &&& 0x07)
        .ok (⟨.vfpPop, if 0xd0 ≤ op.toNat ∧ op.toNat < 0xd8 then
            data ||| armExidxVfpDouble else data⟩, buf)
      else if 0xc0 ≤ op.toNat ∧ op.toNat ≤ 0xc5 then
        .ok (⟨.wregPop, 0xa0 ||| (word op &&& 0x07)⟩, buf)
      else if op.toNat = 0xc6 then readOp2 buf fun op2 => ⟨.wregPop, word op2⟩
      else if op.toNat = 0xc7 then readOp2 buf fun op2 =>
        if op2 = 0#8 ∨ op2 &&& 0xf0#8 ≠ 0#8 then
            { cmd := .reserved } else ⟨.wcgrPop, word op2 &&& 0x0f⟩
      else .ok ({ cmd := .reserved }, buf) := by
  have hlit := eq_iff_toNat op
  simp only [decodeOp, and_c0_eq_00, and_c0_eq_40, and_f0_eq_80, and_f0_eq_90, and_f0_eq_a0,
    and_f8_eq_b8, and_f8_eq_d0,
    hlit 0xb0 (by decide), hlit 0xb1 (by decide), hlit 0xb2 (by decide), hlit 0xb3 (by decide),
    hlit 0xc6 (by decide),
    hlit 0xc7 (by decide), hlit 0xc8 (by decide), hlit 0xc9 (by decide), hlit 0x9d (by decide),
    hlit 0x9f (by decide),
    hlit 0x80 (by decide), byte_range op 0xc0 0xc5 (by decide) (by decide), ne_eq] <;>
  rfl

section Rows

variable {op : Byte} {buf rest : List Byte} {i : Insn}

theorem reads_vsp (hop : op.toNat < 0x80) (h : (EhabiTable.form op).read buf = some (i, rest)) :
    Reads op buf i rest := by
  rw [Reads, decodeOp_cons]
  by_cases hlow : op.toNat < 0x40
  · simp (disch := omega) only [EhabiTable.form, if_pos] at h ⊢
    cases h
    exact ⟨Nat.zero_le 5, _, rfl, congrArg _ (codes_dataPop op hlow)⟩
  · simp (disch := omega) only [EhabiTable.form, if_pos, if_neg] at h ⊢
    cases h
    exact ⟨Nat.zero_le 5, _, rfl, congrArg _ (codes_dataPush op (by omega))⟩

theorem reads_popHigh (hop : 0x80 ≤ op.toNat ∧ op.toNat < 0x90)
    (h : (EhabiTable.form op).read buf = some (i, rest)) :
    Reads op buf i rest := by
  rw [Reads, decodeOp_cons]
  simp (disch := omega) only [EhabiTable.form, if_pos, if_neg] at h ⊢
  refine readOp2_codes h (fun c => codes_ite ?_ (fun _ => rfl) fun _ =>
    ⟨rfl, codes_pop12 op c hop⟩) fun c => ?_
  · rw [eq_iff_toNat c 0 (by decide)]
  · split <;> exact ⟨rfl, rfl⟩

theorem reads_setVsp (hop : 0x90 ≤ op.toNat ∧ op.toNat < 0xa0)
    (h : (EhabiTable.form op).read buf = some (i, rest)) :
    Reads op buf i rest := by
  rw [Reads, decodeOp_cons]
  by_cases hspare : op.toNat = 0x9d ∨ op.toNat = 0x9f
  · simp (disch := omega) only [EhabiTable.form, if_pos, if_neg] at h ⊢
    cases h
    exact ⟨Nat.zero_le 5, _, rfl, rfl⟩
  · simp (disch := omega) only [EhabiTable.form, if_pos, if_neg] at h ⊢
    cases h
    exact ⟨Nat.zero_le 5, _, rfl, congrArg _ (codes_regToSp op hop)⟩

theorem reads_popRange (hop : 0xa0 ≤ op.toNat ∧ op.toNat < 0xb0)
    (h : (EhabiTable.form op).read buf = some (i, rest)) :
    Reads op buf i rest := by
  rw [Reads, decodeOp_cons]
  by_cases hlr : op.toNat < 0xa8
  · simp (disch := omega) only [EhabiTable.form, if_pos, if_neg] at h ⊢
    cases h
    exact ⟨Nat.zero_le 5, _, rfl, rfl, codes_popRange op (by omega)⟩
  · simp (disch := omega) only [EhabiTable.form, if_pos, if_neg] at h ⊢
    cases h
    exact ⟨Nat.zero_le 5, _, rfl, rfl, codes_popRangeLr op (by omega)⟩

theorem reads_finish (hop : op.toNat = 0xb0) (h : (EhabiTable.form op).read buf = some (i, rest)) :
    Reads op buf i rest := by
  rw [Reads, decodeOp_cons]
  simp (disch := omega) only [EhabiTable.form, if_pos, if_neg] at h ⊢
  cases h
  exact ⟨Nat.zero_le 5, _, rfl, rfl⟩

theorem reads_popLow (hop : op.toNat = 0xb1) (h : (EhabiTable.form op).read buf = some (i, rest)) :
    Reads op buf i rest := by
  rw [Reads, decodeOp_cons]
  simp (disch := omega) only [EhabiTable.form, if_pos, if_neg] at h ⊢
  refine readOp2_codes h (fun c => codes_ite (spare_operand c) (fun _ => rfl) fun hc =>
    ⟨rfl, codes_popLow c hc⟩) fun c => ?_
  split <;> exact ⟨rfl, rfl⟩

/-- A number of more than five bytes runs into an undefined shift. -/
theorem reads_vspLong (hop : op.toNat = 0xb2) (h : (EhabiTable.form op).read buf = some (i, rest)) :
    Reads op buf i rest ∨
      (5 < (longOperand i).length ∧ decodeOp .undefined (op :: buf) = .error .shiftPastWidth) := by
  rw [Reads, decodeOp_cons]
  simp (disch := omega) only [EhabiTable.form, if_pos, if_neg] at h ⊢
  obtain ⟨p, hp, he⟩ := Option.map_eq_some_iff.mp h
  cases he
  have hread := readUleb_split hp 0 0 (by decide) (by decide)
  simp only [Nat.mul_zero, Nat.zero_add] at hread
  simp only [longOperand, BitVec.ofNat_eq_ofNat, hread]
  by_cases hlen : p.1.length ≤ 5
  · left
    rw [if_pos hlen]
    have hdata : BitVec.ofNat 32 (2 ^ 0 * Leb128.value p.1) * 4#32 + 0x204#32 =
        BitVec.ofNat 32 (0x204 + 4 * Leb128.value p.1) := by
      apply BitVec.eq_of_toNat_eq
      simp only [BitVec.toNat_add, BitVec.toNat_mul, BitVec.toNat_ofNat]
      omega
    exact ⟨hlen, _, rfl, congrArg _ hdata⟩
  · right
    rw [if_neg hlen]
    exact ⟨by omega, rfl⟩

theorem reads_popVfp (hop : 0xb3 ≤ op.toNat ∧ op.toNat < 0xc0)
    (h : (EhabiTable.form op).read buf = some (i, rest)) :
    Reads op buf i rest := by
  rw [Reads, decodeOp_cons]
  by_cases hoperand : op.toNat = 0xb3
  · simp (disch := omega) only [EhabiTable.form, if_pos, if_neg] at h ⊢
    exact readOp2_codes h (fun _ => rfl) fun _ => ⟨rfl, rfl⟩
  · by_cases hspare : op.toNat < 0xb8
    · simp (disch := omega) only [EhabiTable.form, if_pos, if_neg] at h ⊢
      cases h
      exact ⟨Nat.zero_le 5, _, rfl, rfl⟩
    · simp (disch := omega) only [EhabiTable.form, if_pos, if_neg] at h ⊢
      cases h
      exact ⟨Nat.zero_le 5, _, rfl, rfl⟩

theorem reads_popWmmx (hop : 0xc0 ≤ op.toNat ∧ op.toNat < 0xc8)
    (h : (EhabiTable.form op).read buf = some (i, rest)) :
    Reads op buf i rest := by
  rw [Reads, decodeOp_cons]
  by_cases hplain : op.toNat < 0xc6
  · simp (disch := omega) only [EhabiTable.form, if_pos, if_neg] at h ⊢
    cases h
    exact ⟨Nat.zero_le 5, _, rfl, .inl rfl⟩
  · by_cases hregs : op.toNat = 0xc6
    · simp (disch := omega) only [EhabiTable.form, if_pos, if_neg] at h ⊢
      exact readOp2_codes h (fun _ => .inl rfl) fun _ => ⟨rfl, rfl⟩
    · simp (disch := omega) only [EhabiTable.form, if_pos, if_neg] at h ⊢
      refine readOp2_codes h (fun c => codes_ite (spare_operand c) (fun _ => rfl) fun _ =>
        .inr rfl) fun c => ?_
      split <;> exact ⟨rfl, rfl⟩

theorem reads_popDouble (hop : 0xc8 ≤ op.toNat)
    (h : (EhabiTable.form op).read buf = some (i, rest)) :
    Reads op buf i rest := by
  rw [Reads, decodeOp_cons]
  by_cases hoperand : op.toNat < 0xca
  · simp (disch := omega) only [EhabiTable.form, if_pos, if_neg] at h ⊢
    exact readOp2_codes h (fun _ => rfl) fun _ => ⟨rfl, rfl⟩
  · by_cases hpop : 0xd0 ≤ op.toNat ∧ op.toNat < 0xd8
    · simp (disch := omega) only [EhabiTable.form, if_pos, if_neg] at h ⊢
      cases h
      exact ⟨Nat.zero_le 5, _, rfl, rfl⟩
    · have hspare : EhabiTable.form op = .plain .spare := by
        simp only [EhabiTable.form]
        by_cases hlow : op.toNat < 0xd0
        · simp (disch := omega) only [if_pos, if_neg]
        · simp (disch := omega) only [if_neg]
      rw [hspare] at h
      simp (disch := omega) only [if_neg]
      cases h
      exact ⟨Nat.zero_le 5, _, rfl, rfl⟩

end Rows

/-- One turn of the loop reads what the table reads, for every opcode; a
uleb128 operand of more than five bytes runs into an undefined shift. -/
theorem decodeOp_parse {op : Byte} {buf rest : List Byte} {i : Insn}
    (h : EhabiTable.parse (op :: buf) = some (i, rest)) :
    Reads op buf i rest ∨
      (5 < (longOperand i).length ∧ decodeOp .undefined (op :: buf) = .error .shiftPastWidth) := by
  by_cases hlong : op.toNat = 0xb2
  · exact reads_vspLong hlong h
  left
  obtain hop | hop | hop | hop | hop | hop | hop | hop | hop :
      op.toNat < 0x80 ∨ (0x80 ≤ op.toNat ∧ op.toNat < 0x90) ∨
      (0x90 ≤ op.toNat ∧ op.toNat < 0xa0) ∨ (0xa0 ≤ op.toNat ∧ op.toNat < 0xb0) ∨
      op.toNat = 0xb0 ∨ op.toNat = 0xb1 ∨
      (0xb3 ≤ op.toNat ∧ op.toNat < 0xc0) ∨ (0xc0 ≤ op.toNat ∧ op.toNat < 0xc8) ∨
      0xc8 ≤ op.toNat := by omega
  · exact reads_vsp hop h
  · exact reads_popHigh hop h
  · exact reads_setVsp hop h
  · exact reads_popRange hop h
  · exact reads_finish hop h
  · exact reads_popLow hop h
  · exact reads_popVfp hop h
  · exact reads_popWmmx hop h
  · exact reads_popDouble hop h

/-- The cursor's integer registers are those of the frame. -/
def Agrees (c : TCursor) (f : Frame) : Prop := ∀ i : Fin 16, c.regs i.castSucc = f.reg i

@[simp] theorem setReg_same (c : TCursor) (i : Fin 17) (v : Word) : (c.setReg i v).regs i = v := by
  simp [TCursor.setReg]

theorem setReg_other (c : TCursor) (i j : Fin 17) (v : Word) (h : j ≠ i) :
    (c.setReg i v).regs j = c.regs j := by simp [TCursor.setReg, h]

theorem castSucc_eq_iff (i : Fin 16) (n : Nat) (h : n < 16) :
    i.castSucc = Fin.ofNat 17 n ↔ i.val = n := by
  rw [Fin.ext_iff]
  simp only [Fin.val_castSucc, Fin.ofNat]
  rw [Nat.mod_eq_of_lt (by omega)]

/-- Setting one register on both sides keeps them equal. -/
theorem agrees_setReg {c : TCursor} {f : Frame} (h : Agrees c f) (k : Fin 16) (v : Word) :
    Agrees (c.setReg k.castSucc v) { f with reg := Function.update f.reg k v } := by
  intro i
  by_cases hi : i = k
  · subst hi; simp
  · have hne : i.castSucc ≠ k.castSucc := fun he => hi (Fin.castSucc_injective 16 he)
    rw [setReg_other _ _ _ _ hne, h i]
    exact (Function.update_of_ne hi v f.reg).symm

theorem below_succ (m : Fin 16 → Bool) (n : Nat) (h : n < 16) :
    EhabiTable.below m (n + 1) = EhabiTable.below m n + (m ⟨n, h⟩).toNat := by
  simp [EhabiTable.below, h]

theorem regPopLoop_succ (mem : Mem) (data : Word) (n : Nat) (c : TCursor) :
    regPopLoop mem data (n + 1) c = popTurn mem data (regPopLoop mem data n c) n := by
  simp [regPopLoop, List.range_succ]

theorem popTurn_clear (mem : Mem) (data : Word) (c : TCursor) (i : Nat)
    (h : ¬ data &&& 1#32 <<< i ≠ 0) :
    popTurn mem data c i = c := by simp only [popTurn, if_neg h]

theorem popTurn_set (mem : Mem) (data : Word) (c : TCursor) (i : Nat)
    (h : data &&& 1#32 <<< i ≠ 0) :
    popTurn mem data c i = (c.setReg (Fin.ofNat 17 i) (mem (c.regs armSp))).setReg armSp
      ((c.setReg (Fin.ofNat 17 i) (mem (c.regs armSp))).regs armSp + 4) := by
  simp only [popTurn, if_pos h]

theorem add_four (sp : Word) (n : Nat) :
    sp + BitVec.ofNat 32 (4 * n) + 4 = sp + BitVec.ofNat 32 (4 * (n + 1)) := by
  rw [BitVec.add_assoc, Nat.mul_succ, BitVec.ofNat_add]
  rfl

/-- After the first `n` turns the masked registers below `n` are loaded and the
stack pointer has moved past them, as long as no turn has loaded r13. -/
theorem regPopLoop_regs (mem : Mem) (data : Word) (m : Fin 16 → Bool)
    (hm : ∀ r : Fin 16, data &&& 1#32 <<< r.val ≠ 0 ↔ m r = true) (c : TCursor)
    (n : Nat) (hn : n ≤ 16) (h13 : n ≤ 13 ∨ m 13 = false) (i : Fin 16) :
    (regPopLoop mem data n c).regs i.castSucc =
      if i.val < n ∧ m i = true then
        mem (c.regs armSp + BitVec.ofNat 32 (4 * EhabiTable.below m i.val))
      else if i = 13 then c.regs armSp + BitVec.ofNat 32 (4 * EhabiTable.below m n)
      else c.regs i.castSucc := by
  induction n generalizing i with
  | zero =>
    by_cases hi : i = 13
    · subst hi
      simp [regPopLoop, EhabiTable.below]
    · simp [regPopLoop, hi]
  | succ n ih =>
    have hno13 : ∀ k ≤ n + 1, ¬ ((13 : Fin 16).val < k ∧ m 13 = true) := by
      intro k hk h
      rcases h13 with h13 | h13
      · have : (13 : Fin 16).val = 13 := rfl
        omega
      · rw [h13] at h
        exact absurd h.2 (by decide)
    have ih := ih (by omega) (h13.imp (by omega) id)
    have hsp := ih 13
    rw [if_neg (hno13 n (by omega)), if_pos rfl] at hsp
    rw [regPopLoop_succ]
    by_cases hbit : m ⟨n, hn⟩ = true
    · have hn13 : n ≠ 13 := by
        intro he
        subst he
        exact hno13 14 (by omega) ⟨by decide, hbit⟩
      rw [popTurn_set mem data _ n ((hm ⟨n, hn⟩).mpr hbit)]
      have hne : armSp ≠ Fin.ofNat 17 n := fun he =>
        hn13 ((castSucc_eq_iff 13 n (by omega)).mp he).symm
      rw [setReg_other _ _ _ _ hne]
      by_cases hi13 : i = 13
      · subst hi13
        rw [if_neg (hno13 (n + 1) (by omega)), if_pos rfl, below_succ m n hn, hbit]
        exact (setReg_same _ armSp _).trans ((congrArg (· + 4) hsp).trans (add_four _ _))
      · have hisp : i.castSucc ≠ armSp := fun he => hi13 (Fin.castSucc_injective 16 he)
        rw [setReg_other _ _ _ _ hisp]
        by_cases hin : i.val = n
        · rw [(castSucc_eq_iff i n (by omega)).mpr hin, setReg_same, if_pos ⟨by omega, by
            rw [← hbit]; congr 1; exact Fin.ext hin⟩, hin]
          exact congrArg mem hsp
        · rw [setReg_other _ _ _ _ (fun he => hin ((castSucc_eq_iff i n (by omega)).mp he)),
            ih i, if_neg hi13, if_neg hi13]
          have hlt : i.val < n + 1 ↔ i.val < n := by omega
          simp only [hlt]
    · rw [popTurn_clear mem data _ n (fun h => hbit ((hm ⟨n, hn⟩).mp h)), ih i]
      have hb : EhabiTable.below m (n + 1) = EhabiTable.below m n := by
        rw [below_succ m n hn, Bool.eq_false_of_not_eq_true hbit]
        rfl
      rw [hb]
      by_cases hin : i.val = n
      · have hmi : ¬ m i = true := by
          intro hmi
          apply hbit
          rw [← hmi]
          congr 1
          exact Fin.ext hin.symm
        simp only [hmi, Bool.false_eq_true, and_false, if_false]
      · have hlt : i.val < n + 1 ↔ i.val < n := by omega
        simp only [hlt]

theorem popTurn_sp (mem : Mem) (data : Word) (c : TCursor) (i : Nat) (hi : i < 16) (h13 : i ≠ 13) :
    (popTurn mem data c i).regs armSp = c.regs armSp ∨
      (popTurn mem data c i).regs armSp = c.regs armSp + 4 := by
  by_cases h : data &&& 1#32 <<< i ≠ 0
  · right
    have hne : armSp ≠ Fin.ofNat 17 i := fun he => h13 ((castSucc_eq_iff 13 i hi).mp he).symm
    rw [popTurn_set mem data c i h, setReg_same, setReg_other _ _ _ _ hne]
  · left
    rw [popTurn_clear mem data c i h]

/-- A pop that loads r13 leaves the stack pointer past the loaded value, by the
turns from r13 on. -/
theorem regPopLoop_sp_ne (mem : Mem) (data : Word) (m : Fin 16 → Bool)
    (hm : ∀ r : Fin 16, data &&& 1#32 <<< r.val ≠ 0 ↔ m r = true)
    (h13 : m 13 = true) (c : TCursor) :
    (regPopLoop mem data 16 c).regs armSp ≠
      mem (c.regs armSp + BitVec.ofNat 32 (4 * EhabiTable.below m 13)) := by
  have hsp := regPopLoop_regs mem data m hm c 13 (by decide) (.inl (by decide)) 13
  rw [if_neg fun h => absurd h.1 (by decide), if_pos rfl] at hsp
  have h14 : (regPopLoop mem data 14 c).regs armSp =
      mem (c.regs armSp + BitVec.ofNat 32 (4 * EhabiTable.below m 13)) + 4 := by
    rw [regPopLoop_succ, popTurn_set mem data _ 13 ((hm 13).mpr h13), setReg_same]
    have : (Fin.ofNat 17 13 : Fin 17) = armSp := rfl
    rw [this, setReg_same]
    exact congrArg (mem · + 4) hsp
  have h15 := popTurn_sp mem data (regPopLoop mem data 14 c) 14 (by decide) (by decide)
  have h16 := popTurn_sp mem data (regPopLoop mem data 15 c) 15 (by decide) (by decide)
  rw [← regPopLoop_succ] at h15 h16
  rw [h14] at h15
  intro he
  rw [he] at h16
  generalize mem (c.regs armSp + BitVec.ofNat 32 (4 * EhabiTable.below m 13)) = x at h15 h16
  generalize (regPopLoop mem data 15 c).regs armSp = y at h15 h16
  rcases h15 with rfl | rfl <;> rcases h16 with h | h <;> bv_omega

-- the proof that the numerals of registers share
local instance registers_neZero : NeZero 16 := ⟨by decide⟩

/-- What an instruction must meet, in the state it starts from, for the source
to do what the table says: no coprocessor pop, no pop that loads r13, no finish
over a popped r15 that differs from r14, no uleb128 operand over five bytes. -/
def Faithful : Insn → Frame → Prop
  | .pop m, _ => m 13 = false
  | .finish, f => f.pcSet = true → f.reg 15 = f.reg 14
  | .addVspLong operand, _ => operand.length ≤ 5
  | .popVfp _, _ => False
  | .popWmmx _, _ => False
  | _, _ => True

theorem sub_add_ofNat_ne (x : Word) (n : EhabiTable.StackBytes) :
    x ≠ x + BitVec.ofNat 32 n.bytes := by
  have := n.pos
  have := n.small
  intro h
  have ht := congrArg BitVec.toNat h
  simp only [BitVec.toNat_add, BitVec.toNat_ofNat] at ht
  omega

theorem agrees_sp {c : TCursor} {f : Frame} (h : Agrees c f) : c.regs armSp = f.reg 13 := h 13

/-- A command does what the table prescribes for its instruction. -/
theorem apply_agrees (mem : Mem) {i : Insn} {e : ArmExbufData} {c : TCursor} {f : Frame}
    (hc : Codes i e) (ha : Agrees c f) (hr : i.refuses = false) (hf : Faithful i f) :
    (armExidxApplyCmd mem e c).1 = 0 ∧
      Agrees (armExidxApplyCmd mem e c).2 (EhabiTable.step mem i f) := by
  have hsp := agrees_sp ha
  cases i with
  | addVsp n =>
    cases hc
    refine ⟨rfl, ?_⟩
    simp only [armExidxApplyCmd, EhabiTable.step, EhabiTable.addSp, hsp]
    exact agrees_setReg ha 13 _
  | subVsp n =>
    cases hc
    refine ⟨rfl, ?_⟩
    simp only [armExidxApplyCmd, EhabiTable.step, hsp]
    exact agrees_setReg ha 13 _
  | refuse => simp [EhabiTable.Insn.refuses] at hr
  | pop m =>
    obtain ⟨hcmd, hm⟩ := hc
    simp only [armExidxApplyCmd, hcmd, true_and]
    intro i
    rw [regPopLoop_regs mem e.data m hm c 16 (by decide) (.inr hf) i, hsp, ha i]
    simp only [i.isLt, true_and, EhabiTable.step, EhabiTable.popRegs]
  | setVsp r =>
    cases hc
    refine ⟨rfl, ?_⟩
    have hidx : Fin.ofNat 17 (BitVec.ofNat 32 r.val).toNat = r.castSucc := by
      have : (BitVec.ofNat 32 r.val).toNat = r.val := by
        rw [BitVec.toNat_ofNat]
        exact Nat.mod_eq_of_lt (by omega)
      rw [this]
      exact ((castSucc_eq_iff r r.val r.isLt).mpr rfl).symm
    simp only [armExidxApplyCmd, EhabiTable.step, hidx, ha r]
    exact agrees_setReg ha 13 _
  | finish =>
    have hpc : c.regs armPc = f.reg 15 := ha 15
    have hlr : c.regs armLr = f.reg 14 := ha 14
    simp only [Codes] at hc
    simp only [armExidxApplyCmd, hc, EhabiTable.step, hpc, hlr]
    by_cases heq : f.reg 15 = f.reg 14
    · rw [if_pos heq, ← heq, Function.update_eq_self]
      exact ⟨rfl, by split <;> exact ha⟩
    · have hset : ¬ f.pcSet = true := fun h => heq (hf h)
      rw [if_neg heq, if_neg hset]
      exact ⟨rfl, agrees_setReg ha 15 _⟩
  | addVspLong operand =>
    cases hc
    refine ⟨rfl, ?_⟩
    simp only [armExidxApplyCmd, EhabiTable.step, EhabiTable.addSp, hsp]
    exact agrees_setReg ha 13 _
  | popVfp n => exact hf.elim
  | popWmmx n => exact hf.elim
  | spare => simp [EhabiTable.Insn.refuses] at hr

/-- Outside that condition the command leaves other registers. -/
theorem apply_deviates (mem : Mem) {i : Insn} {e : ArmExbufData} {c : TCursor} {f : Frame}
    (hc : Codes i e) (ha : Agrees c f) (hlen : (longOperand i).length ≤ 5) (hf : ¬ Faithful i f) :
    (armExidxApplyCmd mem e c).1 = 0 ∧
      ¬ Agrees (armExidxApplyCmd mem e c).2 (EhabiTable.step mem i f) := by
  have hsp := agrees_sp ha
  have hskip : ∀ n : EhabiTable.StackBytes, ¬ Agrees c (EhabiTable.addSp f n.bytes) := by
    intro n h
    have h13 := agrees_sp h
    rw [hsp] at h13
    simp only [EhabiTable.addSp, Function.update_self] at h13
    exact sub_add_ofNat_ne _ n h13
  cases i with
  | pop m =>
    obtain ⟨hcmd, hm⟩ := hc
    have h13 : m 13 = true := by simpa [Faithful] using hf
    simp only [armExidxApplyCmd, hcmd, true_and]
    intro h
    have hnew := agrees_sp h
    simp only [EhabiTable.step, EhabiTable.popRegs, h13, if_true, ← hsp] at hnew
    exact regPopLoop_sp_ne mem e.data m hm h13 c hnew
  | finish =>
    obtain ⟨hset, hne⟩ : f.pcSet = true ∧ f.reg 15 ≠ f.reg 14 := by simpa [Faithful] using hf
    have hpc : c.regs armPc = f.reg 15 := ha 15
    have hlr : c.regs armLr = f.reg 14 := ha 14
    simp only [Codes] at hc
    simp only [armExidxApplyCmd, hc, EhabiTable.step, hpc, hlr, if_neg hne, if_pos hset, true_and]
    intro h
    have h15 : (c.setReg armPc (f.reg 14)).regs armPc = f.reg 15 := h 15
    rw [setReg_same] at h15
    exact hne h15.symm
  | addVspLong operand => exact absurd hlen hf
  | popVfp n =>
    simp only [Codes] at hc
    simp only [armExidxApplyCmd, hc, EhabiTable.step, true_and]
    exact hskip n
  | popWmmx n =>
    rcases hc with hc | hc <;> simp only [armExidxApplyCmd, hc, EhabiTable.step, true_and] <;>
      exact hskip n
  | addVsp n => simp [Faithful] at hf
  | subVsp n => simp [Faithful] at hf
  | refuse => simp [Faithful] at hf
  | setVsp r => simp [Faithful] at hf
  | spare => simp [Faithful] at hf

theorem apply_refuses (mem : Mem) {i : Insn} {e : ArmExbufData} (c : TCursor)
    (hc : Codes i e) (hr : i.refuses = true) : armExidxApplyCmd mem e c = (-1, c) := by
  cases i <;> simp only [EhabiTable.Insn.refuses, Bool.false_eq_true] at hr <;>
    simp only [Codes] at hc <;> simp only [armExidxApplyCmd, hc]

theorem armExidxDecode_turn {wide : WideShift} (mem : Mem) {op : Byte} {buf rest : List Byte}
    {e : ArmExbufData}
    (c : TCursor) (h : decodeOp wide (op :: buf) = .ok (e, rest)) :
    armExidxDecode wide mem (op :: buf) c =
      if (armExidxApplyCmd mem e c).1 < 0 then .ok (armExidxApplyCmd mem e c)
      else armExidxDecode wide mem rest (armExidxApplyCmd mem e c).2 := by
  rw [armExidxDecode]
  split
  · rename_i he
    rw [h] at he
    cases he
  · rename_i he
    rw [h] at he
    cases he
    rfl

theorem armExidxDecode_fault {wide : WideShift} (mem : Mem) {op : Byte}
    {buf : List Byte} {x : Fault}
    (c : TCursor) (h : decodeOp wide (op :: buf) = .error x) :
    armExidxDecode wide mem (op :: buf) c = .error x := by
  rw [armExidxDecode]
  split
  · rename_i he
    rw [h] at he
    cases he
    rfl
  · rename_i he
    rw [h] at he
    cases he

/-- The bytes leave the prescribed registers and -1 exactly when refused. -/
def MeetsTable (mem : Mem) (bs : List Byte) (is : List Insn) (c : TCursor) (f : Frame) : Prop :=
  ∃ c', armExidxDecode .undefined mem bs c =
    .ok (if (EhabiTable.run mem is f).2 then -1 else 0, c') ∧
    Agrees c' (EhabiTable.run mem is f).1

/-- Every instruction reached meets its condition where it starts. -/
def AllFaithful (mem : Mem) : List Insn → Frame → Prop
  | [], _ => True
  | i :: is, f => i.refuses = true ∨ (Faithful i f ∧ AllFaithful mem is (EhabiTable.step mem i f))

theorem parse_cons {bs rest : List Byte} {i : Insn} (h : EhabiTable.parse bs = some (i, rest)) :
    ∃ op buf, bs = op :: buf := by
  cases bs with
  | nil => simp [EhabiTable.parse] at h
  | cons op buf => exact ⟨op, buf, rfl⟩

/-- The frame a decode starts from: the cursor's registers, r15 not popped. -/
def entry (c : TCursor) : Frame := ⟨fun i => c.regs i.castSucc, false⟩

theorem agrees_entry (c : TCursor) : Agrees c (entry c) := fun _ => rfl

theorem decode_refuses (mem : Mem) {bs rest : List Byte} {i : Insn} (c : TCursor)
    (h : EhabiTable.parse bs = some (i, rest)) (hr : i.refuses = true) :
    armExidxDecode .undefined mem bs c = .ok (-1, c) := by
  obtain ⟨op, buf, rfl⟩ := parse_cons h
  rcases decodeOp_parse h with ⟨-, e, he, hc⟩ | ⟨hlen, -⟩
  · rw [armExidxDecode_turn mem c he, apply_refuses mem c hc hr]
    rfl
  · cases i <;> simp [EhabiTable.Insn.refuses, longOperand] at hr hlen

theorem decode_agrees (mem : Mem) {bs rest : List Byte} {i : Insn} {c : TCursor} {f : Frame}
    (h : EhabiTable.parse bs = some (i, rest)) (ha : Agrees c f) (hr : i.refuses = false)
    (hf : Faithful i f) :
    ∃ c', armExidxDecode .undefined mem bs c = armExidxDecode .undefined mem (after i rest) c' ∧
      Agrees c' (EhabiTable.step mem i f) := by
  obtain ⟨op, buf, rfl⟩ := parse_cons h
  rcases decodeOp_parse h with ⟨-, e, he, hc⟩ | ⟨hlen, -⟩
  · obtain ⟨hret, hagree⟩ := apply_agrees mem hc ha hr hf
    refine ⟨_, ?_, hagree⟩
    rw [armExidxDecode_turn mem c he, hret]
    rfl
  · cases i with
    | addVspLong operand => exact absurd hf (by simpa [Faithful, longOperand] using hlen)
    | _ => simp [longOperand] at hlen

theorem decode_deviates (mem : Mem) {bs rest : List Byte} {i : Insn} {c : TCursor} {f : Frame}
    (h : EhabiTable.parse bs = some (i, rest)) (ha : Agrees c f) (hf : ¬ Faithful i f) :
    (∃ c', armExidxDecode .undefined mem bs c = armExidxDecode .undefined mem (after i rest) c' ∧
      ¬ Agrees c' (EhabiTable.step mem i f)) ∨ armExidxDecode .undefined mem bs c =
        .error .shiftPastWidth := by
  obtain ⟨op, buf, rfl⟩ := parse_cons h
  by_cases hlen : (longOperand i).length ≤ 5
  · rcases decodeOp_parse h with ⟨-, e, he, hc⟩ | ⟨hlen', -⟩
    · obtain ⟨hret, hagree⟩ := apply_deviates mem hc ha hlen hf
      refine .inl ⟨_, ?_, hagree⟩
      rw [armExidxDecode_turn mem c he, hret]
      rfl
    · omega
  · have herr := ((decodeOp_parse h).resolve_left fun hr => hlen hr.1).2
    exact .inr (armExidxDecode_fault mem c herr)

theorem refuses_of_not_terminal {i : Insn} (h : i.terminal = false) : i.refuses = false := by
  cases i <;> simp_all [EhabiTable.Insn.terminal, EhabiTable.Insn.refuses]

theorem after_of_not_terminal {i : Insn} (h : i.terminal = false) (rest : List Byte) :
    after i rest = rest := by
  cases i <;> first | rfl | simp [EhabiTable.Insn.terminal] at h

theorem after_of_terminal {i : Insn} (ht : i.terminal = true) (hr : i.refuses = false)
    (rest : List Byte) : after i rest = [] := by
  cases i <;> simp [EhabiTable.Insn.terminal, hr] at ht
  rfl

/-- Whole sequences: registers and return value follow the table as long as
every instruction reached meets its condition. -/
theorem meetsTable_of_allFaithful (mem : Mem) {bs : List Byte} {is : List Insn}
    (hs : Sequence bs is) (c : TCursor) (f : Frame) (ha : Agrees c f)
    (hall : AllFaithful mem is f) :
    MeetsTable mem bs is c f := by
  induction hs generalizing c f with
  | nil => exact ⟨c, by simp [armExidxDecode], ha⟩
  | @stop bs i rest h ht =>
    by_cases hr : i.refuses = true
    · rw [MeetsTable, EhabiTable.run_cons_refuses mem i [] f hr]
      exact ⟨c, decode_refuses mem c h hr, ha⟩
    · have hr : i.refuses = false := by simpa using hr
      obtain ⟨hf, -⟩ := hall.resolve_left (by simp [hr])
      obtain ⟨c', hd, ha'⟩ := decode_agrees mem h ha hr hf
      rw [MeetsTable, EhabiTable.run_cons_step mem i [] f hr]
      exact ⟨c', by rw [hd, after_of_terminal ht hr, armExidxDecode]; rfl, ha'⟩
  | @next bs i rest is h ht hs ih =>
    have hr := refuses_of_not_terminal ht
    obtain ⟨hf, hrest⟩ := hall.resolve_left (by simp [hr])
    obtain ⟨c', hd, ha'⟩ := decode_agrees mem h ha hr hf
    rw [MeetsTable, EhabiTable.run_cons_step mem i is f hr, hd, after_of_not_terminal ht]
    exact ih c' _ ha' hrest

/-- A sequence of one instruction that misses its condition. -/
theorem not_meetsTable_single (mem : Mem) {used : List Byte} {i : Insn} {c : TCursor} {f : Frame}
    (h : EhabiTable.parse used = some (i, [])) (ha : Agrees c f) (hr : i.refuses = false)
    (hf : ¬ Faithful i f) : ¬ MeetsTable mem used [i] c f := by
  rintro ⟨c₁, hd, ha₁⟩
  rw [EhabiTable.run_cons_step mem i [] f hr] at hd ha₁
  rcases decode_deviates mem h ha hf with ⟨c', hd', hna⟩ | herr
  · have hend : after i [] = [] := by cases i <;> rfl
    rw [hd', hend, armExidxDecode] at hd
    cases hd
    exact hna ha₁
  · rw [herr] at hd
    cases hd

/-- The first instruction that misses its condition spoils the sequence that
ends with it. -/
theorem exists_prefix_not_meetsTable (mem : Mem) {bs : List Byte} {is : List Insn}
    (hs : Sequence bs is) (f : Frame) (hall : ¬ AllFaithful mem is f) :
    ∃ p js, p <+: bs ∧ Sequence p js ∧ ∀ c, Agrees c f → ¬ MeetsTable mem p js c f := by
  have hsingle : ∀ {bs rest : List Byte} {i : Insn} {f : Frame},
      EhabiTable.parse bs = some (i, rest) → i.refuses = false → ¬ Faithful i f →
      ∃ p js, p <+: bs ∧ Sequence p js ∧ ∀ c, Agrees c f → ¬ MeetsTable mem p js c f := by
    intro bs rest i f h hr hf
    obtain ⟨used, rfl, hused⟩ := EhabiTable.parse_local h
    have hself : EhabiTable.parse used = some (i, []) := by simpa using hused []
    have hseq : Sequence used [i] := by
      cases ht : i.terminal with
      | true => exact .stop hself ht
      | false => exact .next hself ht .nil
    exact ⟨used, [i], List.prefix_append used rest, hseq,
      fun c ha => not_meetsTable_single mem hself ha hr hf⟩
  induction hs generalizing f with
  | nil => exact (hall trivial).elim
  | @stop bs i rest h ht =>
    have hr : i.refuses = false := by
      by_contra hr
      exact hall (.inl (by simpa using hr))
    exact hsingle h hr fun hf => hall (.inr ⟨hf, trivial⟩)
  | @next bs i rest is h ht hs ih =>
    have hr := refuses_of_not_terminal ht
    by_cases hf : Faithful i f
    · obtain ⟨p, js, hp, hseq, hno⟩ := ih _ fun hrest => hall (.inr ⟨hf, hrest⟩)
      obtain ⟨used, rfl, hused⟩ := EhabiTable.parse_local h
      have hpre : used ++ p <+: used ++ rest := (List.prefix_append_right_inj used).mpr hp
      refine ⟨used ++ p, i :: js, hpre, .next (hused p) ht hseq, ?_⟩
      intro c ha
      obtain ⟨c', hd, ha'⟩ := decode_agrees mem (hused p) ha hr hf
      rw [MeetsTable, EhabiTable.run_cons_step mem i js f hr, hd, after_of_not_terminal ht]
      exact hno c' ha'
    · exact hsingle h hr hf

theorem parse_append {p rest : List Byte} {i : Insn} (h : EhabiTable.parse p = some (i, rest))
    (tail : List Byte) : EhabiTable.parse (p ++ tail) = some (i, rest ++ tail) := by
  obtain ⟨used, rfl, hused⟩ := EhabiTable.parse_local h
  rw [List.append_assoc]
  exact hused _

/-- A prefix that is a sequence itself reads as the first of the instructions. -/
theorem sequence_isPrefix {p tail : List Byte} {is js : List Insn} (hseq : Sequence p js)
    (hs : Sequence (p ++ tail) is) : js <+: is := by
  induction hseq generalizing is with
  | nil => exact List.nil_prefix
  | stop h ht =>
    have h' := parse_append h tail
    generalize hb : _ ++ tail = bs at hs h'
    cases hs with
    | nil => simp [EhabiTable.parse] at h'
    | stop h₁ ht₁ => rw [h'] at h₁; cases h₁; exact List.prefix_rfl
    | next h₁ ht₁ hs₁ => rw [h'] at h₁; cases h₁; exact ⟨_, rfl⟩
  | next h ht hseq ih =>
    have h' := parse_append h tail
    generalize hb : _ ++ tail = bs at hs h'
    cases hs with
    | nil => simp [EhabiTable.parse] at h'
    | stop h₁ ht₁ => rw [h'] at h₁; cases h₁; rw [ht] at ht₁; cases ht₁
    | next h₁ ht₁ hs₁ => rw [h'] at h₁; cases h₁; exact (List.prefix_cons_inj _).mpr (ih hs₁)

theorem allFaithful_of_isPrefix (mem : Mem) {is js : List Insn} (hp : js <+: is) (f : Frame)
    (hall : AllFaithful mem is f) : AllFaithful mem js f := by
  obtain ⟨tail, rfl⟩ := hp
  induction js generalizing f with
  | nil => trivial
  | cons j js ih => exact hall.imp_right fun ⟨hf, hrest⟩ => ⟨hf, ih _ hrest⟩

/-- The registers and the return value a byte sequence leaves are those of the
instruction table, for it and for every shorter sequence it begins with, exactly
when every instruction it reaches meets its condition. -/
theorem armExidxDecode_meetsTable_iff (mem : Mem) (bs : List Byte) (is : List Insn)
    (hs : Sequence bs is) (c : TCursor) :
    (AllFaithful mem is (entry c) → MeetsTable mem bs is c (entry c)) ∧
    ((∀ p js, p <+: bs → Sequence p js → MeetsTable mem p js c (entry c)) ↔
      AllFaithful mem is (entry c)) := by
  refine ⟨meetsTable_of_allFaithful mem hs c _ (agrees_entry c), ?_⟩
  constructor
  · intro h
    by_contra hall
    obtain ⟨p, js, hp, hseq, hno⟩ := exists_prefix_not_meetsTable mem hs (entry c) hall
    exact hno c (agrees_entry c) (h p js hp hseq)
  · intro hall p js hp hseq
    obtain ⟨tail, rfl⟩ := hp
    exact meetsTable_of_allFaithful mem hseq c _ (agrees_entry c)
      (allFaithful_of_isPrefix mem (sequence_isPrefix hseq hs) _ hall)

/-- A cursor whose registers are all zero, for concrete runs. -/
def zeroCursor : TCursor := ⟨fun _ => 0, 0, 0, 0, 0, 0⟩

/-- `vsp = r11; pop {r7, r14}; finish`. -/
theorem armExidxDecode_meetsTable_frame :
    (AllFaithful id [.setVsp 11, .pop (fun r => decide (r = 7 ∨ r = 14)), .finish]
      (entry zeroCursor) →
      MeetsTable id [0x9b, 0x84, 0x08, 0xb0]
        [.setVsp 11, .pop (fun r => decide (r = 7 ∨ r = 14)), .finish] zeroCursor
          (entry zeroCursor)) ∧
    ((∀ p js, p <+: [0x9b, 0x84, 0x08, 0xb0] → Sequence p js →
        MeetsTable id p js zeroCursor (entry zeroCursor)) ↔
      AllFaithful id [.setVsp 11, .pop (fun r => decide (r = 7 ∨ r = 14)), .finish]
      (entry zeroCursor)) := by
  have hpop : EhabiTable.parse [0x84, 0x08, 0xb0] =
      some (.pop (fun r => decide (r = 7 ∨ r = 14)), [0xb0]) := by
    have hmask : (fun r : Fin 16 => if r.val < 4 then false
        else if r.val < 12 then Nat.testBit 8 (r.val - 4) else Nat.testBit 4 (r.val - 12)) =
        fun r => decide (r = 7 ∨ r = 14) := by
      funext r
      revert r
      decide
    exact congrArg (fun m => some (Insn.pop m, [0xb0#8])) hmask
  exact armExidxDecode_meetsTable_iff id _ _
    (.next rfl rfl (.next hpop rfl (.stop rfl rfl))) zeroCursor

/-- `vpop {d8}; finish` leaves the stack pointer where it was. -/
theorem armExidxDecode_vpop :
    Sequence [0xd0, 0xb0] [.popVfp (EhabiTable.doubles 0 (by decide)), .finish] ∧
      ¬ MeetsTable id [0xd0, 0xb0] [.popVfp (EhabiTable.doubles 0 (by decide)), .finish]
        zeroCursor (entry zeroCursor) := by
  refine ⟨.next rfl rfl (.stop rfl rfl), ?_⟩
  rintro ⟨c', hd, ha⟩
  have hcode : armExidxDecode .undefined id [0xd0, 0xb0] zeroCursor =
      .ok (0, { zeroCursor with stepStatus := -2 }) := by
    have hvpop : decodeOp .undefined [0xd0, 0xb0] = .ok (⟨.vfpPop, 0x20080⟩, [0xb0]) := rfl
    have hfinish : decodeOp .undefined [0xb0] = .ok ({ cmd := .finish }, []) := rfl
    rw [armExidxDecode_turn id zeroCursor hvpop, if_neg (by decide),
      armExidxDecode_turn id _ hfinish,
      if_neg (by decide), armExidxDecode]
    rfl
  rw [hcode] at hd
  cases hd
  exact absurd (ha 13) (by decide)

end ExidxDecode
