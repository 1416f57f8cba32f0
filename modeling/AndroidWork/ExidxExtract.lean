import AndroidWork.ExidxDecodeTable
import AndroidWork.ExidxTable

/-!
# The unwinding bytes of a table entry

`arm_exidx_extract` and `arm_exidx_step` of the crash collector and of
libmemcheck, and when the 32-byte buffer between them is large enough. The two
copies differ in the generic model and in what CANT_UNWIND sets.
-/
namespace ExidxExtract

open Leb128 (Byte)
open EhabiTable (Word Mem Insn)
open ExidxDecode

inductive Copy where
  | crash
  | memcheck
  deriving DecidableEq, Repr

def armExidxCantUnwind : Word := 0x00000001
def armExidxCompact : Word := 0x80000000
def armExtblOpFinish : Byte := 0xb0

def getOffPre31 (pre31 : Word) : Word := (pre31 <<< 1).sshiftRight 1

/-- What `buf[nbuf++] = w >> k` stores. -/
def byteAt (w : Word) (k : Nat) : Byte := (w >>> k).setWidth 8

/-- The loop over the `nAddInsn` additional words. -/
def extractWords (mem : Mem) (tblEntryAddr : Word) : Nat → List Byte
  | 0 => []
  | n + 1 =>
    let extalValue := mem tblEntryAddr
    [byteAt extalValue 24, byteAt extalValue 16, byteAt extalValue 8, byteAt extalValue 0] ++
      extractWords mem (tblEntryAddr + 4) n

/-- The returned number, every byte written to `buf`, and the cursor. -/
structure Extracted where
  ret : Int
  buf : List Byte
  cursor : TCursor

/-- The common end: a finish is appended unless the last byte is one. -/
def terminated (buf : List Byte) : List Byte :=
  if buf ≠ [] ∧ buf.getLast? ≠ some armExtblOpFinish then buf ++ [armExtblOpFinish] else buf

def extracted (buf : List Byte) (c : TCursor) : Extracted :=
  ⟨(terminated buf).length, terminated buf, c⟩

/-- The entry that `search_exidx_value` finds for the cursor, 0 for none. -/
def keyValueAddr (mem : Mem) (c : TCursor) : Word :=
  BitVec.ofInt 32 (ExidxTable.searchExidxValue mem c.baseAddr c.pcOffest c.exidxStartAddr.toNat
    c.exidxEndAddr.toNat).1

/-- `arm_exidx_extract`. -/
def armExidxExtract (copy : Copy) (mem : Mem) (c : TCursor) : Extracted :=
  if keyValueAddr mem c = 0 then ⟨0, [], { c with stepStatus := stepStop }⟩
  else
    let value := mem (keyValueAddr mem c + 4)
    if value = armExidxCantUnwind then
      match copy with
      | .crash => ⟨0, [], { c with stepStatus := stepStop }⟩
      | .memcheck => ⟨0, [], c⟩
    else if value &&& armExidxCompact ≠ 0 then
      extracted [byteAt value 16, byteAt value 8, byteAt value 0] c
    else
      let tblEntryAddr := keyValueAddr mem c + 4 + getOffPre31 value
      let extalValue := mem tblEntryAddr
      if extalValue &&& armExidxCompact ≠ 0 then
        let idx := (extalValue >>> 24) &&& 0x0f
        if idx = 1 ∨ idx = 2 then
          let nAddInsn := ((extalValue >>> 16) &&& 0xff).toNat
          extracted ([byteAt extalValue 8, byteAt extalValue 0] ++
            extractWords mem (tblEntryAddr + 4) nAddInsn) c
        else extracted [byteAt extalValue 16, byteAt extalValue 8, byteAt extalValue 0] c
      else
        match copy with
        | .crash =>
          let tblEntryAddr := tblEntryAddr + 4
          let extalValue := mem tblEntryAddr
          let nAddInsn := (extalValue >>> 24).toNat
          let nTmp := if nAddInsn > 3 then 3 else nAddInsn
          extracted ((List.range nTmp).map (fun i => byteAt extalValue (16 - i * 8)) ++
            extractWords mem (tblEntryAddr + 4) (nAddInsn - nTmp)) c
        | .memcheck =>
          let extalValue := mem (getOffPre31 extalValue + tblEntryAddr + 4)
          ⟨-1, [byteAt extalValue 16, byteAt extalValue 8, byteAt extalValue 0], c⟩

/-- `arm_exidx_step`. The length is passed on as a `uint8_t`. -/
def armExidxStep (copy : Copy) (wide : WideShift) (mem : Mem) (c : TCursor) :
    Except Fault (Int × TCursor) :=
  let r := armExidxExtract copy mem c
  let decoded : Except Fault (Int × TCursor) :=
    if 0 < r.ret then armExidxDecode wide mem (r.buf.take (BitVec.ofInt 8 r.ret).toNat) r.cursor
    else .ok (r.ret, r.cursor)
  match decoded with
  | .error e => .error e
  | .ok (ret, c) =>
    match copy with
    | .crash =>
      if c.stepStatus = stepStop then .ok (-3, c) else if ret = -1 then .ok (-1, c)
      else if c.stepStatus = stepPcLr then .ok (-2, c) else .ok (0, c)
    | .memcheck =>
      if c.stepStatus = stepStop ∨ ret = -1 then .ok (-1, c)
      else if c.stepStatus = stepPcLr then .ok (-2, c) else .ok (0, c)

/-- What the tables hold for a cursor: nothing to decode, three opcodes in one
word, or a first word and the address of the words after it. -/
inductive Content where
  | nothing
  | opcodes (w : Word)
  | long (w addr : Word)
  | generic (w addr : Word)

/-- How many whole words follow the first. -/
def Content.words : Content → Nat
  | .nothing => 0
  | .opcodes _ => 0
  | .long w _ => ((w >>> 16) &&& 0xff).toNat
  | .generic w _ => (w >>> 24).toNat - 3

/-- The instruction bytes the tables hold. -/
def Content.bytes (mem : Mem) : Content → List Byte
  | .nothing => []
  | .opcodes w => [byteAt w 16, byteAt w 8, byteAt w 0]
  | .long w addr => [byteAt w 8, byteAt w 0] ++ extractWords mem addr (Content.long w addr).words
  | .generic w addr => [byteAt w 16, byteAt w 8, byteAt w 0].take (w >>> 24).toNat ++
      extractWords mem addr (Content.generic w addr).words

/-- The entry found for the cursor and the table it points to. Libmemcheck gives
the generic model up. -/
def content (copy : Copy) (mem : Mem) (c : TCursor) : Content :=
  let value := mem (keyValueAddr mem c + 4)
  let tblEntryAddr := keyValueAddr mem c + 4 + getOffPre31 value
  let extalValue := mem tblEntryAddr
  if keyValueAddr mem c = 0 ∨ value = armExidxCantUnwind then .nothing
  else if value &&& armExidxCompact ≠ 0 then .opcodes value
  else if extalValue &&& armExidxCompact ≠ 0 then
    if (extalValue >>> 24) &&& 0x0f = 1 ∨ (extalValue >>> 24) &&& 0x0f = 2 then
      .long extalValue (tblEntryAddr + 4)
    else .opcodes extalValue
  else
    match copy with
    | .crash => .generic (mem (tblEntryAddr + 4)) (tblEntryAddr + 4 + 4)
    | .memcheck => .nothing

/-- Reading instructions from the front meets a uleb128 operand that does not
end before the bytes do. -/
inductive RunsOff : List Byte → Prop where
  | here {bs} (h : ∀ b ∈ bs, 128 ≤ b.toNat) : RunsOff (0xb2#8 :: bs)
  | later {bs i rest} (h : EhabiTable.parse bs = some (i, rest)) (ht : i.terminal = false)
      (hr : RunsOff rest) : RunsOff bs

/-- The buffer is large enough, the length fits a byte, and no operand is read
behind the bytes extracted. -/
def StepSafe (copy : Copy) (mem : Mem) (c : TCursor) : Prop :=
  (armExidxExtract copy mem c).buf.length ≤ 32 ∧ (armExidxExtract copy mem c).ret ≤ 255 ∧
    armExidxStep copy .zero mem c ≠ .error .readPastEnd

theorem extractWords_length (mem : Mem) (a : Word) (n : Nat) :
    (extractWords mem a n).length = 4 * n := by
  induction n generalizing a with
  | zero => rfl
  | succ n ih =>
    simp only [extractWords, List.length_append, List.length_cons, List.length_nil, ih]
    omega

/-- The generic loop over at most three bytes is a prefix of the word's bytes. -/
theorem genericBytes_eq (w : Word) (n : Nat) :
    (List.range (if n > 3 then 3 else n)).map (fun i => byteAt w (16 - i * 8)) =
      [byteAt w 16, byteAt w 8, byteAt w 0].take n := by
  rcases (by omega : n = 0 ∨ n = 1 ∨ n = 2 ∨ 3 ≤ n) with rfl | rfl | rfl | h
  · rfl
  · rfl
  · rfl
  · have hn : (if n > 3 then 3 else n) = 3 := by split <;> omega
    rw [hn, List.take_of_length_le (by simpa using h)]
    rfl

/-- Extraction writes the table's bytes and ends them, or gives up. -/
theorem armExidxExtract_content (copy : Copy) (mem : Mem) (c : TCursor) :
    (content copy mem c = .nothing ∧ (armExidxExtract copy mem c).buf.length ≤ 3 ∧
      (armExidxExtract copy mem c).ret ≤ 0) ∨
    armExidxExtract copy mem c = extracted ((content copy mem c).bytes mem) c := by
  unfold armExidxExtract content
  by_cases h₁ : keyValueAddr mem c = 0
  · rw [if_pos h₁, if_pos (.inl h₁)]
    exact .inl ⟨rfl, by simp, le_rfl⟩
  rw [if_neg h₁]
  by_cases h₂ : mem (keyValueAddr mem c + 4) = armExidxCantUnwind
  · simp only [h₂, if_true, or_true]
    left
    cases copy <;> exact ⟨trivial, by simp, le_rfl⟩
  simp only [h₁, h₂, if_false, or_self]
  by_cases h₃ : mem (keyValueAddr mem c + 4) &&& armExidxCompact ≠ 0
  · rw [if_pos h₃, if_pos h₃]
    exact .inr rfl
  rw [if_neg h₃, if_neg h₃]
  generalize keyValueAddr mem c + 4 + getOffPre31 (mem (keyValueAddr mem c + 4)) = addr
  by_cases h₄ : mem addr &&& armExidxCompact ≠ 0
  · rw [if_pos h₄, if_pos h₄]
    by_cases h₅ : (mem addr >>> 24) &&& 0x0f = 1 ∨ (mem addr >>> 24) &&& 0x0f = 2
    · rw [if_pos h₅, if_pos h₅]
      exact .inr rfl
    · rw [if_neg h₅, if_neg h₅]
      exact .inr rfl
  rw [if_neg h₄, if_neg h₄]
  cases copy with
  | memcheck => exact .inl ⟨rfl, by simp, by simp⟩
  | crash =>
    right
    simp only [Content.bytes, Content.words, genericBytes_eq]
    congr 3
    split <;> omega

/-- What is decoded is empty or ends with a finish. -/
theorem terminated_last (buf : List Byte) :
    terminated buf = [] ∨ (terminated buf).getLast? = some armExtblOpFinish := by
  rw [terminated]
  by_cases h : buf ≠ [] ∧ buf.getLast? ≠ some armExtblOpFinish
  · rw [if_pos h]
    right
    simp
  · rw [if_neg h]
    by_cases hnil : buf = []
    · exact .inl hnil
    · right
      by_contra hlast
      exact h ⟨hnil, hlast⟩

/-- Reading with a shift of any width defined, the operand loop stops where the
number does. -/
theorem readUleb_zero (buf : List Byte) (offset : Word) (shift : Byte) :
    (Leb128.split buf = none → readUleb .zero offset shift buf = .error .readPastEnd) ∧
    ∀ operand rest, Leb128.split buf = some (operand, rest) →
      ∃ v, readUleb .zero offset shift buf = .ok (v, rest) := by
  induction buf generalizing offset shift with
  | nil => exact ⟨fun _ => rfl, fun operand rest h => by simp [Leb128.split] at h⟩
  | cons b bs ih =>
    have hno : ¬ (WideShift.zero = .undefined ∧ 32 ≤ shift.toNat) := by simp
    obtain ⟨hnone, hsome⟩ :=
      ih (offset ||| ((b &&& 0x7f#8).setWidth 32 <<< shift.toNat)) (shift + 7#8)
    rw [readUleb, if_neg hno]
    by_cases hb : b.toNat < 128
    · rw [Leb128.split_cons_last b bs hb, if_neg (by rw [and_80_ne_zero]; omega)]
      constructor
      · intro h
        cases h
      · intro operand rest h
        cases h
        exact ⟨_, rfl⟩
    · rw [Leb128.split_cons_more b bs hb, if_pos ((and_80_ne_zero b).mpr hb)]
      constructor
      · intro h
        exact hnone (Option.map_eq_none_iff.mp h)
      · intro operand rest h
        obtain ⟨p, hp, he⟩ := Option.map_eq_some_iff.mp h
        cases he
        exact hsome p.1 p.2 hp

theorem decodeOp_b2 (wide : WideShift) (buf : List Byte) : decodeOp wide (0xb2#8 :: buf) =
    match readUleb wide 0 0 buf with
    | .error e => .error e
    | .ok (offset, buf) => .ok (⟨.dataPop, offset * 4 + 0x204⟩, buf) := by
  simp only [decodeOp]
  rfl

/-- Only the uleb128 opcode depends on the shift. -/
theorem decodeOp_zero (op : Byte) (buf : List Byte) (h : op ≠ 0xb2#8) :
    decodeOp .zero (op :: buf) = decodeOp .undefined (op :: buf) := by
  simp only [decodeOp, if_neg h]

theorem decodeOp_shift (op : Byte) (buf : List Byte)
    (h : decodeOp .undefined (op :: buf) = .error .shiftPastWidth) : op = 0xb2#8 := by
  have hok : ∀ {e : ArmExbufData} {bs : List Byte},
      Except.ok (e, bs) = (Except.error .shiftPastWidth : Except Fault _) → op = 0xb2#8 := by
    intro e bs h
    cases h
  have hop2 : ∀ {f : Byte → ArmExbufData},
      readOp2 buf f = .error .shiftPastWidth → op = 0xb2#8 := by
    intro f h
    cases buf with
    | nil => cases h
    | cons b bs => cases h
  rw [decodeOp] at h
  refine ite_elim h (fun _ => hok) fun _ h => ?_
  refine ite_elim h (fun _ => hok) fun _ h => ?_
  refine ite_elim h (fun _ => hop2) fun _ h => ?_
  refine ite_elim h (fun _ h => ite_elim h (fun _ => hok) fun _ => hok) fun _ h => ?_
  refine ite_elim h (fun _ => hok) fun _ h => ?_
  refine ite_elim h (fun _ => hok) fun _ h => ?_
  refine ite_elim h (fun _ => hop2) fun _ h => ?_
  refine ite_elim h (fun hop _ => hop) fun _ h => ?_
  refine ite_elim h (fun _ => hop2) fun _ h => ?_
  refine ite_elim h (fun _ => hok) fun _ h => ?_
  refine ite_elim h (fun _ => hok) fun _ h => ?_
  refine ite_elim h (fun _ => hop2) fun _ h => ?_
  exact ite_elim h (fun _ => hop2) fun _ => hok

def isUleb : EhabiTable.Form → Bool
  | .uleb => true
  | _ => false

theorem form_uleb (op : Byte) : isUleb (EhabiTable.form op) = decide (op = 0xb2#8) := by
  revert op
  decide

theorem parse_b2 (buf : List Byte) : EhabiTable.parse (0xb2#8 :: buf) =
    (Leb128.split buf).map fun p => (.addVspLong p.1, p.2) := rfl

/-- Operands are complete before a finish byte, but for a number that runs off. -/
theorem parse_none {op : Byte} {buf : List Byte}
    (hlast : (op :: buf).getLast? = some armExtblOpFinish)
    (h : EhabiTable.parse (op :: buf) = none) : op = 0xb2#8 ∧ Leb128.split buf = none := by
  rw [EhabiTable.parse] at h
  cases hf : EhabiTable.form op with
  | plain i =>
    rw [hf] at h
    cases h
  | operand f =>
    rw [hf] at h
    cases buf with
    | nil =>
      obtain rfl : op = armExtblOpFinish := by simpa using hlast
      cases hf
    | cons b bs => cases h
  | uleb =>
    have hop : op = 0xb2#8 := by
      have := form_uleb op
      rw [hf] at this
      exact of_decide_eq_true this.symm
    rw [hf] at h
    exact ⟨hop, Option.map_eq_none_iff.mp h⟩

theorem runsOff_iff_of_parse {bs rest : List Byte} {i : Insn}
    (h : EhabiTable.parse bs = some (i, rest)) :
    RunsOff bs ↔ i.terminal = false ∧ RunsOff rest := by
  constructor
  · rintro (⟨hhigh⟩ | ⟨h', ht, hr⟩)
    · rw [parse_b2, (Leb128.split_eq_none_iff _).mpr hhigh] at h
      cases h
    · rw [h] at h'
      cases h'
      exact ⟨ht, hr⟩
  · rintro ⟨ht, hr⟩
    exact .later h ht hr

theorem last_of_suffix {bs rest : List Byte} {b : Byte} (h : rest <:+ bs)
    (hlast : bs.getLast? = some b) :
    rest = [] ∨ rest.getLast? = some b := by
  obtain ⟨used, rfl⟩ := h
  rcases List.eq_nil_or_concat rest with rfl | ⟨init, last, rfl⟩
  · exact .inl rfl
  · right
    simpa using hlast

theorem apply_continues (mem : Mem) {i : Insn} {e : ArmExbufData} (c : TCursor) (hc : Codes i e)
    (hr : i.refuses = false) : (armExidxApplyCmd mem e c).1 = 0 := by
  have hcmd : e.cmd ≠ .refused ∧ e.cmd ≠ .reserved := by
    cases i <;> simp [EhabiTable.Insn.refuses] at hr <;> simp only [Codes] at hc <;> grind
  rw [armExidxApplyCmd]
  cases hcase : e.cmd <;> simp only
  · split <;> rfl
  · exact absurd hcase hcmd.2
  · exact absurd hcase hcmd.1

/-- The interpreter reads behind the bytes exactly when an operand runs off. -/
theorem armExidxDecode_runsOff (mem : Mem) (bs : List Byte) (c : TCursor)
    (hlast : bs = [] ∨ bs.getLast? = some armExtblOpFinish) :
    armExidxDecode .zero mem bs c = .error .readPastEnd ↔ RunsOff bs := by
  induction hn : bs.length using Nat.strong_induction_on generalizing bs c with
  | _ n ih =>
    cases bs with
    | nil =>
      rw [armExidxDecode]
      constructor
      · intro h
        cases h
      · rintro (_ | ⟨h, -, -⟩)
        cases h
    | cons op buf =>
      have hlast := hlast.resolve_left (List.cons_ne_nil _ _)
      cases hp : EhabiTable.parse (op :: buf) with
      | none =>
        obtain ⟨rfl, hsplit⟩ := parse_none hlast hp
        have hturn : decodeOp .zero (0xb2#8 :: buf) = .error .readPastEnd := by
          rw [decodeOp_b2, (readUleb_zero buf 0 0).1 hsplit]
        rw [armExidxDecode_fault mem c hturn]
        exact iff_of_true rfl (.here ((Leb128.split_eq_none_iff buf).mp hsplit))
      | some p =>
        obtain ⟨i, rest⟩ := p
        obtain ⟨used, hused, -⟩ := EhabiTable.parse_local hp
        have hsuffix : rest <:+ op :: buf := ⟨used, hused.symm⟩
        have hrest := last_of_suffix hsuffix hlast
        rw [runsOff_iff_of_parse hp]
        by_cases hop : op = 0xb2#8
        · subst hop
          rw [parse_b2] at hp
          obtain ⟨⟨operand, rest'⟩, hsplit, he⟩ := Option.map_eq_some_iff.mp hp
          cases he
          obtain ⟨v, hv⟩ := (readUleb_zero buf 0 0).2 operand _ hsplit
          have hturn : decodeOp .zero (0xb2#8 :: buf) = .ok (⟨.dataPop, v * 4 + 0x204⟩, rest') := by
            rw [decodeOp_b2, hv]
          have hlen := (decodeOp_suffix hturn).length_le
          rw [armExidxDecode_turn mem c hturn, if_neg (by simp [armExidxApplyCmd])]
          rw [ih rest'.length (by rw [← hn, List.length_cons]; omega) rest' _ hrest rfl]
          exact ⟨fun h => ⟨rfl, h⟩, fun h => h.2⟩
        · rcases decodeOp_parse hp with ⟨-, e, he, hc⟩ | ⟨-, he⟩
          · have hturn := (decodeOp_zero op buf hop).trans he
            rw [armExidxDecode_turn mem c hturn]
            cases ht : i.terminal with
            | true =>
              refine iff_of_false ?_ (by simp)
              by_cases hr : i.refuses = true
              · rw [apply_refuses mem c hc hr, if_pos (by simp)]
                intro h
                cases h
              · have hr : i.refuses = false := by simpa using hr
                rw [apply_continues mem c hc hr, if_neg (by decide),
                  after_of_terminal ht hr, armExidxDecode]
                intro h
                cases h
            | false =>
              have hr := refuses_of_not_terminal ht
              rw [apply_continues mem c hc hr, if_neg (by decide), after_of_not_terminal ht]
              rw [after_of_not_terminal ht] at hturn
              have hlen := (decodeOp_suffix hturn).length_le
              rw [ih rest.length (by rw [← hn, List.length_cons]; omega) rest _ hrest rfl]
              simp
          · exact absurd (decodeOp_shift op buf he) hop

/-- A finish behind the bytes neither ends a number nor starts one. -/
theorem runsOff_append_finish (bs : List Byte) :
    RunsOff (bs ++ [armExtblOpFinish]) ↔ RunsOff bs := by
  constructor
  · intro h
    generalize hl : bs ++ [armExtblOpFinish] = l at h
    induction h generalizing bs with
    | @here tail hhigh =>
      cases bs with
      | nil => cases hl
      | cons b bs =>
        cases hl
        exact .here fun b hb => hhigh b (List.mem_append_left _ hb)
    | @later l i rest h ht hr ih =>
      subst hl
      cases hp : EhabiTable.parse bs with
      | some p =>
        have h' := parse_append hp [armExtblOpFinish]
        rw [h] at h'
        cases h'
        exact .later hp ht (ih _ rfl)
      | none =>
        cases bs with
        | nil =>
          cases h
          cases ht
        | cons op buf =>
          rw [EhabiTable.parse] at hp
          rw [List.cons_append, EhabiTable.parse] at h
          cases hf : EhabiTable.form op with
          | plain j =>
            rw [hf] at hp
            cases hp
          | operand f =>
            rw [hf] at hp h
            cases buf with
            | nil =>
              cases h
              cases hr with
              | later h _ _ => cases h
            | cons b bs => cases hp
          | uleb =>
            have hop : op = 0xb2#8 := by
              have := form_uleb op
              rw [hf] at this
              exact of_decide_eq_true this.symm
            rw [hf] at hp
            rw [hop]
            exact .here ((Leb128.split_eq_none_iff buf).mp (Option.map_eq_none_iff.mp hp))
  · intro h
    induction h with
    | here hhigh =>
      refine .here fun b hb => ?_
      rcases List.mem_append.mp hb with hb | hb
      · exact hhigh b hb
      · rw [List.mem_singleton.mp hb]
        decide
    | later h ht hr ih => exact .later (parse_append h _) ht ih

theorem runsOff_terminated (bs : List Byte) : RunsOff (terminated bs) ↔ RunsOff bs := by
  rw [terminated]
  split
  · exact runsOff_append_finish bs
  · exact Iff.rfl

theorem Content.bytes_length (mem : Mem) (t : Content) :
    4 * t.words ≤ (t.bytes mem).length ∧ (t.bytes mem).length ≤ 4 * t.words + 3 ∧
      (0 < t.words → 4 * t.words < (t.bytes mem).length) := by
  cases t with
  | nothing => simp [Content.words, Content.bytes]
  | opcodes w => simp [Content.words, Content.bytes]
  | long w addr =>
    simp only [Content.bytes, List.length_append, extractWords_length,
      List.length_cons, List.length_nil]
    omega
  | generic w addr =>
    simp only [Content.bytes, List.length_append, extractWords_length,
      List.length_take, List.length_cons,
      List.length_nil, Content.words]
    omega

theorem terminated_length (buf : List Byte) :
    buf.length ≤ (terminated buf).length ∧ (terminated buf).length ≤ buf.length + 1 := by
  rw [terminated]
  split <;> simp

/-- A step faults exactly where the decoder does. -/
theorem armExidxStep_error (copy : Copy) (wide : WideShift) (mem : Mem) (c : TCursor) (e : Fault) :
    armExidxStep copy wide mem c = .error e ↔ 0 < (armExidxExtract copy mem c).ret ∧
      armExidxDecode wide mem ((armExidxExtract copy mem c).buf.take
        (BitVec.ofInt 8 (armExidxExtract copy mem c).ret).toNat)
          (armExidxExtract copy mem c).cursor =
          .error e := by
  rw [armExidxStep]
  generalize armExidxExtract copy mem c = r
  by_cases hret : 0 < r.ret
  · simp only [hret, if_true, true_and]
    generalize armExidxDecode wide mem _ r.cursor = d
    cases d with
    | error x => simp
    | ok v =>
      obtain ⟨ret, c'⟩ := v
      refine iff_of_false ?_ (by simp)
      simp only
      cases copy with
      | crash => simp only; split_ifs <;> simp
      | memcheck => simp only; split_ifs <;> simp
  · simp only [hret, if_false, false_and, iff_false]
    cases copy with
    | crash => split_ifs <;> simp
    | memcheck => split_ifs <;> simp

/-- A step stays in its buffer exactly when at most seven whole words follow the
first and no uleb128 operand that is reached runs off the bytes. -/
theorem stepSafe_iff (copy : Copy) (mem : Mem) (c : TCursor) :
    StepSafe copy mem c ↔
      (content copy mem c).words ≤ 7 ∧ ¬ RunsOff ((content copy mem c).bytes mem) := by
  rw [StepSafe, ne_eq, armExidxStep_error]
  rcases armExidxExtract_content copy mem c with ⟨hnothing, hlen, hret⟩ | hbytes
  · have hempty : ¬ RunsOff [] := by
      rintro (_ | ⟨h, -, -⟩)
      cases h
    rw [hnothing]
    refine iff_of_true ⟨by omega, by omega, fun h => ?_⟩ ⟨Nat.zero_le 7, hempty⟩
    exact absurd h.1 (by omega)
  · obtain ⟨hlow, hhigh, hpos⟩ := (content copy mem c).bytes_length mem
    obtain ⟨htlow, hthigh⟩ := terminated_length ((content copy mem c).bytes mem)
    rw [hbytes, ← runsOff_terminated ((content copy mem c).bytes mem)]
    simp only [extracted]
    generalize htb : terminated ((content copy mem c).bytes mem) = tb at htlow hthigh
    by_cases hwords : (content copy mem c).words ≤ 7
    · have hlen : (BitVec.ofInt 8 (tb.length : Int)).toNat = tb.length := by
        simp only [BitVec.toNat_ofInt]
        omega
      have hlast : tb = [] ∨ tb.getLast? = some armExtblOpFinish := htb ▸ terminated_last _
      have hdecode := armExidxDecode_runsOff mem tb c hlast
      rw [hlen, List.take_length, hdecode]
      constructor
      · rintro ⟨-, -, hsafe⟩
        refine ⟨hwords, fun hr => hsafe ⟨?_, hr⟩⟩
        have : tb ≠ [] := by
          rintro rfl
          rcases hr with _ | ⟨h, -, -⟩
          cases h
        have := List.length_pos_iff.mpr this
        omega
      · rintro ⟨-, hno⟩
        exact ⟨by omega, by omega, fun h => hno h.2⟩
    · constructor
      · rintro ⟨h, -, -⟩
        omega
      · rintro ⟨h, -⟩
        exact absurd h hwords

/-- Two entries at 0x1000; the first points to a long table of eight additional
words at 0x1104. -/
def eightWords : Mem := fun a =>
  if a = 0x1004#32 then 0x100#32 else if a = 0x1104#32 then 0x81080000#32 else 0#32

/-- A cursor whose pc lies in the first of these entries. -/
def eightWordsCursor : TCursor := ⟨fun _ => 0, 0x1000, 4, 0, 0x1000, 0x1008⟩

/-- Thirty-five bytes are written to the buffer of 32. -/
theorem stepSafe_eightWords :
    (armExidxExtract .crash eightWords eightWordsCursor).buf.length = 35 ∧
    (armExidxExtract .memcheck eightWords eightWordsCursor).buf.length = 35 ∧
    ¬ StepSafe .crash eightWords eightWordsCursor ∧
    ¬ StepSafe .memcheck eightWords eightWordsCursor := by
  have hfound : keyValueAddr eightWords eightWordsCursor = 0x1000#32 := by
    rw [keyValueAddr, ExidxTable.searchExidxValue, if_neg (by decide)]
    simp only
    rw [if_pos (by decide)]
    decide
  have hlen : ∀ copy, (armExidxExtract copy eightWords eightWordsCursor).buf.length = 35 := by
    intro copy
    unfold armExidxExtract
    rw [hfound]
    cases copy <;> decide
  refine ⟨hlen .crash, hlen .memcheck, fun h => ?_, fun h => ?_⟩
  · have := h.1
    rw [hlen] at this
    omega
  · have := h.1
    rw [hlen] at this
    omega

end ExidxExtract
