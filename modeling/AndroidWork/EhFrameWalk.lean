import AndroidWork.EhFrame
import AndroidWork.Placement

/-!
# The walk over .eh_frame

A section as records laid out one after the other and a terminator, the frame
description that covers a program counter and the common information it refers
to, and when the arm64 unwinder finds both: it decodes the first record as a CIE
and every other as an FDE of that CIE.
-/
namespace EhFrameWalk

open Leb128 (Byte)
open BitPacking (toBytes)
open EhFrame

/-- The length field of a record. -/
def lengthField (extended : Bool) (length : Nat) : List Byte :=
  if extended then toBytes 4 USE_EXTENDED_LENGTH ++ toBytes 8 length else toBytes 4 length

def headerSize (extended : Bool) : Nat := if extended then 12 else 4

/-- A LEB128 number and nothing else. -/
def IsLeb (operand : List Byte) : Prop := Leb128.split operand = some (operand, [])

/-- A CIE; `rest` holds its augmentation data, if any, and its instructions. -/
structure CieRecord where
  extended : Bool
  version : Byte
  augmentation : List Byte
  codeAlignment : List Byte
  dataAlignment : List Byte
  returnAddress : List Byte
  rest : List Byte
  text : ∀ b ∈ augmentation, b ≠ 0
  noData : ¬ [0x7a, 0x68] <:+: augmentation
  code : IsLeb codeAlignment
  data : IsLeb dataAlignment
  register : IsLeb returnAddress
  augmented : 0x7a ∈ augmentation → (Leb128.split rest).isSome

/-- An FDE: the distance back to its CIE, and the range of its program counters
as it is written, the begin relative to its own place. -/
structure FdeRecord where
  extended : Bool
  ciePointer : BitVec 32
  pcBegin : BitVec 32
  pcRange : BitVec 32
  rest : List Byte

def CieRecord.body (c : CieRecord) : List Byte :=
  toBytes 4 0 ++ ([c.version] ++ ((c.augmentation ++ [0]) ++
    (c.codeAlignment ++ (c.dataAlignment ++ (c.returnAddress ++ c.rest)))))

def FdeRecord.body (f : FdeRecord) : List Byte :=
  toBytes 4 f.ciePointer.toNat ++ (toBytes 4 f.pcBegin.toNat ++
    (toBytes 4 f.pcRange.toNat ++ f.rest))

inductive Record where
  | cie (c : CieRecord)
  | fde (f : FdeRecord)

def Record.extended : Record → Bool
  | .cie c => c.extended
  | .fde f => f.extended

def Record.body : Record → List Byte
  | .cie c => c.body
  | .fde f => f.body

def Record.size (r : Record) : Nat := headerSize r.extended + r.body.length

def Record.bytes (r : Record) : List Byte := lengthField r.extended r.body.length ++ r.body

/-- The section: its records and the terminator. -/
def sectionBytes (rs : List Record) : List Byte := rs.flatMap Record.bytes ++ toBytes 4 0

abbrev placed (rs : List Record) : List (Nat × Record) := Placement.placed Record.size 0 rs

/-- Where the terminator stands. -/
def sectionEnd (rs : List Record) : Nat := Placement.total Record.size rs

/-- The first program counter of an FDE at offset `p` of a section at `start`. -/
def FdeRecord.begin (f : FdeRecord) (start p : Nat) : Int :=
  (start + p + headerSize f.extended + 4 : Nat) + f.pcBegin.toInt

/-- The offset of the CIE that an FDE at offset `p` refers to. -/
def FdeRecord.cieAt (f : FdeRecord) (p : Nat) : Nat :=
  p + headerSize f.extended - f.ciePointer.toNat

/-- An FDE whose range holds the program counter. -/
def covers (start pc : Nat) : Nat × Record → Bool
  | (_, .cie _) => false
  | (p, .fde f) =>
    decide (f.begin start p ≤ (pc : Int) ∧ (pc : Int) < f.begin start p + (f.pcRange.toNat : Int))

/-- A section as a linker writes it: it lies in memory, a short length field is
not the mark of a long one, an FDE refers back to a CIE, and ranges lie within
the address space. -/
structure WellFormed (start : Nat) (rs : List Record) : Prop where
  fits : start + sectionEnd rs + 4 < 2 ^ 64
  short : ∀ r ∈ rs, r.extended = false → r.body.length < USE_EXTENDED_LENGTH
  refers : ∀ p f, (p, .fde f) ∈ placed rs → f.ciePointer.toNat ≤
    p + headerSize f.extended ∧ f.cieAt p < p ∧
    ∃ c, (f.cieAt p, .cie c) ∈ placed rs
  ranges : ∀ p f, (p, .fde f) ∈ placed rs → 0 ≤ f.begin start p ∧
    f.begin start p + (f.pcRange.toNat : Int) < 2 ^ 64

/-- What the walk should come to: the FDE that covers the program counter with
its own CIE, or nothing; only FDEs and the terminator are decoded as FDEs. -/
def Meets (m : Memory) (rs : List Record) (pc : Nat) : Prop :=
  ∃ turns found decoded, step m pc turns = some (found, decoded) ∧
    (∀ off ∈ decoded, (∃ f, (off, .fde f) ∈ placed rs) ∨ off = sectionEnd rs) ∧
    match (placed rs).find? (covers m.start pc) with
    | none => found = .notFound
    | some (_, .cie _) => False
    | some (p, .fde f) =>
      ∃ cie fde, decodeCie m (f.cieAt p) = some cie ∧ decodeFde m p cie = some fde ∧
        found = .selected fde cie

/-- The records from offset `p` on that stand before the first that covers the
program counter. -/
def passed (start pc p : Nat) (rs : List Record) : List (Nat × Record) :=
  (Placement.placed Record.size p rs).takeWhile fun x => !covers start pc x

/-- The section has records, and up to the FDE sought, or to its end, no CIE but
the first. -/
def OneCie (start : Nat) (rs : List Record) (pc : Nat) : Prop :=
  rs ≠ [] ∧ ∀ p c, (p, .cie c) ∈ passed start pc 0 rs → p = 0

/-- The mapped bytes from an offset on. -/
structure At (m : Memory) (off : Nat) (bytes : List Byte) : Prop where
  mapped : off ≤ m.bytes.length
  drop : m.bytes.drop off = bytes

variable {m : Memory} {off : Nat} {x post : List Byte}

theorem At.add {n : Nat} (h : At m off (x ++ post)) (hn : x.length = n) : At m (off + n) post := by
  have hlength := congrArg List.length h.drop
  rw [List.length_drop, List.length_append, hn] at hlength
  have := h.mapped
  exact ⟨by omega, by rw [← List.drop_drop, h.drop, ← hn, List.drop_left]⟩

/-- Bytes that stand at an offset are read there. -/
theorem At.read {n : Nat} (h : At m off (x ++ post)) (hn : x.length = n) :
    m.read n off = some (BitPacking.bytesValue x) := by
  have hlength := congrArg List.length h.drop
  rw [List.length_drop, List.length_append, hn] at hlength
  have := h.mapped
  rw [Memory.read, if_pos (by omega), h.drop, ← hn, List.take_left]

theorem At.read_toBytes {n v : Nat} (h : At m off (toBytes n v ++ post)) (hv : v < 2 ^ (8 * n)) :
    m.read n off = some v := by
  rw [h.read (BitPacking.length_toBytes n v), BitPacking.bytesValue_toBytes, Nat.mod_eq_of_lt hv]

theorem length_lengthField (extended : Bool) (length : Nat) :
    (lengthField extended length).length = headerSize extended := by
  cases extended <;> simp [lengthField, headerSize, BitPacking.length_toBytes]

/-- The length of a record, from its length field. -/
theorem At.readLength {extended : Bool} {length : Nat}
    (h : At m off (lengthField extended length ++ post))
    (hshort : extended = false → length < USE_EXTENDED_LENGTH) (hlong : length < 2 ^ 64) :
    readLength m off = some (length, headerSize extended) := by
  cases extended with
  | false =>
    have hlt := hshort rfl
    simp only [USE_EXTENDED_LENGTH] at hlt
    simp only [EhFrame.readLength, h.read_toBytes (by omega), Option.bind_eq_bind, Option.bind_some,
      USE_EXTENDED_LENGTH]
    exact if_neg (by omega)
  | true =>
    simp only [lengthField, if_true, List.append_assoc] at h
    have hnext := (h.add (BitPacking.length_toBytes _ _)).read_toBytes (by omega)
    simp only [EhFrame.readLength, h.read_toBytes (by decide), hnext, Option.bind_eq_bind,
      Option.bind_some, if_true]
    rfl

theorem and_80_eq_zero (b : Byte) : b &&& 0x80 = 0 ↔ b.toNat < 128 := by
  revert b
  decide

/-- A loop that goes on while the top bit is set stops behind the number. -/
theorem loop_split {loop : BitVec 32 → Nat → List Byte → Option (BitVec 32 × Nat)}
    (hlast : ∀ value pos b buf, b &&& 0x80 = 0 → ∃ v, loop value pos (b :: buf) = some (v, pos + 1))
    (hmore : ∀ value pos b buf, b &&& 0x80 ≠ 0 → ∃ value', loop value pos (b :: buf) =
      loop value' (pos + 1) buf)
    {buf operand rest : List Byte} (h : Leb128.split buf = some (operand, rest))
    (value : BitVec 32) (pos : Nat) :
    ∃ v, loop value pos buf = some (v, pos + operand.length) := by
  induction buf generalizing operand value pos with
  | nil => cases h
  | cons b buf ih =>
    by_cases hb : b.toNat < 128
    · rw [Leb128.split_cons_last b buf hb] at h
      cases h
      exact hlast value pos b _ ((and_80_eq_zero b).mpr hb)
    · rw [Leb128.split_cons_more b buf hb] at h
      obtain ⟨⟨more, rest'⟩, hrest, he⟩ := Option.map_eq_some_iff.mp h
      cases he
      obtain ⟨value', hvalue⟩ := hmore value pos b buf fun h => hb ((and_80_eq_zero b).mp h)
      obtain ⟨v, hv⟩ := ih hrest value' (pos + 1)
      exact ⟨v, by rw [hvalue, hv]; simp only [List.length_cons]; congr 2; omega⟩

theorem readUlebLoop_split {buf operand rest : List Byte}
    (h : Leb128.split buf = some (operand, rest)) (value : BitVec 32)
    (pos : Nat) : ∃ v, readUlebLoop value pos buf = some (v, pos + operand.length) :=
  loop_split (fun _ _ _ _ h => ⟨_, if_pos h⟩) (fun _ _ _ _ h => ⟨_, if_neg h⟩) h value pos

theorem readLebLoop_split {buf operand rest : List Byte}
    (h : Leb128.split buf = some (operand, rest)) (value : BitVec 32)
    (pos : Nat) : ∃ v, readLebLoop value pos buf = some (v, pos + operand.length) :=
  loop_split (fun _ _ _ _ h => ⟨_, if_pos h⟩) (fun _ _ _ _ h => ⟨_, if_neg h⟩) h value pos

theorem cString_at {text : List Byte} (h : ∀ b ∈ text, b ≠ 0) (buf : List Byte) :
    cString ((text ++ [0]) ++ buf) = some text := by
  induction text with
  | nil => simp [cString]
  | cons b text ih =>
    rw [List.cons_append, List.cons_append, cString, if_neg (h b List.mem_cons_self),
      ih fun b' hb' => h b' (List.mem_cons_of_mem b hb')]
    rfl

theorem readUleb128_at {operand : List Byte} (h : At m off (operand ++ post))
    (hleb : IsLeb operand) :
    ∃ v, readUleb128 (m.bytes.drop off) = some (v, operand.length) := by
  obtain ⟨v, hv⟩ := readUlebLoop_split (Leb128.split_self hleb post) 0 0
  exact ⟨v, by rw [h.drop, readUleb128, hv, Nat.zero_add]⟩

theorem readLeb128_at {operand : List Byte} (h : At m off (operand ++ post))
    (hleb : IsLeb operand) :
    ∃ v, readLeb128 (m.bytes.drop off) = some (v, operand.length) := by
  obtain ⟨v, hv⟩ := readLebLoop_split (Leb128.split_self hleb post) 0 0
  exact ⟨v, by rw [h.drop, readLeb128, hv, Nat.zero_add]⟩

/-- A number whose end is known to stand somewhere. -/
theorem readUleb128_ends {operand rest buf : List Byte} (more : List Byte)
    (h : Leb128.split buf = some (operand, rest)) :
    ∃ v n, readUleb128 (buf ++ more) = some (v, n) := by
  obtain ⟨rfl, -⟩ := Leb128.split_eq_append h
  obtain ⟨v, hv⟩ := readUlebLoop_split (Leb128.split_self h (rest ++ more)) 0 0
  exact ⟨v, _, by rw [List.append_assoc, readUleb128, hv]⟩

/-- A decoded CIE: the size of the whole record. -/
theorem decodeCie_at {c : CieRecord} (h : At m off ((Record.cie c).bytes ++ post))
    (hshort : c.extended = false → c.body.length < USE_EXTENDED_LENGTH)
    (hlong : (Record.cie c).size < 2 ^ 64) :
    ∃ cie, decodeCie m off = some cie ∧ cie.totalLength = (Record.cie c).size := by
  have hbody : c.body.length < 2 ^ 64 := lt_of_le_of_lt (Nat.le_add_left _ _) hlong
  have hsize : (c.body.length + headerSize c.extended) % 2 ^ 64 = (Record.cie c).size := by
    rw [Nat.add_comm]
    exact Nat.mod_eq_of_lt hlong
  simp only [Record.bytes, Record.extended, Record.body, CieRecord.body,
    List.append_assoc _ _ post] at h
  have hlength := h.readLength hshort hbody
  have h1 := h.add (length_lengthField _ _)
  have h2 := h1.add (BitPacking.length_toBytes 4 0)
  have h3 := h2.add (n := 1) rfl
  have h4 := h3.add (n := c.augmentation.length + 1) (by rw [List.length_append]; rfl)
  obtain ⟨code, hcode⟩ := readUleb128_at h4 c.code
  have h5 := h4.add rfl
  obtain ⟨data, hdata⟩ := readLeb128_at h5 c.data
  have h6 := h5.add rfl
  obtain ⟨register, hregister⟩ := readUleb128_at h6 c.register
  have h7 := h6.add rfl
  have htext :=
    cString_at c.text (c.codeAlignment ++
      (c.dataAlignment ++ (c.returnAddress ++ (c.rest ++ post))))
  rw [← h3.drop] at htext
  have hnone : m.read 0 _ = some 0 := At.read (x := []) h4 rfl
  have hno : enDataSize c.augmentation = 0 := if_neg c.noData
  simp only [decodeCie, hlength, h1.read_toBytes (by decide), h2.read (n := 1) rfl, htext, hno,
    Nat.add_zero, hnone,
    hcode, hdata, hregister, Option.bind_eq_bind, Option.bind_some]
  by_cases hz : 0x7a ∈ c.augmentation
  · obtain ⟨⟨operand, rest⟩, hsplit⟩ := Option.isSome_iff_exists.mp (c.augmented hz)
    obtain ⟨v, n, hv⟩ := readUleb128_ends post hsplit
    rw [← h7.drop] at hv
    simp only [if_pos hz, hv, Option.bind_some]
    exact ⟨_, rfl, hsize⟩
  · simp only [if_neg hz]
    exact ⟨_, rfl, hsize⟩

/-- A decoded FDE: its length, the size of the whole record, and its range. -/
theorem decodeFde_at {f : FdeRecord} (cie : Cie) (h : At m off ((Record.fde f).bytes ++ post))
    (hshort : f.extended = false → f.body.length < USE_EXTENDED_LENGTH)
    (hlong : (Record.fde f).size < 2 ^ 64)
    (hends : ∃ b ∈ post, b.toNat < 128) : ∃ fde, decodeFde m off cie = some fde ∧ fde.length ≠ 0 ∧
      fde.totalLength = (Record.fde f).size ∧ fde.pcBegin = (f.begin m.start off % 2 ^ 64).toNat ∧
      fde.pcRange = f.pcRange.toNat := by
  have hbody : f.body.length < 2 ^ 64 := lt_of_le_of_lt (Nat.le_add_left _ _) hlong
  have hpos : f.body.length ≠ 0 := by
    simp [FdeRecord.body, BitPacking.length_toBytes]
  have hsize : (f.body.length + headerSize f.extended) % 2 ^ 64 = (Record.fde f).size := by
    rw [Nat.add_comm]
    exact Nat.mod_eq_of_lt hlong
  simp only [Record.bytes, Record.extended, Record.body, List.append_assoc] at h
  have hlength := h.readLength hshort hbody
  have h1 := h.add (length_lengthField _ _)
  simp only [FdeRecord.body, List.append_assoc] at h1
  have h2 := h1.add (BitPacking.length_toBytes 4 _)
  have h3 := h2.add (BitPacking.length_toBytes 4 _)
  have h4 := h3.add (BitPacking.length_toBytes 4 _)
  have hbegin : ((BitVec.ofNat 32 f.pcBegin.toNat).toInt +
      (m.start + (off + headerSize f.extended + 4) : Nat)) % 2 ^ 64 =
      f.begin m.start off % 2 ^ 64 := by
    rw [BitVec.ofNat_toNat, BitVec.setWidth_eq, FdeRecord.begin, Int.add_comm]
    simp only [Nat.add_assoc]
  simp only [decodeFde, hlength, if_neg hpos, h1.read_toBytes f.ciePointer.isLt,
    h2.read_toBytes f.pcBegin.isLt,
    h3.read_toBytes f.pcRange.isLt, hbegin, Option.bind_eq_bind, Option.bind_some]
  by_cases hz : cie.augmentation.head? = some 0x7a
  · obtain ⟨⟨operand, rest⟩, hsplit⟩ : ∃ p, Leb128.split (f.rest ++ post) = some p := by
      obtain ⟨b, hb, hlt⟩ := hends
      rw [← Option.isSome_iff_exists, Option.isSome_iff_ne_none, ne_eq, Leb128.split_eq_none_iff]
      intro hall
      have := hall b (List.mem_append_right _ hb)
      omega
    obtain ⟨v, n, hv⟩ := readUleb128_ends [] hsplit
    rw [List.append_nil, ← h4.drop] at hv
    simp only [if_pos hz, hv, Option.bind_some]
    exact ⟨_, rfl, hpos, hsize, rfl, rfl⟩
  · simp only [if_neg hz]
    exact ⟨_, rfl, hpos, hsize, rfl, rfl⟩

/-- The terminator. -/
theorem decodeFde_end (cie : Cie) (h : At m off (toBytes 4 0 ++ post)) :
    ∃ fde, decodeFde m off cie = some fde ∧ fde.length = 0 := by
  have hshort : At m off (lengthField false 0 ++ post) := h
  have hlength : readLength m off = some (0, 4) :=
    hshort.readLength (fun _ => by decide) (by decide)
  simp only [decodeFde, hlength, Option.bind_eq_bind, Option.bind_some, if_true]
  exact ⟨_, rfl, rfl⟩

theorem length_bytes (r : Record) : r.bytes.length = r.size := by
  rw [Record.bytes, List.length_append, length_lengthField, Record.size]

theorem size_pos (r : Record) : 0 < r.size := by
  cases h : r.extended <;> simp [Record.size, headerSize, h]

/-- What the code computes of a range is the range, where it lies in the address space. -/
theorem covered_iff {start p : Nat} {f : FdeRecord} {fde : Fde} (pc : Nat)
    (hbegin : fde.pcBegin = (f.begin start p % 2 ^ 64).toNat)
    (hrange : fde.pcRange = f.pcRange.toNat) (hlow : 0 ≤ f.begin start p)
    (hhigh : f.begin start p + (f.pcRange.toNat : Int) < 2 ^ 64) :
    (pc < (fde.pcBegin + fde.pcRange) % 2 ^ 64 ∧ pc ≥ fde.pcBegin) ↔
    covers start pc (p, .fde f) = true := by
  have hmod : f.begin start p % 2 ^ 64 = f.begin start p := Int.emod_eq_of_lt hlow (by omega)
  rw [hbegin, hrange, hmod, covers, decide_eq_true_eq, Nat.mod_eq_of_lt (by omega)]
  omega

/-- One turn of the loop at an FDE. -/
theorem stepLoop_fde {p pc turns : Nat} {f : FdeRecord} (cie : Cie)
    (h : At m p ((Record.fde f).bytes ++ post))
    (hshort : f.extended = false → f.body.length < USE_EXTENDED_LENGTH)
    (hfits : p + (Record.fde f).size < 2 ^ 64)
    (hends : ∃ b ∈ post, b.toNat < 128) (hlow : 0 ≤ f.begin m.start p)
    (hhigh : f.begin m.start p + (f.pcRange.toNat : Int) < 2 ^ 64) :
    ∃ fde, decodeFde m p cie = some fde ∧ stepLoop m pc cie (turns + 1) p =
      if covers m.start pc (p, .fde f) then some (.selected fde cie, [p])
      else (stepLoop m pc cie turns (p + (Record.fde f).size)).map fun r => (r.1, p :: r.2) := by
  obtain ⟨fde, hdecode, hlength, htotal, hbegin, hrange⟩ :=
    decodeFde_at cie h hshort (by omega) hends
  refine ⟨fde, hdecode, ?_⟩
  have hcovered := covered_iff pc hbegin hrange hlow hhigh
  simp only [stepLoop, hdecode, if_neg hlength, htotal, Nat.mod_eq_of_lt hfits]
  by_cases hc : covers m.start pc (p, .fde f) = true
  · rw [if_pos hc, if_pos (hcovered.mpr hc)]
  · rw [if_neg hc, if_neg (fun h => hc (hcovered.mp h))]

/-- The loop at the terminator. -/
theorem stepLoop_end {p pc turns : Nat} (cie : Cie) (h : At m p (toBytes 4 0 ++ post)) :
    stepLoop m pc cie (turns + 1) p = some (.notFound, [p]) := by
  obtain ⟨fde, hdecode, hlength⟩ := decodeFde_end cie h
  simp only [stepLoop, hdecode, if_pos hlength]

/-- A part of the section from an offset on, laid out, and its ranges. -/
structure Part (m : Memory) (p : Nat) (rs : List Record) (post : List Byte) : Prop where
  laid : At m p (rs.flatMap Record.bytes ++ (toBytes 4 0 ++ post))
  fits : p + Placement.total Record.size rs < 2 ^ 64
  short : ∀ r ∈ rs, r.extended = false → r.body.length < USE_EXTENDED_LENGTH
  ranges : ∀ q f, (q, .fde f) ∈ Placement.placed Record.size p rs →
    0 ≤ f.begin m.start q ∧ f.begin m.start q + (f.pcRange.toNat : Int) < 2 ^ 64

theorem Part.head {p : Nat} {r : Record} {rs : List Record} (h : Part m p (r :: rs) post) :
    At m p (r.bytes ++ (rs.flatMap Record.bytes ++ (toBytes 4 0 ++ post))) := by
  have := h.laid
  rwa [List.flatMap_cons, List.append_assoc] at this

theorem Part.tail {p : Nat} {r : Record} {rs : List Record} (h : Part m p (r :: rs) post) :
    Part m (p + r.size) rs post where
  laid := h.head.add (length_bytes r)
  fits := by
    have := h.fits
    simp only [Placement.total] at this
    omega
  short := fun r' hr' => h.short r' (List.mem_cons_of_mem r hr')
  ranges := fun q f hf => h.ranges q f (List.mem_cons_of_mem _ hf)

theorem Part.ends {p : Nat} {rs : List Record} (_ : Part m p rs post) :
    ∃ b ∈ rs.flatMap Record.bytes ++ (toBytes 4 0 ++ post), b.toNat < 128 :=
  ⟨0, List.mem_append_right _ (List.mem_append_left _ List.mem_cons_self), by decide⟩

theorem Part.loop {p : Nat} {f : FdeRecord} {rs : List Record} (cie : Cie)
    (h : Part m p (.fde f :: rs) post)
    (pc turns : Nat) :
    ∃ fde, decodeFde m p cie = some fde ∧ stepLoop m pc cie (turns + 1) p =
      if covers m.start pc (p, .fde f) then some (.selected fde cie, [p])
      else (stepLoop m pc cie turns (p + (Record.fde f).size)).map fun r => (r.1, p :: r.2) := by
  obtain ⟨hlow, hhigh⟩ := h.ranges p f List.mem_cons_self
  have hfits := h.fits
  simp only [Placement.total] at hfits
  exact stepLoop_fde cie h.head (h.short _ List.mem_cons_self) (by omega) h.tail.ends hlow hhigh

theorem passed_cons {start pc p : Nat} {r : Record} {rs : List Record}
    (h : ¬ covers start pc (p, r) = true) :
    passed start pc p (r :: rs) = (p, r) :: passed start pc (p + r.size) rs := by
  rw [passed, Placement.placed, List.takeWhile_cons_of_pos]
  · rfl
  · simpa using h

theorem passed_covers {start pc p : Nat} {r : Record} {rs : List Record}
    (h : covers start pc (p, r) = true) :
    passed start pc p (r :: rs) = [] := by
  rw [passed, Placement.placed, List.takeWhile_cons_of_neg]
  simpa using h

/-- Where no CIE stands on the way, the loop comes to the FDE that covers the
program counter, or to the terminator. -/
theorem Part.finds {p pc : Nat} {rs : List Record} (cie : Cie) (h : Part m p rs post)
    (hfdes : ∀ q c, (q, .cie c) ∉ passed m.start pc p rs) :
    ∃ turns found decoded, stepLoop m pc cie turns p = some (found, decoded) ∧
      (∀ off ∈ decoded, (∃ f, (off, .fde f) ∈ Placement.placed Record.size p rs) ∨
        off = p + Placement.total Record.size rs) ∧
      match (Placement.placed Record.size p rs).find? (covers m.start pc) with
      | none => found = .notFound
      | some (_, .cie _) => False
      | some (q, .fde _) => ∃ fde, decodeFde m q cie = some fde ∧ found = .selected fde cie := by
  induction rs generalizing p with
  | nil =>
    refine ⟨1, .notFound, [p], stepLoop_end cie h.laid, ?_, rfl⟩
    intro off hoff
    exact .inr (List.mem_singleton.mp hoff)
  | cons r rs ih =>
    cases r with
    | cie c =>
      refine absurd ?_ (hfdes p c)
      rw [passed_cons (by simp [covers])]
      exact List.mem_cons_self
    | fde f =>
      by_cases hc : covers m.start pc (p, .fde f) = true
      · obtain ⟨fde, hdecode, hloop⟩ := h.loop cie pc 0
        rw [if_pos hc] at hloop
        refine ⟨1, _, _, hloop, ?_, ?_⟩
        · intro off hoff
          obtain rfl := List.mem_singleton.mp hoff
          exact .inl ⟨f, List.mem_cons_self⟩
        · rw [Placement.placed, List.find?_cons_of_pos hc]
          exact ⟨fde, hdecode, rfl⟩
      · rw [passed_cons hc] at hfdes
        obtain ⟨turns, found, decoded, hrun, hdecoded, hfound⟩ :=
          ih h.tail fun q c hq => hfdes q c (List.mem_cons_of_mem _ hq)
        obtain ⟨fde, -, hloop⟩ := h.loop cie pc turns
        rw [if_neg hc, hrun] at hloop
        refine ⟨turns + 1, found, p :: decoded, hloop, ?_, ?_⟩
        · intro off hoff
          rcases List.mem_cons.mp hoff with rfl | hoff
          · exact .inl ⟨f, List.mem_cons_self⟩
          · rcases hdecoded off hoff with ⟨f', hf'⟩ | hoff
            · exact .inl ⟨f', List.mem_cons_of_mem _ hf'⟩
            · exact .inr (by rw [hoff, Placement.total, Nat.add_assoc])
        · rw [Placement.placed, List.find?_cons_of_neg hc]
          exact hfound

theorem stepLoop_head {p pc turns : Nat} {cie : Cie} {found : Found} {decoded : List Nat}
    (h : stepLoop m pc cie turns p = some (found, decoded)) : p ∈ decoded := by
  cases turns with
  | zero => cases h
  | succ turns =>
    rw [stepLoop] at h
    split at h
    · cases h
      exact List.mem_cons_self
    · split at h
      · cases h
        exact List.mem_cons_self
      · split at h
        · cases h
          exact List.mem_cons_self
        · obtain ⟨r, -, hr⟩ := Option.map_eq_some_iff.mp h
          cases hr
          exact List.mem_cons_self

/-- Where only offsets of a kind that no CIE stands at were decoded, no CIE stood on the way. -/
theorem Part.no_cie {ok : Nat → Prop} {p pc turns : Nat} {rs : List Record}
    {cie : Cie} {found : Found}
    {decoded : List Nat} (h : Part m p rs post)
    (hrun : stepLoop m pc cie turns p = some (found, decoded))
    (hdecoded : ∀ off ∈ decoded, ok off)
    (hno : ∀ q c, (q, .cie c) ∈ Placement.placed Record.size p rs → ¬ ok q) :
    ∀ q c, (q, .cie c) ∉ passed m.start pc p rs := by
  induction rs generalizing p turns decoded with
  | nil => nofun
  | cons r rs ih =>
    cases r with
    | cie c => exact absurd (hdecoded p (stepLoop_head hrun)) (hno p c List.mem_cons_self)
    | fde f =>
      intro q c hq
      by_cases hc : covers m.start pc (p, .fde f) = true
      · rw [passed_covers hc] at hq
        cases hq
      · cases turns with
        | zero => cases hrun
        | succ turns =>
          obtain ⟨fde, -, hloop⟩ := h.loop cie pc turns
          rw [if_neg hc, hrun] at hloop
          obtain ⟨⟨found', rest⟩, hrest, hr⟩ := Option.map_eq_some_iff.mp hloop.symm
          cases hr
          rw [passed_cons hc] at hq
          rcases List.mem_cons.mp hq with hq | hq
          · cases hq
          · exact ih h.tail hrest (fun off hoff => hdecoded off (List.mem_cons_of_mem _ hoff))
              (fun q c hq => hno q c (List.mem_cons_of_mem _ hq)) q c hq

/-- The first record of a section is a CIE. -/
theorem WellFormed.first {start : Nat} {r : Record} {rs : List Record}
    (h : WellFormed start (r :: rs)) : ∃ c, r = .cie c := by
  cases r with
  | cie c => exact ⟨c, rfl⟩
  | fde f =>
    have := (h.refers 0 f List.mem_cons_self).2.1
    omega

theorem WellFormed.part {start : Nat} {rs : List Record} (h : WellFormed start rs)
    (more : List Byte) :
    Part ⟨start, sectionBytes rs ++ more⟩ 0 rs more where
  laid := ⟨Nat.zero_le _, by rw [List.drop_zero, sectionBytes, List.append_assoc]⟩
  fits := by
    have := h.fits
    simp only [sectionEnd] at this
    omega
  short := h.short
  ranges := h.ranges

/-- Whatever is decoded as a CIE, its size is what its length field says. -/
theorem decodeCie_totalLength {cie : Cie} (h : decodeCie m off = some cie) :
    ∃ length header, readLength m off = some (length, header) ∧ cie.totalLength =
      (length + header) % 2 ^ 64 := by
  rw [decodeCie] at h
  obtain ⟨⟨length, header⟩, hlength, h⟩ := Option.bind_eq_some_iff.mp h
  refine ⟨length, header, hlength, ?_⟩
  obtain ⟨_, _, h⟩ := Option.bind_eq_some_iff.mp h
  obtain ⟨_, _, h⟩ := Option.bind_eq_some_iff.mp h
  obtain ⟨_, _, h⟩ := Option.bind_eq_some_iff.mp h
  obtain ⟨_, _, h⟩ := Option.bind_eq_some_iff.mp h
  obtain ⟨⟨_, _⟩, _, h⟩ := Option.bind_eq_some_iff.mp h
  obtain ⟨⟨_, _⟩, _, h⟩ := Option.bind_eq_some_iff.mp h
  obtain ⟨⟨_, _⟩, _, h⟩ := Option.bind_eq_some_iff.mp h
  dsimp only at h
  split at h
  · obtain ⟨⟨_, _⟩, _, h⟩ := Option.bind_eq_some_iff.mp h
    cases h
    rfl
  · cases h
    rfl

/-- An empty section: the terminator is taken for a CIE, and what is behind it for an FDE. -/
theorem not_meets_nil {start pc : Nat} (more : List Byte) :
    ¬ Meets ⟨start, sectionBytes [] ++ more⟩ [] pc := by
  rintro ⟨turns, found, decoded, hstep, hdecoded, rfl⟩
  rw [step] at hstep
  cases hcie : decodeCie ⟨start, sectionBytes [] ++ more⟩ 0 with
  | none =>
    rw [hcie] at hstep
    cases hstep
  | some cie =>
    rw [hcie] at hstep
    obtain ⟨length, header, hlength, htotal⟩ := decodeCie_totalLength hcie
    have hat : At ⟨start, sectionBytes [] ++ more⟩ 0 (lengthField false 0 ++ more) :=
      ⟨Nat.zero_le _, rfl⟩
    rw [hat.readLength (fun _ => by decide) (by decide)] at hlength
    cases hlength
    rcases hdecoded _ (stepLoop_head hstep) with ⟨f, hf⟩ | hend
    · cases hf
    · rw [htotal] at hend
      cases hend

/-- The first CIE of a section, decoded, and what stands behind it. -/
theorem WellFormed.second {start : Nat} {c : CieRecord} {rs : List Record}
    (h : WellFormed start (.cie c :: rs))
    (more : List Byte) (pc : Nat) :
    ∃ cie, decodeCie ⟨start, sectionBytes (.cie c :: rs) ++ more⟩ 0 = some cie ∧
      0 < cie.totalLength ∧
      Part ⟨start, sectionBytes (.cie c :: rs) ++ more⟩ cie.totalLength rs more ∧
      passed start pc 0 (.cie c :: rs) = (0, .cie c) :: passed start pc cie.totalLength rs ∧
      placed (.cie c :: rs) = (0, .cie c) :: Placement.placed Record.size cie.totalLength rs ∧
      sectionEnd (.cie c :: rs) = cie.totalLength + Placement.total Record.size rs := by
  have hpart := h.part more
  have hfits := hpart.fits
  simp only [Placement.total] at hfits
  obtain ⟨cie, hcie, htotal⟩ := decodeCie_at hpart.head (h.short _ List.mem_cons_self) (by omega)
  have htail := hpart.tail
  rw [Nat.zero_add, ← htotal] at htail
  refine ⟨cie, hcie, htotal ▸ size_pos _, htail, ?_, ?_, ?_⟩
  · rw [passed_cons (by simp [covers]), Nat.zero_add, htotal]
  · rw [placed, Placement.placed, Nat.zero_add, htotal]
  · rw [sectionEnd, Placement.total, htotal]

theorem WellFormed.oneCie {start pc : Nat} {rs : List Record} {more : List Byte}
    (h : WellFormed start rs)
    (hmeets : Meets ⟨start, sectionBytes rs ++ more⟩ rs pc) : OneCie start rs pc := by
  cases rs with
  | nil => exact absurd hmeets (not_meets_nil more)
  | cons r rs =>
    obtain ⟨c, rfl⟩ := h.first
    obtain ⟨cie, hcie, -, htail, hpassed, hplaced, hsize⟩ := h.second more pc
    obtain ⟨turns, found, decoded, hrun, hdecoded, -⟩ := hmeets
    simp only [step, hcie] at hrun
    refine ⟨List.cons_ne_nil _ _, fun p c' hp => ?_⟩
    rw [hpassed] at hp
    rcases List.mem_cons.mp hp with hp | hp
    · exact congrArg Prod.fst hp
    · refine absurd hp (htail.no_cie hrun hdecoded ?_ p c')
      rintro q c' hq (⟨f, hf⟩ | hend)
      · -- a CIE and an FDE at one offset
        have hq' : (q, Record.cie c') ∈ placed (.cie c :: rs) := by
          rw [hplaced]
          exact List.mem_cons_of_mem _ hq
        cases Placement.placed_unique size_pos hq' hf
      · have hroom := (Placement.placed_bounds hq).2
        have hpos := size_pos (.cie c')
        omega

theorem WellFormed.meets {start pc : Nat} {rs : List Record} (h : WellFormed start rs)
    (more : List Byte)
    (hone : OneCie start rs pc) : Meets ⟨start, sectionBytes rs ++ more⟩ rs pc := by
  cases rs with
  | nil => exact absurd rfl hone.1
  | cons r rs =>
    obtain ⟨c, rfl⟩ := h.first
    obtain ⟨cie, hcie, hpos, htail, hpassed, hplaced, hsize⟩ := h.second more pc
    have hzero := hone.2
    rw [hpassed] at hzero
    have hno : ∀ q c', (q, .cie c') ∉ passed start pc cie.totalLength rs := by
      intro q c' hq
      have hlow := (Placement.placed_bounds ((List.takeWhile_prefix _).subset hq)).1
      have := hzero q c' (List.mem_cons_of_mem _ hq)
      omega
    obtain ⟨turns, found, decoded, hrun, hdecoded, hfound⟩ := htail.finds cie hno
    refine ⟨turns, found, decoded, by simp only [step, hcie, hrun], ?_, ?_⟩
    · intro off hoff
      rcases hdecoded off hoff with ⟨f, hf⟩ | hend
      · exact .inl ⟨f, by rw [hplaced]; exact List.mem_cons_of_mem _ hf⟩
      · exact .inr (hend.trans hsize.symm)
    · have hfind : (placed (.cie c :: rs)).find? (covers start pc) =
          (Placement.placed Record.size cie.totalLength rs).find? (covers start pc) := by
        rw [hplaced, List.find?_cons_of_neg (by simp [covers])]
      rw [← hfind] at hfound
      split
      · rename_i hnone
        rwa [hnone] at hfound
      · rename_i p c' hsome
        rwa [hsome] at hfound
      · rename_i p f hsome
        rw [hsome] at hfound
        obtain ⟨fde, hfde, hfound⟩ := hfound
        -- the CIE it refers to was passed on the way
        obtain ⟨-, hlt, c', hc'⟩ := h.refers p f (List.mem_of_find?_eq_some hsome)
        have hmem : (f.cieAt p, Record.cie c') ∈ passed start pc 0 (.cie c :: rs) :=
          Placement.passed_of_lt hsome hc' hlt
        rw [hpassed] at hmem
        exact ⟨cie, fde, by rw [hzero _ c' hmem, hcie], hfde, hfound⟩

/-- The walk finds what it should exactly if it meets no second CIE on its way. -/
theorem step_meets_iff (start pc : Nat) (rs : List Record) (more : List Byte)
    (h : WellFormed start rs) :
    Meets ⟨start, sectionBytes rs ++ more⟩ rs pc ↔ OneCie start rs pc :=
  ⟨h.oneCie, h.meets more⟩

/-- A CIE with the augmentation `zR`, its return address in the link register. -/
def cieOf (dataAlignment : Byte) (h : dataAlignment.toNat < 128) : CieRecord where
  extended := false
  version := 1
  augmentation := [0x7a, 0x52]
  codeAlignment := [4]
  dataAlignment := [dataAlignment]
  returnAddress := [0x1e]
  rest := [1, 0x1b, 0x0c, 0x1f, 0, 0, 0, 0, 0]
  text := by decide
  noData := by decide
  code := Leb128.split_cons_last _ _ (by decide)
  data := Leb128.split_cons_last _ _ h
  register := Leb128.split_cons_last _ _ (by decide)
  augmented := fun _ => by decide

def fdeOf (ciePointer pcBegin pcRange : BitVec 32) : FdeRecord :=
  ⟨false, ciePointer, pcBegin, pcRange, [0, 0, 0, 0]⟩

/-- Two object files' worth of records, the range of the second behind that of the first. -/
def twoUnits : List Record :=
  [.cie (cieOf 0x78 (by decide)), .fde (fdeOf 28 4064 64), .cie (cieOf 0x7c (by decide)),
    .fde (fdeOf 28 4084 64)]

theorem wellFormed_twoUnits : WellFormed 4096 twoUnits where
  fits := by decide
  short := by
    intro r hr _
    fin_cases hr <;> decide
  refers := by
    intro p f hf
    simp only [placed, twoUnits, Placement.placed, List.mem_cons, List.not_mem_nil,
      or_false, reduceCtorEq,
      Prod.mk.injEq, and_false, false_or, Record.fde.injEq] at hf
    rcases hf with ⟨rfl, rfl⟩ | ⟨rfl, rfl⟩
    · exact ⟨by decide, by decide, cieOf 0x78 (by decide), List.mem_cons_self⟩
    · exact ⟨by decide, by decide, cieOf 0x7c (by decide),
        List.mem_cons_of_mem _ (List.mem_cons_of_mem _ List.mem_cons_self)⟩
  ranges := by
    intro p f hf
    simp only [placed, twoUnits, Placement.placed, List.mem_cons, List.not_mem_nil,
      or_false, reduceCtorEq,
      Prod.mk.injEq, and_false, false_or, Record.fde.injEq] at hf
    rcases hf with ⟨rfl, rfl⟩ | ⟨rfl, rfl⟩
    · exact ⟨by decide, by decide⟩
    · exact ⟨by decide, by decide⟩

/-- A program counter of the first unit: the walk never comes to the second. -/
theorem step_meets_iff_firstUnit : Meets ⟨4096, sectionBytes twoUnits ++ []⟩ twoUnits 8200 := by
  refine (step_meets_iff 4096 8200 twoUnits [] wellFormed_twoUnits).mpr ⟨by simp [twoUnits], ?_⟩
  intro p c hp
  rw [twoUnits, passed_cons (by decide), passed_covers (by decide)] at hp
  exact congrArg Prod.fst (List.mem_singleton.mp hp)

/-- One of the second unit: its CIE is decoded as an FDE on the way. -/
theorem not_meets_secondUnit : WellFormed 4096 twoUnits ∧
    ¬ Meets ⟨4096, sectionBytes twoUnits⟩ twoUnits 8260 ∧
    (step ⟨4096, sectionBytes twoUnits⟩ 8260 3).map Prod.snd = some [24, 44, 68] := by
  refine ⟨wellFormed_twoUnits, fun hmeets => ?_, by decide +kernel⟩
  rw [← List.append_nil (sectionBytes twoUnits)] at hmeets
  have hone := (wellFormed_twoUnits.oneCie hmeets).2 44 (cieOf 0x7c (by decide))
  rw [twoUnits, passed_cons (by decide), passed_cons (by decide), passed_cons (by decide)] at hone
  exact absurd (hone (List.mem_cons_of_mem _ (List.mem_cons_of_mem _ List.mem_cons_self)))
    (by decide)

end EhFrameWalk
