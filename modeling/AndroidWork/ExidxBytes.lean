import AndroidWork.ExidxExtract

/-!
# What an index entry denotes

The four layouts of the EHABI as the ABI states them, the reading of a byte
list as instructions to its very end, and what the crash collector's
`arm_exidx_extract` makes of each layout.
-/
namespace ExidxBytes

open Leb128 (Byte)
open EhabiTable (Word Mem Insn Form parse)
open ExidxDecode (TCursor parse_append)
open ExidxExtract

/-- The bytes of a word, the most significant first. -/
def wordBytes (w : Word) : List Byte :=
  [w.extractLsb' 24 8, w.extractLsb' 16 8, w.extractLsb' 8 8, w.extractLsb' 0 8]

/-- The bytes of `n` words in a row. -/
def wordsFrom (mem : Mem) (addr : Word) (n : Nat) : List Byte :=
  (List.range n).flatMap fun i => wordBytes (mem (addr + BitVec.ofNat 32 (4 * i)))

/-- Where the 31-bit offset in a word at `place` leads. -/
def prel31 (place w : Word) : Word := place + (w.extractLsb' 0 31).signExtend 32

/-- How an entry holds its instructions. -/
inductive Layout where
  | inline (w : Word)
  | short (w : Word)
  | long (w table : Word)
  | generic (w table : Word)

/-- The layout of the index entry at an address: none for CANT_UNWIND and for
the personality numbers the ABI reserves. -/
def layout (mem : Mem) (entry : Word) : Option Layout :=
  let value := mem (entry + 4)
  let table := prel31 (entry + 4) value
  if value = armExidxCantUnwind then none
  else if value.msb then some (.inline value)
  else if (mem table).msb then
    let index := (mem table).extractLsb' 24 4
    if index = 0 then some (.short (mem table))
    else if index = 1 ∨ index = 2 then some (.long (mem table) table)
    else none
  else some (.generic (mem (table + 4)) table)

/-- The instruction bytes, in order. -/
def Layout.bytes (mem : Mem) : Layout → List Byte
  | .inline w => (wordBytes w).drop 1
  | .short w => (wordBytes w).drop 1
  | .long w table => (wordBytes w).drop 2 ++ wordsFrom mem (table + 4) (w.extractLsb' 16 8).toNat
  | .generic w table => (wordBytes w).drop 1 ++ wordsFrom mem (table + 8) (w.extractLsb' 24 8).toNat

def Layout.isGeneric : Layout → Bool
  | .generic _ _ => true
  | _ => false

/-- The bytes are these instructions, to the end. -/
inductive Reads : List Byte → List Insn → Prop where
  | nil : Reads [] []
  | cons {bs i rest is} (h : parse bs = some (i, rest)) (hs : Reads rest is) : Reads bs (i :: is)

/-- The last instruction is a finish. -/
def EndsWithFinish (bs : List Byte) : Prop := ∃ is, Reads bs (is ++ [.finish])

/-- The bytes, with a finish behind them unless their last instruction is one. -/
def Completes (bs buf : List Byte) : Prop :=
  EndsWithFinish buf ∧ (buf = bs ∨ ¬ EndsWithFinish bs ∧ buf = bs ++ [armExtblOpFinish])

/-- The returned length and buffer are those of the completed bytes. -/
def Returns (r : Extracted) (bs : List Byte) : Prop := r.ret = r.buf.length ∧ Completes bs r.buf

theorem byteAt_eq (w : Word) (k : Nat) : byteAt w k = w.extractLsb' k 8 := by
  ext i hi
  rw [byteAt, BitVec.getElem_setWidth, BitVec.getLsbD_ushiftRight, BitVec.getElem_extractLsb']

theorem wordsFrom_succ (mem : Mem) (addr : Word) (n : Nat) :
    wordsFrom mem addr (n + 1) = wordBytes (mem addr) ++ wordsFrom mem (addr + 4) n := by
  rw [wordsFrom, List.range_succ_eq_map, List.flatMap_cons, List.flatMap_map,
    Nat.mul_zero, wordsFrom]
  congr 2
  · exact congrArg mem (BitVec.add_zero addr)
  · funext i
    rw [Nat.mul_succ, Nat.add_comm, BitVec.ofNat_add, ← BitVec.add_assoc]
    rfl

/-- The loop over the additional words reads them in a row. -/
theorem extractWords_eq (mem : Mem) (addr : Word) (n : Nat) :
    extractWords mem addr n = wordsFrom mem addr n := by
  induction n generalizing addr with
  | zero => rfl
  | succ n ih =>
    rw [wordsFrom_succ, extractWords, ih]
    simp only [byteAt_eq, wordBytes]

/-- The two shifts sign-extend the low 31 bits. -/
theorem getOffPre31_eq (w : Word) : getOffPre31 w = (w.extractLsb' 0 31).signExtend 32 := by
  ext i hi
  rw [getOffPre31, BitVec.getElem_sshiftRight, BitVec.getElem_signExtend]
  by_cases h : i < 31
  · have h' : 1 + i < 32 := by omega
    simp [h, h', BitVec.getLsbD_eq_getElem hi]
  · obtain rfl : i = 31 := by omega
    simp [BitVec.msb_eq_getLsbD_last]

theorem compact_iff (w : Word) : w &&& armExidxCompact ≠ 0 ↔ w.msb = true := by
  have hbit : armExidxCompact = 1#32 <<< 31 := by decide
  rw [hbit, ExidxDecode.and_bit_ne_zero w 31 (by decide), BitVec.msb_eq_getLsbD_last]

theorem and_low (w : Word) (k : Nat) (hk : k < 32) :
    (w &&& BitVec.ofNat 32 (2 ^ k - 1)).toNat = w.toNat % 2 ^ k := by
  have hpow : 2 ^ k < 2 ^ 32 := Nat.pow_lt_pow_right (by decide) hk
  rw [BitVec.toNat_and, BitVec.toNat_ofNat, Nat.mod_eq_of_lt (by omega),
    Nat.and_two_pow_sub_one_eq_mod]

theorem index_toNat (w : Word) : ((w >>> 24) &&& 0x0f).toNat = (w.extractLsb' 24 4).toNat := by
  rw [BitVec.extractLsb'_toNat, ← BitVec.toNat_ushiftRight]
  exact and_low (w >>> 24) 4 (by decide)

theorem long_iff (w : Word) : (w >>> 24) &&& 0x0f = 1 ∨ (w >>> 24) &&& 0x0f = 2 ↔
    w.extractLsb' 24 4 = 1 ∨ w.extractLsb' 24 4 = 2 := by
  simp only [← BitVec.toNat_inj, index_toNat]
  rfl

theorem count_toNat (w : Word) : ((w >>> 16) &&& 0xff).toNat = (w.extractLsb' 16 8).toNat := by
  rw [BitVec.extractLsb'_toNat, ← BitVec.toNat_ushiftRight]
  exact and_low (w >>> 16) 8 (by decide)

theorem top_toNat (w : Word) : (w >>> 24).toNat = (w.extractLsb' 24 8).toNat := by
  have := w.isLt
  rw [BitVec.extractLsb'_toNat, BitVec.toNat_ushiftRight, Nat.shiftRight_eq_div_pow]
  omega

theorem drop_one (w : Word) : (wordBytes w).drop 1 = [byteAt w 16, byteAt w 8, byteAt w 0] := by
  simp only [byteAt_eq, wordBytes, List.drop_succ_cons, List.drop_zero]

theorem drop_two (w : Word) : (wordBytes w).drop 2 = [byteAt w 8, byteAt w 0] := by
  simp only [byteAt_eq, wordBytes, List.drop_succ_cons, List.drop_zero]

/-- Outside the generic layout the collector takes exactly the bytes denoted;
in the generic one, whose count it takes for a number of bytes, it never takes
as many. -/
theorem armExidxExtract_layout {mem : Mem} {c : TCursor} {l : Layout}
    (hfound : keyValueAddr mem c ≠ 0)
    (hl : layout mem (keyValueAddr mem c) = some l) :
    (l.isGeneric = false → armExidxExtract .crash mem c = extracted (l.bytes mem) c) ∧
    (l.isGeneric = true → (armExidxExtract .crash mem c).buf.length < (l.bytes mem).length) := by
  have hinline : ∀ w, extracted (Layout.bytes mem (.inline w)) c =
      extracted [byteAt w 16, byteAt w 8, byteAt w 0] c := by
    intro w
    rw [Layout.bytes, drop_one]
  unfold armExidxExtract
  rw [if_neg hfound]
  simp only [layout, prel31, ← getOffPre31_eq] at hl
  simp only [compact_iff, long_iff]
  generalize hv : mem (keyValueAddr mem c + 4) = value at hl ⊢
  generalize ht : keyValueAddr mem c + 4 + getOffPre31 value = table at hl ⊢
  by_cases hcant : value = armExidxCantUnwind
  · rw [if_pos hcant] at hl
    cases hl
  rw [if_neg hcant] at hl ⊢
  by_cases hmsb : value.msb = true
  · rw [if_pos hmsb] at hl ⊢
    cases hl
    exact ⟨fun _ => (hinline value).symm, fun h => by cases h⟩
  rw [if_neg hmsb] at hl ⊢
  by_cases hcompact : (mem table).msb = true
  · rw [if_pos hcompact] at hl ⊢
    by_cases hzero : (mem table).extractLsb' 24 4 = 0
    · rw [if_pos hzero] at hl
      cases hl
      rw [if_neg (by rw [hzero]; decide)]
      exact ⟨fun _ => (hinline (mem table)).symm, fun h => by cases h⟩
    rw [if_neg hzero] at hl
    by_cases hlong : (mem table).extractLsb' 24 4 = 1 ∨ (mem table).extractLsb' 24 4 = 2
    · rw [if_pos hlong] at hl ⊢
      cases hl
      refine ⟨fun _ => ?_, fun h => by cases h⟩
      rw [Layout.bytes, drop_two, extractWords_eq, count_toNat]
    · rw [if_neg hlong] at hl
      cases hl
  · rw [if_neg hcompact] at hl ⊢
    cases hl
    refine ⟨(fun h => by cases h), fun _ => ?_⟩
    simp only [extracted, Layout.bytes, drop_one, List.length_append, ← top_toNat,
      ← extractWords_eq,
      extractWords_length, List.length_cons, List.length_nil]
    generalize hn : (mem (table + 4) >>> 24).toNat = n
    have hterm := (terminated_length ((List.range (if n > 3 then 3 else n)).map
      (fun i => byteAt (mem (table + 4)) (16 - i * 8)) ++
        extractWords mem (table + 4 + 4) (n - if n > 3 then 3 else n))).2
    rw [List.length_append, List.length_map, List.length_range, extractWords_length] at hterm
    refine lt_of_le_of_lt hterm ?_
    split_ifs <;> omega

theorem Reads.append {bs more : List Byte} {is js : List Insn} (h : Reads bs is)
    (hm : Reads more js) :
    Reads (bs ++ more) (is ++ js) := by
  induction h with
  | nil => exact hm
  | cons h _ ih => exact .cons (parse_append h more) ih

/-- The instructions and the bytes behind them are determined. -/
theorem Reads.split {bs : List Byte} {is js : List Insn} (h : Reads bs (is ++ js)) :
    ∃ p more, bs = p ++ more ∧ Reads p is ∧ Reads more js := by
  induction is generalizing bs with
  | nil => exact ⟨[], bs, rfl, .nil, h⟩
  | cons i is ih =>
    cases h with
    | cons h hs =>
      obtain ⟨p, more, rfl, hp, hmore⟩ := ih hs
      obtain ⟨used, rfl, hused⟩ := EhabiTable.parse_local h
      exact ⟨used ++ p, more, (List.append_assoc ..).symm, .cons (hused p) hp, hmore⟩

def isFinish : Insn → Bool
  | .finish => true
  | _ => false

/-- An opcode of this form can be a finish. -/
def ReadsFinish : Form → Prop
  | .plain i => isFinish i = true
  | .operand f => ∃ c, isFinish (f c) = true
  | .uleb => False

instance : DecidablePred ReadsFinish
  | .plain i => inferInstanceAs (Decidable (isFinish i = true))
  | .operand f => inferInstanceAs (Decidable (∃ c, isFinish (f c) = true))
  | .uleb => inferInstanceAs (Decidable False)

theorem readsFinish_form (op : Byte) : ReadsFinish (EhabiTable.form op) ↔
    op = armExtblOpFinish := by
  revert op
  decide +kernel

/-- Only the byte 0xb0 is read as a finish. -/
theorem parse_finish {bs rest : List Byte} (h : parse bs = some (.finish, rest)) :
    bs = armExtblOpFinish :: rest := by
  cases bs with
  | nil => cases h
  | cons op buf =>
    have hop : ReadsFinish (EhabiTable.form op) := by
      rw [parse] at h
      cases hf : EhabiTable.form op with
      | plain i =>
        rw [hf] at h
        cases h
        rfl
      | operand f =>
        rw [hf] at h
        cases buf with
        | nil => cases h
        | cons c buf => exact ⟨c, by rw [(Prod.mk.inj (Option.some.inj h)).1]; rfl⟩
      | uleb =>
        rw [hf] at h
        obtain ⟨p, -, he⟩ := Option.map_eq_some_iff.mp h
        cases he
    rw [(readsFinish_form op).mp hop] at h ⊢
    cases h
    rfl

theorem reads_single_finish {bs : List Byte} : Reads bs [.finish] ↔ bs = [armExtblOpFinish] := by
  constructor
  · rintro (_ | ⟨h, hs⟩)
    cases hs
    exact parse_finish h
  · rintro rfl
    exact .cons (show parse [armExtblOpFinish] = some (.finish, []) from rfl) .nil

theorem endsWithFinish_iff (bs : List Byte) :
    EndsWithFinish bs ↔ ∃ p is, bs = p ++ [armExtblOpFinish] ∧ Reads p is := by
  constructor
  · rintro ⟨is, h⟩
    obtain ⟨p, more, rfl, hp, hmore⟩ := h.split
    exact ⟨p, is, by rw [reads_single_finish.mp hmore], hp⟩
  · rintro ⟨p, is, rfl, hp⟩
    exact ⟨is, hp.append (reads_single_finish.mpr rfl)⟩

/-- The bytes are whole instructions. -/
def Whole (bs : List Byte) : Prop := ∃ is, Reads bs is

theorem EndsWithFinish.last {bs : List Byte} (h : EndsWithFinish bs) :
    bs.getLast? = some armExtblOpFinish := by
  obtain ⟨p, is, rfl, -⟩ := (endsWithFinish_iff bs).mp h
  exact List.getLast?_concat

theorem EndsWithFinish.whole {bs : List Byte} (h : EndsWithFinish bs) : Whole bs := by
  obtain ⟨is, h⟩ := h
  exact ⟨_, h⟩

/-- The test on the last byte completes whole instructions, unless that byte is
an operand that equals a finish. -/
theorem completes_terminated_iff {bs : List Byte} (hne : bs ≠ []) : Completes bs (terminated bs) ↔
    Whole bs ∧ (bs.getLast? = some armExtblOpFinish → EndsWithFinish bs) := by
  by_cases hlast : bs.getLast? = some armExtblOpFinish
  · have hsame : terminated bs = bs := by
      rw [terminated, if_neg fun h => h.2 hlast]
    rw [hsame]
    constructor
    · rintro ⟨hends, -⟩
      exact ⟨hends.whole, fun _ => hends⟩
    · rintro ⟨-, hends⟩
      exact ⟨hends hlast, .inl rfl⟩
  · have hmore : terminated bs = bs ++ [armExtblOpFinish] := by
      rw [terminated, if_pos ⟨hne, hlast⟩]
    rw [hmore]
    constructor
    · rintro ⟨hends, -⟩
      obtain ⟨p, is, hp, hreads⟩ := (endsWithFinish_iff _).mp hends
      obtain rfl := List.append_cancel_right hp
      exact ⟨⟨is, hreads⟩, fun h => absurd h hlast⟩
    · rintro ⟨⟨is, hreads⟩, -⟩
      exact ⟨(endsWithFinish_iff _).mpr ⟨bs, is, rfl, hreads⟩, .inr ⟨fun h => hlast h.last, rfl⟩⟩

theorem Layout.bytes_ne_nil (mem : Mem) (l : Layout) : l.bytes mem ≠ [] := by
  cases l <;> simp [Layout.bytes, wordBytes]

/-- An entry and what it denotes, small enough for the buffer of 32 with the
finish. -/
def Denotes (mem : Mem) (entry : Word) (l : Layout) : Prop :=
  entry ≠ 0 ∧ layout mem entry = some l ∧ (l.bytes mem).length < 32

/-- The collector returns the instruction bytes, ended by a finish instruction,
exactly outside the generic layout, where they are whole instructions and a
last byte 0xb0 is not an operand. -/
theorem armExidxExtract_returns_iff (mem : Mem) (c : TCursor) (l : Layout)
    (h : Denotes mem (keyValueAddr mem c) l) :
    Returns (armExidxExtract .crash mem c) (l.bytes mem) ↔
      l.isGeneric = false ∧ Whole (l.bytes mem) ∧
        ((l.bytes mem).getLast? = some armExtblOpFinish → EndsWithFinish (l.bytes mem)) := by
  obtain ⟨hfound, hl, -⟩ := h
  obtain ⟨hplain, hgeneric⟩ := armExidxExtract_layout hfound hl
  cases hg : l.isGeneric with
  | false =>
    rw [hplain hg, Returns]
    simp only [extracted, true_and, completes_terminated_iff (l.bytes_ne_nil mem)]
  | true =>
    refine iff_of_false ?_ (by simp)
    rintro ⟨-, -, hbuf | ⟨-, hbuf⟩⟩
    · have := hgeneric hg
      rw [hbuf] at this
      exact lt_irrefl _ this
    · have := hgeneric hg
      rw [hbuf, List.length_append] at this
      omega

/-- The cursor's pc lies in the first of two entries with zero offsets. -/
theorem keyValueAddr_first {mem : Mem} (h₀ : mem 0xff8 = 0) (h₁ : mem 0x1000 = 0)
    (h₂ : mem 0x1008 = 0) :
    keyValueAddr mem eightWordsCursor = 0x1000#32 := by
  have hload : ExidxTable.load mem (0x1000 - 8) = 0 ∧ ExidxTable.load mem 0x1000 = 0 ∧
      ExidxTable.load mem (0x1000 + 8) = 0 := ⟨h₀, h₁, h₂⟩
  have hmid : (0x1000 : Int) + (0x1008 - 0x1000) / 8 / 2 * 8 = 0x1000 := by decide
  have hbounds : ((eightWordsCursor.exidxStartAddr.toNat : Nat) : Int) = 0x1000 ∧
      ((eightWordsCursor.exidxEndAddr.toNat : Nat) : Int) = 0x1008 := by decide
  rw [keyValueAddr, hbounds.1, hbounds.2, ExidxTable.searchExidxValue, if_neg (by decide)]
  simp only [hmid, ExidxTable.key, hload.1, hload.2.1, hload.2.2]
  rw [if_pos (by decide)]
  decide

/-- An index at 0x1000 whose first entry is inline: pop r4, r14, finish, finish. -/
def lrIndex : Mem := fun a => if a = 0x1004 then 0x80a8b0b0 else 0

theorem armExidxExtract_returns_lrIndex :
    Returns (armExidxExtract .crash lrIndex eightWordsCursor) [0xa8, 0xb0, 0xb0] := by
  have hkey : keyValueAddr lrIndex eightWordsCursor = 0x1000#32 := keyValueAddr_first rfl rfl rfl
  have hpop : ∃ i, parse [0xa8, 0xb0, 0xb0] = some (i, [0xb0, 0xb0]) := ⟨_, rfl⟩
  obtain ⟨i, hpop⟩ := hpop
  have hfinish : parse [0xb0, 0xb0] = some (.finish, [0xb0]) := rfl
  have hends : EndsWithFinish [0xa8, 0xb0, 0xb0] :=
    ⟨[i, .finish], .cons hpop (.cons hfinish (reads_single_finish.mpr rfl))⟩
  exact (armExidxExtract_returns_iff lrIndex eightWordsCursor (.inline 0x80a8b0b0)
    ⟨by rw [hkey]; decide, by rw [hkey]; rfl, by decide⟩).mpr ⟨rfl, hends.whole, fun _ => hends⟩

/-- An index at 0x1000 whose first entry is inline: vsp + 8, pop r8, r9, r11. -/
def popIndex : Mem := fun a => if a = 0x1004 then 0x800180b0 else 0

/-- An index at 0x1000 whose first entry points to a generic table at 0x1104:
pop r4, r14, finish, finish, and no word behind. -/
def genericIndex : Mem := fun a => if a = 0x1004 then
    0x100 else if a = 0x1108 then 0x00a8b0b0 else 0

/-- The pop of the one keeps its operand for a finish, and of the other nothing
is returned at all. -/
theorem armExidxExtract_returns_popIndex :
    (Denotes popIndex (keyValueAddr popIndex eightWordsCursor) (.inline 0x800180b0) ∧
      (armExidxExtract .crash popIndex eightWordsCursor).buf = [0x01, 0x80, 0xb0] ∧
      ¬ Returns (armExidxExtract .crash popIndex eightWordsCursor)
        ((Layout.inline 0x800180b0).bytes popIndex)) ∧
    (Denotes genericIndex (keyValueAddr genericIndex eightWordsCursor)
      (.generic 0x00a8b0b0 0x1104) ∧
      (armExidxExtract .crash genericIndex eightWordsCursor).buf = [] ∧
      ¬ Returns (armExidxExtract .crash genericIndex eightWordsCursor)
        ((Layout.generic 0x00a8b0b0 0x1104).bytes genericIndex)) := by
  have hpop : keyValueAddr popIndex eightWordsCursor = 0x1000#32 := keyValueAddr_first rfl rfl rfl
  have hgeneric : keyValueAddr genericIndex eightWordsCursor = 0x1000#32 :=
    keyValueAddr_first rfl rfl rfl
  have hpopBuf : (armExidxExtract .crash popIndex eightWordsCursor).buf = [0x01, 0x80, 0xb0] := by
    unfold armExidxExtract
    rw [hpop]
    decide
  have hgenericBuf : (armExidxExtract .crash genericIndex eightWordsCursor).buf = [] := by
    unfold armExidxExtract
    rw [hgeneric]
    decide
  refine ⟨⟨⟨by rw [hpop]; decide, by rw [hpop]; rfl, by decide⟩, hpopBuf, ?_⟩,
    ⟨by rw [hgeneric]; decide, by rw [hgeneric]; rfl, by decide⟩, hgenericBuf, ?_⟩
  · rintro ⟨-, hends, -⟩
    rw [hpopBuf] at hends
    obtain ⟨p, is, hp, hreads⟩ := (endsWithFinish_iff _).mp hends
    obtain rfl := List.append_cancel_right
      (show [0x01, 0x80] ++ [armExtblOpFinish] = p ++ [armExtblOpFinish] from hp)
    rcases hreads with _ | ⟨h, hs⟩
    cases h
    rcases hs with _ | ⟨h, -⟩
    cases h
  · rintro ⟨-, hends, -⟩
    rw [hgenericBuf] at hends
    cases hends.last

end ExidxBytes
