import AndroidWork.SortedRanges

/-!
# Readable memory

memcheck.cpp: `check_mem_readable` over the readable blocks of the memory map.
Addresses are words of the machine and lengths are `int`s.
-/
namespace MemCheck

open SortedRanges

/-- The processors that the library is built for. -/
inductive Abi where
  | arm
  | aarch64
  deriving DecidableEq, Repr

abbrev Abi.bits : Abi → Nat
  | .arm => 32
  | .aarch64 => 64

abbrev Addr (abi : Abi) := BitVec abi.bits
abbrev Byte := BitVec 8
abbrev Half := BitVec 16
abbrev Word := BitVec 32

/-- `t_pairMemory`, from `m_pStart` up to `m_pEnd`. -/
structure Block (abi : Abi) where
  m_pStart : Addr abi
  m_pEnd : Addr abi

variable {abi : Abi}

def half (m : Addr abi → Byte) (a : Addr abi) : Half := m (a + 1) ++ m a
def word (m : Addr abi → Byte) (a : Addr abi) : Word := half m (a + 2) ++ half m a

/-- The loop of `check_mem_readable`. -/
def checkBlocks : List (Block abi) → Addr abi → BitVec 32 → BitVec 32 → BitVec 32
  | [], _, _, nLen => nLen
  | block :: blocks, addr, len, nLen =>
    let start_addr := block.m_pStart
    let end_addr := block.m_pEnd
    if addr < start_addr then nLen
    else if addr < end_addr then
      if addr + len.signExtend abi.bits < end_addr then nLen + len
      else
        let last_addr := end_addr
        let len := (len.signExtend abi.bits - (end_addr - addr)).setWidth 32
        let addr := last_addr
        let nLen := nLen + (end_addr - addr).setWidth 32
        checkBlocks blocks addr len nLen
    else checkBlocks blocks addr len nLen

def check_mem_readable (g_memBlock : List (Block abi)) (addr : Addr abi)
    (len : BitVec 32) : BitVec 32 :=
  checkBlocks g_memBlock addr len 0

def IsReadable (g_memBlock : List (Block abi)) (addr : Addr abi)
    (size_in_byte : BitVec 32) : Bool :=
  0 < (check_mem_readable g_memBlock addr size_in_byte).toInt

def Block.range (b : Block abi) : Range := ⟨b.m_pStart.toNat, b.m_pEnd.toNat⟩

def ranges (blocks : List (Block abi)) : List Range := blocks.map Block.range

@[simp] theorem ranges_cons (b : Block abi) (blocks : List (Block abi)) :
    ranges (b :: blocks) = b.range :: ranges blocks := rfl

/-- How much of the range of `n` from `a` lies in the block it ends inside, if
the blocks before are adjacent. -/
def lastPart : List Range → Nat → Nat → Nat
  | [], _, _ => 0
  | r :: rs, a, n =>
    if a < r.start then 0
    else if a < r.stop then
      if a + n < r.stop then n else lastPart rs r.stop (n - (r.stop - a))
    else lastPart rs a n

theorem lastPart_block (b : Block abi) (rs : List Range) (a n : Nat) :
    lastPart (b.range :: rs) a n =
      if a < b.m_pStart.toNat then 0
      else if a < b.m_pEnd.toNat then
        if a + n < b.m_pEnd.toNat then n else lastPart rs b.m_pEnd.toNat (n - (b.m_pEnd.toNat - a))
      else lastPart rs a n := rfl

theorem lastPart_le (rs : List Range) (a n : Nat) : lastPart rs a n ≤ n := by
  induction rs generalizing a n with
  | nil => simp [lastPart]
  | cons r rs ih =>
    have := ih r.stop (n - (r.stop - a))
    have := ih a n
    rw [lastPart]
    split_ifs <;> omega

/-- A part is left over only when all of the range is covered. -/
theorem coversAll_of_lastPart_pos {rs : List Range} {a n : Nat} (hpos : 0 < lastPart rs a n) :
    CoversAll rs a n := by
  induction rs generalizing a n with
  | nil => simp [lastPart] at hpos
  | cons r rs ih =>
    rw [lastPart] at hpos
    by_cases hstart : a < r.start
    · simp [hstart] at hpos
    · by_cases hstop : a < r.stop
      · by_cases hinside : a + n < r.stop
        · exact (show r.Inside a n from ⟨by omega, hinside⟩).coversAll List.mem_cons_self
        · rw [if_neg hstart, if_pos hstop, if_neg hinside] at hpos
          exact coversAll_cross ⟨by omega, hstop⟩ (by omega) (ih hpos)
      · rw [if_neg hstart, if_neg hstop] at hpos
        exact (coversAll_cons_of_le (by omega)).mpr (ih hpos)

/-- The whole range counts exactly when it ends inside one block. -/
theorem lastPart_eq_iff {rs : List Range} (hsorted : Sorted rs) {a n : Nat} (hn : 0 < n) :
    lastPart rs a n = n ↔ ∃ r ∈ rs, r.Inside a n := by
  induction rs with
  | nil => simp [lastPart, hn.ne]
  | cons r rs ih =>
    have hlater : a < r.stop → ¬ ∃ s ∈ rs, s.Inside a n := by
      intro hlt ⟨s, hs, hinside⟩
      exact not_covers_of_lt hsorted hlt (hinside.coversAll hs |>.covers hn)
    rw [lastPart, List.exists_mem_cons_iff]
    by_cases hstart : a < r.start
    · have hstop := hsorted.1
      rw [if_pos hstart]
      refine iff_of_false (by omega) (not_or.mpr
        ⟨fun hinside => Nat.not_le.mpr hstart hinside.1, hlater (by omega)⟩)
    · by_cases hstop : a < r.stop
      · rw [if_neg hstart, if_pos hstop, or_iff_left (hlater hstop)]
        by_cases hinside : a + n < r.stop
        · rw [if_pos hinside]
          exact iff_of_true rfl ⟨by omega, hinside⟩
        · have hle := lastPart_le rs r.stop (n - (r.stop - a))
          rw [if_neg hinside]
          exact iff_of_false (by omega) fun h => hinside h.2
      · rw [if_neg hstart, if_neg hstop, ih hsorted.2.2, or_iff_right]
        exact fun h => hstop (by have := h.2; omega)

/-- Of a covered range nothing is left over exactly when a block ends with it. -/
theorem lastPart_pos_iff {rs : List Range} (hsorted : Sorted rs) {a n : Nat} (hn : 0 < n)
    (hcovers : CoversAll rs a n) :
    0 < lastPart rs a n ↔ ∀ r ∈ rs, r.stop ≠ a + n := by
  induction rs generalizing a n with
  | nil => exact absurd (hcovers.covers hn) (not_covers_nil a)
  | cons r rs ih =>
    obtain ⟨_, hlater, hrest⟩ := hsorted
    rw [lastPart, List.forall_mem_cons]
    by_cases hstart : a < r.start
    · exact absurd (hcovers.covers hn) (not_covers_of_lt_start ⟨‹_›, hlater, hrest⟩ hstart)
    · rw [if_neg hstart]
      by_cases hstop : a < r.stop
      · rw [if_pos hstop]
        by_cases hinside : a + n < r.stop
        · rw [if_pos hinside]
          refine iff_of_true hn ⟨by omega, fun s hs => ?_⟩
          have := hlater s hs
          have := hrest.start_le_stop hs
          omega
        · have hle := lastPart_le rs r.stop (n - (r.stop - a))
          rw [if_neg hinside]
          by_cases hend : r.stop = a + n
          · exact iff_of_false (by omega) fun h => h.1 hend
          · have hcover : CoversAll rs r.stop (n - (r.stop - a)) := by
              intro x hx hlt
              exact (covers_cons_of_le hx).mp (hcovers x (by omega) (by omega))
            rw [ih hrest (by omega) hcover, and_iff_right hend,
              show r.stop + (n - (r.stop - a)) = a + n by omega]
      · have hle : r.stop ≤ a := Nat.not_lt.mp hstop
        rw [if_neg hstop, ih hrest hn ((coversAll_cons_of_le hle).mp hcovers), and_iff_right]
        omega

/-- A nonnegative `int` as a word of the machine. -/
theorem signExtend_toNat (abi : Abi) {n : Nat} (hn : n < 2 ^ 31) :
    ((BitVec.ofNat 32 n).signExtend abi.bits).toNat = n := by
  have hmsb : (BitVec.ofNat 32 n).msb = false := by
    rw [BitVec.msb_eq_false_iff_two_mul_lt, BitVec.toNat_ofNat]
    omega
  rw [BitVec.signExtend_eq_setWidth_of_msb_false hmsb]
  cases abi <;> simp only [Abi.bits, BitVec.toNat_setWidth, BitVec.toNat_ofNat] <;> omega

theorem bits_le (abi : Abi) : 2 ^ 32 ≤ 2 ^ abi.bits := by
  cases abi <;> simp [Abi.bits]

theorem add_toNat (addr : Addr abi) {n : Nat} (hn : n < 2 ^ 31) :
    (addr + (BitVec.ofNat 32 n).signExtend abi.bits).toNat = (addr.toNat + n) % 2 ^ abi.bits := by
  rw [BitVec.toNat_add, signExtend_toNat abi hn]

/-- What is left of the length behind a bound. -/
theorem rest_eq {addr stop : Addr abi} {n : Nat} (hn : n < 2 ^ 31) (hlt : addr < stop)
    (hle : stop.toNat ≤ addr.toNat + n) :
    ((BitVec.ofNat 32 n).signExtend abi.bits - (stop - addr)).setWidth 32 =
      BitVec.ofNat 32 (n - (stop.toNat - addr.toNat)) := by
  have hlt' : addr.toNat < stop.toNat := hlt
  have hbits := bits_le abi
  have hgap : (stop - addr).toNat = stop.toNat - addr.toNat :=
    BitVec.toNat_sub_of_le (BitVec.le_of_lt hlt)
  have hrest : ((BitVec.ofNat 32 n).signExtend abi.bits - (stop - addr)).toNat =
      n - (stop.toNat - addr.toNat) := by
    rw [BitVec.toNat_sub_of_le, signExtend_toNat abi hn, hgap]
    rw [BitVec.le_def, signExtend_toNat abi hn, hgap]
    omega
  apply BitVec.eq_of_toNat_eq
  rw [BitVec.toNat_setWidth, hrest, BitVec.toNat_ofNat]

/-- Where the end of the range is an address, the loop is the one on numbers. -/
theorem checkBlocks_eq (blocks : List (Block abi)) (addr : Addr abi) {n : Nat} (hn : n < 2 ^ 31)
    (hend : addr.toNat + n < 2 ^ abi.bits) :
    checkBlocks blocks addr (BitVec.ofNat 32 n) 0 =
      BitVec.ofNat 32 (lastPart (ranges blocks) addr.toNat n) := by
  induction blocks generalizing addr n with
  | nil => rfl
  | cons b blocks ih =>
    have hadd := add_toNat addr hn
    rw [Nat.mod_eq_of_lt hend] at hadd
    rw [checkBlocks, ranges_cons, lastPart_block]
    simp only [BitVec.lt_def, hadd]
    by_cases hstart : addr.toNat < b.m_pStart.toNat
    · rw [if_pos hstart, if_pos hstart, BitVec.ofNat_eq_ofNat]
    · rw [if_neg hstart, if_neg hstart]
      by_cases hstop : addr.toNat < b.m_pEnd.toNat
      · rw [if_pos hstop, if_pos hstop]
        by_cases hinside : addr.toNat + n < b.m_pEnd.toNat
        · rw [if_pos hinside, if_pos hinside]
          simp
        · have hzero : (0 : BitVec 32) + (b.m_pEnd - b.m_pEnd).setWidth 32 = 0 := by simp
          rw [if_neg hinside, if_neg hinside, rest_eq hn hstop (by omega), hzero]
          exact ih b.m_pEnd (n := n - (b.m_pEnd.toNat - addr.toNat)) (by omega) (by omega)
      · rw [if_neg hstop, if_neg hstop]
        exact ih addr hn hend

/-- Where the end of the range wraps around, the block of its start decides. -/
theorem checkBlocks_wraps {blocks : List (Block abi)} (hsorted : Sorted (ranges blocks))
    (addr : Addr abi) {n : Nat}
    (hn : n < 2 ^ 31) (hend : 2 ^ abi.bits ≤ addr.toNat + n)
    (hcovers : Covers (ranges blocks) addr.toNat) :
    checkBlocks blocks addr (BitVec.ofNat 32 n) 0 = BitVec.ofNat 32 n := by
  induction blocks with
  | nil => simp [ranges] at hcovers
  | cons b blocks ih =>
    have hbits := bits_le abi
    have haddr := addr.isLt
    have hadd := add_toNat addr hn
    rw [Nat.mod_eq_sub_mod hend, Nat.mod_eq_of_lt (by omega)] at hadd
    rw [checkBlocks]
    simp only [BitVec.lt_def, hadd]
    rw [ranges_cons] at hcovers hsorted
    by_cases hstart : addr.toNat < b.m_pStart.toNat
    · exact absurd hcovers (not_covers_of_lt_start hsorted hstart)
    · rw [if_neg hstart]
      by_cases hstop : addr.toNat < b.m_pEnd.toNat
      · rw [if_pos hstop, if_pos (by omega)]
        simp
      · rw [if_neg hstop]
        exact ih hsorted.2.2
          ((covers_cons_of_le (show b.range.stop ≤ addr.toNat from Nat.not_lt.mp hstop)).mp hcovers)

/-- Without a block at its start no range counts. -/
theorem checkBlocks_outside {blocks : List (Block abi)} {addr : Addr abi} (len : BitVec 32)
    (h : ¬ Covers (ranges blocks) addr.toNat) : checkBlocks blocks addr len 0 = 0 := by
  induction blocks with
  | nil => rfl
  | cons b blocks ih =>
    rw [ranges_cons, covers_cons, not_or] at h
    rw [checkBlocks]
    simp only [BitVec.lt_def]
    by_cases hstart : addr.toNat < b.m_pStart.toNat
    · rw [if_pos hstart]
    · have hstop : ¬ addr.toNat < b.m_pEnd.toNat := fun hstop => h.1 ⟨Nat.not_lt.mp hstart, hstop⟩
      rw [if_neg hstart, if_neg hstop]
      exact ih h.2

/-- Every byte of the range lies in a readable block. -/
def Readable (blocks : List (Block abi)) (addr : Addr abi) (len : BitVec 32) : Prop :=
  CoversAll (ranges blocks) addr.toNat len.toNat

/-- The full length for readable ranges, and true for these only. -/
def Answers (blocks : List (Block abi)) (addr : Addr abi) (len : BitVec 32) : Prop :=
  (Readable blocks addr len → check_mem_readable blocks addr len = len) ∧
    (IsReadable blocks addr len ↔ Readable blocks addr len)

/-- The range lies in one block and does not reach its end. -/
def InsideBlock (blocks : List (Block abi)) (addr : Addr abi) (len : BitVec 32) : Prop :=
  ∃ b ∈ blocks, b.range.Inside addr.toNat len.toNat

theorem insideBlock_iff (blocks : List (Block abi)) (addr : Addr abi) (len : BitVec 32) :
    InsideBlock blocks addr len ↔ ∃ r ∈ ranges blocks, r.Inside addr.toNat len.toNat := by
  simp [InsideBlock, ranges]

theorem InsideBlock.readable {blocks : List (Block abi)} {addr : Addr abi} {len : BitVec 32}
    (h : InsideBlock blocks addr len) :
    Readable blocks addr len := by
  obtain ⟨r, hr, hinside⟩ := (insideBlock_iff blocks addr len).mp h
  exact hinside.coversAll hr

section Lengths

variable {len : BitVec 32} (hlen : 1 ≤ len.toInt)
include hlen

theorem toNat_of_pos : 0 < len.toNat ∧ len.toNat < 2 ^ 31 := by
  rw [BitVec.toInt_eq_toNat_cond] at hlen
  split at hlen <;> omega

theorem toInt_pos_ofNat {n : Nat} (h : n ≤ len.toNat) : 0 < (BitVec.ofNat 32 n).toInt ↔ 0 < n := by
  obtain ⟨_, hlt⟩ := toNat_of_pos hlen
  rw [BitVec.toInt_eq_toNat_of_lt (by rw [BitVec.toNat_ofNat]; omega), BitVec.toNat_ofNat]
  omega

variable {blocks : List (Block abi)} {addr : Addr abi}

theorem check_mem_readable_eq (hend : addr.toNat + len.toNat < 2 ^ abi.bits) :
    check_mem_readable blocks addr len =
      BitVec.ofNat 32 (lastPart (ranges blocks) addr.toNat len.toNat) := by
  rw [← checkBlocks_eq blocks addr (toNat_of_pos hlen).2 hend, BitVec.ofNat_toNat,
    BitVec.setWidth_eq]
  rfl

theorem isReadable_iff (hend : addr.toNat + len.toNat < 2 ^ abi.bits) :
    IsReadable blocks addr len ↔ 0 < lastPart (ranges blocks) addr.toNat len.toNat := by
  rw [IsReadable, check_mem_readable_eq hlen hend, decide_eq_true_eq]
  exact toInt_pos_ofNat hlen (lastPart_le _ _ _)

theorem check_mem_readable_wraps (hsorted : Sorted (ranges blocks))
    (hend : 2 ^ abi.bits ≤ addr.toNat + len.toNat)
    (hcovers : Covers (ranges blocks) addr.toNat) : check_mem_readable blocks addr len = len := by
  have h := checkBlocks_wraps hsorted addr (toNat_of_pos hlen).2 hend hcovers
  rwa [BitVec.ofNat_toNat, BitVec.setWidth_eq] at h

/-- No byte lies behind the last address. -/
theorem Readable.lt (h : Readable blocks addr len) : addr.toNat + len.toNat < 2 ^ abi.bits := by
  obtain ⟨hpos, _⟩ := toNat_of_pos hlen
  obtain ⟨r, hr, _, hlt⟩ := h (addr.toNat + len.toNat - 1) (by omega) (by omega)
  obtain ⟨b, hb, rfl⟩ := List.mem_map.mp hr
  have hend := b.m_pEnd.isLt
  simp only [Block.range] at hlt
  omega

theorem InsideBlock.isReadable (h : InsideBlock blocks addr len)
    (hsorted : Sorted (ranges blocks)) :
    IsReadable blocks addr len := by
  obtain ⟨hpos, _⟩ := toNat_of_pos hlen
  rw [isReadable_iff hlen (h.readable.lt hlen),
    (lastPart_eq_iff hsorted hpos).mpr ((insideBlock_iff blocks addr len).mp h)]
  exact hpos

/-- A readable range counts for nothing exactly when a block ends with it. -/
theorem check_mem_readable_ne_zero_iff (hsorted : Sorted (ranges blocks))
    (h : Readable blocks addr len) :
    check_mem_readable blocks addr len ≠ 0 ↔ ∀ b ∈ blocks,
      b.m_pEnd.toNat ≠ addr.toNat + len.toNat := by
  obtain ⟨hpos, hlt⟩ := toNat_of_pos hlen
  have hle := lastPart_le (ranges blocks) addr.toNat len.toNat
  have hiff := lastPart_pos_iff hsorted hpos h
  have hends : (∀ r ∈ ranges blocks, r.stop ≠ addr.toNat + len.toNat) ↔
      ∀ b ∈ blocks, b.m_pEnd.toNat ≠ addr.toNat + len.toNat := by
    simp [ranges, Block.range]
  rw [check_mem_readable_eq hlen (h.lt hlen), ← hends, ← hiff, ne_eq, ← BitVec.toNat_inj,
    BitVec.toNat_ofNat]
  simp only [BitVec.ofNat_eq_ofNat, BitVec.toNat_ofNat]
  omega

/-- Both answers are right exactly when the range ends inside the block it
begins in, or is not readable and does not wrap around from a readable byte. -/
theorem answers_iff (hsorted : Sorted (ranges blocks)) :
    Answers blocks addr len ↔ InsideBlock blocks addr len ∨
      (¬ Readable blocks addr len ∧
        (addr.toNat + len.toNat < 2 ^ abi.bits ∨ ∀ b ∈ blocks, ¬ b.range.Contains addr.toNat)) := by
  obtain ⟨hpos, hlt⟩ := toNat_of_pos hlen
  by_cases hreadable : Readable blocks addr len
  · have hend := hreadable.lt hlen
    have hle := lastPart_le (ranges blocks) addr.toNat len.toNat
    rw [Answers, check_mem_readable_eq hlen hend, isReadable_iff hlen hend, insideBlock_iff,
      ← lastPart_eq_iff hsorted hpos]
    simp only [hreadable, true_implies, iff_true, not_true_eq_false, false_and, or_false]
    constructor
    · intro ⟨hcheck, _⟩
      have hnat := congrArg BitVec.toNat hcheck
      rw [BitVec.toNat_ofNat] at hnat
      omega
    · intro heq
      rw [heq]
      exact ⟨by simp, hpos⟩
  · have hoff : (∀ b ∈ blocks, ¬ b.range.Contains addr.toNat) ↔
        ¬ Covers (ranges blocks) addr.toNat := by
      simp [Covers, ranges]
    have hinside : ¬ InsideBlock blocks addr len := fun h => hreadable h.readable
    rw [Answers, hoff]
    simp only [hreadable, false_implies, iff_false, not_false_eq_true, true_and, hinside, false_or]
    by_cases hend : addr.toNat + len.toNat < 2 ^ abi.bits
    · rw [isReadable_iff hlen hend]
      exact iff_of_true (fun hpart => hreadable (coversAll_of_lastPart_pos hpart)) (.inl hend)
    · by_cases hcovers : Covers (ranges blocks) addr.toNat
      · have hcheck := check_mem_readable_wraps hlen hsorted (Nat.not_lt.mp hend) hcovers
        refine iff_of_false ?_ (by simp [hend, hcovers])
        rw [IsReadable, hcheck, decide_eq_true_eq, not_not]
        omega
      · have hcheck : check_mem_readable blocks addr len = 0 := checkBlocks_outside len hcovers
        refine iff_of_true ?_ (.inr hcovers)
        rw [IsReadable, hcheck]
        decide

end Lengths

/-- Two adjacent pages and one apart from them. -/
def threePages : List (Block .arm) := [⟨0x1000, 0x2000⟩, ⟨0x2000, 0x3000⟩, ⟨0x5000, 0x6000⟩]

theorem threePages_sorted : Sorted (ranges threePages) := by
  simp [Sorted, ranges, threePages, Block.range, Abi.bits]

/-- The two adjacent pages are readable across their bound. -/
theorem threePages_readable {addr : Addr .arm} {len : BitVec 32} (hlow : 0x1000 ≤ addr.toNat)
    (hhigh : addr.toNat + len.toNat ≤ 0x3000) : Readable threePages addr len := by
  intro x hx hlt
  by_cases hfirst : x < 0x2000
  · exact ⟨⟨0x1000, 0x2000⟩, by simp [ranges, threePages, Block.range,
      Abi.bits], hlow.trans hx, hfirst⟩
  · exact ⟨⟨0x2000, 0x3000⟩, by simp [ranges, threePages, Block.range,
      Abi.bits], Nat.not_lt.mp hfirst, hlt.trans_le hhigh⟩

theorem answers_iff_threePages : Answers threePages 0x1ff8 4 ∧ ¬ Answers threePages 0x1ffc 4 := by
  constructor
  · exact (answers_iff (by decide) threePages_sorted).mpr
      (.inl ⟨⟨0x1000, 0x2000⟩, by simp [threePages], by decide, by decide⟩)
  · rw [answers_iff (by decide) threePages_sorted, not_or]
    refine ⟨?_, fun h => h.1 (threePages_readable (by decide) (by decide))⟩
    rintro ⟨b, hb, hlow, hhigh⟩
    obtain rfl | rfl | rfl : b = _ ∨ b = _ ∨ b = _ := by simpa [threePages] using hb
    · exact absurd hhigh (by decide)
    · exact absurd hlow (by decide)
    · exact absurd hlow (by decide)

/-- The last word of a page is not counted, and of a word across the bound of two
pages only what lies in the second. -/
theorem check_mem_readable_page_end :
    Sorted (ranges threePages) ∧ Readable threePages 0x1ffc 4 ∧
    check_mem_readable threePages 0x1ffc 4 = 0 ∧
      IsReadable threePages 0x1ffc 4 = false ∧ Readable threePages 0x1ffe 4 ∧
      check_mem_readable threePages 0x1ffe 4 = 2 ∧
      ¬ Answers threePages 0x1ffc 4 ∧ ¬ Answers threePages 0x1ffe 4 := by
  have hlast : Readable threePages 0x1ffc 4 := threePages_readable (by decide) (by decide)
  have hacross : Readable threePages 0x1ffe 4 := threePages_readable (by decide) (by decide)
  refine ⟨threePages_sorted, hlast, by decide, by decide, hacross, by decide, ?_, ?_⟩
  · exact fun h => absurd (h.1 hlast) (by decide)
  · exact fun h => absurd (h.1 hacross) (by decide)

end MemCheck
