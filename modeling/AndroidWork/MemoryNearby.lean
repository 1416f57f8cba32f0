import AndroidWork.MemCheck

/-!
# The memory near an address

`WriteMemoryNearby` of crash_handler.cpp: the lines of memory before and behind
an address that go into a crash report.
-/
namespace MemoryNearby

open MemCheck

variable {abi : Abi}

/-- `sizeof(memLine)`, the size of a pointer. -/
abbrev wordLineBytes : Abi → Nat
  | .arm => 4
  | .aarch64 => 8

/-- A line of the report; without content it says that the address is illegal. -/
structure Line (abi : Abi) where
  addr : Addr abi
  marked : Bool
  content : Option (List Word)
  deriving DecidableEq

def hex (width n : Nat) : String :=
  let digits := Nat.toDigits 16 n
  String.ofList (List.replicate (width - digits.length) '0' ++ digits)

def illegalAddress : Abi → String
  | .arm => " ----Illegal Address----\n"
  | .aarch64 => " Illegal Address\n"

/-- What `rw->Write` writes for the line. -/
def Line.text (l : Line abi) : String :=
  (if l.marked then "--> " else "    ") ++ hex (2 * wordLineBytes abi) l.addr.toNat ++
    match l.content with
    | some memLine => String.join (memLine.map fun w => " " ++ hex 8 w.toNat) ++ "\n"
    | none => illegalAddress abi

/-- The words of a line of memory. -/
def words (m : Addr abi → Byte) (a : Addr abi) : List Word :=
  (List.range (wordLineBytes abi / 4)).map fun i => word m (a + BitVec.ofNat abi.bits (4 * i))

/-- The buffer before anything is read to it. -/
def zeros (abi : Abi) : List Word := List.replicate (wordLineBytes abi / 4) 0

/-- `read_memory` does not read from the null pointer. -/
def read_memory (m : Addr abi → Byte) (memLine : List Word) (src : Addr abi) : List Word :=
  if src = 0 then memLine else words m src

/-- What one of the two loops leaves: its lines, where it stands, the buffer,
whether it came to an illegal address, and the counters that were lowered. -/
structure Loop (abi : Abi) where
  lines : List (Line abi)
  addr_pt : Addr abi
  memLine : List Word
  illegal : Bool
  counters : List (Addr abi)

/-- The lines written, and every counter from which a line was subtracted. -/
structure Report (abi : Abi) where
  lines : List (Line abi)
  counters : List (Addr abi)
  deriving DecidableEq

def Report.text (r : Report abi) : String := String.join (r.lines.map Line.text)

section Source

variable (g_memBlock : List (Block abi)) (m : Addr abi → Byte)

/-- Whether the line at an address may be read. -/
def lineReadable (a : Addr abi) : Bool :=
  IsReadable g_memBlock a (BitVec.ofNat 32 (wordLineBytes abi))

def Loop.after (line : Line abi) (ctx : Addr abi) (l : Loop abi) : Loop abi :=
  { l with lines := line :: l.lines, counters := ctx :: l.counters }

/-- `while (ctx > 0)`, for at most `turns` turns. -/
def linesLoop : Nat → Addr abi → Addr abi → List Word → Option (Loop abi)
  | 0, _, _, _ => none
  | turns + 1, ctx, addr_pt, memLine =>
    if ctx > 0 then
      if lineReadable g_memBlock addr_pt then
        let memLine := read_memory m memLine addr_pt
        (linesLoop turns (ctx - BitVec.ofNat abi.bits (wordLineBytes abi))
          (addr_pt + BitVec.ofNat abi.bits (wordLineBytes abi))
          memLine).map (Loop.after ⟨addr_pt, false, some memLine⟩ ctx)
      else some ⟨[⟨addr_pt, false, none⟩], addr_pt, memLine, true, []⟩
    else some ⟨[], addr_pt, memLine, false, []⟩

def WriteMemoryNearby (turns : Nat) (addr ctx_before ctx_after : Addr abi) :
    Option (Report abi) := do
  let wordLine := BitVec.ofNat abi.bits (wordLineBytes abi)
  let ctx_before := if ctx_before * wordLine > addr then
    addr - addr % wordLine else ctx_before * wordLine
  let ctx_after := ctx_after * wordLine
  let before ← linesLoop g_memBlock m turns ctx_before (addr - ctx_before) (zeros abi)
  if before.illegal then return ⟨before.lines, before.counters⟩
  else if !lineReadable g_memBlock addr then
    return ⟨before.lines ++ [⟨addr, true, none⟩], before.counters⟩
  else
    let memLine := read_memory m before.memLine before.addr_pt
    let after ← linesLoop g_memBlock m turns ctx_after (before.addr_pt + wordLine) memLine
    return ⟨before.lines ++ ⟨before.addr_pt, true, some memLine⟩ :: after.lines,
      before.counters ++ after.counters⟩

end Source

theorem wordLineBytes_pos (abi : Abi) : 0 < wordLineBytes abi := by cases abi <;> decide
theorem wordLineBytes_lt (abi : Abi) : wordLineBytes abi < 2 ^ abi.bits := by cases abi <;> decide

/-- The line `k` lines above `a`. -/
def lineAt (a : Addr abi) (k : Nat) : Addr abi := a + BitVec.ofNat abi.bits (k * wordLineBytes abi)

/-- The line `k` lines below `a`. -/
def lineBelow (a : Addr abi) (k : Nat) : Addr abi :=
  a - BitVec.ofNat abi.bits (k * wordLineBytes abi)

@[simp] theorem lineAt_zero (a : Addr abi) : lineAt a 0 = a := by simp [lineAt]
@[simp] theorem lineBelow_zero (a : Addr abi) : lineBelow a 0 = a := by simp [lineBelow]

theorem lineAt_next (a : Addr abi) (k : Nat) :
    lineAt (a + BitVec.ofNat abi.bits (wordLineBytes abi)) k = lineAt a (k + 1) := by
  rw [lineAt, lineAt, BitVec.add_assoc, ← BitVec.ofNat_add, Nat.add_comm, ← Nat.succ_mul]

theorem lineAt_one (a : Addr abi) (k : Nat) : lineAt (lineAt a 1) k = lineAt a (k + 1) := by
  have hone : lineAt a 1 = a + BitVec.ofNat abi.bits (wordLineBytes abi) := by
    rw [lineAt, Nat.one_mul]
  rw [hone, lineAt_next]

theorem lineAt_toNat {a : Addr abi} {k : Nat} (h : a.toNat + k * wordLineBytes abi < 2 ^ abi.bits) :
    (lineAt a k).toNat = a.toNat + k * wordLineBytes abi := by
  rw [lineAt, BitVec.toNat_add, BitVec.toNat_ofNat, Nat.add_mod_mod, Nat.mod_eq_of_lt h]

theorem lineBelow_toNat {a : Addr abi} {k : Nat} (h : k * wordLineBytes abi ≤ a.toNat) :
    (lineBelow a k).toNat = a.toNat - k * wordLineBytes abi := by
  have hofNat : (BitVec.ofNat abi.bits (k * wordLineBytes abi)).toNat = k * wordLineBytes abi := by
    rw [BitVec.toNat_ofNat, Nat.mod_eq_of_lt (Nat.lt_of_le_of_lt h a.isLt)]
  rw [lineBelow, BitVec.toNat_sub_of_le (by rw [BitVec.le_def, hofNat]; exact h), hofNat]

theorem lineBelow_eq_zero_iff {a : Addr abi} {k : Nat} (h : k * wordLineBytes abi ≤ a.toNat) :
    lineBelow a k = 0 ↔ k * wordLineBytes abi = a.toNat := by
  rw [← BitVec.toNat_inj, lineBelow_toNat h]
  simp only [BitVec.ofNat_eq_ofNat, BitVec.toNat_ofNat, Nat.zero_mod]
  omega

/-- Up from the lowest line of the window. -/
theorem lineAt_lineBelow (a : Addr abi) {n k : Nat} (h : k ≤ n) :
    lineAt (lineBelow a n) k = lineBelow a (n - k) := by
  have hsplit : n * wordLineBytes abi = (n - k) * wordLineBytes abi + k * wordLineBytes abi := by
    rw [← Nat.add_mul, Nat.sub_add_cancel h]
  rw [lineAt, lineBelow, lineBelow, hsplit, BitVec.ofNat_add,
    BitVec.eq_sub_iff_add_eq, BitVec.add_assoc,
    BitVec.add_comm (BitVec.ofNat abi.bits (k * _)), BitVec.sub_add_cancel]

theorem counter_next {n : Nat} :
    BitVec.ofNat abi.bits ((n + 1) * wordLineBytes abi) - BitVec.ofNat abi.bits
      (wordLineBytes abi) =
      BitVec.ofNat abi.bits (n * wordLineBytes abi) := by
  rw [Nat.succ_mul, BitVec.ofNat_add, BitVec.add_sub_cancel]

theorem counter_toNat {n : Nat} (h : n * wordLineBytes abi < 2 ^ abi.bits) :
    (BitVec.ofNat abi.bits (n * wordLineBytes abi)).toNat = n * wordLineBytes abi := by
  rw [BitVec.toNat_ofNat, Nat.mod_eq_of_lt h]

variable {g_memBlock : List (Block abi)} {m : Addr abi → Byte}

/-- What a loop over `n` lines from `a` leaves: a line for each address up to the
first that is not readable. -/
structure Walks (g_memBlock : List (Block abi)) (m : Addr abi → Byte) (n : Nat) (a : Addr abi)
    (memLine : List Word)
    (l : Loop abi) : Prop where
  length : ∀ k, k < l.lines.length ↔ k < n ∧ ∀ j < k, lineReadable g_memBlock (lineAt a j)
  line : ∀ k line, l.lines[k]? = some line → line.addr = lineAt a k ∧ line.marked = false ∧
    (line.content.isSome ↔ lineReadable g_memBlock (lineAt a k)) ∧
    (∀ c ∈ line.content, lineAt a k ≠ 0 → c = words m (lineAt a k))
  first : ∀ line, l.lines[0]? = some line → ∀ c ∈ line.content, c = read_memory m memLine a
  illegal : l.illegal = false ↔ ∀ k < n, lineReadable g_memBlock (lineAt a k)
  addr_pt : l.illegal = false → l.addr_pt = lineAt a n
  memLine : n = 0 → l.memLine = memLine
  counters : ∀ c ∈ l.counters, wordLineBytes abi ≤ c.toNat

theorem Walks.zero (a : Addr abi) (memLine : List Word) :
    Walks g_memBlock m 0 a memLine ⟨[], a, memLine, false, []⟩ where
  length k := by simp
  line k line h := by simp at h
  first line h := by simp at h
  illegal := by simp
  addr_pt _ := by simp
  memLine _ := rfl
  counters c h := by simp at h

theorem Walks.stop {n : Nat} {a : Addr abi} (memLine : List Word)
    (h : lineReadable g_memBlock a = false) :
    Walks g_memBlock m (n + 1) a memLine ⟨[⟨a, false, none⟩], a, memLine, true, []⟩ where
  length k := by
    cases k with
    | zero => simp
    | succ k =>
      refine iff_of_false (by simp) fun hk => ?_
      have := hk.2 0 (by omega)
      simp [h] at this
  line k line hline := by
    cases k with
    | zero =>
      obtain rfl : (⟨a, false, none⟩ : Line abi) = line := by simpa using hline
      simp [h]
    | succ k => simp at hline
  first line hline c hc := by
    obtain rfl : (⟨a, false, none⟩ : Line abi) = line := by simpa using hline
    simp at hc
  illegal := by
    refine iff_of_false (by simp) fun hall => ?_
    have := hall 0 (by omega)
    simp [h] at this
  addr_pt h := by simp at h
  memLine h := by simp at h
  counters c h := by simp at h

theorem Walks.step {n : Nat} {a c : Addr abi} {memLine : List Word} {l : Loop abi}
    (h : lineReadable g_memBlock a)
    (hctx : wordLineBytes abi ≤ c.toNat)
    (hl : Walks g_memBlock m n (a + BitVec.ofNat abi.bits (wordLineBytes abi))
      (read_memory m memLine a) l) :
    Walks g_memBlock m (n + 1) a memLine
      (l.after ⟨a, false, some (read_memory m memLine a)⟩ c) where
  length k := by
    cases k with
    | zero => simp [Loop.after]
    | succ k =>
      have hlength := hl.length k
      simp only [lineAt_next] at hlength
      simp only [Loop.after, List.length_cons, Nat.add_lt_add_iff_right, hlength]
      refine and_congr_right fun _ =>
        ⟨fun hall j hj => ?_, fun hall j hj => hall (j + 1) (by omega)⟩
      cases j with
      | zero => simpa using h
      | succ j => exact hall j (by omega)
  line k line hline := by
    cases k with
    | zero =>
      obtain rfl : (⟨a, false, some (read_memory m memLine a)⟩ : Line abi) = line := by
        simpa [Loop.after] using hline
      refine ⟨by simp, rfl, by simp [h], ?_⟩
      simp only [Option.mem_some_iff, forall_eq', lineAt_zero, read_memory]
      exact fun hne => if_neg hne
    | succ k =>
      have hrest := hl.line k line (by simpa [Loop.after] using hline)
      simpa only [lineAt_next] using hrest
  first line hline c hc := by
    obtain rfl : (⟨a, false, some (read_memory m memLine a)⟩ : Line abi) = line := by
      simpa [Loop.after] using hline
    exact (Option.mem_some_iff.mp hc).symm
  illegal := by
    have hillegal := hl.illegal
    simp only [lineAt_next] at hillegal
    refine hillegal.trans ⟨fun hall k hk => ?_, fun hall k hk => hall (k + 1) (by omega)⟩
    cases k with
    | zero => simpa using h
    | succ k => exact hall k (by omega)
  addr_pt hill := by rw [← lineAt_next]; exact hl.addr_pt hill
  memLine h := by omega
  counters d hd := by
    obtain rfl | hd := List.mem_cons.mp hd
    · exact hctx
    · exact hl.counters d hd

theorem exists_walks {n turns : Nat} (hturns : n < turns)
    (hn : n * wordLineBytes abi < 2 ^ abi.bits) (a : Addr abi)
    (memLine : List Word) :
    ∃ l, linesLoop g_memBlock m turns (BitVec.ofNat abi.bits (n * wordLineBytes abi)) a
      memLine = some l ∧
      Walks g_memBlock m n a memLine l := by
  induction n generalizing turns a memLine with
  | zero =>
    obtain ⟨turns, rfl⟩ := Nat.exists_eq_add_one_of_ne_zero (show turns ≠ 0 by omega)
    exact ⟨_, by simp [linesLoop], Walks.zero a memLine⟩
  | succ n ih =>
    obtain ⟨turns, rfl⟩ := Nat.exists_eq_add_one_of_ne_zero (show turns ≠ 0 by omega)
    have hcounter := counter_toNat hn
    have hpos := wordLineBytes_pos abi
    have hmul : (n + 1) * wordLineBytes abi = n * wordLineBytes abi + wordLineBytes abi :=
      Nat.succ_mul n _
    have hgt : BitVec.ofNat abi.bits ((n + 1) * wordLineBytes abi) > 0 := by
      rw [gt_iff_lt, BitVec.lt_def, hcounter]
      simp only [BitVec.ofNat_eq_ofNat, BitVec.toNat_ofNat, Nat.zero_mod]
      omega
    rw [linesLoop, if_pos hgt]
    cases hread : lineReadable g_memBlock a with
    | false => exact ⟨_, if_neg (by simp), Walks.stop memLine hread⟩
    | true =>
      rw [if_pos rfl, counter_next]
      obtain ⟨l, hl, hwalks⟩ := ih (show n < turns by omega) (by omega)
        (a + BitVec.ofNat abi.bits (wordLineBytes abi))
        (read_memory m memLine a)
      refine ⟨_, ?_, hwalks.step hread (c := BitVec.ofNat abi.bits ((n + 1) * wordLineBytes abi))
        (by rw [hcounter]; omega)⟩
      simp only [hl, Option.map_some]

/-- How many lines lie before `addr`, at most `ctx_before` and down to address 0. -/
def linesBefore (addr ctx_before : Addr abi) : Nat :=
  min ctx_before.toNat (addr.toNat / wordLineBytes abi)

theorem le_linesBefore (addr ctx_before : Addr abi) (k : Nat) :
    k ≤ linesBefore addr ctx_before ↔ k ≤ ctx_before.toNat ∧
    k * wordLineBytes abi ≤ addr.toNat := by
  rw [linesBefore, Nat.le_min, Nat.le_div_iff_mul_le (wordLineBytes_pos abi)]

/-- A counter of lines turned into one of bytes. -/
theorem bytes_eq {ctx : Addr abi} :
    ctx * BitVec.ofNat abi.bits (wordLineBytes abi) =
      BitVec.ofNat abi.bits (ctx.toNat * wordLineBytes abi) := by
  apply BitVec.eq_of_toNat_eq
  rw [BitVec.toNat_mul, BitVec.toNat_ofNat, BitVec.toNat_ofNat,
    Nat.mod_eq_of_lt (wordLineBytes_lt abi)]

theorem before_eq {addr ctx_before : Addr abi}
    (hfits : ctx_before.toNat * wordLineBytes abi < 2 ^ abi.bits) :
    (if ctx_before * BitVec.ofNat abi.bits (wordLineBytes abi) > addr then
      addr - addr % BitVec.ofNat abi.bits (wordLineBytes abi)
    else ctx_before * BitVec.ofNat abi.bits (wordLineBytes abi)) =
      BitVec.ofNat abi.bits (linesBefore addr ctx_before * wordLineBytes abi) := by
  have hpos := wordLineBytes_pos abi
  have hdiv := Nat.div_mul_le_self addr.toNat (wordLineBytes abi)
  have hmod := Nat.div_add_mod' addr.toNat (wordLineBytes abi)
  have hgt : BitVec.ofNat abi.bits (ctx_before.toNat * wordLineBytes abi) > addr ↔
      addr.toNat < ctx_before.toNat * wordLineBytes abi := by
    rw [gt_iff_lt, BitVec.lt_def, counter_toNat hfits]
  rw [bytes_eq, linesBefore]
  by_cases h : addr.toNat < ctx_before.toNat * wordLineBytes abi
  · have hmin : addr.toNat / wordLineBytes abi ≤ ctx_before.toNat :=
      (Nat.div_lt_of_lt_mul (by rwa [Nat.mul_comm] at h)).le
    have hle : addr % BitVec.ofNat abi.bits (wordLineBytes abi) ≤ addr := by
      rw [BitVec.le_def, BitVec.toNat_umod]
      exact Nat.mod_le _ _
    rw [if_pos (hgt.mpr h), Nat.min_eq_right hmin]
    apply BitVec.eq_of_toNat_eq
    rw [BitVec.toNat_sub_of_le hle, BitVec.toNat_umod, BitVec.toNat_ofNat,
      Nat.mod_eq_of_lt (wordLineBytes_lt abi),
      counter_toNat (Nat.lt_of_le_of_lt hdiv addr.isLt)]
    omega
  · have hmin : ctx_before.toNat ≤ addr.toNat / wordLineBytes abi :=
      (Nat.le_div_iff_mul_le hpos).mpr (Nat.not_lt.mp h)
    rw [if_neg (hgt.not.mpr h), Nat.min_eq_left hmin]

/-- The lines of a report, by the two loops and the line between them. -/
inductive Written (g_memBlock : List (Block abi)) (m : Addr abi → Byte)
    (addr ctx_before ctx_after : Addr abi) :
    Report abi → Prop where
  | stopped {l : Loop abi}
    (hl : Walks g_memBlock m (linesBefore addr ctx_before)
      (lineBelow addr (linesBefore addr ctx_before)) (zeros abi) l)
    (hill : l.illegal = true) : Written g_memBlock m addr ctx_before ctx_after ⟨l.lines, l.counters⟩
  | illegal {l : Loop abi}
    (hl : Walks g_memBlock m (linesBefore addr ctx_before)
      (lineBelow addr (linesBefore addr ctx_before)) (zeros abi) l)
    (hill : l.illegal = false) (hread : lineReadable g_memBlock addr = false) :
    Written g_memBlock m addr ctx_before ctx_after ⟨l.lines ++ [⟨addr, true, none⟩], l.counters⟩
  | shown {l l' : Loop abi}
    (hl : Walks g_memBlock m (linesBefore addr ctx_before)
      (lineBelow addr (linesBefore addr ctx_before)) (zeros abi) l)
    (hill : l.illegal = false) (hread : lineReadable g_memBlock addr)
    (hl' : Walks g_memBlock m ctx_after.toNat (lineAt addr 1) (read_memory m l.memLine addr) l') :
    Written g_memBlock m addr ctx_before ctx_after
      ⟨l.lines ++ ⟨addr, true, some (read_memory m l.memLine addr)⟩ :: l'.lines,
        l.counters ++ l'.counters⟩

theorem WriteMemoryNearby_written {turns : Nat} {addr ctx_before ctx_after : Addr abi}
    (hbefore : ctx_before.toNat * wordLineBytes abi < 2 ^ abi.bits)
    (hafter : ctx_after.toNat * wordLineBytes abi < 2 ^ abi.bits)
    (hturns : ctx_before.toNat < turns) (hturns' : ctx_after.toNat < turns) :
    ∃ r, WriteMemoryNearby g_memBlock m turns addr ctx_before ctx_after = some r ∧
      Written g_memBlock m addr ctx_before ctx_after r := by
  obtain ⟨hle, hle'⟩ := (le_linesBefore addr ctx_before _).mp le_rfl
  obtain ⟨l, hl, hwalks⟩ :=
    @exists_walks abi g_memBlock m _ turns (show linesBefore addr ctx_before < turns by omega)
    (Nat.lt_of_le_of_lt hle' addr.isLt) (lineBelow addr (linesBefore addr ctx_before)) (zeros abi)
  have hpt := hwalks.addr_pt
  rw [lineAt_lineBelow addr le_rfl, Nat.sub_self, lineBelow_zero] at hpt
  rw [WriteMemoryNearby]
  simp only [Option.bind_eq_bind]
  rw [before_eq hbefore, bytes_eq]
  rw [lineBelow] at hl
  simp only [hl, Option.bind_some]
  cases hill : l.illegal with
  | true => exact ⟨_, rfl, .stopped hwalks hill⟩
  | false =>
    cases hread : lineReadable g_memBlock addr with
    | false => exact ⟨_, rfl, .illegal hwalks hill hread⟩
    | true =>
      obtain ⟨l', hl', hwalks'⟩ :=
        @exists_walks abi g_memBlock m _ turns hturns' hafter (lineAt addr 1)
        (read_memory m l.memLine addr)
      have hone : addr + BitVec.ofNat abi.bits (wordLineBytes abi) = lineAt addr 1 := by
        rw [lineAt, Nat.one_mul]
      rw [hpt hill, hone, hl']
      exact ⟨_, rfl, .shown hwalks hill hread hwalks'⟩

namespace Walks

variable {n : Nat} {a : Addr abi} {memLine : List Word} {l : Loop abi}
    (h : Walks g_memBlock m n a memLine l)
include h

theorem unmarked : l.lines.filter (·.marked) = [] := by
  rw [List.filter_eq_nil_iff]
  intro line hmem
  obtain ⟨k, hline⟩ := List.mem_iff_getElem?.mp hmem
  simp [(h.line k line hline).2.1]

theorem length_eq (hill : l.illegal = false) : l.lines.length = n := by
  have hall := h.illegal.mp hill
  have hlt : ∀ k, k < l.lines.length ↔ k < n := fun k => (h.length k).trans
    ⟨fun hk => hk.1, fun hk => ⟨hk, fun j hj => hall j (by omega)⟩⟩
  have := hlt n
  have := hlt l.lines.length
  omega

/-- A readable line that is come to shows the memory. -/
theorem shows {k : Nat} (hk : k < l.lines.length) (hread : lineReadable g_memBlock (lineAt a k)) :
    ∃ c, (⟨lineAt a k, false, some c⟩ : Line abi) ∈ l.lines ∧
      (lineAt a k ≠ 0 → c = words m (lineAt a k)) ∧
      (k = 0 → c = read_memory m memLine a) := by
  obtain ⟨⟨addr, marked, content⟩, hline⟩ : ∃ line, l.lines[k]? = some line :=
    ⟨_, List.getElem?_eq_getElem hk⟩
  obtain ⟨haddr, hmarked, hsome, hwords⟩ := h.line k _ hline
  obtain ⟨c, hc⟩ := Option.isSome_iff_exists.mp (hsome.mpr hread)
  simp only at haddr hmarked hc
  subst haddr hmarked hc
  refine ⟨c, List.mem_of_getElem? hline, hwords c rfl, fun h0 => ?_⟩
  subst h0
  exact h.first _ hline c rfl

/-- Without wrapping around the addresses increase. -/
theorem increasing (hwrap : ∀ k < l.lines.length, a.toNat + k * wordLineBytes abi < 2 ^ abi.bits) :
    (l.lines.map fun line => line.addr.toNat).Pairwise (· < ·) := by
  rw [List.pairwise_map, List.pairwise_iff_getElem]
  intro i j hi hj hij
  have haddr : ∀ k (hk : k < l.lines.length), l.lines[k].addr.toNat =
      a.toNat + k * wordLineBytes abi := by
    intro k hk
    rw [(h.line k _ (List.getElem?_eq_getElem hk)).1, lineAt_toNat (hwrap k hk)]
  rw [haddr i hi, haddr j hj]
  have := Nat.mul_lt_mul_of_pos_right hij (wordLineBytes_pos abi)
  omega

end Walks

/-- All bytes of the line lie in readable memory. -/
def ReadableLine (g_memBlock : List (Block abi)) (a : Addr abi) : Prop :=
  Readable g_memBlock a (BitVec.ofNat 32 (wordLineBytes abi))

/-- The lines increase; one is marked and shows what is at `addr`, or that it is
illegal; lines of the window that readable lines connect to `addr` are shown;
no counter wraps around. -/
structure Good (g_memBlock : List (Block abi)) (m : Addr abi → Byte)
    (addr ctx_before ctx_after : Addr abi) (r : Report abi) :
    Prop where
  increasing : (r.lines.map fun line => line.addr.toNat).Pairwise (· < ·)
  current : ∃ content, r.lines.filter (·.marked) = [⟨addr, true, content⟩] ∧
    (ReadableLine g_memBlock addr → content = some (words m addr)) ∧
    (¬ ReadableLine g_memBlock addr → content = none)
  before : ∀ k, 1 ≤ k → k ≤ ctx_before.toNat → k * wordLineBytes abi ≤ addr.toNat →
    (∀ j ≤ k, ReadableLine g_memBlock (lineBelow addr j)) →
    ⟨lineBelow addr k, false, some (words m (lineBelow addr k))⟩ ∈ r.lines
  after : ∀ k, 1 ≤ k → k ≤ ctx_after.toNat → (∀ j ≤ k, ReadableLine g_memBlock (lineAt addr j)) →
    ⟨lineAt addr k, false, some (words m (lineAt addr k))⟩ ∈ r.lines
  before_fits : ctx_before.toNat * wordLineBytes abi < 2 ^ abi.bits
  after_fits : ctx_after.toNat * wordLineBytes abi < 2 ^ abi.bits
  counters : ∀ c ∈ r.counters, wordLineBytes abi ≤ c.toNat

/-- The inputs for which the report is good. -/
structure Regular (g_memBlock : List (Block abi)) (m : Addr abi → Byte)
    (addr ctx_before ctx_after : Addr abi) : Prop where
  before_fits : ctx_before.toNat * wordLineBytes abi < 2 ^ abi.bits
  after_fits : ctx_after.toNat * wordLineBytes abi < 2 ^ abi.bits
  before : ∀ k, 1 ≤ k → k ≤ ctx_before.toNat → k * wordLineBytes abi ≤ addr.toNat →
    lineReadable g_memBlock (lineBelow addr k)
  current : lineReadable g_memBlock addr ↔ ReadableLine g_memBlock addr
  after : ∀ k, 1 ≤ k → k ≤ ctx_after.toNat → (∀ j ≤ k, ReadableLine g_memBlock (lineAt addr j)) →
    lineReadable g_memBlock (lineAt addr k)
  top : ∀ k ≤ ctx_after.toNat, (∀ j < k, lineReadable g_memBlock (lineAt addr j)) →
    addr.toNat + k * wordLineBytes abi < 2 ^ abi.bits
  null : ∀ k ≤ ctx_before.toNat, k * wordLineBytes abi = addr.toNat →
    (∀ j ≤ k, ReadableLine g_memBlock (lineBelow addr j)) → words m 0 = zeros abi

variable {addr ctx_before ctx_after : Addr abi} {l l' : Loop abi}

/-- The walk over the lines before the address. -/
abbrev WalksBefore (g_memBlock : List (Block abi)) (m : Addr abi → Byte)
    (addr ctx_before : Addr abi) (l : Loop abi) : Prop :=
  Walks g_memBlock m (linesBefore addr ctx_before)
    (lineBelow addr (linesBefore addr ctx_before)) (zeros abi) l

theorem lineBelow_first (addr ctx_before : Addr abi) :
    (lineBelow addr (linesBefore addr ctx_before)).toNat =
      addr.toNat - linesBefore addr ctx_before * wordLineBytes abi :=
  lineBelow_toNat ((le_linesBefore addr ctx_before _).mp le_rfl).2

theorem WalksBefore.increasing (h : WalksBefore g_memBlock m addr ctx_before l) :
    (l.lines.map fun line => line.addr.toNat).Pairwise (· < ·) ∧ ∀ line ∈ l.lines,
      line.addr.toNat < addr.toNat := by
  obtain ⟨_, hle⟩ := (le_linesBefore addr ctx_before _).mp le_rfl
  have hfirst := lineBelow_first addr ctx_before
  have hstep : ∀ k < l.lines.length, (k + 1) * wordLineBytes abi ≤
      linesBefore addr ctx_before * wordLineBytes abi :=
    fun k hk => Nat.mul_le_mul_right _ ((h.length k).mp hk).1
  have hsucc := fun k => Nat.succ_mul k (wordLineBytes abi)
  have hpos := wordLineBytes_pos abi
  have haddr := addr.isLt
  have hwrap : ∀ k < l.lines.length,
      (lineBelow addr (linesBefore addr ctx_before)).toNat + k *
        wordLineBytes abi < addr.toNat := by
    intro k hk
    have := hstep k hk
    have := hsucc k
    simp only [Nat.succ_eq_add_one] at this
    omega
  refine ⟨Walks.increasing h fun k hk => (hwrap k hk).trans haddr, fun line hmem => ?_⟩
  obtain ⟨k, hline⟩ := List.mem_iff_getElem?.mp hmem
  have hk := (List.getElem?_eq_some_iff.mp hline).1
  rw [(h.line k line hline).1, lineAt_toNat ((hwrap k hk).trans haddr)]
  exact hwrap k hk

/-- A readable line before the address is shown by the finished loop. -/
theorem WalksBefore.shows (h : WalksBefore g_memBlock m addr ctx_before l)
    (hill : l.illegal = false) {k : Nat} (hk : 1 ≤ k)
    (hle : k ≤ linesBefore addr ctx_before) :
    ∃ c, (⟨lineBelow addr k, false, some c⟩ : Line abi) ∈ l.lines ∧
      (lineBelow addr k ≠ 0 → c = words m (lineBelow addr k)) ∧
      (lineBelow addr k = 0 → c = zeros abi) := by
  have hat : lineAt (lineBelow addr (linesBefore addr ctx_before))
      (linesBefore addr ctx_before - k) = lineBelow addr k := by
    rw [lineAt_lineBelow addr (Nat.sub_le _ _), Nat.sub_sub_self hle]
  have hindex : linesBefore addr ctx_before - k < l.lines.length := by
    rw [Walks.length_eq h hill]
    omega
  have hread := h.illegal.mp hill (linesBefore addr ctx_before - k) (by omega)
  obtain ⟨c, hmem, hwords, hfirst⟩ := Walks.shows h hindex hread
  rw [hat] at hmem hwords
  refine ⟨c, hmem, hwords, fun hzero => ?_⟩
  have hall : k = linesBefore addr ctx_before := by
    have hnat := (lineBelow_eq_zero_iff ((le_linesBefore addr ctx_before k).mp hle).2).mp hzero
    have hmul := Nat.mul_le_mul_right (wordLineBytes abi) hle
    have hwindow := ((le_linesBefore addr ctx_before _).mp le_rfl).2
    exact Nat.eq_of_mul_eq_mul_right (wordLineBytes_pos abi) (by omega)
  rw [hfirst (by omega), ← hall, read_memory, if_pos hzero]

/-- The line at address 0 shows the empty buffer. -/
theorem WalksBefore.null (h : WalksBefore g_memBlock m addr ctx_before l) {k : Nat}
    (hk : k * wordLineBytes abi = addr.toNat)
    (hle : k ≤ ctx_before.toNat) {c : List Word}
    (hmem : (⟨0, false, some c⟩ : Line abi) ∈ l.lines) : c = zeros abi := by
  have hlines := (le_linesBefore addr ctx_before k).mpr ⟨hle, hk.le⟩
  obtain ⟨_, hwindow⟩ := (le_linesBefore addr ctx_before _).mp le_rfl
  obtain ⟨i, hline⟩ := List.mem_iff_getElem?.mp hmem
  have hi := ((h.length i).mp (List.getElem?_eq_some_iff.mp hline).1).1
  have haddr := (h.line i _ hline).1
  have hall : linesBefore addr ctx_before = k := by
    have hmul := Nat.mul_le_mul_right (wordLineBytes abi) hlines
    exact Nat.eq_of_mul_eq_mul_right (wordLineBytes_pos abi) (by omega)
  rw [lineAt_lineBelow addr hi.le] at haddr
  have hzero :=
    (lineBelow_eq_zero_iff ((Nat.mul_le_mul_right _ (Nat.sub_le _ _)).trans hwindow)).mp haddr.symm
  have hfirst : linesBefore addr ctx_before - i = k :=
    Nat.eq_of_mul_eq_mul_right (wordLineBytes_pos abi) (by omega)
  obtain rfl : i = 0 := by omega
  rw [h.first _ hline c rfl, read_memory, hall, if_pos ((lineBelow_eq_zero_iff hk.le).mpr hk)]

/-- Behind the lines before it the buffer is empty at address 0. -/
theorem WalksBefore.content (h : WalksBefore g_memBlock m addr ctx_before l) :
    (addr ≠ 0 → read_memory m l.memLine addr = words m addr) ∧
    (addr = 0 → read_memory m l.memLine addr = zeros abi) := by
  constructor
  · exact fun hne => if_neg hne
  · intro hzero
    have hnone : linesBefore addr ctx_before = 0 := by simp [linesBefore, hzero]
    rw [read_memory, if_pos hzero, h.memLine hnone]

/-- The walk over the lines behind the address. -/
abbrev WalksAfter (g_memBlock : List (Block abi)) (m : Addr abi → Byte) (addr ctx_after : Addr abi)
    (memLine : List Word)
    (l : Loop abi) : Prop :=
  Walks g_memBlock m ctx_after.toNat (lineAt addr 1) memLine l

/-- The line is come to when all lines in between are readable. -/
theorem WalksAfter.length {memLine : List Word}
    (h : WalksAfter g_memBlock m addr ctx_after memLine l')
    (hread : lineReadable g_memBlock addr) (k : Nat) :
    k < l'.lines.length ↔ k + 1 ≤ ctx_after.toNat ∧ ∀ j < k + 1,
      lineReadable g_memBlock (lineAt addr j) := by
  rw [Walks.length h k]
  simp only [lineAt_one]
  refine and_congr_right fun _ => ⟨fun hall j hj => ?_, fun hall j hj => hall (j + 1) (by omega)⟩
  cases j with
  | zero => simpa using hread
  | succ j => exact hall j (by omega)

/-- Below the top of the address space the lines behind the address increase. -/
theorem WalksAfter.increasing {memLine : List Word}
    (h : WalksAfter g_memBlock m addr ctx_after memLine l')
    (hread : lineReadable g_memBlock addr)
    (htop : ∀ k ≤ ctx_after.toNat, (∀ j < k, lineReadable g_memBlock (lineAt addr j)) →
      addr.toNat + k * wordLineBytes abi < 2 ^ abi.bits) :
    (l'.lines.map fun line => line.addr.toNat).Pairwise (· < ·) ∧ ∀ line ∈ l'.lines,
      addr.toNat < line.addr.toNat := by
  have hpos := wordLineBytes_pos abi
  have hsucc : ∀ k, (k + 1) * wordLineBytes abi = k * wordLineBytes abi + wordLineBytes abi :=
    fun k => Nat.succ_mul k _
  have hat : ∀ k < l'.lines.length, addr.toNat + (k + 1) * wordLineBytes abi < 2 ^ abi.bits := by
    intro k hk
    obtain ⟨hle, hall⟩ := (h.length hread k).mp hk
    exact htop (k + 1) hle hall
  refine ⟨Walks.increasing h fun k hk => ?_, fun line hmem => ?_⟩
  · have hk' := hat k hk
    have := hsucc k
    rw [lineAt_toNat (by omega), Nat.one_mul]
    omega
  · obtain ⟨k, hline⟩ := List.mem_iff_getElem?.mp hmem
    have hk' := hat k (List.getElem?_eq_some_iff.mp hline).1
    have := hsucc k
    rw [(h.line k line hline).1, lineAt_one, lineAt_toNat hk']
    omega

theorem WalksBefore.illegal_iff (h : WalksBefore g_memBlock m addr ctx_before l) :
    l.illegal = false ↔ ∀ k, 1 ≤ k → k ≤ ctx_before.toNat → k * wordLineBytes abi ≤ addr.toNat →
      lineReadable g_memBlock (lineBelow addr k) := by
  refine h.illegal.trans ⟨fun hall k hk hle hwindow => ?_, fun hall k hk => ?_⟩
  · have hlines := (le_linesBefore addr ctx_before k).mpr ⟨hle, hwindow⟩
    have hread := hall (linesBefore addr ctx_before - k) (by omega)
    rwa [lineAt_lineBelow addr (Nat.sub_le _ _), Nat.sub_sub_self hlines] at hread
  · obtain ⟨hle, hwindow⟩ :=
      (le_linesBefore addr ctx_before (linesBefore addr ctx_before - k)).mp (Nat.sub_le _ _)
    rw [lineAt_lineBelow addr hk.le]
    exact hall _ (by omega) hle hwindow

namespace Regular

variable (hreg : Regular g_memBlock m addr ctx_before ctx_after)
include hreg

theorem shows_before (h : WalksBefore g_memBlock m addr ctx_before l) (hill : l.illegal = false)
    {k : Nat} (hk : 1 ≤ k)
    (hle : k ≤ ctx_before.toNat) (hwindow : k * wordLineBytes abi ≤ addr.toNat)
    (hall : ∀ j ≤ k, ReadableLine g_memBlock (lineBelow addr j)) :
    ⟨lineBelow addr k, false, some (words m (lineBelow addr k))⟩ ∈ l.lines := by
  obtain ⟨c, hmem, hwords, hzeros⟩ :=
    WalksBefore.shows h hill hk ((le_linesBefore addr ctx_before k).mpr ⟨hle, hwindow⟩)
  by_cases hzero : lineBelow addr k = 0
  · have hnull := hreg.null k hle ((lineBelow_eq_zero_iff hwindow).mp hzero) hall
    rw [hzeros hzero, ← hnull] at hmem
    rwa [hzero] at hmem ⊢
  · rwa [hwords hzero] at hmem

theorem shows_current (h : WalksBefore g_memBlock m addr ctx_before l)
    (hread : ReadableLine g_memBlock addr) :
    read_memory m l.memLine addr = words m addr := by
  by_cases hzero : addr = 0
  · have hnull := hreg.null 0 (Nat.zero_le _) (by simp [hzero]) (by simpa using hread)
    rw [(WalksBefore.content h).2 hzero, ← hnull, hzero]
  · exact (WalksBefore.content h).1 hzero

theorem shows_after {memLine : List Word} (h : WalksAfter g_memBlock m addr ctx_after memLine l')
    (hread : lineReadable g_memBlock addr) {k : Nat} (hk : 1 ≤ k) (hle : k ≤ ctx_after.toNat)
    (hall : ∀ j ≤ k, ReadableLine g_memBlock (lineAt addr j)) :
    ⟨lineAt addr k, false, some (words m (lineAt addr k))⟩ ∈ l'.lines := by
  have hlines : ∀ j ≤ k, lineReadable g_memBlock (lineAt addr j) := by
    intro j hj
    cases j with
    | zero => simpa using hread
    | succ j => exact hreg.after (j + 1) (by omega) (by omega) fun i hi => hall i (by omega)
  have htop := hreg.top k hle fun j hj => hlines j hj.le
  have hat : lineAt (lineAt addr 1) (k - 1) = lineAt addr k := by
    rw [lineAt_one, Nat.sub_add_cancel hk]
  have hindex : k - 1 < l'.lines.length :=
    (h.length hread (k - 1)).mpr ⟨by omega, fun j hj => hlines j (by omega)⟩
  obtain ⟨c, hmem, hwords, _⟩ := Walks.shows h hindex (by rw [hat]; exact hlines k le_rfl)
  rw [hat] at hmem hwords
  have hne : lineAt addr k ≠ 0 := by
    intro hzero
    have hnat := congrArg BitVec.toNat hzero
    rw [lineAt_toNat htop] at hnat
    have hmul := Nat.mul_le_mul_right (wordLineBytes abi) hk
    have hpos := wordLineBytes_pos abi
    simp only [BitVec.ofNat_eq_ofNat, BitVec.toNat_ofNat, Nat.zero_mod] at hnat
    omega
  rwa [hwords hne] at hmem

theorem good {r : Report abi} (hw : Written g_memBlock m addr ctx_before ctx_after r) :
    Good g_memBlock m addr ctx_before ctx_after r := by
  cases hw with
  | stopped hl hill => exact absurd ((WalksBefore.illegal_iff hl).mpr hreg.before) (by simp [hill])
  | illegal hl hill hread =>
    obtain ⟨hincreasing, hbelow⟩ := WalksBefore.increasing hl
    have hnot : ¬ ReadableLine g_memBlock addr := fun h => by simp [hreg.current.mpr h] at hread
    refine ⟨?_, ⟨none, ?_, fun h => absurd h hnot, fun _ => rfl⟩, fun k hk hle hwindow hall => ?_,
      fun k _ _ hall => ?_,
      hreg.before_fits, hreg.after_fits, hl.counters⟩
    · rw [List.map_append, List.pairwise_append]
      refine ⟨hincreasing, by simp, fun x hx y hy => ?_⟩
      obtain ⟨line, hmem, rfl⟩ := List.mem_map.mp hx
      obtain rfl : y = addr.toNat := by simpa using hy
      exact hbelow line hmem
    · rw [List.filter_append, hl.unmarked]
      simp
    · exact List.mem_append_left _ (hreg.shows_before hl hill hk hle hwindow hall)
    · exact absurd (by simpa using hall 0 (Nat.zero_le k)) hnot
  | @shown l l' hl hill hread hl' =>
    obtain ⟨hincreasing, hbelow⟩ := WalksBefore.increasing hl
    obtain ⟨hincreasing', habove⟩ := WalksAfter.increasing hl' hread hreg.top
    have hreadable := hreg.current.mp hread
    refine ⟨?_, ⟨some (read_memory m l.memLine addr), ?_,
      fun _ => by rw [hreg.shows_current hl hreadable],
      fun h => absurd hreadable h⟩,
      fun k hk hle hwindow hall => ?_, fun k hk hle hall =>
        ?_, hreg.before_fits, hreg.after_fits, fun c hc => ?_⟩
    · rw [List.map_append, List.map_cons, List.pairwise_append, List.pairwise_cons]
      refine ⟨hincreasing, ⟨fun y hy => ?_, hincreasing'⟩, fun x hx y hy => ?_⟩
      · obtain ⟨line, hmem, rfl⟩ := List.mem_map.mp hy
        exact habove line hmem
      · obtain ⟨line, hmem, rfl⟩ := List.mem_map.mp hx
        have hlt := hbelow line hmem
        obtain rfl | hy := List.mem_cons.mp hy
        · exact hlt
        · obtain ⟨line', hmem', rfl⟩ := List.mem_map.mp hy
          exact hlt.trans (habove line' hmem')
    · rw [List.filter_append, hl.unmarked, List.filter_cons, if_pos rfl, hl'.unmarked]
      rfl
    · exact List.mem_append_left _ (hreg.shows_before hl hill hk hle hwindow hall)
    · exact List.mem_append_right _ (List.mem_cons_of_mem _
        (hreg.shows_after hl' hread hk hle hall))
    · obtain hc | hc := List.mem_append.mp hc
      · exact hl.counters c hc
      · exact hl'.counters c hc

end Regular

namespace Good

/-- Of a report that stops before the address no line is marked. -/
theorem not_stopped {r : Report abi} (hgood : Good g_memBlock m addr ctx_before ctx_after r)
    (hl : WalksBefore g_memBlock m addr ctx_before l) : r.lines ≠ l.lines := by
  intro h
  obtain ⟨content, hmarked, _⟩ := hgood.current
  rw [h, hl.unmarked] at hmarked
  simp at hmarked

/-- Without a shown line at the address nothing is asked behind it. -/
theorem regular_illegal {c : List (Addr abi)} (hl : WalksBefore g_memBlock m addr ctx_before l)
    (hill : l.illegal = false)
    (hread : lineReadable g_memBlock addr = false)
    (hgood : Good g_memBlock m addr ctx_before ctx_after ⟨l.lines ++ [⟨addr, true, none⟩], c⟩) :
    Regular g_memBlock m addr ctx_before ctx_after := by
  obtain ⟨content, hmarked, hcontent, _⟩ := hgood.current
  rw [List.filter_append, hl.unmarked, List.nil_append, List.filter_cons, if_pos rfl,
    List.filter_nil] at hmarked
  obtain rfl : none = content := by simpa using hmarked
  have hnot : ¬ ReadableLine g_memBlock addr := fun h => by simpa using hcontent h
  refine ⟨hgood.before_fits, hgood.after_fits, (WalksBefore.illegal_iff hl).mp hill,
    iff_of_false (by simp [hread]) hnot,
    fun k _ _ hall => ?_, fun k _ hall => ?_, fun k _ _ hall => ?_⟩
  · exact absurd (by simpa using hall 0 (Nat.zero_le k)) hnot
  · cases k with
    | zero => simpa using addr.isLt
    | succ k => simpa [hread] using hall 0 (by omega)
  · exact absurd (by simpa using hall 0 (Nat.zero_le k)) hnot

variable {memLine c : List Word} {ls : List (Line abi)}

/-- The address of the line `j` behind the marked one. -/
theorem addr_at (hl' : WalksAfter g_memBlock m addr ctx_after memLine l') {j : Nat}
    (hj : j ≤ l'.lines.length) :
    ((⟨addr, true, some c⟩ :: l'.lines).map fun line => line.addr.toNat)[j]? =
      some (lineAt addr j).toNat := by
  cases j with
  | zero => simp
  | succ j =>
    obtain ⟨line, hline⟩ : ∃ line, l'.lines[j]? = some line := ⟨_, List.getElem?_eq_getElem hj⟩
    simp only [List.map_cons, List.getElem?_cons_succ, List.getElem?_map, hline, Option.map_some]
    rw [(hl'.line j line hline).1, lineAt_one]

/-- Lines that increase do not wrap around. -/
theorem top (hread : lineReadable g_memBlock addr)
    (hl' : WalksAfter g_memBlock m addr ctx_after memLine l')
    (hincreasing :
      ((ls ++ ⟨addr, true, some c⟩ :: l'.lines).map fun line => line.addr.toNat).Pairwise (· < ·))
    (k : Nat) (hk : k ≤ ctx_after.toNat) (hall : ∀ j < k, lineReadable g_memBlock (lineAt addr j)) :
    addr.toNat + k * wordLineBytes abi < 2 ^ abi.bits := by
  rw [List.map_append, List.pairwise_append] at hincreasing
  induction k with
  | zero => simpa using addr.isLt
  | succ k ih =>
    have hlt := ih (by omega) fun j hj => hall j (by omega)
    have hlen : k < l'.lines.length := (WalksAfter.length hl' hread k).mpr ⟨hk, hall⟩
    obtain ⟨hk₁, heq₁⟩ := List.getElem?_eq_some_iff.mp (addr_at (c := c) (j := k) hl' hlen.le)
    obtain ⟨hk₂, heq₂⟩ := List.getElem?_eq_some_iff.mp (addr_at (c := c) (j := k + 1) hl' hlen)
    have hless := List.pairwise_iff_getElem.mp hincreasing.2.1 k (k + 1) hk₁ hk₂
      (Nat.lt_succ_self k)
    rw [heq₁, heq₂, lineAt_toNat hlt, lineAt, BitVec.toNat_add, BitVec.toNat_ofNat,
      Nat.add_mod_mod] at hless
    have hsucc : (k + 1) * wordLineBytes abi = k * wordLineBytes abi + wordLineBytes abi :=
      Nat.succ_mul k _
    have hword := wordLineBytes_lt abi
    by_contra hwrap
    rw [Nat.mod_eq_sub_mod (by omega), Nat.mod_eq_of_lt (by omega)] at hless
    omega

/-- Readable lines do not wrap around. -/
theorem readable_lt {k : Nat} (hall : ∀ j ≤ k, ReadableLine g_memBlock (lineAt addr j)) :
    addr.toNat + (k + 1) * wordLineBytes abi < 2 ^ abi.bits := by
  have hstep : ∀ j ≤ k, (lineAt addr j).toNat + wordLineBytes abi < 2 ^ abi.bits := by
    intro j hj
    have hlt := Readable.lt (by cases abi <;> decide) (hall j hj)
    have hsize : (BitVec.ofNat 32 (wordLineBytes abi)).toNat = wordLineBytes abi := by
      cases abi <;> rfl
    rwa [hsize] at hlt
  induction k with
  | zero =>
    have := hstep 0 le_rfl
    simpa using this
  | succ k ih =>
    have hlt := ih (fun j hj => hall j (by omega)) fun j hj => hstep j (by omega)
    have hnext := hstep (k + 1) le_rfl
    have hsucc : (k + 1 + 1) * wordLineBytes abi =
        (k + 1) * wordLineBytes abi + wordLineBytes abi := Nat.succ_mul (k + 1) _
    rw [lineAt_toNat hlt] at hnext
    omega

theorem eq_of_lineAt_eq {j k : Nat} (hj : addr.toNat + j * wordLineBytes abi < 2 ^ abi.bits)
    (hk : addr.toNat + k * wordLineBytes abi < 2 ^ abi.bits)
    (h : lineAt addr j = lineAt addr k) : j = k := by
  have hnat := congrArg BitVec.toNat h
  rw [lineAt_toNat hj, lineAt_toNat hk] at hnat
  exact Nat.eq_of_mul_eq_mul_right (wordLineBytes_pos abi) (by omega)

/-- With the line at the address shown, the report says what was readable. -/
theorem regular_shown {cs : List (Addr abi)} (hl : WalksBefore g_memBlock m addr ctx_before l)
    (hill : l.illegal = false)
    (hread : lineReadable g_memBlock addr) (hl' : WalksAfter g_memBlock m addr ctx_after memLine l')
    (hgood : Good g_memBlock m addr ctx_before ctx_after
      ⟨l.lines ++ ⟨addr, true, some (read_memory m l.memLine addr)⟩ :: l'.lines, cs⟩) :
    Regular g_memBlock m addr ctx_before ctx_after := by
  obtain ⟨content, hmarked, hcontent, hnone⟩ := hgood.current
  rw [List.filter_append, hl.unmarked, List.nil_append, List.filter_cons, if_pos rfl,
    hl'.unmarked] at hmarked
  obtain rfl : some (read_memory m l.memLine addr) = content := by simpa using hmarked
  have hreadable : ReadableLine g_memBlock addr := by
    by_contra hnot
    simpa using hnone hnot
  have htop := top hread hl' hgood.increasing
  refine ⟨hgood.before_fits, hgood.after_fits, (WalksBefore.illegal_iff hl).mp hill,
    iff_of_true hread hreadable,
    fun k hk hle hall => ?_, htop, fun k hle hwindow hall => ?_⟩
  · have hsucc : (k + 1) * wordLineBytes abi = k * wordLineBytes abi + wordLineBytes abi :=
      Nat.succ_mul k _
    have hlt := readable_lt hall
    have hmem := hgood.after k hk hle hall
    simp only [List.mem_append, List.mem_cons, Line.mk.injEq, Bool.false_eq_true, false_and,
      and_false, false_or] at hmem
    obtain hmem | hmem := hmem
    · have hbelow := (WalksBefore.increasing hl).2 _ hmem
      simp only [lineAt_toNat (show addr.toNat + k * wordLineBytes abi <
        2 ^ abi.bits by omega)] at hbelow
      omega
    · obtain ⟨i, hline⟩ := List.mem_iff_getElem?.mp hmem
      obtain ⟨hi, hreached⟩ :=
        (WalksAfter.length hl' hread i).mp (List.getElem?_eq_some_iff.mp hline).1
      obtain ⟨haddr, _, hsome, _⟩ := hl'.line i _ hline
      simp only [lineAt_one, Option.isSome_some, true_iff] at haddr hsome
      have hindex : k = i + 1 := eq_of_lineAt_eq (by omega) (htop (i + 1) hi hreached) haddr
      rw [hindex]
      exact hsome
  · cases k with
    | zero =>
      have hzero : addr = 0 := BitVec.eq_of_toNat_eq (by simpa using hwindow.symm)
      have hshown : read_memory m l.memLine addr = words m addr := by simpa using hcontent hreadable
      rw [(WalksBefore.content hl).2 hzero, hzero] at hshown
      exact hshown.symm
    | succ k =>
      have hbelow : lineBelow addr (k + 1) = 0 := (lineBelow_eq_zero_iff hwindow.le).mpr hwindow
      have hmem := hgood.before (k + 1) (by omega) hle hwindow.le hall
      rw [hbelow] at hmem
      simp only [List.mem_append, List.mem_cons, Line.mk.injEq, Bool.false_eq_true, false_and,
        and_false, false_or] at hmem
      obtain hmem | hmem := hmem
      · exact WalksBefore.null hl hwindow hle hmem
      · have habove := (WalksAfter.increasing hl' hread htop).2 _ hmem
        simp at habove

end Good

/-- The report is good exactly for regular inputs. -/
theorem writes_good_iff (g_memBlock : List (Block abi)) (m : Addr abi → Byte)
    (addr ctx_before ctx_after : Addr abi) :
    (∀ turns, ctx_before.toNat < turns → ctx_after.toNat < turns →
      ∃ r, WriteMemoryNearby g_memBlock m turns addr ctx_before ctx_after = some r ∧
        Good g_memBlock m addr ctx_before ctx_after r) ↔
      Regular g_memBlock m addr ctx_before ctx_after := by
  constructor
  · intro h
    obtain ⟨r, hr, hgood⟩ := h (ctx_before.toNat + ctx_after.toNat + 1) (by omega) (by omega)
    obtain ⟨r', hr', hwritten⟩ := @WriteMemoryNearby_written abi g_memBlock m
      (ctx_before.toNat + ctx_after.toNat + 1) addr _ _
      hgood.before_fits hgood.after_fits (by omega) (by omega)
    obtain rfl : r = r' := Option.some.inj (hr.symm.trans hr')
    cases hwritten with
    | stopped hl hill => exact absurd rfl (hgood.not_stopped hl)
    | illegal hl hill hread => exact Good.regular_illegal hl hill hread hgood
    | shown hl hill hread hl' => exact Good.regular_shown hl hill hread hl' hgood
  · intro hreg turns hbefore hafter
    obtain ⟨r, hr, hwritten⟩ :=
      @WriteMemoryNearby_written abi g_memBlock m turns addr _ _ hreg.before_fits hreg.after_fits
      hbefore hafter
    exact ⟨r, hr, hreg.good hwritten⟩

/-- A window strictly inside a block, away from address 0, is regular. -/
theorem regular_of_inside (hsorted : SortedRanges.Sorted (ranges g_memBlock)) {b : Block abi}
    (hb : b ∈ g_memBlock)
    (hstart : 0 < b.m_pStart.toNat)
    (hlow : b.m_pStart.toNat + ctx_before.toNat * wordLineBytes abi ≤ addr.toNat)
    (hhigh : addr.toNat + (ctx_after.toNat + 1) * wordLineBytes abi < b.m_pEnd.toNat) :
    Regular g_memBlock m addr ctx_before ctx_after := by
  have hend := b.m_pEnd.isLt
  have hsucc : ∀ k, (k + 1) * wordLineBytes abi = k * wordLineBytes abi + wordLineBytes abi :=
    fun k => Nat.succ_mul k _
  have hafter := hsucc ctx_after.toNat
  have hsize : (BitVec.ofNat 32 (wordLineBytes abi)).toNat = wordLineBytes abi := by
    cases abi <;> rfl
  have hinside : ∀ a : Addr abi, b.m_pStart.toNat ≤ a.toNat →
      a.toNat + wordLineBytes abi < b.m_pEnd.toNat →
      InsideBlock g_memBlock a (BitVec.ofNat 32 (wordLineBytes abi)) := by
    intro a hle hlt
    exact ⟨b, hb, hle, by rw [hsize]; exact hlt⟩
  have hread : ∀ a : Addr abi, b.m_pStart.toNat ≤ a.toNat →
      a.toNat + wordLineBytes abi < b.m_pEnd.toNat →
      lineReadable g_memBlock a :=
    fun a hle hlt => (hinside a hle hlt).isReadable (by cases abi <;> decide) hsorted
  have htop : ∀ k ≤ ctx_after.toNat, addr.toNat + k * wordLineBytes abi + wordLineBytes abi <
      b.m_pEnd.toNat := by
    intro k hk
    have := Nat.mul_le_mul_right (wordLineBytes abi) hk
    omega
  have hcurrent := htop 0 (Nat.zero_le _)
  refine ⟨by omega, by omega, fun k hk hle hwindow => ?_, ?_, fun k hk hle _ => ?_,
    fun k hle _ => ?_, fun k hle hwindow _ => ?_⟩
  · have := Nat.mul_le_mul_right (wordLineBytes abi) hle
    have hat := lineBelow_toNat hwindow
    exact hread _ (by omega) (by omega)
  · exact iff_of_true (hread addr (by omega) (by omega))
      (hinside addr (by omega) (by omega)).readable
  · have hlt := htop k hle
    have hat := lineAt_toNat (show addr.toNat + k * wordLineBytes abi < 2 ^ abi.bits by omega)
    exact hread _ (by omega) (by omega)
  · have := htop k hle
    omega
  · have := Nat.mul_le_mul_right (wordLineBytes abi) hle
    omega

/-- Five lines before the second word of a mapping: the first of them is illegal,
and the report ends with it. -/
theorem writes_nothing_at_start :
    WriteMemoryNearby threePages (fun _ => 0) 11 0x1004 5 10 = some ⟨[⟨0xff0, false, none⟩], []⟩ ∧
      ReadableLine threePages 0x1004 ∧
      ¬ ∃ r, WriteMemoryNearby threePages (fun _ => 0) 11 0x1004 5 10 = some r ∧
      Good threePages (fun _ => 0) 0x1004 5 10 r := by
  have hreport : WriteMemoryNearby threePages (fun _ => 0) 11 0x1004 5 10 =
      some ⟨[⟨0xff0, false, none⟩], []⟩ := by
    decide
  refine ⟨hreport, threePages_readable (by decide) (by decide), ?_⟩
  rintro ⟨r, hr, hgood⟩
  obtain rfl := Option.some.inj (hreport.symm.trans hr)
  obtain ⟨content, hmarked, _⟩ := hgood.current
  simp at hmarked

end MemoryNearby
