import AndroidWork.UnicodeForms

/-!
# The texts of the exception handler

`utf16_to_utf8` and the four setters of `ExceptionHandler` that store a text in
a new buffer. The buffer is sized in UTF-16 units; the converter looks at the
space left only before a character.
-/
namespace ExceptionHandlerText

open UnicodeForms

abbrev Word := BitVec 32

def kFirstByteMark : List Word := [0x00000000, 0x00000000, 0x000000C0, 0x000000E0, 0x000000F0]
def kByteMask : Word := 0x000000BF
def kByteMark : Word := 0x00000080
def kUnicodeSurrogateStart : Word := 0x0000D800
def kUnicodeSurrogateEnd : Word := 0x0000DFFF
def kUnicodeMaxCodepoint : Word := 0x0010FFFF

/-- `*--dstP` of the cases 4, 3 and 2. -/
def following (srcChar : Word) : Byte := ((srcChar ||| kByteMark) &&& kByteMask).setWidth 8

/-- `utf32_to_utf8`: the bytes written from `dstP` on. -/
def utf32ToUtf8 (srcChar : Word) (bytes : Nat) : List Byte :=
  let mark := kFirstByteMark.getD bytes 0
  match bytes with
  | 4 => [(srcChar >>> 6 >>> 6 >>> 6 ||| mark).setWidth 8, following (srcChar >>> 6 >>> 6),
      following (srcChar >>> 6), following srcChar]
  | 3 => [(srcChar >>> 6 >>> 6 ||| mark).setWidth 8, following (srcChar >>> 6), following srcChar]
  | 2 => [(srcChar >>> 6 ||| mark).setWidth 8, following srcChar]
  | 1 => [(srcChar ||| mark).setWidth 8]
  | _ => []

/-- `utf32_to_utf8_bytes`: 0 for a surrogate and above the last code point. -/
def utf32ToUtf8Bytes (srcChar : Word) : Nat :=
  if srcChar < 0x00000080 then 1
  else if srcChar < 0x00000800 then 2
  else if srcChar < 0x00010000 then
    if srcChar < kUnicodeSurrogateStart ∨ srcChar > kUnicodeSurrogateEnd then 3 else 0
  else if srcChar ≤ kUnicodeMaxCodepoint then 4
  else 0

/-- What a surrogate and the unit behind it, whatever that is, are read as. -/
def pair (high low : Unit16) : Word :=
  ((high.setWidth 32 - 0xD800) <<< 10 ||| (low.setWidth 32 - 0xDC00)) + 0x10000

def emit (utf32 : Word) : List Byte := utf32ToUtf8 utf32 (utf32ToUtf8Bytes utf32)

/-- The loop of `utf16_to_utf8`: `out` is what lies between `dst` and `cur`. -/
def convert (dstLen : Nat) : List Unit16 → List Byte → List Byte
  | [], out => out
  | [u], out => if out.length < dstLen then out ++ emit (u.setWidth 32) else out
  | u :: low :: rest, out =>
    if out.length < dstLen then
      if u &&& 0xFC00 = 0xD800 then convert dstLen rest (out ++ emit (pair u low))
      else convert dstLen (low :: rest) (out ++ emit (u.setWidth 32))
    else out

/-- `utf16_to_utf8`: every byte written from `dst` on, and the returned length. -/
def utf16ToUtf8 (src : List Unit16) (dstLen : Nat) : List Byte × Nat :=
  if src.length = 0 ∨ dstLen = 0 then ([], 0)
  else
    let out := convert dstLen src []
    (if out.length < dstLen then out ++ [0] else out, out.length)

/-- A string and its length, which the callers pass as a `uint32_t`. -/
structure Str16 where
  units : List Unit16
  fits : units.length < 2 ^ 32

def Str16.size (s : Str16) : Word := BitVec.ofNat 32 s.units.length

/-- A zeroed allocation and what was written from its start on. -/
structure Buffer where
  size : Nat
  written : List Byte

/-- `new char[size + 1]`, `memset` and the conversion. -/
def store (str16 : Str16) : Buffer :=
  ⟨(str16.size + 1).toNat, (utf16ToUtf8 str16.units str16.size.toNat).1⟩

/-- The bytes of the allocation. -/
def Buffer.contents (b : Buffer) : List Byte :=
  b.written.take b.size ++ List.replicate (b.size - b.written.length) 0

structure ExceptionHandler where
  anrSavePath : Option Buffer
  crashSavePath : Option Buffer
  packageName : Option Buffer
  headInfo : Option Buffer

def setAnrLogSavePath (h : ExceptionHandler) (str16 : Str16) : ExceptionHandler :=
  { h with anrSavePath := some (store str16) }

def setCrashLogSavePath (h : ExceptionHandler) (str16 : Str16) : ExceptionHandler :=
  { h with crashSavePath := some (store str16) }

def setPackageName (h : ExceptionHandler) (str16 : Str16) : ExceptionHandler :=
  { h with packageName := some (store str16) }

def setHeadInfo (h : ExceptionHandler) (head : Str16) : ExceptionHandler :=
  { h with headInfo := some (store head) }

/-- The setters, each with the field it sets. -/
inductive Setter where
  | anrLogSavePath
  | crashLogSavePath
  | packageName
  | headInfo
  deriving DecidableEq, Repr

def Setter.call : Setter → ExceptionHandler → Str16 → ExceptionHandler
  | .anrLogSavePath => setAnrLogSavePath
  | .crashLogSavePath => setCrashLogSavePath
  | .packageName => setPackageName
  | .headInfo => setHeadInfo

def Setter.field (h : ExceptionHandler) : Setter → Option Buffer
  | .anrLogSavePath => h.anrSavePath
  | .crashLogSavePath => h.crashSavePath
  | .packageName => h.packageName
  | .headInfo => h.headInfo

/-- Nothing is written outside the allocation. -/
def Buffer.InBounds (b : Buffer) : Prop := b.written.length ≤ b.size

/-- The allocation starts with the UTF-8 of the text that the units spell and a
NUL, and was not left. -/
def Buffer.Holds (b : Buffer) (us : List Unit16) : Prop :=
  b.InBounds ∧ ∃ cs, us = utf16 cs ∧ utf8 cs ++ [0] <+: b.contents

theorem Setter.field_call (k : Setter) (h : ExceptionHandler) (s : Str16) :
    k.field (k.call h s) = some (store s) := by
  cases k <;> rfl

/-- The other fields stay. -/
theorem Setter.field_call_of_ne {k l : Setter} (h : ExceptionHandler) (s : Str16) (hne : l ≠ k) :
    l.field (k.call h s) = l.field h := by
  cases k <;> cases l <;> first | rfl | exact absurd rfl hne

theorem Str16.size_toNat (s : Str16) : s.size.toNat = s.units.length := by
  rw [Str16.size, BitVec.toNat_ofNat, Nat.mod_eq_of_lt s.fits]

theorem store_size (s : Str16) : (store s).size = (s.units.length + 1) % 2 ^ 32 := by
  rw [store, BitVec.toNat_add, s.size_toNat]
  rfl

theorem byte_following (b : Byte) :
    (b ||| 0x80) &&& 0xBF = BitVec.ofNat 8 (b.toNat % 64 + 128) := by
  revert b
  decide

theorem following_eq (w : Word) : following w = BitVec.ofNat 8 (w.toNat % 64 + 128) := by
  have h := byte_following (w.setWidth 8)
  rw [BitVec.toNat_setWidth, Nat.mod_mod_of_dvd _ (by decide : 64 ∣ 2 ^ 8)] at h
  rw [following, BitVec.setWidth_and, BitVec.setWidth_or]
  exact h

theorem byte_lead (b : Byte) : (b ||| 0 = b) ∧
    (b.toNat < 32 → b ||| 0xC0 = BitVec.ofNat 8 (b.toNat + 0xC0)) ∧
    (b.toNat < 16 → b ||| 0xE0 = BitVec.ofNat 8 (b.toNat + 0xE0)) ∧
    (b.toNat < 8 → b ||| 0xF0 = BitVec.ofNat 8 (b.toNat + 0xF0)) := by
  revert b
  decide

theorem setWidth_small {w : Word} (h : w.toNat < 256) : (w.setWidth 8).toNat = w.toNat := by
  rw [BitVec.toNat_setWidth, Nat.mod_eq_of_lt h]

/-- The bits of the first byte, below the mark of its length. -/
theorem lead_eq (w : Word) :
    (w.toNat < 128 → (w ||| kFirstByteMark.getD 1 0).setWidth 8 = BitVec.ofNat 8 w.toNat) ∧
    (w.toNat < 32 → (w ||| kFirstByteMark.getD 2 0).setWidth 8 = BitVec.ofNat 8 (w.toNat + 0xC0)) ∧
    (w.toNat < 16 → (w ||| kFirstByteMark.getD 3 0).setWidth 8 = BitVec.ofNat 8 (w.toNat + 0xE0)) ∧
    (w.toNat < 8 → (w ||| kFirstByteMark.getD 4 0).setWidth 8 =
      BitVec.ofNat 8 (w.toNat + 0xF0)) := by
  obtain ⟨h₁, h₂, h₃, h₄⟩ := byte_lead (w.setWidth 8)
  refine ⟨fun h => ?_, fun h => ?_, fun h => ?_, fun h => ?_⟩
  · rw [BitVec.setWidth_or, ← BitVec.ofNat_toNat]
    exact h₁
  · rw [setWidth_small (by omega)] at h₂
    rw [BitVec.setWidth_or]
    exact h₂ h
  · rw [setWidth_small (by omega)] at h₃
    rw [BitVec.setWidth_or]
    exact h₃ h
  · rw [setWidth_small (by omega)] at h₄
    rw [BitVec.setWidth_or]
    exact h₄ h

theorem shift_six (w : Word) : (w >>> 6).toNat = w.toNat / 64 := by
  rw [BitVec.toNat_ushiftRight, Nat.shiftRight_eq_div_pow]

theorem char_valid (c : Char) : c.toNat < 0xd800 ∨ 0xdfff < c.toNat ∧ c.toNat < 0x110000 := c.valid

theorem word_toNat (c : Char) : (BitVec.ofNat 32 c.toNat).toNat = c.toNat := by
  have := char_valid c
  rw [BitVec.toNat_ofNat]
  omega

theorem utf32ToUtf8Bytes_char (c : Char) :
    utf32ToUtf8Bytes (BitVec.ofNat 32 c.toNat) = c.utf8Size := by
  have hvalid := char_valid c
  rw [utf32ToUtf8Bytes, utf8Size_eq]
  simp only [BitVec.lt_def, BitVec.le_def, gt_iff_lt, kUnicodeSurrogateStart, kUnicodeSurrogateEnd,
    kUnicodeMaxCodepoint, BitVec.ofNat_eq_ofNat, BitVec.toNat_ofNat]
  split_ifs <;> omega

/-- A code point becomes its UTF-8 bytes. -/
theorem emit_char (c : Char) : emit (BitVec.ofNat 32 c.toNat) = bytes c := by
  have hvalid := char_valid c
  have hw := word_toNat c
  rw [emit, utf32ToUtf8Bytes_char, utf8Size_eq, bytes, String.utf8EncodeChar]
  generalize BitVec.ofNat 32 c.toNat = w at hw
  have h₁ := shift_six w
  have h₂ := shift_six (w >>> 6)
  have h₃ := shift_six (w >>> 6 >>> 6)
  obtain ⟨hlead₁, -⟩ := lead_eq w
  obtain ⟨-, hlead₂, -⟩ := lead_eq (w >>> 6)
  obtain ⟨-, -, hlead₃, -⟩ := lead_eq (w >>> 6 >>> 6)
  obtain ⟨-, -, -, hlead₄⟩ := lead_eq (w >>> 6 >>> 6 >>> 6)
  simp only [show c.val.toNat = c.toNat from rfl, ← hw]
  by_cases hone : w.toNat ≤ 0x7f
  · rw [if_pos hone, if_pos hone]
    simp only [utf32ToUtf8, List.map_cons, List.map_nil]
    rw [hlead₁ (by omega)]
    rfl
  rw [if_neg hone, if_neg hone]
  by_cases htwo : w.toNat ≤ 0x7ff
  · rw [if_pos htwo, if_pos htwo]
    simp only [utf32ToUtf8, List.map_cons, List.map_nil, following_eq]
    rw [hlead₂ (by omega), h₁, Nat.mod_eq_of_lt (show w.toNat / 64 < 0x20 by omega)]
    rfl
  rw [if_neg htwo, if_neg htwo]
  by_cases hthree : w.toNat ≤ 0xffff
  · rw [if_pos hthree, if_pos hthree]
    simp only [utf32ToUtf8, List.map_cons, List.map_nil, following_eq]
    rw [hlead₃ (by omega), h₂, h₁, Nat.div_div_eq_div_mul,
      Nat.mod_eq_of_lt (show w.toNat / 4096 < 0x10 by omega)]
    rfl
  · rw [if_neg hthree, if_neg hthree]
    simp only [utf32ToUtf8, List.map_cons, List.map_nil, following_eq]
    rw [hlead₄ (by omega), h₃, h₂, h₁, show w.toNat / 64 / 64 / 64 = w.toNat / 262144 by omega,
      show w.toNat / 64 / 64 = w.toNat / 4096 by
        omega, Nat.mod_eq_of_lt (show w.toNat / 262144 < 8 by omega)]
    rfl

theorem high_six (u : Unit16) : u &&& 0xFC00#16 = (u >>> 10) <<< 10 := by
  ext i hi
  simp only [BitVec.getElem_and, BitVec.getElem_shiftLeft]
  interval_cases i <;> simp

theorem surrogate_iff (u : Unit16) : u &&& 0xFC00 = 0xD800 ↔ u.toNat / 0x400 = 0x36 := by
  have h : (u &&& 0xFC00#16).toNat = u.toNat / 0x400 * 0x400 := by
    rw [high_six, BitVec.toNat_shiftLeft, BitVec.toNat_ushiftRight,
      Nat.shiftRight_eq_div_pow, Nat.shiftLeft_eq]
    have := u.isLt
    omega
  rw [← BitVec.toNat_inj]
  simp only [BitVec.ofNat_eq_ofNat, h, BitVec.toNat_ofNat]
  omega

/-- A surrogate pair becomes its code point. -/
theorem pair_eq {v : Nat} (h : v < 0x100000) :
    pair (BitVec.ofNat 16 (0xd800 + v / 0x400)) (BitVec.ofNat 16 (0xdc00 + v % 0x400)) =
      BitVec.ofNat 32 (v + 0x10000) := by
  have hhigh : (BitVec.ofNat 16 (0xd800 + v / 0x400)).setWidth 32 - 0xD800 =
      BitVec.ofNat 32 (v / 0x400) := by
    apply BitVec.eq_of_toNat_eq
    simp only [BitVec.toNat_sub, BitVec.toNat_setWidth, BitVec.ofNat_eq_ofNat, BitVec.toNat_ofNat]
    omega
  have hlow : (BitVec.ofNat 16 (0xdc00 + v % 0x400)).setWidth 32 - 0xDC00 =
      BitVec.ofNat 32 (v % 0x400) := by
    apply BitVec.eq_of_toNat_eq
    simp only [BitVec.toNat_sub, BitVec.toNat_setWidth, BitVec.ofNat_eq_ofNat, BitVec.toNat_ofNat]
    omega
  have hor : BitVec.ofNat 32 (v / 0x400) <<< 10 ||| BitVec.ofNat 32 (v % 0x400) =
      BitVec.ofNat 32 v := by
    apply BitVec.eq_of_toNat_eq
    simp only [BitVec.toNat_or, BitVec.toNat_shiftLeft, BitVec.toNat_ofNat, Nat.shiftLeft_eq]
    rw [Nat.mod_eq_of_lt (show v / 0x400 < 2 ^ 32 by omega),
      Nat.mod_eq_of_lt (show v < 2 ^ 32 by omega),
      Nat.mod_eq_of_lt (show v / 0x400 * 2 ^ 10 < 2 ^ 32 by omega),
      Nat.mod_eq_of_lt (show v % 0x400 < 2 ^ 32 by omega), Nat.mul_comm,
      ← Nat.two_pow_add_eq_or_of_lt (show v % 0x400 < 2 ^ 10 from Nat.mod_lt _ (by decide))]
    omega
  rw [pair, hhigh, hlow, hor, BitVec.ofNat_add]
  rfl

theorem convert_single (dstLen : Nat) {u : Unit16} (hu : u &&& 0xFC00 ≠ 0xD800) (rest : List Unit16)
    (out : List Byte) : convert dstLen (u :: rest) out =
      if out.length < dstLen then convert dstLen rest (out ++ emit (u.setWidth 32)) else out := by
  cases rest with
  | nil => simp only [convert]
  | cons low rest => rw [convert, if_neg hu]

/-- One character of the loop. -/
theorem convert_char (dstLen : Nat) (c : Char) (rest : List Unit16) (out : List Byte) :
    convert dstLen (units c ++ rest) out =
      if out.length < dstLen then convert dstLen rest (out ++ bytes c) else out := by
  have hvalid := char_valid c
  rw [← emit_char c, units]
  by_cases hc : c.toNat < 0x10000
  · have hu : BitVec.ofNat 16 c.toNat &&& 0xFC00 ≠ 0xD800 := by
      rw [ne_eq, surrogate_iff, BitVec.toNat_ofNat]
      omega
    rw [if_pos hc, List.singleton_append, convert_single dstLen hu]
    congr 4
    apply BitVec.eq_of_toNat_eq
    rw [BitVec.toNat_setWidth, BitVec.toNat_ofNat, BitVec.toNat_ofNat]
    omega
  · have hhigh : BitVec.ofNat 16 (0xd800 + (c.toNat - 0x10000) / 0x400) &&& 0xFC00 = 0xD800 := by
      rw [surrogate_iff, BitVec.toNat_ofNat]
      omega
    rw [if_neg hc, List.cons_append, List.cons_append, List.nil_append, convert, if_pos hhigh,
      pair_eq (by omega),
      Nat.sub_add_cancel (by omega)]

/-- The characters begun while there is space. -/
def begun (dstLen : Nat) : List Char → Nat → List Char
  | [], _ => []
  | c :: cs, n => if n < dstLen then c :: begun dstLen cs (n + (bytes c).length) else []

/-- The converter writes the UTF-8 of the characters it begins. -/
theorem convert_utf16 (dstLen : Nat) (cs : List Char) (out : List Byte) :
    convert dstLen (utf16 cs) out = out ++ utf8 (begun dstLen cs out.length) := by
  induction cs generalizing out with
  | nil =>
    rw [begun]
    exact (List.append_nil out).symm
  | cons c cs ih =>
    rw [utf16_cons, convert_char, begun]
    by_cases hout : out.length < dstLen
    · rw [if_pos hout, if_pos hout, ih, List.length_append, utf8_cons, List.append_assoc]
    · rw [if_neg hout, if_neg hout]
      exact (List.append_nil out).symm

/-- With space for all their bytes every character is begun. -/
theorem begun_whole {dstLen : Nat} {cs : List Char} {n : Nat}
    (hspace : n + (utf8 cs).length ≤ dstLen) :
    begun dstLen cs n = cs := by
  induction cs generalizing n with
  | nil => rfl
  | cons c cs ih =>
    have hpos := bytes_pos c
    rw [utf8_cons, List.length_append] at hspace
    rw [begun, if_pos (by omega), ih (by omega)]

theorem begun_ascii {dstLen : Nat} {cs : List Char} (hascii : ∀ c ∈ cs, c.toNat < 0x80) {n : Nat}
    (hspace : n + cs.length ≤ dstLen) : begun dstLen cs n = cs := by
  have hlen : (utf8 cs).length = cs.length := by
    clear hspace
    induction cs with
    | nil => rfl
    | cons c cs ih =>
      obtain ⟨hc, hcs⟩ := List.forall_mem_cons.mp hascii
      rw [utf8_cons, bytes_of_ascii hc, List.length_append, ih hcs, List.length_singleton,
        List.length_cons, Nat.add_comm]
  exact begun_whole (by rw [hlen]; exact hspace)

/-- Of an ASCII string every unit is stored, and nothing behind it. -/
theorem store_ascii (s : Str16) (h : ∀ u ∈ s.units, u.toNat < 0x80) :
    (store s).written = utf8 (s.units.map ascii) ∧ (store s).written.length = s.units.length := by
  have hascii : ∀ c ∈ s.units.map ascii, c.toNat < 0x80 := by
    intro c hc
    obtain ⟨u, hu, rfl⟩ := List.mem_map.mp hc
    rw [ascii_toNat (h u hu)]
    exact h u hu
  have hlen : (utf8 (s.units.map ascii)).length = s.units.length := by
    have hle := (utf8_length_le_iff _).mpr hascii
    have hge := utf16_length_le (s.units.map ascii)
    rw [utf16_ascii h] at hle hge
    omega
  have hwritten : (store s).written = utf8 (s.units.map ascii) := by
    rw [store, s.size_toNat, utf16ToUtf8]
    by_cases hnil : s.units.length = 0
    · rw [if_pos (.inl hnil), List.length_eq_zero_iff.mp hnil]
      rfl
    · have hconvert : convert s.units.length s.units [] = utf8 (s.units.map ascii) := by
        have := convert_utf16 s.units.length (s.units.map ascii) []
        rwa [utf16_ascii h, begun_ascii hascii (by simp), List.nil_append] at this
      rw [if_neg (by simpa using hnil)]
      simp only [hconvert, hlen, lt_irrefl, if_false]
  exact ⟨hwritten, hwritten ▸ hlen⟩

theorem Buffer.contents_length (b : Buffer) : b.contents.length = b.size := by
  rw [Buffer.contents, List.length_append, List.length_take, List.length_replicate]
  omega

/-- What a setter stores is the UTF-8 of the string and a NUL, inside the
buffer, exactly for ASCII strings whose length plus one is a `uint32_t`. -/
theorem setter_holds_iff (k : Setter) (h : ExceptionHandler) (s : Str16) :
    (∃ b, k.field (k.call h s) = some b ∧ b.Holds s.units) ↔
      (∀ u ∈ s.units, u.toNat < 0x80) ∧ s.units.length + 1 < 2 ^ 32 := by
  rw [k.field_call h s]
  constructor
  · rintro ⟨b, hb, -, cs, hcs, hprefix⟩
    obtain rfl := Option.some.inj hb
    have hlen := hprefix.length_le
    rw [Buffer.contents_length, store_size, List.length_append, List.length_singleton] at hlen
    have hmod := Nat.mod_le (s.units.length + 1) (2 ^ 32)
    have hascii : ∀ c ∈ cs, c.toNat < 0x80 := by
      rw [← utf8_length_le_iff, ← hcs]
      omega
    constructor
    · intro u hu
      rw [hcs] at hu
      obtain ⟨c, hc, hu⟩ := List.mem_flatMap.mp hu
      exact units_below hu (hascii c hc)
    · by_contra hlong
      have hfull : s.units.length + 1 = 2 ^ 32 := by have := s.fits; omega
      rw [hfull] at hlen
      omega
  · rintro ⟨hascii, hshort⟩
    obtain ⟨hwritten, hlen⟩ := store_ascii s hascii
    have hsize : (store s).size = s.units.length + 1 := by
      rw [store_size, Nat.mod_eq_of_lt hshort]
    refine ⟨store s, rfl, ?_, s.units.map ascii, (utf16_ascii hascii).symm, ?_⟩
    · rw [Buffer.InBounds, hlen, hsize]
      exact Nat.le_succ _
    · rw [Buffer.contents, hsize, hlen,
        List.take_of_length_le (by rw [hlen]; exact Nat.le_succ _), hwritten,
        Nat.add_sub_cancel_left]
      exact List.prefix_rfl

/-- `utf16_to_utf8` with lengths of `w` bits: `uint32_t` in the crash collector,
`size_t` in the memory checker. -/
def utf16_to_utf8 (w : Nat) (src : List Unit16) (dst_len : BitVec w) : List Byte × BitVec w :=
  let done := utf16ToUtf8 src dst_len.toNat
  (done.1, BitVec.ofNat w done.2)

theorem utf16ToUtf8_whole {cs : List Char} (hcs : cs ≠ []) {dstLen : Nat}
    (hspace : (utf8 cs).length < dstLen) :
    utf16ToUtf8 (utf16 cs) dstLen = (utf8 cs ++ [0], (utf8 cs).length) := by
  have hunits : (utf16 cs).length ≠ 0 := by
    obtain ⟨c, cs', rfl⟩ := List.exists_cons_of_ne_nil hcs
    have hpos := units_pos c
    rw [utf16_cons, List.length_append]
    omega
  have hconvert : convert dstLen (utf16 cs) [] = utf8 cs := by
    rw [convert_utf16, begun_whole (by simpa using hspace.le), List.nil_append]
  rw [utf16ToUtf8, if_neg (by omega)]
  simp only [hconvert, if_pos hspace]

/-- The whole text is written as UTF-8 with a NUL behind it, and reads back. -/
theorem utf16_to_utf8_whole (w : Nat) (cs : List Char) (hcs : cs ≠ []) (dst_len : BitVec w)
    (hlen : 3 * (utf16 cs).length + 1 ≤ dst_len.toNat) :
    (utf16_to_utf8 w (utf16 cs) dst_len).1 = utf8 cs ++ [0] ∧
      (utf16_to_utf8 w (utf16 cs) dst_len).2.toNat = (utf8 cs).length ∧
      (utf8 cs ++ [0]).length ≤ dst_len.toNat ∧ decodeUtf8 (utf8 cs) = some cs := by
  have hle := utf8_length_le cs
  have hlt := dst_len.isLt
  rw [utf16_to_utf8, utf16ToUtf8_whole hcs (by omega)]
  refine ⟨rfl, ?_, ?_, decodeUtf8_utf8 cs⟩
  · rw [BitVec.toNat_ofNat, Nat.mod_eq_of_lt (by omega)]
  · rw [List.length_append, List.length_singleton]
    omega

/-- A letter, a sign of two bytes, one of three and a surrogate pair. -/
theorem utf16_to_utf8_whole_mixed :
    (utf16_to_utf8 32 (utf16 ['a', 'é', '中', '😀']) 16).1 =
        [0x61, 0xC3, 0xA9, 0xE4, 0xB8, 0xAD, 0xF0, 0x9F, 0x98, 0x80] ++ [0] ∧
      (utf16_to_utf8 32 (utf16 ['a', 'é', '中', '😀']) 16).2.toNat = 10 ∧ 11 ≤ 16 ∧
      decodeUtf8 (utf8 ['a', 'é', '中', '😀']) = some ['a', 'é', '中', '😀'] :=
  utf16_to_utf8_whole 32 ['a', 'é', '中', '😀'] (by decide) 16 (by decide)

/-- The string of the one character U+4E2D. -/
def oneHan : Str16 := ⟨[0x4E2D], by decide⟩

/-- Its three bytes are written to an allocation of two. -/
theorem setter_holds_oneHan :
    Setter.headInfo.field (setHeadInfo ⟨none, none, none, none⟩ oneHan) =
      some ⟨2, [0xE4, 0xB8, 0xAD]⟩ ∧
    ¬ ∃ b, Setter.headInfo.field (setHeadInfo ⟨none, none, none, none⟩ oneHan) = some b ∧
      b.Holds oneHan.units := by
  have hstored : Setter.headInfo.field (setHeadInfo ⟨none, none, none, none⟩ oneHan) =
      some ⟨2, [0xE4, 0xB8, 0xAD]⟩ := by
    simp only [Setter.field, setHeadInfo, store]
    rfl
  refine ⟨hstored, ?_⟩
  rintro ⟨b, hb, hin, -⟩
  obtain rfl := Option.some.inj (hstored.symm.trans hb)
  exact absurd (show 3 ≤ 2 from hin) (by decide)

end ExceptionHandlerText
