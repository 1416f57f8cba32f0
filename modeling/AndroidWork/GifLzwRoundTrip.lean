import AndroidWork.GifLzwBytes
import AndroidWork.GifLzwSafety

/-!
# Decoding what the compressor writes

The decoder follows the codes of `LzwParse`. Before a phrase its table holds all
words but the last one, whose last symbol is the phrase's first.
-/
namespace GifLzwDecoder

open BitPacking (pack size bytesValue)
open Lzw (Usable Descends Spells)
open LzwParse (Known Closed codeOf codes width finalLength phrases)
open GifLzwEncoder (byteSym limit)
open SubBlocks (Blocks)

/-- The fields that reading codes changes. -/
def Decoder.fed (s : Decoder) (r : Reader) (block : List Byte) (datum : BitVec 32)
    (bits : Nat) : Decoder :=
  { s with reader := r, block := block, datum := datum, bits := bits }

/-- The decoder still has `room` bits before it, which spell `v`; `rest` follows
the blocks. -/
structure Holds (rest : List Byte) (v room : Nat) (s : Decoder) : Prop where
  bits : s.bits < 24
  datum : s.datum.toNat < 2 ^ s.bits
  error : s.reader.formatError = false
  data : ∃ data, Blocks s.reader.bytes data rest ∧
    s.datum.toNat + 2 ^ s.bits * bytesValue (s.block ++ data) = v ∧
    s.bits + 8 * (s.block ++ data).length = room

section

variable {k : Params} {s : Decoder} {rest : List Byte} {v room : Nat}

theorem readBlock_block {source : Source} {size : Byte} {chunk bytes : List Byte}
    (hpos : chunk ≠ [])
    (hsize : chunk.length = size.toNat) :
    (⟨source, size :: (chunk ++ bytes), false⟩ : Reader).readBlock =
      (chunk, ⟨source, bytes, false⟩) := by
  have hlen := List.length_pos_iff.mpr hpos
  have hsize' : 0 < (size.toNat : Int) := by omega
  have hle : (size.toNat : Int) ≤ (chunk ++ bytes).length := by
    rw [List.length_append]
    omega
  have htake : (chunk ++ bytes).take size.toNat = chunk := by rw [← hsize, List.take_left]
  have hdrop : (chunk ++ bytes).drop size.toNat = bytes := by rw [← hsize, List.drop_left]
  cases source with
  | stream =>
    simp only [Reader.readBlock, Reader.read, hsize', if_true, Int.toNat_natCast, htake, hdrop]
    simpa using hle
  | rawData =>
    simp only [Reader.readBlock, Reader.read, hsize', if_true, Int.toNat_natCast, htake, hdrop, hle]

/-- Reading a block takes it off the data. -/
theorem readBlock_blocks {r : Reader} {data : List Byte} (hb : Blocks r.bytes data rest)
    (herr : r.formatError = false) :
    (data = [] ∧ r.readBlock.1 = []) ∨
      ∃ chunk more bytes, chunk ≠ [] ∧ data = chunk ++ more ∧ Blocks bytes more rest ∧
        r.readBlock = (chunk, { r with bytes := bytes }) := by
  obtain ⟨source, bytes, error⟩ := r
  simp only at hb herr
  subst herr
  cases hb with
  | stop rest => exact .inl ⟨rfl, rfl⟩
  | @block bytes more rest size chunk hpos hsize h =>
    exact .inr ⟨chunk, more, bytes, hpos, rfl, h, readBlock_block hpos hsize⟩

/-- One more byte in `datum` leaves the stream as it is. -/
theorem Holds.loaded {r : Reader} {b : Byte} {block data : List Byte} (hbits : s.bits < 16)
    (hdatum : s.datum.toNat < 2 ^ s.bits) (herr : r.formatError = false)
    (hb : Blocks r.bytes data rest)
    (hv : s.datum.toNat + 2 ^ s.bits * bytesValue (b :: block ++ data) = v)
    (hroom : s.bits + 8 * (b :: block ++ data).length = room) :
    Holds rest v room (s.loaded r block b) := by
  have hb8 := b.isLt
  have hpow : 2 ^ s.bits ≤ 2 ^ 15 := Nat.pow_le_pow_right two_pos (by omega)
  have hshift : (b.setWidth 32 <<< (s.bits % 32)).toNat = 2 ^ s.bits * b.toNat := by
    have hmod : s.bits % 32 = s.bits := Nat.mod_eq_of_lt (by omega)
    have hlt : b.toNat * 2 ^ s.bits < 2 ^ 32 := by
      calc b.toNat * 2 ^ s.bits ≤ 255 * 2 ^ 15 := Nat.mul_le_mul (by omega) hpow
        _ < 2 ^ 32 := by decide
    rw [hmod, BitVec.toNat_shiftLeft, BitVec.toNat_setWidth,
      Nat.mod_eq_of_lt (by omega : b.toNat < 2 ^ 32),
      Nat.shiftLeft_eq, Nat.mod_eq_of_lt hlt, Nat.mul_comm]
  have hsum : (s.datum + (b.setWidth 32 <<< (s.bits % 32))).toNat =
      s.datum.toNat + 2 ^ s.bits * b.toNat := by
    have hlt : 2 ^ s.bits * b.toNat ≤ 2 ^ 15 * 255 := Nat.mul_le_mul hpow (by omega)
    rw [BitVec.toNat_add, hshift, Nat.mod_eq_of_lt (by omega)]
  refine ⟨show s.bits + 8 < 24 by omega, ?_, herr, data, hb, ?_, ?_⟩
  · show (s.datum + (b.setWidth 32 <<< (s.bits % 32))).toNat < 2 ^ (s.bits + 8)
    rw [hsum, pow_add]
    have hle : 2 ^ s.bits * (b.toNat + 1) ≤ 2 ^ s.bits * 2 ^ 8 := Nat.mul_le_mul_left _ hb8
    rw [Nat.mul_succ] at hle
    omega
  · show (s.datum + (b.setWidth 32 <<< (s.bits % 32))).toNat + 2 ^ (s.bits + 8) *
      bytesValue (block ++ data) = v
    rw [hsum, ← hv, List.cons_append, bytesValue, pow_add]
    ring
  · show s.bits + 8 + 8 * (block ++ data).length = room
    rw [← hroom, List.cons_append, List.length_cons]
    omega

/-- While there are bits in the data, a turn that wants more gets a byte. -/
theorem loadByte_holds (h : Holds rest v room s) (hbits : s.bits < 16) (hroom : s.bits < room) :
    ∃ r block b, loadByte s = (true, s.loaded r block b) ∧
      Holds rest v room (s.loaded r block b) := by
  obtain ⟨-, hdatum, herr, data, hb, hv, hr⟩ := h
  rw [loadByte]
  rcases hblock : s.block with _ | ⟨b, block⟩
  · rw [hblock, List.nil_append] at hv hr
    rw [if_pos rfl]
    rcases readBlock_blocks hb herr with ⟨rfl, -⟩ | ⟨chunk, more, bytes, hne, rfl, hmore, hread⟩
    · simp only [List.length_nil] at hr
      omega
    · obtain ⟨b, block, rfl⟩ := List.exists_cons_of_ne_nil hne
      rw [hread]
      exact ⟨_, block, b, rfl, .loaded hbits hdatum herr hmore hv hr⟩
  · rw [if_neg (List.cons_ne_nil _ _)]
    rw [hblock] at hv hr
    exact ⟨_, block, b, rfl, .loaded hbits hdatum herr hb hv hr⟩

/-- Without them it stops. -/
theorem loadByte_stops (h : Holds rest v room s) (hroom : room ≤ s.bits) :
    ∃ r, loadByte s = (false, { s with reader := r }) := by
  obtain ⟨-, -, herr, data, hb, -, hr⟩ := h
  have hnil : s.block ++ data = [] := List.eq_nil_of_length_eq_zero (by omega)
  obtain ⟨hblock, rfl⟩ := List.append_eq_nil_iff.mp hnil
  rw [loadByte, if_pos hblock]
  rcases readBlock_blocks hb herr with ⟨-, hread⟩ | ⟨chunk, more, bytes, hne, happ, -, -⟩
  · rw [hread]
    exact ⟨_, rfl⟩
  · exact absurd (List.append_eq_nil_iff.mp happ.symm).1 hne

/-- Before a code the decoder loads bytes as long as it needs them. -/
theorem load_all (hs : s.stack = []) (hpi : s.pi < k.npix) (hsize : s.codeSize ≤ 12)
    (hroom : s.codeSize ≤ room)
    (h : Holds rest v room s) :
    ∃ r block datum bits, Reached k s (s.fed r block datum bits) ∧ s.codeSize ≤ bits ∧
      Holds rest v room (s.fed r block datum bits) := by
  induction hn : s.codeSize - s.bits using Nat.strong_induction_on generalizing s with
  | _ n ih =>
    rcases lt_or_ge s.bits s.codeSize with hlt | hge
    · obtain ⟨r, block, b, hload, hholds⟩ := loadByte_holds h (by omega) (by omega)
      have hturn := turn_load (k := k) hs hlt
      rw [hload] at hturn
      have hless : s.codeSize - (s.bits + 8) < n := by omega
      obtain ⟨r', block', datum, bits, hreach, hbits, hfed⟩ :=
        ih _ hless (s := s.loaded r block b) hs hpi hsize hroom hholds rfl
      exact ⟨r', block', datum, bits, (Reached.start.turn hpi hturn).trans hreach, hbits, hfed⟩
    · exact ⟨s.reader, s.block, s.datum, s.bits, .start, hge, h⟩

/-- The next code is the low bits of the stream. -/
theorem nextCode_eq (h : Holds rest v room s) (hbits : s.codeSize ≤ s.bits)
    (hmask : s.codeMask.toNat + 1 = 2 ^ s.codeSize) : nextCode s = (v % 2 ^ s.codeSize : Nat) := by
  obtain ⟨hb, hdatum, -, data, -, rfl, -⟩ := h
  have hlow : (s.datum.toNat + 2 ^ s.bits * bytesValue (s.block ++ data)) % 2 ^ s.codeSize =
      s.datum.toNat % 2 ^ s.codeSize := by
    rw [← Nat.mod_mod_of_dvd _ (pow_dvd_pow 2 hbits), Nat.add_mul_mod_self_left,
      Nat.mod_eq_of_lt hdatum]
  have hand : (s.datum &&& s.codeMask).toNat = s.datum.toNat % 2 ^ s.codeSize := by
    have hmask' : s.codeMask.toNat = 2 ^ s.codeSize - 1 := by omega
    rw [BitVec.toNat_and, hmask', Nat.and_two_pow_sub_one_eq_mod]
  have hpow : 2 ^ s.codeSize ≤ 2 ^ 23 := Nat.pow_le_pow_right two_pos (by omega)
  have hlt := Nat.mod_lt s.datum.toNat (Nat.two_pow_pos s.codeSize)
  rw [nextCode, hlow, BitVec.toInt_eq_toNat_of_lt (by rw [hand]; omega), hand]

/-- Dropping a code takes its bits off the stream. -/
theorem dropCode_holds (h : Holds rest v room s) (hbits : s.codeSize ≤ s.bits) :
    Holds rest (v / 2 ^ s.codeSize) (room - s.codeSize) (dropCode s) := by
  obtain ⟨hb, hdatum, herr, data, hblocks, rfl, rfl⟩ := h
  have hbits' : 2 ^ s.bits = 2 ^ s.codeSize * 2 ^ (s.bits - s.codeSize) := by
    rw [← pow_add, Nat.add_sub_cancel' hbits]
  have hshift : (s.datum.sshiftRight (s.codeSize % 32)).toNat = s.datum.toNat / 2 ^ s.codeSize := by
    have hmod : s.codeSize % 32 = s.codeSize := Nat.mod_eq_of_lt (by omega)
    have hpow : 2 ^ s.bits ≤ 2 ^ 23 := Nat.pow_le_pow_right two_pos (by omega)
    have hpos : s.datum.msb = false := by
      rw [BitVec.msb_eq_false_iff_two_mul_lt]
      omega
    rw [hmod, BitVec.sshiftRight_eq_of_msb_false hpos, BitVec.toNat_ushiftRight,
      Nat.shiftRight_eq_div_pow]
  refine ⟨show s.bits - s.codeSize < 24 by omega, ?_, herr, data, hblocks, ?_, ?_⟩
  · show (s.datum.sshiftRight (s.codeSize % 32)).toNat < 2 ^ (s.bits - s.codeSize)
    rw [hshift, Nat.div_lt_iff_lt_mul (Nat.two_pow_pos _), Nat.mul_comm, ← hbits']
    exact hdatum
  · show (s.datum.sshiftRight (s.codeSize % 32)).toNat + 2 ^ (s.bits - s.codeSize) *
      bytesValue (s.block ++ data) = _
    rw [hshift, hbits', Nat.mul_assoc, Nat.add_mul_div_left _ _ (Nat.two_pow_pos _)]
  · show s.bits - s.codeSize + 8 * (s.block ++ data).length = _
    omega

/-- Reading the code in the low bits of the stream. -/
theorem read_low {c : Nat} (hs : s.stack = []) (hpi : s.pi < k.npix) (hsize : s.codeSize ≤ 12)
    (hmask : s.codeMask.toNat + 1 = 2 ^ s.codeSize) (hroom : s.codeSize ≤ room)
    (hc : v % 2 ^ s.codeSize = c)
    (h : Holds rest v room s) :
    ∃ r block datum bits, Reached k s (s.fed r block datum bits) ∧ s.codeSize ≤ bits ∧
      nextCode (s.fed r block datum bits) = c ∧
      Holds rest (v / 2 ^ s.codeSize) (room - s.codeSize)
      (dropCode (s.fed r block datum bits)) := by
  obtain ⟨r, block, datum, bits, hreach, hbits, hfed⟩ := load_all hs hpi hsize hroom h
  refine ⟨r, block, datum, bits, hreach, hbits, ?_, dropCode_holds hfed hbits⟩
  rw [nextCode_eq hfed hbits hmask]
  exact congrArg _ hc

/-- Reading a code of the stream. -/
theorem read_code {c : Nat} {cs : List (Nat × Nat)} (hs : s.stack = []) (hpi : s.pi < k.npix)
    (hsize : s.codeSize ≤ 12) (hmask : s.codeMask.toNat + 1 = 2 ^ s.codeSize)
    (hroom : s.codeSize ≤ room)
    (hc : c < 2 ^ s.codeSize) (h : Holds rest (pack ((s.codeSize, c) :: cs) % 2 ^ room) room s) :
    ∃ r block datum bits, Reached k s (s.fed r block datum bits) ∧ s.codeSize ≤ bits ∧
      nextCode (s.fed r block datum bits) = c ∧
      Holds rest (pack cs % 2 ^ (room - s.codeSize)) (room - s.codeSize)
      (dropCode (s.fed r block datum bits)) := by
  obtain ⟨hlow, hhigh⟩ := BitPacking.pack_cons_mod c (pack cs) hc hroom
  have hread := read_low hs hpi hsize hmask hroom hlow h
  rwa [hhigh] at hread

end

/-- The pixels so far. -/
structure Drawn (xs : List Byte) (s : Decoder) : Prop where
  pi : s.pi = xs.length
  pixels : ∀ (i : Nat) (x : Byte), xs[i]? = some x → s.pixels i = x

def Decoder.emptied (s : Decoder) (pixels : Int → Byte) (pi : Int) : Decoder :=
  { s with stack := [], pixels := pixels, pi := pi }

theorem Drawn.popped {xs : List Byte} {s : Decoder} (hd : Drawn xs s) (b : Byte)
    (stack : List Byte) :
    Drawn (xs ++ [b]) (s.popped b stack) := by
  have hpi := hd.pi
  refine ⟨?_, fun i x hx => ?_⟩
  · show s.pi + 1 = _
    rw [hpi, List.length_append, List.length_singleton]
    rfl
  · show Function.update s.pixels s.pi b i = x
    rcases lt_or_ge i xs.length with hlt | hge
    · rw [List.getElem?_append_left hlt] at hx
      rw [Function.update_of_ne (by omega)]
      exact hd.pixels i x hx
    · rw [List.getElem?_append_right hge, List.getElem?_singleton] at hx
      split at hx
      · cases hx
        obtain rfl : i = xs.length := by omega
        rw [hpi, Function.update_self]
      · cases hx

/-- The stack goes to the pixels. -/
theorem pop_all {k : Params} (hk : k.npix ≤ k.pixelsLength) {stack : List Byte}
    {xs : List Byte} {s : Decoder}
    (hd : Drawn xs s) (hs : s.stack = stack) (hlen : (xs.length + stack.length : Int) ≤ k.npix) :
    ∃ pixels pi, Reached k s (s.emptied pixels pi) ∧ Drawn (xs ++ stack) (s.emptied pixels pi) := by
  have hpi := hd.pi
  induction stack generalizing xs s with
  | nil =>
    have hsame : s.emptied s.pixels s.pi = s := by
      obtain ⟨⟩ := s
      simp only at hs
      subst hs
      rfl
    refine ⟨s.pixels, s.pi, ?_, ?_⟩
    · rw [hsame]
      exact .start
    · rw [hsame, List.append_nil]
      exact hd
  | cons b stack ih =>
    rw [List.length_cons] at hlen
    have hturn := turn_pop (k := k) hs (by omega) (by omega)
    have hpopped := hd.popped b stack
    obtain ⟨pixels, pi, hreach, hdrawn⟩ := ih hpopped rfl
      (by rw [List.length_append, List.length_singleton]; omega) hpopped.pi
    refine ⟨pixels, pi, (Reached.start.turn (by omega) hturn).trans hreach, ?_⟩
    rwa [List.append_assoc] at hdrawn

/-- The parameters of an image whose roots have `m` bits. -/
structure Kit (m : Nat) (k : Params) : Prop where
  two_le : 2 ≤ m
  le_eight : m ≤ 8
  clear : k.clear = (2 ^ m : Nat)
  codeSize : k.codeSize = m + 1
  codeMask : k.codeMask.toNat + 1 = 2 ^ (m + 1)
  npix : k.npix ≤ k.pixelsLength

theorem Kit.clear_bounds (hk : Kit m k) : 0 ≤ k.clear ∧ k.clear ≤ maxStackSize := by
  have hpow : 2 ^ m ≤ 2 ^ 8 := Nat.pow_le_pow_right two_pos hk.le_eight
  rw [hk.clear, maxStackSize]
  exact ⟨Int.natCast_nonneg _, by omega⟩

/-- The tables hold the words of a dictionary. -/
structure Tables (m : Nat) (dict : List (List Byte)) (s : Decoder) : Prop where
  roots : ∀ b : Byte, b.toNat < 2 ^ m → s.suffixes b.toNat = b
  available : s.available = (2 ^ m + 2 + dict.length : Nat)
  descends : Descends s.prefixes (2 ^ m : Nat) s.available
  words : ∀ i w, dict[i]? = some w → Spells s.prefixes s.suffixes (2 ^ m : Nat)
    (2 ^ m + 2 + i : Nat) w
  length : dict.length < limit m
  codeSize : s.codeSize = if dict.length + 1 < limit m then width (2 ^ m) (dict.length + 1) else 12
  codeMask : s.codeMask.toNat + 1 = 2 ^ s.codeSize

/-- Just after a clear. -/
structure Fresh (m : Nat) (s : Decoder) : Prop where
  tables : Tables m [] s
  old : s.oldCode = nullCode

/-- Just after the phrase `p`, read with the words of `dict`. -/
structure After (m : Nat) (dict : List (List Byte)) (p : List Byte) (s : Decoder) : Prop where
  tables : Tables m dict s
  closed : Closed (2 ^ m) byteSym dict
  known : Known (2 ^ m) byteSym dict p
  old : s.oldCode = codeOf (2 ^ m) byteSym dict p
  first : ∃ b tail, p = b :: tail ∧ s.first = b.toNat

/-- Just before a phrase that starts with `b`, when the coder has the words of `dict`. -/
def Ready (m : Nat) (dict : List (List Byte)) (b : Byte) (s : Decoder) : Prop :=
  (dict = [] ∧ Fresh m s) ∨ ∃ d q, dict = d ++ [q ++ [b]] ∧ q ++ [b] ∉ d ∧ After m d q s

section

variable {m : Nat} {dict : List (List Byte)} {p : List Byte} {k : Params} {s : Decoder}

theorem Tables.congr {s' : Decoder} (h : Tables m dict s) (hp : s'.prefixes = s.prefixes)
    (hs : s'.suffixes = s.suffixes) (ha : s'.available = s.available)
    (hc : s'.codeSize = s.codeSize)
    (hm : s'.codeMask = s.codeMask) : Tables m dict s' := by
  obtain ⟨hroots, havail, hdesc, hwords, hlen, hsize, hmask⟩ := h
  refine ⟨?_, ?_, ?_, ?_, hlen, ?_, ?_⟩
  · rwa [hs]
  · rwa [ha]
  · rwa [hp, ha]
  · rwa [hp, hs]
  · rwa [hc]
  · rwa [hm, hc]

/-- Known words are in the tables. -/
theorem Tables.spells (h : Tables m dict s) (hc : Closed (2 ^ m) byteSym dict)
    (hp : Known (2 ^ m) byteSym dict p) :
    Usable (2 ^ m : Nat) s.available (codeOf (2 ^ m) byteSym dict p : Nat) ∧
      Spells s.prefixes s.suffixes (2 ^ m : Nat) (codeOf (2 ^ m) byteSym dict p : Nat) p := by
  rcases hp with ⟨b, rfl, hb⟩ | hp
  · rw [LzwParse.codeOf_single]
    refine ⟨.inl ⟨Int.natCast_nonneg _, Int.ofNat_lt.mpr hb⟩, ?_⟩
    have hroot : Spells s.prefixes s.suffixes (2 ^ m : Nat) (b.toNat : Int) [s.suffixes b.toNat] :=
      .root (Int.natCast_nonneg _) (Int.ofNat_lt.mpr hb)
    rwa [h.roots b hb] at hroot
  · have hmem := LzwParse.codeOf_mem hc hp
    refine ⟨.inr ⟨by omega, ?_⟩, ?_⟩
    · rw [h.available]
      omega
    · rw [LzwParse.codeOf_word (hc.two_le_length hp)]
      exact h.words _ _ (List.getElem?_eq_some_iff.mpr
        ⟨List.idxOf_lt_length_iff.mpr hp, List.getElem_idxOf _⟩)

/-- Inside the tables nothing is out of range. -/
theorem Tables.safe (hk : Kit m k) (h : Tables m dict s) (hs : s.stack = []) : TableSafe k s := by
  have hlen := h.length
  have hpow : 2 ^ m ≤ 2 ^ 8 := Nat.pow_le_pow_right two_pos hk.le_eight
  refine ⟨fun c _ hc => ?_, ?_, ?_⟩
  · rw [h.available] at hc
    rw [limit] at hlen
    rw [maxStackSize]
    omega
  · rw [hk.clear]
    exact h.descends
  · rw [hs]
    simp [maxStackSize]

/-- The width of the decoder is that of the coder, which is a word ahead. -/
theorem Ready.codeSize {b : Byte} (hk : Kit m k) (h : Ready m dict b s)
    (hlen : dict.length < limit m) :
    s.codeSize = width (2 ^ m) dict.length := by
  rcases h with ⟨rfl, hfresh⟩ | ⟨d, q, rfl, -, hafter⟩
  · have hlow : 2 ^ 2 ≤ 2 ^ m := Nat.pow_le_pow_right two_pos hk.two_le
    have hhigh : 2 ^ m ≤ 2 ^ 8 := Nat.pow_le_pow_right two_pos hk.le_eight
    rw [hfresh.tables.codeSize, if_pos, List.length_nil, GifLzwEncoder.width_succ, if_neg]
    · rw [GifLzwEncoder.width_zero hk.two_le, pow_succ]
      omega
    · rw [List.length_nil, limit]
      omega
  · rw [List.length_append, List.length_singleton] at hlen ⊢
    rw [hafter.tables.codeSize, if_pos hlen]

theorem Ready.tables {b : Byte} (h : Ready m dict b s) : ∃ d, Tables m d s := by
  rcases h with ⟨-, hfresh⟩ | ⟨d, q, -, -, hafter⟩
  · exact ⟨[], hfresh.tables⟩
  · exact ⟨d, hafter.tables⟩

theorem ofInt_toNat (b : Byte) : BitVec.ofInt 8 (b.toNat : Int) = b := by
  rw [BitVec.ofInt_natCast, BitVec.ofNat_toNat, BitVec.setWidth_eq]

/-- The code size grows with the coder's. -/
theorem withString_width {m n : Nat} (hm : m ≤ 8) (ha : s.available = (2 ^ m + 2 + n : Nat))
    (hn : n + 1 < limit m)
    (hsize : s.codeSize = width (2 ^ m) (n + 1)) (hmask : s.codeMask.toNat + 1 = 2 ^ s.codeSize) :
    (withString s).codeSize = (if n + 2 < limit m then width (2 ^ m) (n + 2) else 12) ∧
      (withString s).codeMask.toNat + 1 = 2 ^ (withString s).codeSize := by
  have hpow : 2 ^ m ≤ 2 ^ 8 := Nat.pow_le_pow_right two_pos hm
  obtain ⟨hlow, hhigh⟩ := GifLzwEncoder.width_bounds (2 ^ m) (n + 1)
  have hsucc := GifLzwEncoder.width_succ (2 ^ m) (n + 1)
  have hmono := GifLzwEncoder.width_mono (2 ^ m) (show n + 1 ≤ limit m - 1 by omega)
  rw [GifLzwEncoder.width_limit hm (show limit m - 1 + 1 = limit m by omega), ← hsize] at hmono
  rw [← hsize] at hlow hhigh hsucc
  have hnext : s.available + 1 = (2 ^ m + 2 + (n + 1) : Nat) := by
    rw [ha]
    omega
  have hpos : 0 < s.codeSize := by
    rw [hsize]
    exact Nat.succ_pos _
  have hhalf : 2 ^ s.codeSize = 2 * 2 ^ (s.codeSize - 1) := by
    rw [← pow_succ', Nat.sub_add_cancel hpos]
  have hle12 : 2 ^ s.codeSize ≤ 2 ^ 12 := Nat.pow_le_pow_right two_pos hmono
  have hnat : (BitVec.ofInt 32 (s.available + 1)).toNat = 2 ^ m + 2 + (n + 1) := by
    rw [hnext, BitVec.ofInt_natCast, BitVec.toNat_ofNat, Nat.mod_eq_of_lt]
    rw [limit] at hn
    omega
  have hfull : BitVec.ofInt 32 (s.available + 1) &&& s.codeMask = 0 ↔
      2 ^ m + 2 + (n + 1) = 2 ^ s.codeSize := by
    have hmask' : s.codeMask.toNat = 2 ^ s.codeSize - 1 := by omega
    rw [← BitVec.toNat_inj, BitVec.toNat_and, hnat, hmask', Nat.and_two_pow_sub_one_eq_mod]
    show _ % _ = 0 ↔ _
    constructor
    · intro h
      obtain ⟨c, hc⟩ := Nat.dvd_of_mod_eq_zero h
      have h1 : 2 ^ s.codeSize * 1 ≤ 2 ^ s.codeSize * c := Nat.mul_le_mul_left _ (by
        rcases c with _ | c
        · omega
        · omega)
      omega
    · intro h
      rw [h, Nat.mod_self]
  have hroom : s.available + 1 < maxStackSize ↔ n + 2 < limit m := by
    rw [hnext, maxStackSize, limit]
    omega
  by_cases hgrow : 2 ^ m + 2 + (n + 1) = 2 ^ s.codeSize ∧ n + 2 < limit m
  · have hcond : (BitVec.ofInt 32 (s.available + 1) &&& s.codeMask =
        0 && decide (s.available + 1 < maxStackSize)) = true := by
      rw [Bool.and_eq_true, decide_eq_true_eq, decide_eq_true_eq]
      exact ⟨hfull.mpr hgrow.1, hroom.mpr hgrow.2⟩
    simp only [withString, hcond, if_true]
    rw [if_pos hgrow.2]
    rw [if_pos hgrow.1] at hsucc
    refine ⟨hsucc.symm, ?_⟩
    rw [BitVec.toNat_add, hnat, hgrow.1, pow_succ, Nat.mod_eq_of_lt]
    · omega
    · omega
  · have hcond : ¬ (BitVec.ofInt 32 (s.available + 1) &&& s.codeMask =
        0 && decide (s.available + 1 < maxStackSize)) = true := by
      rw [Bool.and_eq_true, decide_eq_true_eq, decide_eq_true_eq, hfull, hroom]
      exact hgrow
    simp only [withString, if_neg hcond]
    refine ⟨?_, hmask⟩
    split
    · rename_i hlt
      rw [if_neg fun h => hgrow ⟨h, hlt⟩] at hsucc
      exact hsucc.symm
    · rename_i hge
      rw [hsize]
      exact GifLzwEncoder.width_limit hm (by omega)

/-- A word is added to the last one's table. -/
theorem Tables.extended {d : List (List Byte)} {q : List Byte} {b : Byte} (hm : m ≤ 8)
    (h : Tables m d s)
    (husable : Usable (2 ^ m : Nat) s.available s.oldCode)
    (hspells : Spells s.prefixes s.suffixes (2 ^ m : Nat) s.oldCode q) (hfirst : s.first = b.toNat)
    (hlen : d.length + 1 < limit m) : Tables m (d ++ [q ++ [b]]) (withString s) := by
  have hpow : 2 ^ m ≤ 2 ^ 8 := Nat.pow_le_pow_right two_pos hm
  have havail := h.available
  have hlen' := hlen
  have hpos : (0 : Int) ≤ (2 ^ m : Nat) := Int.natCast_nonneg _
  rw [limit] at hlen'
  have hcode : (BitVec.ofInt 16 s.oldCode).toInt = s.oldCode := by
    refine short_eq ?_ ?_
    · rcases husable with hu | hu <;> omega
    · rw [maxStackSize]
      rcases husable with hu | hu <;> omega
  have hwidth := withString_width hm havail hlen (by rw [h.codeSize, if_pos hlen]) h.codeMask
  have hprefixes : (withString s).prefixes = Function.update s.prefixes s.available s.oldCode :=
    congrArg (Function.update s.prefixes s.available) hcode
  have hsuffixes : (withString s).suffixes = Function.update s.suffixes s.available b := by
    rw [← ofInt_toNat b, ← hfirst]
    rfl
  have hkeep : ∀ {c w}, Spells s.prefixes s.suffixes (2 ^ m : Nat) c w →
      Usable (2 ^ m : Nat) s.available c →
      Spells (Function.update s.prefixes s.available s.oldCode)
        (Function.update s.suffixes s.available b)
        (2 ^ m : Nat) c w := by
    intro c w hw hu
    refine hw.congr h.descends hu (fun c' _ hc' => Function.update_of_ne hc'.ne _ _) fun c' hu' =>
      ?_
    refine Function.update_of_ne ?_ _ _
    rcases hu' with hu' | hu' <;> omega
  refine ⟨fun c hc => ?_, ?_, ?_, fun i w hi => ?_, ?_, ?_, hwidth.2⟩
  · rw [hsuffixes, Function.update_of_ne (by omega)]
    exact h.roots c hc
  · show s.available + 1 = _
    rw [List.length_append, List.length_singleton]
    omega
  · rw [hprefixes]
    exact h.descends.extend (by omega) husable
  · rw [hprefixes, hsuffixes]
    rcases lt_or_ge i d.length with hlt | hge
    · rw [List.getElem?_append_left hlt] at hi
      refine hkeep (h.words i w hi) (.inr ⟨by omega, by omega⟩)
    · rw [List.getElem?_append_right hge, List.getElem?_singleton] at hi
      split at hi
      · cases hi
        obtain rfl : i = d.length := by omega
        rw [← havail]
        have hword : Spells (Function.update s.prefixes s.available s.oldCode)
            (Function.update s.suffixes s.available b) (2 ^ m : Nat) s.available
            (q ++ [Function.update s.suffixes s.available b s.available]) :=
          .more (by omega) (by rw [Function.update_self]; exact hkeep hspells husable)
        rwa [Function.update_self] at hword
      · cases hi
  · rw [List.length_append, List.length_singleton]
    exact hlen
  · rw [List.length_append, List.length_singleton]
    exact hwidth.1

/-- The decoder adds the coder's last word. -/
theorem Tables.withString {d : List (List Byte)} {q : List Byte} {b : Byte} (hm : m ≤ 8)
    (h : Tables m d s)
    (hc : Closed (2 ^ m) byteSym d) (hq : Known (2 ^ m) byteSym d q)
    (hold : s.oldCode = codeOf (2 ^ m) byteSym d q) (hfirst : s.first = b.toNat)
    (hlen : d.length + 1 < limit m) : Tables m (d ++ [q ++ [b]]) (withString s) := by
  obtain ⟨husable, hspells⟩ := h.spells hc hq
  rw [← hold] at husable hspells
  exact h.extended hm husable hspells hfirst hlen

theorem code_lt (hc : Closed (2 ^ m) byteSym dict) (hp : Known (2 ^ m) byteSym dict p) :
    codeOf (2 ^ m) byteSym dict p < 2 ^ m + 2 + dict.length ∧
    codeOf (2 ^ m) byteSym dict p ≠ 2 ^ m ∧
      codeOf (2 ^ m) byteSym dict p ≠ 2 ^ m + 1 := by
  rcases hp with ⟨b, rfl, hb⟩ | hp
  · rw [LzwParse.codeOf_single]
    omega
  · have hmem := LzwParse.codeOf_mem hc hp
    omega

/-- The phrase after another one: it is in the table, or it is the last phrase
with its own first symbol. -/
theorem interpret_phrase (hk : Kit m k) {d : List (List Byte)} {q tail : List Byte} {b : Byte}
    (ha : After m d q s) (hs : s.stack = []) (hnew : q ++ [b] ∉ d)
    (hp : Known (2 ^ m) byteSym (d ++ [q ++ [b]]) (b :: tail)) :
    interpret k (codeOf (2 ^ m) byteSym (d ++ [q ++ [b]]) (b :: tail) : Nat) s =
      .ok (withWord (codeOf (2 ^ m) byteSym (d ++ [q ++ [b]]) (b :: tail) : Nat) b
        (b :: tail) s) := by
  have hpow : 2 ^ m ≤ 2 ^ 8 := Nat.pow_le_pow_right two_pos hk.le_eight
  have hclear := hk.clear
  have havail := ha.tables.available
  have hsafe := ha.tables.safe hk hs
  obtain ⟨hpos, hmax⟩ := hk.clear_bounds
  by_cases hd : Known (2 ^ m) byteSym d (b :: tail)
  · rw [LzwParse.codeOf_extend ha.closed hd]
    obtain ⟨husable, hspells⟩ := ha.tables.spells ha.closed hd
    have hne : (codeOf (2 ^ m) byteSym d (b :: tail) : Int) ≠ s.available := by
      rcases husable with hu | hu <;> omega
    rw [← hclear] at husable hspells
    obtain ⟨b', tail', heq, hint⟩ := interpret_eq k _ s hpos hmax (by omega) hsafe hs
      (if_neg hne).symm husable hspells
    cases heq
    rw [hint, if_neg hne, List.append_nil]
  · have hword : b :: tail = q ++ [b] := by
      rcases hp with hp | hp
      · exact absurd (.inl hp) hd
      · rcases List.mem_append.mp hp with hp | hp
        · exact absurd (.inr hp) hd
        · exact List.mem_singleton.mp hp
    obtain ⟨b', tail', rfl, hfirst⟩ := ha.first
    obtain ⟨rfl, htail⟩ := List.cons.inj hword
    replace htail : tail = tail' ++ [b] := htail
    subst htail
    obtain ⟨husable, hspells⟩ := ha.tables.spells ha.closed ha.known
    have hcode : codeOf (2 ^ m) byteSym (d ++ [b :: tail' ++ [b]]) (b :: (tail' ++ [b])) =
      2 ^ m + 2 + d.length :=
      LzwParse.codeOf_new (by simp) hnew
    rw [← ha.old, ← hclear] at husable hspells
    rw [hcode, ← havail]
    obtain ⟨b'', tail'', heq, hint⟩ := interpret_eq k s.available s hpos hmax (by omega) hsafe hs
      (if_pos rfl).symm husable hspells
    cases heq
    rw [hint, if_pos rfl, hfirst, ofInt_toNat]
    rfl

/-- The table once the phrase has been read. -/
theorem withWord_after (hm : m ≤ 8) {d : List (List Byte)} {q tail : List Byte} {b : Byte}
    (ha : After m d q s)
    (hlen : d.length + 1 < limit m) (hc : Closed (2 ^ m) byteSym (d ++ [q ++ [b]]))
    (hp : Known (2 ^ m) byteSym (d ++ [q ++ [b]]) (b :: tail)) :
    After m (d ++ [q ++ [b]]) (b :: tail)
      (withWord (codeOf (2 ^ m) byteSym (d ++ [q ++ [b]]) (b :: tail) : Nat) b (b :: tail) s) := by
  have hroom : s.available < maxStackSize := by
    rw [ha.tables.available, maxStackSize]
    rw [limit] at hlen
    omega
  have htables : Tables m d (s.setWord b.toNat (b :: tail)) := ha.tables.congr rfl rfl rfl rfl rfl
  have hgrown := htables.withString hm ha.closed ha.known ha.old (b := b) rfl hlen
  rw [withWord]
  rw [if_pos (by exact hroom)]
  exact ⟨hgrown.congr rfl rfl rfl rfl rfl, hc, hp, rfl, b, tail, rfl, rfl⟩

theorem After.congr {s' : Decoder} (h : After m dict p s) (hp : s'.prefixes = s.prefixes)
    (hs : s'.suffixes = s.suffixes) (ha : s'.available = s.available)
    (hc : s'.codeSize = s.codeSize)
    (hm : s'.codeMask = s.codeMask) (ho : s'.oldCode = s.oldCode) (hf : s'.first = s.first) :
    After m dict p s' :=
  ⟨h.tables.congr hp hs ha hc hm, h.closed, h.known, ho.trans h.old, by rw [hf]; exact h.first⟩

theorem Holds.congr {rest : List Byte} {v room : Nat} {s' : Decoder} (h : Holds rest v room s)
    (hr : s'.reader = s.reader) (hb : s'.block = s.block) (hd : s'.datum = s.datum)
    (hn : s'.bits = s.bits) :
    Holds rest v room s' := by
  obtain ⟨hbits, hdatum, herr, data, hdata⟩ := h
  rw [← hn, ← hd] at hdatum
  refine ⟨by rwa [hn], hdatum, by rwa [hr], data, ?_⟩
  rwa [hr, hb, hd, hn]

theorem Drawn.congr {xs : List Byte} {s' : Decoder} (h : Drawn xs s) (hpi : s'.pi = s.pi)
    (hp : s'.pixels = s.pixels) : Drawn xs s' := ⟨hpi.trans h.pi, by rw [hp]; exact h.pixels⟩

theorem withWord_keeps (code : Int) (b : Byte) (w : List Byte) (s : Decoder) :
    (withWord code b w s).reader = s.reader ∧ (withWord code b w s).block = s.block ∧
      (withWord code b w s).datum = s.datum ∧ (withWord code b w s).bits = s.bits ∧
      (withWord code b w s).stack = w ∧ (withWord code b w s).pi = s.pi ∧
      (withWord code b w s).pixels = s.pixels := by
  rw [withWord]
  split
  · exact ⟨rfl, rfl, rfl, rfl, rfl, rfl, rfl⟩
  · exact ⟨rfl, rfl, rfl, rfl, rfl, rfl, rfl⟩

/-- Reading one phrase: its word goes to the pixels, the decoder's table catches
up with the coder's. -/
theorem read_phrase (hk : Kit m k) {tail xs rest : List Byte} {b : Byte}
    {cs : List (Nat × Nat)} {room : Nat}
    (hc : Closed (2 ^ m) byteSym dict) (hp : Known (2 ^ m) byteSym dict (b :: tail))
    (hlen : dict.length < limit m)
    (hready : Ready m dict b s) (hs : s.stack = []) (hd : Drawn xs s)
    (hfit : (xs.length + (b :: tail).length : Int) ≤ k.npix)
    (hroom : width (2 ^ m) dict.length ≤ room)
    (hholds :
    Holds rest (pack ((width (2 ^ m) dict.length, codeOf (2 ^ m) byteSym dict (b :: tail)) :: cs) %
      2 ^ room)
      room s) :
    ∃ s', Reached k s s' ∧ After m dict (b :: tail) s' ∧ s'.stack = [] ∧
      Drawn (xs ++ b :: tail) s' ∧
      Holds rest (pack cs % 2 ^ (room - width (2 ^ m) dict.length))
      (room - width (2 ^ m) dict.length) s' := by
  have hsize := hready.codeSize hk hlen
  have hwide : width (2 ^ m) dict.length ≤ 12 := by
    have hmono := GifLzwEncoder.width_mono (2 ^ m) (show dict.length ≤ limit m - 1 by omega)
    rwa [GifLzwEncoder.width_limit hk.le_eight (show limit m - 1 + 1 = limit m by omega)] at hmono
  obtain ⟨hcode, hneclear, hneend⟩ := code_lt hc hp
  have hfull := (GifLzwEncoder.width_bounds (2 ^ m) dict.length).2
  have hclear := hk.clear
  have hpi : s.pi < k.npix := by
    rw [hd.pi]
    rw [List.length_cons] at hfit
    omega
  rw [← hsize] at hroom hholds hwide hfull ⊢
  have hmask : s.codeMask.toNat + 1 = 2 ^ s.codeSize := by
    obtain ⟨d, htables⟩ := hready.tables
    exact htables.codeMask
  obtain ⟨r, block, datum, bits, hreach, hbits, hnext, hdrop⟩ :=
    read_code (k := k) hs hpi hwide hmask hroom (by omega) hholds
  have hlast : ∀ d q, dict = d ++ [q ++ [b]] → s.available = (2 ^ m + 2 + d.length : Nat) →
      (codeOf (2 ^ m) byteSym dict (b :: tail) : Int) ≤ s.available := by
    rintro d q rfl havail
    rw [List.length_append, List.length_singleton] at hcode
    omega
  have htakes (hle : (codeOf (2 ^ m) byteSym dict (b :: tail) : Int) ≤ s.available) :
      TakesCode k (s.fed r block datum bits) := by
    refine ⟨hs, hbits, ?_, ?_, ?_⟩
    · rw [hnext]
      exact hle
    · rw [hnext, Params.endOfInformation, hclear]
      omega
    · rw [hnext, hclear]
      omega
  rcases hready with ⟨rfl, hfresh⟩ | ⟨d, q, rfl, hnew, hafter⟩
  · -- the first phrase after a clear is a single symbol
    obtain ⟨a, ha, hroot⟩ : ∃ a, b :: tail = [a] ∧ byteSym a < 2 ^ m := by
      rcases hp with hp | hp
      · exact hp
      · cases hp
    obtain ⟨rfl, rfl⟩ := List.cons.inj ha
    have hroot' : b.toNat < 2 ^ m := hroot
    have havail : s.available = (2 ^ m + 2 + 0 : Nat) := hfresh.tables.available
    rw [LzwParse.codeOf_single] at hnext htakes
    have hturn := turn_first (htakes (by rw [havail, byteSym]; omega)) hfresh.old
    have hpow : 2 ^ m ≤ 2 ^ 8 := Nat.pow_le_pow_right two_pos hk.le_eight
    have hsuffix : suffixAt (s.fed r block datum bits).suffixes (byteSym b : Nat) = .ok b := by
      rw [suffixAt_ok _ (Int.natCast_nonneg _) (by rw [maxStackSize]; omega)]
      exact congrArg _ (hfresh.tables.roots b hroot)
    rw [hnext, hsuffix, ok_bind] at hturn
    have hdrawn : Drawn xs ((dropCode (s.fed r block datum bits)).firstCode (byteSym b : Nat) b) :=
      hd.congr rfl rfl
    obtain ⟨pixels, pi, hpop, hdrawn'⟩ := pop_all hk.npix hdrawn rfl hfit
    refine ⟨_, (hreach.turn hpi hturn).trans hpop, ?_, rfl, hdrawn', hdrop.congr rfl rfl rfl rfl⟩
    exact ⟨hfresh.tables.congr rfl rfl rfl rfl rfl, hc, hp, rfl, b, [], rfl, rfl⟩
  · have hle := hlast d q rfl hafter.tables.available
    have hold : (s.fed r block datum bits).oldCode ≠ nullCode := by
      show s.oldCode ≠ nullCode
      rw [hafter.old, nullCode]
      omega
    have hturn := turn_code (htakes hle) hold
    have hafter' : After m d q (dropCode (s.fed r block datum bits)) :=
      hafter.congr rfl rfl rfl rfl rfl rfl rfl
    rw [List.length_append, List.length_singleton] at hlen
    have hword := withWord_after hk.le_eight hafter' hlen hc hp
    rw [hnext, interpret_phrase hk hafter' hs hnew hp, ok_bind] at hturn
    obtain ⟨hr, hb, hdat, hbit, hstack, hpi', hpix⟩ := withWord_keeps
      (codeOf (2 ^ m) byteSym (d ++ [q ++ [b]]) (b :: tail) : Nat) b (b :: tail)
        (dropCode (s.fed r block datum bits))
    generalize withWord (codeOf (2 ^ m) byteSym (d ++ [q ++ [b]]) (b :: tail) : Nat) b (b :: tail)
      (dropCode (s.fed r block datum bits)) = t at *
    have hdrawn : Drawn xs t := hd.congr hpi' hpix
    have hnpix := hk.npix
    have hpop := popPixel_ok (k := k) hstack (by rw [hdrawn.pi]; omega)
      (by rw [hpi']; exact hpi.trans_le hnpix)
    rw [hpop, ok_bind] at hturn
    have hfit' : ((xs ++ [b]).length + tail.length : Int) ≤ k.npix := by
      rw [List.length_cons] at hfit
      rw [List.length_append, List.length_singleton]
      omega
    obtain ⟨pixels, pi, hpops, hdrawn'⟩ := pop_all hk.npix (hdrawn.popped b tail) rfl hfit'
    refine ⟨_, (hreach.turn hpi hturn).trans hpops, hword.congr rfl rfl rfl rfl rfl rfl rfl, rfl,
      ?_, hdrop.congr hr hb hdat hbit⟩
    rwa [List.append_assoc] at hdrawn'

theorem Fresh.mk' (hk : Kit m k) (hroots : ∀ b : Byte, b.toNat < 2 ^ m → s.suffixes b.toNat = b)
    (havail : s.available = k.clear + 2) (hsize : s.codeSize = k.codeSize)
    (hmask : s.codeMask = k.codeMask)
    (hold : s.oldCode = nullCode) : Fresh m s := by
  have hlow : 2 ^ 2 ≤ 2 ^ m := Nat.pow_le_pow_right two_pos hk.two_le
  have hhigh : 2 ^ m ≤ 2 ^ 8 := Nat.pow_le_pow_right two_pos hk.le_eight
  rw [hk.clear] at havail
  refine ⟨⟨hroots, ?_, ?_, (fun i w hi => by cases hi), ?_, ?_, ?_⟩, hold⟩
  · rw [havail, List.length_nil]
    omega
  · rw [havail]
    exact Descends.empty _ _
  · rw [List.length_nil, limit]
    omega
  · rw [hsize, hk.codeSize, List.length_nil, if_pos (by rw [limit]; omega),
      GifLzwEncoder.width_succ,
      GifLzwEncoder.width_zero hk.two_le, if_neg]
    rw [pow_succ]
    omega
  · rw [hmask, hsize, hk.codeSize]
    exact hk.codeMask

/-- Reading the clear code empties the table. -/
theorem read_clear (hk : Kit m k) {rest : List Byte} {w room : Nat} {cs : List (Nat × Nat)}
    (hs : s.stack = [])
    (hpi : s.pi < k.npix) (ht : Tables m dict s) (hw : s.codeSize = w) (hw12 : w ≤ 12)
    (hclear : 2 ^ m < 2 ^ w)
    (hroom : w ≤ room) (hholds : Holds rest (pack ((w, 2 ^ m) :: cs) % 2 ^ room) room s)
    {xs : List Byte}
    (hd : Drawn xs s) :
    ∃ s', Reached k s s' ∧ Fresh m s' ∧ s'.stack = [] ∧ Drawn xs s' ∧
      Holds rest (pack cs % 2 ^ (room - w)) (room - w) s' := by
  subst hw
  obtain ⟨r, block, datum, bits, hreach, hbits, hnext, hdrop⟩ :=
    read_code (k := k) hs hpi hw12 ht.codeMask hroom hclear hholds
  have hk' := hk.clear
  have havail := ht.available
  have hturn := turn_clear (k := k) (s := s.fed r block datum bits) hs hbits
    (by rw [hnext]; show _ ≤ s.available; omega) (by rw [hnext, Params.endOfInformation]; omega)
      (by rw [hnext, hk'])
  exact ⟨_, hreach.turn hpi hturn, .mk' hk ht.roots rfl rfl rfl rfl, hs, hd.congr rfl rfl,
    hdrop.congr rfl rfl rfl rfl⟩

/-- The decoder follows the coder to its last phrase. -/
theorem read_phrases (hk : Kit m k) {rest : List Byte} (input : List Byte)
    (hinput : ∀ x ∈ input, x.toNat < 2 ^ m)
    {xs tail : List Byte} {b : Byte} {room : Nat} (hc : Closed (2 ^ m) byteSym dict)
    (hp : Known (2 ^ m) byteSym dict (b :: tail)) (hlen : dict.length < limit m)
    (hready : Ready m dict b s)
    (hs : s.stack = []) (hd : Drawn xs s)
    (hfit : (xs.length + (b :: tail).length + input.length : Int) ≤ k.npix)
    (hroom : size (codes (2 ^ m) (limit m) byteSym dict (b :: tail) input) ≤
      room + 2 * width (2 ^ m) (finalLength (limit m) dict (b :: tail) input))
    (hholds : Holds rest (pack (codes (2 ^ m) (limit m) byteSym dict (b :: tail) input) %
      2 ^ room) room s) :
    ∃ s' dict' b' tail' room', Reached k s s' ∧ Closed (2 ^ m) byteSym dict' ∧
      Known (2 ^ m) byteSym dict' (b' :: tail') ∧ dict'.length < limit m ∧
      Ready m dict' b' s' ∧ s'.stack = [] ∧
      dict'.length = finalLength (limit m) dict (b :: tail) input ∧
      (∃ before, phrases (limit m) dict (b :: tail) input = before ++ [b' :: tail'] ∧
        Drawn (xs ++ before.flatten) s') ∧
      room' + size (codes (2 ^ m) (limit m) byteSym dict (b :: tail) input) =
        room + 2 * width (2 ^ m) dict'.length ∧
      Holds rest (pack (codes (2 ^ m) (limit m) byteSym dict' (b' :: tail') []) %
        2 ^ room') room' s' := by
  induction input generalizing s dict xs tail b room with
  | nil =>
    refine ⟨s, dict, b, tail, room, .start, hc, hp, hlen, hready, hs, rfl,
      ⟨[], rfl, ?_⟩, ?_, hholds⟩
    · rw [List.flatten_nil, List.append_nil]
      exact hd
    · simp only [codes, size]
      omega
  | cons x input ih =>
    have hx : Known (2 ^ m) byteSym dict [x] := .inl ⟨x, rfl, hinput x List.mem_cons_self⟩
    have hinput' : ∀ y ∈ input, y.toNat < 2 ^ m := fun y hy => hinput y (List.mem_cons_of_mem _ hy)
    have hlong : (x :: input).length = input.length + 1 := List.length_cons
    rw [codes] at hroom hholds ⊢
    rw [finalLength] at hroom ⊢
    rw [phrases]
    by_cases hmem : b :: tail ++ [x] ∈ dict
    · rw [if_pos hmem] at hroom hholds ⊢
      rw [if_pos hmem] at hroom ⊢
      rw [if_pos hmem]
      rw [List.cons_append] at *
      refine ih hinput' hc (.inr hmem) hlen hready hs hd ?_ hroom hholds
      simp only [List.length_cons, List.length_append, List.length_nil] at hfit ⊢
      omega
    · have hword : (xs ++ b :: tail).length = xs.length + (b :: tail).length := List.length_append
      have hsingle (d : List (List Byte)) : Known (2 ^ m) byteSym d [x] :=
        .inl ⟨x, rfl, hinput x List.mem_cons_self⟩
      have hfit' : ((xs ++ b :: tail).length + [x].length + input.length : Int) ≤ k.npix := by
        rw [List.length_singleton]
        omega
      rw [if_neg hmem] at hroom hholds ⊢
      rw [if_neg hmem] at hroom ⊢
      rw [if_neg hmem]
      by_cases hfull : dict.length + 1 = limit m
      · rw [if_pos hfull] at hroom hholds ⊢
        rw [if_pos hfull] at hroom ⊢
        rw [if_pos hfull]
        have hmin := LzwParse.le_size_codes (2 ^ m) (limit m) byteSym [] [x] input
        simp only [size] at hroom
        obtain ⟨s₁, hreach₁, hafter, hs₁, hd₁, hholds₁⟩ :=
          read_phrase hk hc hp hlen hready hs hd (by omega) (by omega) hholds
        have hw := GifLzwEncoder.width_limit hk.le_eight hfull
        have hpow : 2 ^ m ≤ 2 ^ 8 := Nat.pow_le_pow_right two_pos hk.le_eight
        have hsize := hafter.tables.codeSize
        rw [if_neg hfull.not_lt] at hsize
        rw [hw] at hroom hholds₁
        obtain ⟨s₂, hreach₂, hfresh, hs₂, hd₂, hholds₂⟩ := read_clear hk hs₁
          (by rw [hd₁.pi]; rw [List.length_singleton] at hfit'; omega) hafter.tables hsize le_rfl
            (by omega) (by omega)
          hholds₁ hd₁
        obtain ⟨s', dict', b', tail', room', hreach, hc', hp', hlen', hready', hs', hfinal,
            ⟨before, hphrases, hdrawn⟩,
          hcount, hend⟩ :=
            ih hinput' .nil (hsingle []) (by rw [limit]; simp only [List.length_nil]; omega)
            (.inl ⟨rfl, hfresh⟩) hs₂ hd₂ hfit' (by omega) hholds₂
        refine ⟨s', dict', b', tail', room', (hreach₁.trans hreach₂).trans hreach, hc', hp', hlen',
          hready', hs', hfinal,
          ⟨(b :: tail) :: before, by rw [hphrases, List.cons_append], ?_⟩, ?_, hend⟩
        · rwa [List.flatten_cons, ← List.append_assoc]
        · simp only [size]
          omega
      · rw [if_neg hfull] at hroom hholds ⊢
        rw [if_neg hfull] at hroom ⊢
        rw [if_neg hfull]
        have hmin := LzwParse.le_size_codes (2 ^ m) (limit m) byteSym
          (dict ++ [b :: tail ++ [x]]) [x] input
        simp only [size] at hroom
        obtain ⟨s₁, hreach₁, hafter, hs₁, hd₁, hholds₁⟩ :=
          read_phrase hk hc hp hlen hready hs hd (by omega) (by omega) hholds
        obtain ⟨s', dict', b', tail', room', hreach, hc', hp', hlen', hready', hs', hfinal,
            ⟨before, hphrases, hdrawn⟩,
          hcount, hend⟩ := ih hinput' (hc.extend hp x) (hsingle _)
            (by rw [List.length_append, List.length_singleton]; omega)
            (.inr ⟨dict, b :: tail, rfl, hmem, hafter⟩) hs₁ hd₁ hfit' (by omega) hholds₁
        refine ⟨s', dict', b', tail', room', hreach₁.trans hreach, hc', hp', hlen',
          hready', hs', hfinal,
          ⟨(b :: tail) :: before, by rw [hphrases, List.cons_append], ?_⟩, ?_, hend⟩
        · rwa [List.flatten_cons, ← List.append_assoc]
        · simp only [size]
          omega

end

end GifLzwDecoder
