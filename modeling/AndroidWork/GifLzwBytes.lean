import AndroidWork.GifLzwEncoder
import AndroidWork.SubBlocks

/-!
# What the bytes of the compressor spell

The writer's bytes and the bits that it still holds are together the stream of
the codes. At the end it may keep up to seven bits to itself.
-/
namespace GifLzwEncoder

open BitPacking (pack size bytesValue)
open LzwParse (codes width finalLength)
open SubBlocks (Blocks)

/-- The bytes that have been written behind `head` hold `data`. -/
structure Writer.Stores (w : Writer) (head data : List Byte) : Prop where
  lzw : w.lzw.length < 255
  file : ∃ full body, w.file = head ++ body ∧ data = full ++ w.lzw ∧
    ∀ bytes more rest, Blocks bytes more rest → Blocks (body ++ bytes) (full ++ more) rest

/-- The writer has been given the `n` bits of the number `v`. -/
structure Writer.Spells (w : Writer) (head : List Byte) (v n : Nat) : Prop where
  bits : w.statBits < 8
  stores : ∃ data, w.Stores head data ∧
    bytesValue data + 2 ^ (8 * data.length) * w.codeInProgress = v ∧
    8 * data.length + w.statBits = n

theorem Writer.Stores.append {w : Writer} {head data : List Byte}
    (h : w.Stores head data) (b : Byte) :
    (w.appendCode b).Stores head (data ++ [b]) := by
  obtain ⟨hlen, full, body, hfile, rfl, hblocks⟩ := h
  have hlen' : (w.lzw ++ [b]).length = w.lzw.length + 1 := List.length_append
  rw [Writer.appendCode]
  by_cases hfull : w.lzw.length + 1 + 1 = 256
  · rw [if_pos (by rw [hlen']; exact hfull)]
    refine ⟨by simp, full ++ (w.lzw ++ [b]), body ++ 255 :: (w.lzw ++ [b]), ?_, ?_,
      fun bytes more rest hmore => ?_⟩
    · show w.file ++ _ = _
      rw [hfile, List.append_assoc]
    · show _ = _ ++ []
      rw [List.append_nil, List.append_assoc]
    · rw [List.append_assoc, List.append_assoc, List.cons_append]
      refine hblocks _ _ _ (hmore.block 255 ?_ ?_)
      · exact List.append_ne_nil_of_right_ne_nil _ (List.cons_ne_nil _ _)
      · rw [hlen']
        show _ = 255
        omega
  · rw [if_neg (by rw [hlen']; exact hfull)]
    refine ⟨?_, full, body, hfile, List.append_assoc _ _ _, hblocks⟩
    show (w.lzw ++ [b]).length < 255
    omega

theorem emitByte_spells {w : Writer} {head data : List Byte} (h : w.Stores head data) :
    ∃ b, w.emitByte.Stores head (data ++ [b]) ∧
      bytesValue (data ++ [b]) + 2 ^ (8 * (data ++ [b]).length) * w.emitByte.codeInProgress =
        bytesValue data + 2 ^ (8 * data.length) * w.codeInProgress := by
  obtain ⟨hlen, hfile⟩ := h.append (BitVec.ofNat 8 w.codeInProgress)
  refine ⟨_, ⟨hlen, hfile⟩, ?_⟩
  have hshift : w.emitByte.codeInProgress = w.codeInProgress / 2 ^ 8 :=
    Nat.shiftRight_eq_div_pow _ _
  have hdiv := Nat.mod_add_div w.codeInProgress (2 ^ 8)
  rw [BitPacking.bytesValue_append, hshift, List.length_append, List.length_singleton,
    Nat.mul_succ, pow_add,
    bytesValue, bytesValue, BitVec.toNat_ofNat]
  calc _ = bytesValue data + 2 ^ (8 * data.length) *
        (w.codeInProgress % 2 ^ 8 + 2 ^ 8 * (w.codeInProgress / 2 ^ 8)) := by ring
    _ = _ := by rw [hdiv]

theorem emit_spells {head : List Byte} {v n : Nat} (turns : Nat) {w : Writer} {data : List Byte}
    (h : w.Stores head data) (hv : bytesValue data + 2 ^ (8 * data.length) * w.codeInProgress = v)
    (hn : 8 * data.length + w.statBits = n) (hturns : w.statBits ≤ turns) :
    (w.emit turns).Spells head v n := by
  induction turns generalizing w data with
  | zero => exact ⟨by rw [Writer.emit]; omega, data, h, hv, hn⟩
  | succ turns ih =>
    rw [Writer.emit]
    split
    · rename_i hbits
      obtain ⟨b, hstores, hvalue⟩ := emitByte_spells h
      have hstat : w.emitByte.statBits = w.statBits - 8 := rfl
      refine ih hstores (hvalue.trans hv) ?_ (by omega)
      rw [hstat, List.length_append, List.length_singleton]
      omega
    · exact ⟨by omega, data, h, hv, hn⟩

/-- `write_code` adds a code to what has been written. -/
theorem Writer.Spells.writeCode {w : Writer} {head : List Byte} {v n : Nat} (h : w.Spells head v n)
    (noBits code : Nat) : (w.writeCode noBits code).Spells head (v + 2 ^ n * code)
    (n + noBits) := by
  obtain ⟨-, data, ⟨hlen, hfile⟩, rfl, rfl⟩ := h
  rw [Writer.writeCode]
  refine emit_spells _ ⟨hlen, hfile⟩ ?_ ?_ le_rfl
  · show bytesValue data + 2 ^ (8 * data.length) * (w.codeInProgress + code <<< w.statBits) = _
    rw [Nat.shiftLeft_eq, pow_add]
    ring
  · show 8 * data.length + (w.statBits + noBits) = _
    omega

theorem Writer.Spells.writeAll {head : List Byte} (cs : List (Nat × Nat)) {w : Writer} {v n : Nat}
    (h : w.Spells head v n) : (w.writeAll cs).Spells head (v + 2 ^ n * pack cs) (n + size cs) := by
  induction cs generalizing w v n with
  | nil => simpa [Writer.writeAll, pack, size] using h
  | cons c cs ih =>
    have hmore := ih (h.writeCode c.1 c.2)
    rw [Writer.writeAll, List.foldl_cons, pack, size]
    rw [Writer.writeAll] at hmore
    convert hmore using 1
    · rw [pow_add]
      ring
    · omega

/-- The bits that end up in the data, when the writer has been given `n`. -/
def keptBits (n bits : Nat) : Nat := (if n % 8 ≠ 0 then n + bits else n) / 8

/-- The writer when the bits that were left have gone with a last code. -/
def Writer.flush (w : Writer) (bits : Nat) : Writer :=
  if w.statBits ≠ 0 then w.writeCode bits 0 else w

theorem Writer.Spells.flush {w : Writer} {head : List Byte} {v n : Nat}
    (h : w.Spells head v n) (bits : Nat) :
    (w.flush bits).Spells head v (if n % 8 ≠ 0 then n + bits else n) := by
  have hstat : w.statBits = n % 8 := by
    obtain ⟨hbits, data, -, -, hn⟩ := h
    omega
  rw [Writer.flush, hstat]
  split
  · have hcode := h.writeCode bits 0
    rwa [Nat.mul_zero, Nat.add_zero] at hcode
  · exact h

/-- What is left over goes to the file, but for the bits of an unfinished byte. -/
theorem Writer.Spells.close {w : Writer} {head : List Byte} {v n : Nat}
    (h : w.Spells head v n) (bits : Nat) :
    ∃ body data, w.close bits = head ++ body ∧ data.length = keptBits n bits ∧
      bytesValue data = v % 2 ^ (8 * data.length) ∧
      ∀ tail, ∃ rest, Blocks (body ++ tail) data (rest ++ tail) ∧ ∀ b ∈ rest, b = 0 := by
  have hflushed := h.flush bits
  have hclose : w.close bits =
      (w.flush bits).file ++ BitVec.ofNat 8 (w.flush bits).lzw.length ::
        (w.flush bits).lzw ++ [0] := rfl
  rw [hclose, keptBits]
  generalize w.flush bits = w' at hflushed
  obtain ⟨hbits, data, ⟨hlen, full, body, hfile, rfl, hblocks⟩, rfl, hn⟩ := hflushed
  refine ⟨body ++ BitVec.ofNat 8 w'.lzw.length :: w'.lzw ++ [0], full ++ w'.lzw, ?_, ?_,
    ?_, fun tail => ?_⟩
  · simp only [hfile, List.append_assoc, List.cons_append]
  · omega
  · rw [Nat.add_mul_mod_self_left, Nat.mod_eq_of_lt (BitPacking.bytesValue_lt _)]
  · obtain ⟨rest, hlast, hzero⟩ := Blocks.last (show w'.lzw.length < 256 by omega) tail
    refine ⟨rest, ?_, hzero⟩
    have hall := hblocks _ _ _ hlast
    simpa only [List.append_assoc, List.cons_append, List.nil_append] using hall

/-- The bytes of an image: the root bits, then blocks with as much of the codes
as is kept. -/
def Encodes (m bits : Nat) (cs : List (Nat × Nat)) (bytes : List Byte) : Prop :=
  ∃ body data, bytes = BitVec.ofNat 8 m :: body ∧ data.length = keptBits (size cs) bits ∧
    bytesValue data = pack cs % 2 ^ (8 * data.length) ∧
    ∀ tail, ∃ rest, Blocks (body ++ tail) data (rest ++ tail) ∧ ∀ b ∈ rest, b = 0

theorem Writer.Spells.start (b : Byte) : (⟨0, 0, [], [b]⟩ : Writer).Spells [b] 0 0 :=
  ⟨Nat.zero_lt_succ 7, [], ⟨Nat.zero_lt_succ 254, [], [], rfl, rfl, fun _ _ _ h => h⟩, rfl, rfl⟩

theorem encodes_close (m bits : Nat) (cs : List (Nat × Nat)) :
    Encodes m bits cs (((⟨0, 0, [], [BitVec.ofNat 8 m]⟩ : Writer).writeAll cs).close bits) := by
  obtain ⟨body, data, hclose, hlen, hvalue, hblocks⟩ :=
    ((Writer.Spells.start _).writeAll cs).close bits
  simp only [Nat.zero_add, pow_zero, one_mul] at hlen hvalue
  exact ⟨body, data, hclose, hlen, hvalue, hblocks⟩

theorem writeAll_cons (w : Writer) (c : Nat × Nat) (cs : List (Nat × Nat)) :
    (w.writeCode c.1 c.2).writeAll cs = w.writeAll (c :: cs) := rfl

section

variable {img : DIB} {numColors : Nat}

theorem width_zero {m : Nat} (hm : 2 ≤ m) : width (2 ^ m) 0 = m + 1 := by
  have hpow : 2 ^ 2 ≤ 2 ^ m := Nat.pow_le_pow_right two_pos hm
  rw [width_eq_iff _ _ _ (Nat.succ_pos m), Nat.succ_sub_one, pow_succ]
  omega

theorem one_lt_limit {m : Nat} (hm : m ≤ 8) : 1 < limit m := by
  have hpow : 2 ^ m ≤ 2 ^ 8 := Nat.pow_le_pow_right two_pos hm
  rw [limit]
  omega

/-- The codes of an image of two or more pixels. -/
def imageCodes (img : DIB) (m : Nat) : List (Nat × Nat) :=
  (m + 1, 2 ^ m) :: codes (2 ^ m) (limit m) byteSym [] [img.bits 0]
    (pixelsFrom img 1 (img.width * img.height - 1))

/-- How many words the table holds when the image ends. -/
def imageLength (img : DIB) (m : Nat) : Nat :=
  finalLength (limit m) [] [img.bits 0] (pixelsFrom img 1 (img.width * img.height - 1))

/-- The first pixel is taken before the loops. -/
theorem firstState_at (hw : 0 < img.width) (hmany : 2 ≤ img.width * img.height)
    (rasters : Nat → Nat) :
    (firstState img rasters numColors).At img 1 := by
  rw [Compressor.At, if_neg (by exact Bool.false_ne_true)]
  by_cases hone : img.width ≤ 1
  · obtain hone : img.width = 1 := by omega
    rw [hone] at hmany
    simp only [firstState, hone, le_refl, decide_true, if_true]
    exact ⟨Nat.one_pos, by omega, trivial⟩
  · have hh : 0 < img.height := Nat.pos_of_ne_zero fun hzero => by simp [hzero] at hmany
    simp only [firstState, hone, decide_false, Bool.false_eq_true, if_false]
    omega

theorem firstState_out (hlo : 2 ≤ numColors) (hhi : numColors ≤ 256) (rasters : Nat → Nat) :
    (firstState img rasters numColors).out =
      (⟨0, 0, [], [BitVec.ofNat 8 (rootBits numColors)]⟩ : Writer).writeCode
        (rootBits numColors + 1)
        (2 ^ rootBits numColors) := by
  simp only [firstState, (sizes_eq hlo hhi).1, sizesFor, width_zero (rootBits_bounds hlo hhi).1,
    Nat.add_sub_cancel]

theorem gifLzwCompressor_encodes (hlo : 2 ≤ numColors) (hhi : numColors ≤ 256) (hw : 0 < img.width)
    (hh : 0 < img.height) (hmax : img.height ≤ 768)
    (hpixels : ∀ i < img.width * img.height, (img.bits i).toNat < 2 ^ rootBits numColors)
    (hmany : 2 ≤ img.width * img.height) (old : Nat → Nat) :
    ∃ bytes, gifLzwCompressor img numColors old = some bytes ∧
      Encodes (rootBits numColors)
      (width (2 ^ rootBits numColors) (imageLength img (rootBits numColors)))
        (imageCodes img (rootBits numColors)) bytes := by
  obtain ⟨hm, hm8⟩ := rootBits_bounds hlo hhi
  have hlimit := one_lt_limit hm8
  have hsizes := (sizes_eq hlo hhi).1
  have hrasters : ∀ y < img.height, rastersFor img old y = y := fun y hy => if_pos hy
  have hcoded : Coded (rootBits numColors) [] [img.bits 0]
      (firstState img (rastersFor img old) numColors) := by
    refine ⟨.empty _, hsizes, ?_, .nil, .inl ⟨_, rfl, hpixels 0 (by omega)⟩,
      Nat.zero_lt_of_lt hlimit⟩
    show (img.bits (rastersFor img old 0 * img.width)).toNat = (img.bits 0).toNat
    rw [hrasters 0 hh, Nat.zero_mul]
  have hloop := loop_codes hlo hhi hpixels hrasters (img.width * img.height - 1)
    (show _ < img.width * img.height + 2 by omega) hcoded (firstState_at hw hmany _) (by omega)
  refine ⟨_, (if_neg hmax.not_gt).trans hloop, ?_⟩
  rw [firstState_out hlo hhi, writeAll_cons _ (rootBits numColors + 1, 2 ^ rootBits numColors)]
  exact encodes_close _ _ _

/-- A single pixel: the loop takes one more, from behind the image. -/
theorem gifLzwCompressor_single (hlo : 2 ≤ numColors) (hhi : numColors ≤ 256) (hw : img.width = 1)
    (hh : img.height = 1) (old : Nat → Nat) :
    ∃ bytes behind, gifLzwCompressor img numColors old = some bytes ∧
      Encodes (rootBits numColors) (width (2 ^ rootBits numColors) 1)
        [(rootBits numColors + 1, 2 ^ rootBits numColors),
          (rootBits numColors + 1, (img.bits 0).toNat),
          (width (2 ^ rootBits numColors) 1, behind),
          (width (2 ^ rootBits numColors) 1, 2 ^ rootBits numColors + 1)]
        bytes := by
  obtain ⟨hm, hm8⟩ := rootBits_bounds hlo hhi
  have hlimit : ¬ 0 + 1 = limit (rootBits numColors) := (one_lt_limit hm8).ne
  have hsizes := (sizes_eq hlo hhi).1
  have hfirst : firstState img (rastersFor img old) numColors =
      ⟨(⟨0, 0, [], [BitVec.ofNat 8 (rootBits numColors)]⟩ : Writer).writeCode
        (rootBits numColors + 1)
        (2 ^ rootBits numColors), emptyTree, sizesFor (rootBits numColors) 0, (img.bits 0).toNat,
          0, 1, false⟩ := by
    have hraster : rastersFor img old 0 = 0 := if_pos (by omega)
    simp only [firstState, hsizes, sizesFor, width_zero hm, Nat.add_sub_cancel, hw, le_refl,
      decide_true, if_true,
      hraster, Nat.zero_mul]
  have hfind (pre suf : Nat) : findHash emptyTree pre suf = some (hashStart (pre, suf)) := rfl
  have hadvance (c : Compressor) (hx : c.x = 0) (hy : c.y = 1) :
      c.advance img = { c with x := 0, y := 2, done := true } := by
    rw [Compressor.advance, if_pos (by omega), hy, hh]
    rfl
  have hlast (c : Compressor) (hc : c.done = true) (turns : Nat) :
      c.loop img (rastersFor img old) (maxBits numColors - 1) (turns + 1) = some c.finish := by
    rw [Compressor.loop, if_pos hc]
  refine ⟨_, (img.bits (rastersFor img old 1 * 1 + 0)).toNat, ?_, encodes_close _ _ _⟩
  rw [gifLzwCompressor, hw, hh, if_neg (by decide)]
  simp only
  rw [hfirst, Compressor.loop, if_neg Bool.false_ne_true]
  simp only
  rw [hadvance _ rfl rfl, hfind, hw]
  simp only [emptyTree]
  rw [addWord_eq hlo hhi (n := 0) rfl, if_neg hlimit, hlast _ rfl, Compressor.finish, width_zero hm]
  rfl

end

end GifLzwEncoder
