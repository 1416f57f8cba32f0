import AndroidWork.GifLzwCalls

/-!
# When the compressor's blocks are in order

The last block is empty when the data fill all blocks before it, and the bits of
the last codes are lost when the flush does not complete a byte. Both are a
matter of the number of bits alone.
-/
namespace GifLzwEncoder

open BitPacking (pack size bytesValue)
open LzwParse (width sizeFrom)
open LzwRuns (runs)
open SubBlocks (Blocks)

/-- The writer has been given `n` bits, and full blocks have left. -/
structure Writer.Filled (w : Writer) (n : Nat) : Prop where
  statBits : w.statBits = n % 8
  lzw : w.lzw.length = n / 8 % 255

theorem Writer.Filled.start (b : Byte) : (⟨0, 0, [], [b]⟩ : Writer).Filled 0 := ⟨rfl, rfl⟩

theorem appendCode_length {w : Writer} {k : Nat} (h : w.lzw.length = k % 255) (b : Byte) :
    (w.appendCode b).lzw.length = (k + 1) % 255 := by
  have hlength : (w.lzw ++ [b]).length = w.lzw.length + 1 := List.length_append
  rw [Writer.appendCode]
  simp only [hlength]
  split
  · show 0 = _
    omega
  · show (w.lzw ++ [b]).length = _
    omega

theorem emit_filled {n : Nat} (turns : Nat) {w : Writer} {k : Nat} (h : w.lzw.length = k % 255)
    (hn : 8 * k + w.statBits = n) (hturns : w.statBits ≤ turns) : (w.emit turns).Filled n := by
  induction turns generalizing w k with
  | zero =>
    rw [Writer.emit]
    exact ⟨by omega, by rw [h]; congr 1; omega⟩
  | succ turns ih =>
    rw [Writer.emit]
    split
    · rename_i hbits
      have hstat : w.emitByte.statBits = w.statBits - 8 := rfl
      have hlength : w.emitByte.lzw.length = (k + 1) % 255 := appendCode_length h _
      exact ih hlength (by omega) (by omega)
    · exact ⟨by omega, by rw [h]; congr 1; omega⟩

theorem Writer.Filled.writeCode {w : Writer} {n : Nat} (h : w.Filled n) (noBits code : Nat) :
    (w.writeCode noBits code).Filled (n + noBits) := by
  rw [Writer.writeCode]
  refine emit_filled _ h.lzw ?_ le_rfl
  show 8 * (n / 8) + (w.statBits + noBits) = n + noBits
  rw [h.statBits]
  omega

theorem Writer.Filled.writeAll (cs : List (Nat × Nat)) {w : Writer} {n : Nat} (h : w.Filled n) :
    (w.writeAll cs).Filled (n + size cs) := by
  induction cs generalizing w n with
  | nil => exact h
  | cons c cs ih =>
    have hmore := ih (h.writeCode c.1 c.2)
    rw [size, ← Nat.add_assoc]
    exact hmore

theorem Writer.Filled.flush {w : Writer} {n : Nat} (h : w.Filled n) (bits : Nat) :
    (w.flush bits).Filled (if n % 8 ≠ 0 then n + bits else n) := by
  rw [Writer.flush, h.statBits]
  split
  · exact h.writeCode bits 0
  · exact h

/-- The blocks that `close` leaves: a second zero byte follows those with a
multiple of 255 bytes. -/
theorem Writer.Spells.close_blocks {w : Writer} {head : List Byte} {v n : Nat}
    (h : w.Spells head v n)
    (hfilled : w.Filled n) (bits : Nat) :
    ∃ body data, w.close bits = head ++ body ∧ data.length = keptBits n bits ∧
      bytesValue data = v % 2 ^ (8 * data.length) ∧
      Blocks body data (if keptBits n bits % 255 = 0 then [0] else []) := by
  have hflushed := h.flush bits
  have hlzw := (hfilled.flush bits).lzw
  have hclose : w.close bits =
      (w.flush bits).file ++ BitVec.ofNat 8 (w.flush bits).lzw.length ::
        (w.flush bits).lzw ++ [0] := rfl
  rw [hclose, keptBits]
  generalize w.flush bits = w' at hflushed hlzw
  obtain ⟨hbits, data, ⟨hlen, full, body, hfile, rfl, hblocks⟩, rfl, hn⟩ := hflushed
  refine ⟨body ++ BitVec.ofNat 8 w'.lzw.length :: (w'.lzw ++ [0]), full ++ w'.lzw, ?_, ?_, ?_, ?_⟩
  · simp only [hfile, List.append_assoc, List.cons_append]
  · omega
  · rw [Nat.add_mul_mod_self_left, Nat.mod_eq_of_lt (BitPacking.bytesValue_lt _)]
  · rw [← hlzw]
    exact hblocks _ _ _ (Blocks.close (show w'.lzw.length < 256 by omega))

section

variable {img : DIB} {numColors : Nat}

/-- The bytes that the codes of an image make, with their blocks. -/
theorem emitted_blocks (hlo : 2 ≤ numColors) (hhi : numColors ≤ 256) {old : Nat → Nat}
    {calls : List (Nat × Nat)}
    {sizes : Sizes} (h : emitted img numColors old = some (calls, sizes)) :
    ∃ body data, gifLzwCompressor img numColors old =
      some (BitVec.ofNat 8 (rootBits numColors) :: body) ∧
      data.length = keptBits (size (calls ++ [sizes.eoi])) sizes.bits ∧
      bytesValue data = pack (calls ++ [sizes.eoi]) % 2 ^ (8 * data.length) ∧
      Blocks body data (if data.length % 255 = 0 then [0] else []) := by
  obtain ⟨body, data, hclose, hlen, hvalue, hblocks⟩ :=
    ((Writer.Spells.start _).writeAll (calls ++ [sizes.eoi])).close_blocks
      ((Writer.Filled.start _).writeAll _) sizes.bits
  simp only [Nat.zero_add, pow_zero, one_mul] at hlen hvalue hblocks
  refine ⟨body, data, ?_, hlen, hvalue, hlen ▸ hblocks⟩
  rw [gifLzwCompressor_calls hlo hhi h, hclose]
  rfl

/-- Behind the minimum code size come blocks of 1 to 255 bytes and one zero byte,
and the data are all codes with EOI, each in its width. -/
def WellFramed (img : DIB) (numColors : Nat) (old : Nat → Nat) : Prop :=
  ∃ calls sizes minimum body data, emitted img numColors old = some (calls, sizes) ∧
    gifLzwCompressor img numColors old = some (minimum :: body) ∧ Blocks body data [] ∧
    (∀ p ∈ calls ++ [sizes.eoi], p.2 < 2 ^ p.1) ∧
    size (calls ++ [sizes.eoi]) ≤ 8 * data.length ∧ bytesValue data = pack (calls ++ [sizes.eoi])

/-- The bits of all codes when the pixels are cut into `n` runs. -/
def streamBits (m n : Nat) : Nat := m + 1 + sizeFrom (2 ^ m) (limit m) 0 (n - 1)

/-- The width of the last codes. -/
def endWidth (m n : Nat) : Nat := width (2 ^ m) ((n - 1) % limit m)

/-- The runs have codes that fit, the flush completes the last byte, and the last
block has bytes. -/
structure Closes (m : Nat) (rs : List (Nat × Nat)) : Prop where
  fit : ∀ r ∈ rs, r.2 < 2 ^ width (2 ^ m) r.1
  complete : streamBits m rs.length % 8 = 0 ∨ 8 ≤ streamBits m rs.length % 8 + endWidth m rs.length
  block : keptBits (streamBits m rs.length) (endWidth m rs.length) % 255 ≠ 0

theorem le_keptBits_iff (n bits : Nat) :
    n ≤ 8 * keptBits n bits ↔ n % 8 = 0 ∨ 8 ≤ n % 8 + bits := by
  rw [keptBits]
  split <;> omega

/-- How many bits there are, and which codes fit, by the runs. -/
theorem emitted_runs (hlo : 2 ≤ numColors) (hhi : numColors ≤ 256) (hw : 0 < img.width)
    (hh : 0 < img.height)
    (hmax : img.height ≤ 768) (old : Nat → Nat) {rs : List (Nat × Nat)}
    (hrs : rs = runs (2 ^ rootBits numColors) (limit (rootBits numColors)) [] (img.bits 0).toNat
      (taken img old)) :
    ∃ calls sizes, emitted img numColors old = some (calls, sizes) ∧
      size (calls ++ [sizes.eoi]) = streamBits (rootBits numColors) rs.length ∧
      sizes.bits = endWidth (rootBits numColors) rs.length ∧
      ((∀ p ∈ calls ++ [sizes.eoi], p.2 < 2 ^ p.1) ↔ ∀ r ∈ rs,
        r.2 < 2 ^ width (2 ^ rootBits numColors) r.1) := by
  obtain ⟨-, hm8⟩ := rootBits_bounds hlo hhi
  obtain ⟨n, hn⟩ : ∃ n, rs.length = n + 1 :=
    ⟨_, (Nat.sub_add_cancel (hrs ▸ LzwRuns.runs_length_pos)).symm⟩
  have hsize := LzwRuns.size_codes (hrs ▸ hn)
  have hlast := LzwRuns.lastLength_eq (Nat.zero_lt_of_lt (one_lt_limit hm8)) (hrs ▸ hn)
  rw [List.length_nil] at hsize hlast
  have hfit := @LzwRuns.codes_fit_iff (2 ^ rootBits numColors) (limit (rootBits numColors)) []
    (img.bits 0).toNat
    (taken img old)
  rw [← hrs] at hfit
  refine ⟨_, _, emitted_eq hlo hhi hw hh hmax old, ?_, ?_, ?_⟩
  · rw [BitPacking.size_append, hn, streamBits, Nat.add_sub_cancel, ← hsize]
    simp only [size, Sizes.eoi, sizesFor]
    omega
  · rw [hn, endWidth, Nat.add_sub_cancel, sizesFor, hlast, Nat.zero_add]
  · have hclear : 2 ^ rootBits numColors < 2 ^ (rootBits numColors + 1) :=
      Nat.pow_lt_pow_right one_lt_two (Nat.lt_succ_self _)
    have heoi (d : Nat) : 2 ^ rootBits numColors + 1 < 2 ^ width (2 ^ rootBits numColors) d := by
      have := LzwRuns.lt_two_pow_width (2 ^ rootBits numColors) d
      omega
    simp only [List.cons_append, List.forall_mem_cons, List.forall_mem_append,
      List.not_mem_nil, Sizes.eoi,
      sizesFor, hclear, heoi, hfit, true_and, and_true, false_implies, implies_true]

/-- The blocks are in order, and no bit is missing, exactly for runs that close. -/
theorem wellFramed_iff (hlo : 2 ≤ numColors) (hhi : numColors ≤ 256) (hw : 0 < img.width)
    (hh : 0 < img.height)
    (old : Nat → Nat) :
    WellFramed img numColors old ↔ img.height ≤ 768 ∧ Closes (rootBits numColors)
      (runs (2 ^ rootBits numColors) (limit (rootBits numColors)) [] (img.bits 0).toNat
        (taken img old)) := by
  generalize hrs : runs (2 ^ rootBits numColors) _ [] _ (taken img old) = rs
  constructor
  · rintro ⟨calls, sizes, minimum, body, data, hcalls, hbytes, hblocks, hfits, hlen, hvalue⟩
    have hmax : img.height ≤ 768 := by
      by_contra hmax
      rw [emitted, if_pos (Nat.lt_of_not_le hmax)] at hcalls
      cases hcalls
    obtain ⟨calls', sizes', hcalls', hsize, hwidth, hfit⟩ :=
      emitted_runs hlo hhi hw hh hmax old hrs.symm
    rw [hcalls] at hcalls'
    cases hcalls'
    obtain ⟨body', data', hbytes', hlen', -, hblocks'⟩ := emitted_blocks hlo hhi hcalls
    rw [hbytes] at hbytes'
    cases hbytes'
    obtain ⟨rfl, hrest⟩ := hblocks.unique hblocks'
    rw [hsize, hwidth] at hlen'
    refine ⟨hmax, hfit.mp hfits, ?_, ?_⟩
    · rw [← le_keptBits_iff, ← hlen', ← hsize]
      exact hlen
    · intro hfull
      rw [hlen', if_pos hfull] at hrest
      cases hrest
  · rintro ⟨hmax, hfits, hcomplete, hblock⟩
    obtain ⟨calls, sizes, hcalls, hsize, hwidth, hfit⟩ :=
      emitted_runs hlo hhi hw hh hmax old hrs.symm
    obtain ⟨body, data, hbytes, hlen, hvalue, hblocks⟩ := emitted_blocks hlo hhi hcalls
    rw [hsize, hwidth] at hlen
    rw [hlen, if_neg hblock] at hblocks
    have hall : size (calls ++ [sizes.eoi]) ≤ 8 * data.length := by
      rw [hsize, hlen, le_keptBits_iff]
      exact hcomplete
    refine ⟨calls, sizes, _, body, data, hcalls, hbytes, hblocks, hfit.mpr hfits, hall, ?_⟩
    rw [hvalue, Nat.mod_eq_of_lt]
    exact (BitPacking.pack_lt (hfit.mpr hfits)).trans_le (Nat.pow_le_pow_right two_pos hall)

theorem wellFramed_threePixels : WellFramed
    ⟨3, 1, by decide, fun i => if i = 1 then 1 else 0⟩ 2 (fun _ => 0) :=
  (wellFramed_iff (by decide) (by decide) (by decide) (by decide) _).mpr
    ⟨by decide, by decide, by decide, by decide⟩

/-- Two pixels of one of two colours: a byte holds the clear code, the codes of the
pixels but for a bit, and nothing of EOI. -/
theorem not_wellFramed_twoPixels :
    gifLzwCompressor ⟨2, 1, by decide, fun _ => 0⟩ 2 (fun _ => 0) = some [2, 1, 4, 0] ∧
      ¬ WellFramed ⟨2, 1, by decide, fun _ => 0⟩ 2 (fun _ => 0) := by
  have hcalls : emitted ⟨2, 1, by decide, fun _ => 0⟩ 2 (fun _ => 0) =
      some ([(3, 4), (3, 0), (3, 0)], ⟨4, 7, 3, 8⟩) := rfl
  have hbytes : gifLzwCompressor ⟨2, 1, by decide, fun _ => 0⟩ 2 (fun _ => 0) = some [2, 1, 4, 0] :=
    rfl
  refine ⟨hbytes, ?_⟩
  intro ⟨calls, sizes, minimum, body, data, hcalls', hbytes', hblocks, hfits, hlen, hvalue⟩
  rw [hcalls] at hcalls'
  rw [hbytes] at hbytes'
  cases hcalls'
  cases hbytes'
  have hone : Blocks [1, 4, 0] [4] [] :=
    Blocks.block 1 (List.cons_ne_nil 4 []) rfl (.stop [])
  obtain ⟨rfl, -⟩ := hblocks.unique hone
  exact absurd hlen (by decide)

end

end GifLzwEncoder
