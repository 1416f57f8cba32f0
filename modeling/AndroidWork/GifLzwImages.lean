import AndroidWork.GifLzwRoundTrip

/-!
# Whole images through the compressor and the decoder

An image comes back as it was but for one case: the compressor pads its last
codes with a zero code only, and with codes of three bits that may not be enough
to fill the last byte.
-/
namespace GifLzwDecoder

open BitPacking (pack size bytesValue)
open LzwParse (Known Closed codeOf codes width finalLength phrases sizeFrom widths)
open GifLzwEncoder (DIB byteSym limit rootBits pixelsFrom imageCodes imageLength
  gifLzwCompressor Encodes keptBits)
open SubBlocks (Blocks)

/-- `decodeImageData` ends and leaves these pixels. -/
def Decodes (iw ih : Nat) (buf : Buffers) (r : Reader) (xs : List Byte) (r' : Reader) : Prop :=
  ∃ turns n pixels prefixes suffixes,
    decodeImageData iw ih buf r turns = .ok (some (r', ⟨some (n, pixels), prefixes, suffixes⟩)) ∧
      ∀ (i : Nat) (x : Byte), xs[i]? = some x → pixels i = x

theorem loop_done {k : Params} {s : Decoder} (h : ¬ s.pi < k.npix) (turns : Nat) :
    loop k turns s = .ok (some s) := by
  cases turns <;> rw [loop, if_neg h]

theorem loop_more {k : Params} {s s' : Decoder} {turns : Nat}
    (h : loop k turns s = .ok (some s')) (more : Nat) :
    loop k (turns + more) s = .ok (some s') := by
  induction turns generalizing s with
  | zero =>
    rw [loop] at h
    split at h
    · cases h
    · rename_i hpi
      cases h
      exact loop_done hpi _
  | succ turns ih =>
    rw [loop] at h
    by_cases hpi : s.pi < k.npix
    · rw [if_pos hpi] at h
      rw [Nat.succ_add, loop, if_pos hpi]
      rcases hturn : turn k s with e | ⟨go, t⟩
      · simp only [hturn] at h
        cases h
      · simp only [hturn] at h ⊢
        cases go with
        | false => exact h
        | true => exact ih h
    · rw [if_neg hpi] at h
      cases h
      exact loop_done hpi _

/-- How long one lets it run makes no difference. -/
theorem decodeImageData_unique {iw ih : Nat} {buf : Buffers} {r : Reader} {turns turns' : Nat}
    {res res' : Reader × Buffers} (h : decodeImageData iw ih buf r turns = .ok (some res))
    (h' : decodeImageData iw ih buf r turns' = .ok (some res')) : res = res' := by
  rw [decodeImageData] at h h'
  rcases hstart : start iw ih buf r with e | ⟨k, s⟩
  · rw [hstart] at h
    cases h
  · rw [hstart] at h h'
    simp only at h h'
    rcases hl : loop k turns s with e | _ | t
    · rw [hl] at h
      cases h
    · rw [hl] at h
      cases h
    · rcases hl' : loop k turns' s with e | _ | t'
      · rw [hl'] at h'
        cases h'
      · rw [hl'] at h'
        cases h'
      · have hmore := loop_more hl turns'
        rw [Nat.add_comm, loop_more hl' turns] at hmore
        cases hmore
        rw [hl] at h
        rw [hl'] at h'
        cases h
        cases h'
        rfl

theorem Decodes.unique {iw ih : Nat} {buf : Buffers} {r r₁ r₂ : Reader} {xs ys : List Byte}
    (h : Decodes iw ih buf r xs r₁) (h' : Decodes iw ih buf r ys r₂)
    (hlen : xs.length = ys.length) : xs = ys := by
  obtain ⟨turns, n, pixels, prefixes, suffixes, hdecode, hxs⟩ := h
  obtain ⟨turns', n', pixels', prefixes', suffixes', hdecode', hys⟩ := h'
  cases decodeImageData_unique hdecode hdecode'
  refine List.ext_getElem hlen fun i hi hi' => ?_
  rw [← hxs i _ (List.getElem?_eq_getElem hi), ← hys i _ (List.getElem?_eq_getElem hi')]

section

variable {iw ih m : Nat} {buf : Buffers} {r : Reader} {k : Params} {s₀ s : Decoder} {xs : List Byte}

theorem decodes_full (hstart : start iw ih buf r = .ok (k, s₀))
    (hreach : Reached k s₀ s) (hd : Drawn xs s)
    (hlen : (xs.length : Int) = k.npix) : Decodes iw ih buf r xs s.reader := by
  have hend : loop k 0 s = .ok (some s) := loop_done (by rw [hd.pi]; omega) 0
  obtain ⟨more, hloop⟩ := hreach.loop hend
  refine ⟨0 + more, k.pixelsLength, cleared k s, s.prefixes, s.suffixes, ?_, fun i x hx => ?_⟩
  · rw [decodeImageData, hstart]
    simp only [hloop]
  · have hi := (List.getElem?_eq_some_iff.mp hx).1
    rw [cleared, if_neg (by rw [hd.pi]; omega)]
    exact hd.pixels i x hx

/-- When the codes run out, the missing pixels are cleared. -/
theorem decodes_short (hstart : start iw ih buf r = .ok (k, s₀))
    (hreach : Reached k s₀ s) (hd : Drawn xs s)
    {rest : List Byte} {v room : Nat} (hs : s.stack = []) (hsize : s.codeSize ≤ 12)
    (hroom : room < s.codeSize)
    (hholds : Holds rest v room s) (missing : Nat) (hlen : (xs.length + missing : Int) = k.npix)
    (hpos : 0 < missing) :
    ∃ r', Decodes iw ih buf r (xs ++ List.replicate missing 0) r' := by
  induction hn : room - s.bits using Nat.strong_induction_on generalizing s with
  | _ n ih =>
    have hbits : s.bits ≤ room := by
      obtain ⟨-, -, -, data, -, -, hr⟩ := hholds
      omega
    have hpi : s.pi < k.npix := by
      rw [hd.pi]
      omega
    have hturn := turn_load (k := k) hs (by omega)
    rcases hbits.lt_or_eq with hlt | heq
    · obtain ⟨r', block, b, hload, hloaded⟩ := loadByte_holds hholds (by omega) hlt
      rw [hload] at hturn
      exact ih _ (by show room - (s.bits + 8) < n; omega) (hreach.turn hpi hturn)
        (hd.congr rfl rfl) hs hsize hroom
        hloaded rfl
    · obtain ⟨r', hstop⟩ := loadByte_stops hholds heq.ge
      rw [hstop] at hturn
      have hend : loop k 1 s = .ok (some { s with reader := r' }) := by
        rw [loop, if_pos hpi]
        simp only [hturn]
      obtain ⟨more, hloop⟩ := hreach.loop hend
      refine ⟨r', 1 + more, k.pixelsLength, cleared k { s with reader := r' },
        s.prefixes, s.suffixes, ?_,
        fun i x hx => ?_⟩
      · rw [decodeImageData, hstart]
        simp only [hloop]
      · have hpi' : ({ s with reader := r' } : Decoder).pi = xs.length := hd.pi
        rw [cleared, hpi']
        rcases lt_or_ge i xs.length with hi | hi
        · rw [List.getElem?_append_left hi] at hx
          rw [if_neg (by omega)]
          exact hd.pixels i x hx
        · rw [List.getElem?_append_right hi, List.getElem?_replicate] at hx
          split at hx
          · cases hx
            rw [if_pos (by omega)]
          · cases hx

theorem kit_of {npix : Int} {n : Nat} (hm : 2 ≤ m) (hm8 : m ≤ 8) (hn : npix ≤ n) :
    Kit m ⟨npix, m, n⟩ := by
  have hshift : ∀ i : Fin 9, (shiftOne (i.val : Int)).toInt = (2 ^ i.val : Nat) ∧
      (shiftOne ((i.val : Int) + 1) - 1).toNat + 1 = 2 ^ (i.val + 1) := by decide
  obtain ⟨hclear, hmask⟩ := hshift ⟨m, by omega⟩
  exact ⟨hm, hm8, hclear, by show ((m : Int) + 1).toNat = m + 1; omega, hmask, hn⟩

/-- The decoder at the start of an image that was written with root codes of `m` bits. -/
theorem start_fresh (hm : 2 ≤ m) (hm8 : m ≤ 8) (hsize : iw * ih < 2 ^ 31) (buf : Buffers)
    (source : Source) (bytes : List Byte) :
    ∃ k s₀, start iw ih buf ⟨source, BitVec.ofNat 8 m :: bytes, false⟩ = .ok (k, s₀) ∧ Kit m k ∧
      k.npix = (iw * ih : Nat) ∧ Fresh m s₀ ∧ s₀.stack = [] ∧ Drawn [] s₀ ∧
      ∀ data rest, Blocks bytes data rest → Holds rest (bytesValue data) (8 * data.length) s₀ := by
  have hnpix : npixOf iw ih = (iw * ih : Nat) := by
    rw [npixOf, BitVec.toInt_eq_toNat_of_lt, BitVec.toNat_ofNat, Nat.mod_eq_of_lt (by omega)]
    rw [BitVec.toNat_ofNat, Nat.mod_eq_of_lt (by omega)]
    omega
  have hread : (BitVec.ofNat 8 m).toNat = m := by
    rw [BitVec.toNat_ofNat, Nat.mod_eq_of_lt (by omega)]
  rcases pixelsFor_cases (npixOf iw ih) buf.pixels with ⟨⟨-, hneg⟩, -⟩ | ⟨-, n, pixels, hp, hn⟩
  · rw [hnpix] at hneg
    omega
  · have hkit := kit_of hm hm8 hn
    have hclear := hkit.clear
    have hpow : 2 ^ m ≤ 2 ^ 8 := Nat.pow_le_pow_right two_pos hm8
    refine ⟨⟨npixOf iw ih, m, n⟩, initial ⟨npixOf iw ih, m, n⟩ buf ⟨source, bytes, false⟩ pixels,
      ?_, hkit, hnpix, ?_, rfl,
      ⟨rfl, fun i x hx => by cases hx⟩, fun data rest hb => ?_⟩
    · rw [start, hp, ok_bind]
      simp only [Reader.read, hread]
      rw [if_neg (by rw [hclear, maxStackSize]; omega)]
    · refine .mk' hkit (fun b hb => ?_) rfl rfl rfl rfl
      show (if 0 ≤ (b.toNat : Int) ∧ (b.toNat : Int) < Params.clear ⟨npixOf iw ih, m, n⟩ then
        _ else _) = b
      rw [hclear, if_pos ⟨Int.natCast_nonneg _, Int.ofNat_lt.mpr hb⟩, ofInt_toNat]
    · refine ⟨Nat.zero_lt_succ 23, Nat.zero_lt_succ 0, rfl, data, hb, ?_, ?_⟩
      · show 0 + 2 ^ 0 * bytesValue ([] ++ data) = _
        rw [List.nil_append, pow_zero, Nat.one_mul, Nat.zero_add]
      · show 0 + 8 * ([] ++ data).length = _
        rw [List.nil_append, Nat.zero_add]

end

/-- The image comes back from the bytes that the compressor writes. -/
def RoundTrips (img : DIB) (numColors : Nat) (old : Nat → Nat) (source : Source) (buf : Buffers)
    (tail : List Byte) : Prop :=
  ∃ bytes, gifLzwCompressor img numColors old = some bytes ∧
    ∃ r', Decodes img.width img.height buf ⟨source, bytes ++ tail, false⟩
      (pixelsFrom img 0 (img.width * img.height)) r'

/-- The phrases that the compressor cuts an image into. -/
def imagePhrases (img : DIB) (m : Nat) : List (List Byte) :=
  phrases (limit m) [] [img.bits 0] (pixelsFrom img 1 (img.width * img.height - 1))

/-- The codes of the last phrase and the end are three bits wide and leave half
a byte, which three more bits do not fill; the bit that is lost with it matters
unless the phrase is all zeros, as missing pixels are. -/
def LosesLast (img : DIB) (numColors : Nat) : Prop :=
  numColors ≤ 4 ∧ (((imagePhrases img 2).length - 1) % 4091 < 3 ∧
    ((imagePhrases img 2).length - 1) % 4091 % 8 =
      (((imagePhrases img 2).length - 1) / 4091 + 1) % 8) ∧
    ∃ p, (imagePhrases img 2).getLast? = some p ∧ ∃ b ∈ p, b ≠ 0

section

variable {img : DIB} {numColors : Nat}

theorem pixelsFrom_succ (img : DIB) (n count : Nat) :
    pixelsFrom img n (count + 1) = img.bits n :: pixelsFrom img (n + 1) count := rfl

theorem length_pixelsFrom (img : DIB) (n count : Nat) :
    (pixelsFrom img n count).length = count := by
  rw [pixelsFrom, List.length_map, List.length_range']

theorem imagePhrases_flatten (hpos : 0 < img.width * img.height) (m : Nat) :
    (imagePhrases img m).flatten = pixelsFrom img 0 (img.width * img.height) := by
  obtain ⟨n, hn⟩ : ∃ n, img.width * img.height = n + 1 := ⟨_, (Nat.sub_add_cancel hpos).symm⟩
  rw [imagePhrases, LzwParse.phrases_flatten, hn, Nat.add_sub_cancel, pixelsFrom_succ]
  rfl

/-- Three bits too few, as a matter of the number of phrases. -/
theorem short_iff (img : DIB) :
    (width (2 ^ 2) (imageLength img 2) = 3 ∧ size (imageCodes img 2) % 8 = 4) ↔
      ((imagePhrases img 2).length - 1) % 4091 < 3 ∧
        ((imagePhrases img 2).length - 1) % 4091 % 8 =
          (((imagePhrases img 2).length - 1) / 4091 + 1) % 8 := by
  have hpos := List.length_pos_iff.mpr (LzwParse.phrases_ne_nil (limit 2) [] [img.bits 0]
    (pixelsFrom img 1 (img.width * img.height - 1)))
  obtain ⟨n, hn⟩ : ∃ n, (imagePhrases img 2).length = n + 1 := ⟨_, (Nat.sub_add_cancel hpos).symm⟩
  have hlimit : limit 2 = 4091 := rfl
  have hround : widths (2 ^ 2) 0 4091 + width (2 ^ 2) (4091 - 1) = 45061 := by decide +kernel
  have hsize : size (imageCodes img 2) = 3 + sizeFrom (2 ^ 2) 4091 0 n := by
    rw [imageCodes, size, LzwParse.size_codes (2 ^ 2) byteSym _ hn]
    rfl
  have hlength : imageLength img 2 = n % 4091 := by
    rw [imageLength, LzwParse.finalLength_eq _ (by decide) hn, List.length_nil,
      Nat.zero_add, hlimit]
  rw [hlength, hsize, hn, Nat.add_sub_cancel]
  have hsplit := LzwParse.sizeFrom_rounds (2 ^ 2) (show 0 < 4091 by decide) (n / 4091) (n % 4091)
  rw [Nat.div_add_mod, hround] at hsplit
  rw [hsplit, GifLzwEncoder.width_eq_iff _ _ _ (by decide)]
  have hsmall : n % 4091 < 3 → sizeFrom (2 ^ 2) 4091 0 (n % 4091) = 3 * (n % 4091) + 6 := by
    intro h
    generalize n % 4091 = d at h
    interval_cases d <;> decide
  constructor
  · rintro ⟨hw, hmod⟩
    have hd : n % 4091 < 3 := by omega
    rw [hsmall hd] at hmod
    omega
  · rintro ⟨hd, hmod⟩
    rw [hsmall hd]
    omega

theorem keptBits_bounds {n bits : Nat} (hbits : 3 ≤ bits) :
    n ≤ 8 * keptBits n bits + 2 * bits ∧ n + bits ≤ 8 * keptBits n bits + bits + 7 ∧
      (n ≤ 8 * keptBits n bits + bits ↔ ¬ (bits = 3 ∧ n % 8 = 4)) := by
  rw [keptBits]
  split <;> omega

/-- The decoder comes to the image's last phrase. -/
theorem read_image {m : Nat} (hm : 2 ≤ m) (hm8 : m ≤ 8) (hsize : 2 ≤ img.width * img.height)
    (hpixels : ∀ i < img.width * img.height, (img.bits i).toNat < 2 ^ m) {bytes : List Byte}
    (henc : Encodes m (width (2 ^ m) (imageLength img m)) (imageCodes img m) bytes)
    (buf : Buffers) (source : Source)
    (tail : List Byte) :
    ∃ k s₀ s dict b w room before rest,
      start img.width img.height buf ⟨source, bytes ++ tail, false⟩ = .ok (k, s₀) ∧
      Kit m k ∧ k.npix = (img.width * img.height : Nat) ∧ Reached k s₀ s ∧
      Closed (2 ^ m) byteSym dict ∧
      Known (2 ^ m) byteSym dict (b :: w) ∧ dict.length < limit m ∧
      Ready m dict b s ∧ s.stack = [] ∧
      dict.length = imageLength img m ∧ imagePhrases img m = before ++ [b :: w] ∧
      Drawn before.flatten s ∧
      room + size (imageCodes img m) =
        8 * keptBits (size (imageCodes img m))
        (width (2 ^ m) dict.length) + 2 * width (2 ^ m) dict.length ∧
      (∀ b ∈ rest, b = 0) ∧
      Holds (rest ++ tail)
      (pack (codes (2 ^ m) (limit m) byteSym dict (b :: w) []) % 2 ^ room) room s := by
  obtain ⟨body, data, rfl, hlen, hvalue, hblocks⟩ := henc
  obtain ⟨rest, hblocks, hzero⟩ := hblocks tail
  obtain ⟨k, s₀, hstart, hk, hnpix, hfresh, hs, hd, hholds⟩ :=
    start_fresh hm hm8 img.size_lt buf source (body ++ tail)
  have hpow : 2 ^ m ≤ 2 ^ 8 := Nat.pow_le_pow_right two_pos hm8
  have hbits : 3 ≤ width (2 ^ m) (imageLength img m) := by
    have hmono := GifLzwEncoder.width_mono (2 ^ m) (Nat.zero_le (imageLength img m))
    rw [GifLzwEncoder.width_zero hm] at hmono
    omega
  obtain ⟨hkept, hkept', -⟩ := keptBits_bounds (n := size (imageCodes img m)) hbits
  have hmin := LzwParse.le_size_codes (2 ^ m) (limit m) byteSym [] [img.bits 0]
    (pixelsFrom img 1 (img.width * img.height - 1))
  have hn : size (imageCodes img m) = (m + 1) +
      size (codes (2 ^ m) (limit m) byteSym [] [img.bits 0]
        (pixelsFrom img 1 (img.width * img.height - 1))) := rfl
  rw [← imageLength] at hmin
  have hstream := hholds data _ hblocks
  rw [hvalue, hlen] at hstream
  have hlimit : 0 < limit m := by
    rw [limit]
    omega
  have hwidth : s₀.codeSize = m + 1 := by
    have hready : Ready m [] (img.bits 0) s₀ := .inl ⟨rfl, hfresh⟩
    rw [hready.codeSize hk hlimit, List.length_nil, GifLzwEncoder.width_zero hm]
  obtain ⟨s₁, hreach₁, hfresh₁, hs₁, hd₁, hholds₁⟩ :=
    read_clear hk hs (by rw [hd.pi, hnpix, List.length_nil]; omega)
    hfresh.tables hwidth (by omega) (Nat.pow_lt_pow_right (by decide) (Nat.lt_succ_self m))
      (by omega) hstream hd
  obtain ⟨s, dict, b, w, room, hreach, hc, hp, hlen', hready, hs', hfinal,
      ⟨before, hphrases, hdrawn⟩, hcount, hend⟩ :=
    read_phrases hk (pixelsFrom img 1 (img.width * img.height - 1)) (by
      intro x hx
      obtain ⟨i, hi, rfl⟩ := List.mem_map.mp hx
      rw [List.mem_range'_1] at hi
      exact hpixels i (by omega)) .nil (.inl ⟨_, rfl, hpixels 0 (by omega)⟩) hlimit
        (.inl ⟨rfl, hfresh₁⟩) hs₁ hd₁
      (by rw [hnpix, length_pixelsFrom]; simp only [List.length_nil, List.length_singleton]; omega)
      (by rw [← imageLength]; omega) hholds₁
  rw [← imageLength] at hfinal
  refine ⟨k, s₀, s, dict, b, w, room, before, rest, hstart, hk, hnpix, hreach₁.trans hreach, hc, hp,
    hlen', hready, hs',
    hfinal, hphrases, hdrawn, ?_, hzero, hend⟩
  rw [hfinal] at hcount ⊢
  omega

/-- Either all phrases are read, or the last one is missing. -/
theorem image_outcome {m : Nat} (hm : 2 ≤ m) (hm8 : m ≤ 8) (hsize : 2 ≤ img.width * img.height)
    (hpixels : ∀ i < img.width * img.height, (img.bits i).toNat < 2 ^ m) {bytes : List Byte}
    (henc : Encodes m (width (2 ^ m) (imageLength img m)) (imageCodes img m) bytes)
    (buf : Buffers) (source : Source)
    (tail : List Byte) :
    (¬ (width (2 ^ m) (imageLength img m) = 3 ∧ size (imageCodes img m) % 8 = 4) ∧
      ∃ r', Decodes img.width img.height buf ⟨source, bytes ++ tail, false⟩
        (pixelsFrom img 0 (img.width * img.height)) r' ∧ r'.formatError = false ∧
        ∃ data rest, Blocks r'.bytes data (rest ++ tail) ∧ ∀ b ∈ rest, b = 0) ∨
    ((width (2 ^ m) (imageLength img m) = 3 ∧ size (imageCodes img m) % 8 = 4) ∧
      ∃ before p r', imagePhrases img m = before ++ [p] ∧
        Decodes img.width img.height buf ⟨source, bytes ++ tail, false⟩
          (before.flatten ++ List.replicate p.length 0) r') := by
  obtain ⟨k, s₀, s, dict, b, w, room, before, rest, hstart, hk, hnpix, hreach, hc, hp, hlen, hready,
      hs, hfinal, hphrases,
    hd, hroom, hzero, hholds⟩ := read_image hm hm8 hsize hpixels henc buf source tail
  have hbits : 3 ≤ width (2 ^ m) dict.length := by
    have hmono := GifLzwEncoder.width_mono (2 ^ m) (Nat.zero_le dict.length)
    rw [GifLzwEncoder.width_zero hm] at hmono
    omega
  obtain ⟨-, -, hiff⟩ := keptBits_bounds (n := size (imageCodes img m)) hbits
  have himage := imagePhrases_flatten (show 0 < img.width * img.height by omega) m
  rw [hphrases, List.flatten_append, List.flatten_singleton] at himage
  have hcount : before.flatten.length + (b :: w).length = img.width * img.height := by
    rw [← List.length_append, himage, length_pixelsFrom]
  rw [← hfinal]
  rcases lt_or_ge room (width (2 ^ m) dict.length) with hlt | hge
  · right
    have hlost : width (2 ^ m) dict.length = 3 ∧ size (imageCodes img m) % 8 = 4 := by
      by_contra hlost
      have := hiff.mpr hlost
      omega
    have hcode := hready.codeSize hk hlen
    obtain ⟨r', hdecodes⟩ := decodes_short hstart hreach hd hs (by rw [hcode]; omega)
      (by rw [hcode]; exact hlt) hholds
      (b :: w).length (by rw [hnpix]; omega) (Nat.succ_pos _)
    exact ⟨hlost, before, b :: w, r', hphrases, hdecodes⟩
  · left
    obtain ⟨s', hreach', -, -, hd', hholds'⟩ :=
      read_phrase hk hc hp hlen hready hs hd (by rw [hnpix]; omega) hge hholds
    rw [himage] at hd'
    refine ⟨hiff.mp (by omega), s'.reader, decodes_full hstart (hreach.trans hreach') hd' ?_,
      hholds'.error, ?_⟩
    · rw [length_pixelsFrom, hnpix]
    · obtain ⟨-, -, -, data, hblocks, -, -⟩ := hholds'
      exact ⟨data, rest, hblocks, hzero⟩

/-- A single pixel is read before what the compressor has found behind it. -/
theorem single_outcome {m : Nat} (hm : 2 ≤ m) (hm8 : m ≤ 8) (hw : img.width = 1)
    (hh : img.height = 1)
    (hpixel : (img.bits 0).toNat < 2 ^ m) {bytes : List Byte} {behind : Nat}
    (henc : Encodes m (width (2 ^ m) 1)
      [(m + 1, 2 ^ m), (m + 1, (img.bits 0).toNat), (width (2 ^ m) 1, behind),
      (width (2 ^ m) 1, 2 ^ m + 1)] bytes) (buf : Buffers) (source : Source) (tail : List Byte) :
    ∃ r', Decodes img.width img.height buf ⟨source, bytes ++ tail, false⟩
      (pixelsFrom img 0 (img.width * img.height)) r' ∧
      r'.formatError = false ∧ ∃ data rest, Blocks r'.bytes data (rest ++ tail) ∧
      ∀ b ∈ rest, b = 0 := by
  obtain ⟨body, data, rfl, hlen, hvalue, hblocks⟩ := henc
  obtain ⟨rest, hblocks, hzero⟩ := hblocks tail
  obtain ⟨k, s₀, hstart, hk, hnpix, hfresh, hs, hd, hholds⟩ :=
    start_fresh hm hm8 img.size_lt buf source (body ++ tail)
  have hpow : 2 ^ m ≤ 2 ^ 8 := Nat.pow_le_pow_right two_pos hm8
  have hlimit : 0 < limit m := by
    rw [limit]
    omega
  have hmono := GifLzwEncoder.width_mono (2 ^ m) (Nat.zero_le 1)
  rw [GifLzwEncoder.width_zero hm] at hmono
  obtain ⟨-, hkept, -⟩ := keptBits_bounds (n := size [(m + 1, 2 ^ m), (m + 1, (img.bits 0).toNat),
    (width (2 ^ m) 1, behind), (width (2 ^ m) 1, 2 ^ m + 1)]) (show 3 ≤ width (2 ^ m) 1 by omega)
  have hstream := hholds data _ hblocks
  rw [hvalue, hlen] at hstream
  simp only [size] at hkept hstream
  have hready₀ : Ready m [] (img.bits 0) s₀ := .inl ⟨rfl, hfresh⟩
  have hwidth := hready₀.codeSize hk hlimit
  rw [List.length_nil, GifLzwEncoder.width_zero hm] at hwidth
  have hsize : img.width * img.height = 1 := by rw [hw, hh]
  obtain ⟨s₁, hreach₁, hfresh₁, hs₁, hd₁, hholds₁⟩ :=
    read_clear hk hs (by rw [hd.pi, hnpix, hsize]; decide)
    hfresh.tables hwidth (by omega) (Nat.pow_lt_pow_right (by decide) (Nat.lt_succ_self m))
      (by omega) hstream hd
  have hready : Ready m [] (img.bits 0) s₁ := .inl ⟨rfl, hfresh₁⟩
  have hroom : width (2 ^ m) ([] : List (List Byte)).length ≤
      8 * keptBits (m + 1 + (m + 1 + (width (2 ^ m) 1 + (width (2 ^ m) 1 + 0))))
        (width (2 ^ m) 1) - (m + 1) := by
    rw [List.length_nil, GifLzwEncoder.width_zero hm]
    omega
  obtain ⟨s', hreach, -, -, hd', hholds'⟩ :=
    read_phrase hk .nil (.inl ⟨_, rfl, hpixel⟩) hlimit hready hs₁ hd₁
    (by rw [hnpix, hsize, List.length_nil, List.length_singleton]; rfl) hroom
    (by rw [List.length_nil, GifLzwEncoder.width_zero hm]; exact hholds₁)
  have hpixels : pixelsFrom img 0 (img.width * img.height) = [img.bits 0] := by
    rw [hsize]
    rfl
  rw [hpixels]
  refine ⟨s'.reader, decodes_full hstart (hreach₁.trans hreach) hd' (by rw [hnpix, hsize]; rfl),
    hholds'.error, ?_⟩
  obtain ⟨-, -, -, data', hblocks', -, -⟩ := hholds'
  exact ⟨data', rest, hblocks', hzero⟩

theorem rootBits_eq_two_iff (hlo : 2 ≤ numColors) (hhi : numColors ≤ 256) :
    rootBits numColors = 2 ↔ numColors ≤ 4 := by
  have h : ∀ n : Fin 257, 2 ≤ n.val → (rootBits n.val = 2 ↔ n.val ≤ 4) := by decide +kernel
  exact h ⟨numColors, by omega⟩ hlo

end

/-- An image comes back from the compressor's bytes exactly when its last code is
not cut off. -/
theorem roundTrips_iff (img : DIB) (numColors : Nat) (hw : 0 < img.width) (hh : 0 < img.height)
    (hmax : img.height ≤ 768) (hlo : 2 ≤ numColors) (hhi : numColors ≤ 256)
    (hpixels : ∀ i < img.width * img.height,
      (img.bits i).toNat < 2 ^ GifLzwEncoder.maxBits numColors)
    (old : Nat → Nat) (source : Source) (buf : Buffers) (tail : List Byte) :
    RoundTrips img numColors old source buf tail ↔ ¬ LosesLast img numColors := by
  obtain ⟨hm, hm8⟩ := GifLzwEncoder.rootBits_bounds hlo hhi
  have hpos : 0 < img.width * img.height := Nat.mul_pos hw hh
  have hpixels' : ∀ i < img.width * img.height, (img.bits i).toNat < 2 ^ rootBits numColors :=
    fun i hi =>
    (hpixels i hi).trans_le (Nat.pow_le_pow_right two_pos (le_max_right _ _))
  rcases (show img.width * img.height = 1 ∨ 2 ≤ img.width * img.height by omega) with hone | hmany
  · have hw' : img.width = 1 := Nat.eq_one_of_mul_eq_one_right hone
    have hh' : img.height = 1 := Nat.eq_one_of_mul_eq_one_left hone
    obtain ⟨bytes, behind, hbytes, henc⟩ :=
      GifLzwEncoder.gifLzwCompressor_single hlo hhi hw' hh' old
    obtain ⟨r', hdecodes, -⟩ := single_outcome hm hm8 hw' hh' (hpixels' 0 hpos) henc buf source tail
    refine ⟨fun _ hloses => ?_, fun _ => ⟨bytes, hbytes, r', hdecodes⟩⟩
    have hphrases : imagePhrases img 2 = [[img.bits 0]] := by
      rw [imagePhrases, hone]
      rfl
    have hcount := hloses.2.1.2
    rw [hphrases, List.length_singleton] at hcount
    exact absurd hcount (by decide)
  · obtain ⟨bytes, hbytes, henc⟩ :=
      GifLzwEncoder.gifLzwCompressor_encodes hlo hhi hw hh hmax hpixels' hmany old
    rcases image_outcome hm hm8 hmany hpixels' henc buf source tail with
      ⟨hfits, r', hdecodes, -⟩ | ⟨hlost, before, p, r', hphrases, hdecodes⟩
    · refine ⟨fun _ hloses => ?_, fun _ => ⟨bytes, hbytes, r', hdecodes⟩⟩
      rw [(rootBits_eq_two_iff hlo hhi).mpr hloses.1] at hfits
      exact hfits ((short_iff img).mpr hloses.2.1)
    · have htwo : rootBits numColors = 2 := by
        have hmono := GifLzwEncoder.width_mono (2 ^ rootBits numColors)
          (Nat.zero_le (imageLength img (rootBits numColors)))
        rw [GifLzwEncoder.width_zero hm, hlost.1] at hmono
        omega
      rw [htwo] at hlost hphrases
      have himage := imagePhrases_flatten hpos 2
      rw [hphrases, List.flatten_append, List.flatten_singleton] at himage
      have hlast : (imagePhrases img 2).getLast? = some p := by
        rw [hphrases, List.getLast?_concat]
      have hfour := (rootBits_eq_two_iff hlo hhi).mp htwo
      have hzero : RoundTrips img numColors old source buf tail ↔
      p = List.replicate p.length 0 := by
        constructor
        · rintro ⟨bytes', hbytes', r'', hdecodes'⟩
          rw [hbytes] at hbytes'
          cases hbytes'
          rw [← himage] at hdecodes'
          have heq :=
            hdecodes'.unique hdecodes (by simp only [List.length_append, List.length_replicate])
          exact List.append_cancel_left heq
        · intro hp
          rw [← hp, himage] at hdecodes
          exact ⟨bytes, hbytes, r', hdecodes⟩
      rw [hzero, List.eq_replicate_iff]
      constructor
      · rintro ⟨-, hp⟩ ⟨-, -, q, hq, b, hb, hne⟩
        rw [hlast] at hq
        cases hq
        exact hne (hp b hb)
      · intro hloses
        refine ⟨rfl, fun b hb => ?_⟩
        by_contra hne
        exact hloses ⟨hfour, (short_iff img).mp hlost, p, hlast, b, hb, hne⟩

/-- Four pixels of 16 colours meet the assumptions. -/
theorem roundTrips_sixteenColors :
    RoundTrips ⟨2, 2, by decide, fun i => BitVec.ofNat 8 (i + 7)⟩ 16 (fun _ => 0) .stream
      ⟨none, fun _ => 0, fun _ => 0⟩ [] ↔
      ¬ LosesLast ⟨2, 2, by decide, fun i => BitVec.ofNat 8 (i + 7)⟩ 16 :=
  roundTrips_iff _ 16 (by decide) (by decide) (by decide) (by decide) (by decide)
    (by decide) _ _ _ _

/-- Two pixels of two colours: the code of the second one is cut off. -/
theorem roundTrips_twoPixels :
    ¬ RoundTrips ⟨2, 1, by decide, fun i => BitVec.ofNat 8 i⟩ 2 (fun _ => 0) .stream
      ⟨none, fun _ => 0, fun _ => 0⟩ [] := by
  rintro ⟨bytes, hbytes, r', turns, n, pixels, prefixes, suffixes, hdecode, hpixels⟩
  have hwritten : gifLzwCompressor ⟨2, 1, by decide, fun i => BitVec.ofNat 8 i⟩ 2 (fun _ => 0) =
      some [2, 1, 0x44, 0] := by
    decide
  rw [hwritten] at hbytes
  cases hbytes
  have hrun : ∃ r'' n' pixels' prefixes' suffixes',
      decodeImageData 2 1 ⟨none, fun _ => 0, fun _ => 0⟩
        ⟨.stream, [2, 1, 0x44, 0] ++ [], false⟩ 10 =
        .ok (some (r'', ⟨some (n', pixels'), prefixes', suffixes'⟩)) ∧ pixels' 1 = 0 :=
    ⟨_, _, _, _, _, rfl, rfl⟩
  obtain ⟨r'', n', pixels', prefixes', suffixes', hrun, hzero⟩ := hrun
  cases decodeImageData_unique hdecode hrun
  have hone := hpixels 1 1 rfl
  rw [show ((1 : Nat) : Int) = 1 from rfl, hzero] at hone
  cases hone

end GifLzwDecoder
