import AndroidWork.GifLzwStream

/-!
# Images longer and shorter than their streams

`decodeImageData` leaves the first symbols that a stream spells, as many as the
image has pixels, and zeros where the stream ends before.
-/
namespace GifLzwDecoder

open BitPacking (pack size bytesValue)
open LzwStream (word extend Stream)
open SubBlocks (Blocks)

section

variable {m n : Nat} {words : List (List Byte)} {prev : Option (List Byte)}
    {k : Params} {s : Decoder}
  {xs rest : List Byte} {v room : Nat}

/-- The loop goes on until it comes to a state that ends it. -/
def EndsWith (k : Params) (xs : List Byte) (s : Decoder) : Prop :=
  ∃ turns s', loop k turns s = .ok (some s') ∧ Drawn xs s'

theorem EndsWith.reached {s' : Decoder} (h : EndsWith k xs s') (hreach : Reached k s s') :
    EndsWith k xs s := by
  obtain ⟨turns, t, hloop, hdrawn⟩ := h
  obtain ⟨more, hmore⟩ := hreach.loop hloop
  exact ⟨_, t, hmore, hdrawn⟩

/-- The loop ends with the last pixel. -/
theorem Drawn.endsWith (hd : Drawn xs s) (hn : k.npix = n) (hlen : xs.length = n) :
    EndsWith k xs s := by
  refine ⟨0, s, loop_done ?_ 0, hd⟩
  rw [hd.pi, hn, hlen]
  exact lt_irrefl _

/-- A word that does not fit is cut off. -/
theorem pop_until (hk : k.npix ≤ k.pixelsLength) (hn : k.npix = n) {stack : List Byte}
    (hd : Drawn xs s) (hs : s.stack = stack)
    (hle : xs.length ≤ n) (hlong : n ≤ xs.length + stack.length) :
    EndsWith k ((xs ++ stack).take n) s := by
  induction stack generalizing xs s with
  | nil =>
    have hlen : xs.length = n := by
      rw [List.length_nil] at hlong
      omega
    rw [List.append_nil, List.take_of_length_le hlen.le]
    exact hd.endsWith hn hlen
  | cons b stack ih =>
    obtain hlt | hlen := hle.lt_or_eq
    · have hpi := hd.pi
      have hturn := turn_pop (k := k) hs (by omega) (by omega)
      have hrest :=
        ih (hd.popped b stack) rfl (by rw [List.length_append, List.length_singleton]; omega)
        (by rw [List.length_append, List.length_singleton]; rw [List.length_cons] at hlong; omega)
      rw [List.append_assoc, List.singleton_append] at hrest
      exact hrest.reached (Reached.start.turn (by omega) hturn)
    · rw [List.take_append_of_le_length hlen.ge, List.take_of_length_le hlen.le]
      exact hd.endsWith hn hlen

/-- A control code has the width of the codes at that place. -/
theorem control_lt (hm : 2 ≤ m) (hm8 : m ≤ 8) (words : List (List Byte)) :
    2 ^ m + 1 < 2 ^ LzwStream.width (2 ^ m) 12 words.length := by
  have hpow := Nat.two_pow_pos m
  have hlog : m ≤ Nat.log2 (2 ^ m + 2 + words.length) := (Nat.le_log2 (by omega)).mpr (by omega)
  have hwide : m + 1 ≤ LzwStream.width (2 ^ m) 12 words.length := by
    rw [LzwStream.width]
    omega
  have hlow : 2 ^ 2 ≤ 2 ^ m := Nat.pow_le_pow_right two_pos hm
  calc 2 ^ m + 1 < 2 ^ (m + 1) := by rw [pow_succ]; omega
    _ ≤ 2 ^ LzwStream.width (2 ^ m) 12 words.length := Nat.pow_le_pow_right two_pos hwide

/-- The end of information ends the loop. -/
theorem read_end (hk : Kit m k) (h : Behind m words prev s) (hs : s.stack = []) (hd : Drawn xs s)
    (hpi : s.pi < k.npix)
    (hroom : LzwStream.width (2 ^ m) 12 words.length ≤ room)
    (hv : v % 2 ^ LzwStream.width (2 ^ m) 12 words.length = 2 ^ m + 1)
    (hholds : Holds rest v room s) :
    EndsWith k xs s := by
  have hwide : LzwStream.width (2 ^ m) 12 words.length ≤ 12 := min_le_left _ _
  rw [← h.tables.width hk.le_eight] at hroom hv hwide
  obtain ⟨r, block, datum, bits, hreach, hbits, hnext, -⟩ :=
    read_low (k := k) hs hpi hwide h.tables.codeMask hroom hv hholds
  have hend : nextCode (s.fed r block datum bits) = k.endOfInformation := by
    rw [hnext, Params.endOfInformation, hk.clear]
    exact Int.natCast_succ _
  have hturn := turn_stop (k := k) (s := s.fed r block datum bits) hs hbits (.inr hend)
  have hfed : EndsWith k xs (s.fed r block datum bits) := by
    refine ⟨1, dropCode (s.fed r block datum bits), ?_, hd.congr rfl rfl⟩
    rw [loop, if_pos (show (s.fed r block datum bits).pi < k.npix from hpi), hturn]
  exact hfed.reached hreach

/-- The decoder draws what a stream spells, as far as there are pixels. -/
theorem read_symbols (hk : Kit m k) (hn : k.npix = n) {cs : List (Nat × Nat)} {ys : List Byte}
    (hstream : Stream symbol (2 ^ m) 12 words prev cs ys) (h : Behind m words prev s)
    (hs : s.stack = [])
    (hd : Drawn xs s) (hle : xs.length ≤ n) (hroom : size cs ≤ room)
    (hv : v % 2 ^ size cs = pack cs)
    (hholds : Holds rest v room s) : EndsWith k ((xs ++ ys).take n) s := by
  induction hstream generalizing s xs v room with
  | stop words prev =>
    obtain ⟨hlow, -⟩ := BitPacking.pack_cons_low (control_lt hk.two_le hk.le_eight words) hv
    rw [size] at hroom
    rw [List.append_nil, List.take_of_length_le hle]
    obtain hlt | hlen := hle.lt_or_eq
    · exact read_end hk h hs hd (by rw [hd.pi, hn]; omega) (by omega) hlow hholds
    · exact hd.endsWith hn hlen
  | @clear words prev cs ys hrest ih =>
    obtain hlt | hlen := hle.lt_or_eq
    · have hcontrol := control_lt hk.two_le hk.le_eight words
      obtain ⟨hlow, hhigh⟩ := BitPacking.pack_cons_low (Nat.lt_of_succ_lt hcontrol) hv
      rw [size] at hroom
      obtain ⟨s₁, hreach, h₁, hs₁, hd₁, hholds₁⟩ :=
        read_clearing hk h hs hd (by rw [hd.pi, hn]; omega) (by omega) hlow hholds
      exact (ih h₁ hs₁ hd₁ hle (by omega) hhigh hholds₁).reached hreach
    · rw [List.take_append_of_le_length hlen.ge, List.take_of_length_le hlen.le]
      exact hd.endsWith hn hlen
  | @code words prev c w cs ys hlt' hword hrest ih =>
    obtain hlt | hlen := hle.lt_or_eq
    · obtain ⟨hlow, hhigh⟩ := BitPacking.pack_cons_low hlt' hv
      rw [size] at hroom
      have hpi : s.pi < k.npix := by
        rw [hd.pi, hn]
        omega
      rw [← List.append_assoc]
      by_cases hfit : xs.length + w.length ≤ n
      · obtain ⟨s₁, hreach, h₁, hs₁, hd₁, hholds₁⟩ :=
          read_word hk h hs hd hlt' hword hpi (by omega) (by omega) hlow hholds
        have hlength : (xs ++ w).length ≤ n := by
          rw [List.length_append]
          exact hfit
        exact (ih h₁ hs₁ hd₁ hlength (by omega) hhigh hholds₁).reached hreach
      · obtain ⟨t, drawn, hreach, -, happ, hdrawn, hle', -⟩ :=
          push_word hk h hs hd hlt' hword hpi (by omega) hlow hholds
        have hlength := congrArg List.length happ
        rw [List.length_append] at hlength
        rw [List.length_append] at hle'
        have hcut := pop_until hk.npix hn hdrawn rfl (by rw [List.length_append]; omega)
          (by rw [List.length_append]; omega)
        rw [List.append_assoc, happ] at hcut
        rw [List.take_append_of_le_length (by rw [List.length_append]; omega)]
        exact hcut.reached hreach
    · rw [List.take_append_of_le_length hlen.ge, List.take_of_length_le hlen.le]
      exact hd.endsWith hn hlen

end

/-- `decodeImageData` leaves an array with the first `iw * ih` symbols, and zeros
behind the last one. -/
def Fills (iw ih : Nat) (buf : Buffers) (r : Reader) (xs : List Byte) : Prop :=
  ∃ turns r' n pixels prefixes suffixes,
    decodeImageData iw ih buf r turns = .ok (some (r', ⟨some (n, pixels), prefixes, suffixes⟩)) ∧
      iw * ih ≤ n ∧ ∀ i < iw * ih, pixels i = xs.getD i 0

/-- The buffer of an earlier image is as long as an array can be. -/
structure EarlierBuffers extends Buffers where
  length_lt : ∀ p ∈ pixels, p.1 < 2 ^ 31

variable {m iw ih : Nat} {bytes rest xs : List Byte}

theorem fills_of_size (h : Spelled m bytes rest xs) (hsize : iw * ih < 2 ^ 31) (buf : Buffers)
    (source : Source) :
    Fills iw ih buf ⟨source, bytes, false⟩ xs := by
  obtain ⟨hm, hm8, body, data, cs, rfl, hblocks, hstream, hroom, hv⟩ := h
  obtain ⟨k, s₀, hstart, hk, hnpix, hfresh, hs, hd, hholds⟩ :=
    start_fresh hm hm8 hsize buf source body
  have hbehind : Behind m [] none s₀ := ⟨hfresh.tables, fun _ => ⟨rfl, hfresh.old⟩, nofun⟩
  obtain ⟨turns, s, hloop, hdrawn⟩ :=
    read_symbols hk hnpix hstream hbehind hs hd (Nat.zero_le _) hroom hv (hholds data rest hblocks)
  rw [List.nil_append] at hdrawn
  refine ⟨turns, s.reader, k.pixelsLength, cleared k s, s.prefixes, s.suffixes, ?_, ?_, ?_⟩
  · rw [decodeImageData, hstart]
    simp only [hloop]
  · have hlength := hk.npix
    omega
  · intro i hi
    have hpi := hdrawn.pi
    rw [List.length_take] at hpi
    rw [cleared]
    by_cases hlt : i < xs.length
    · have hx : (xs.take (iw * ih))[i]? = some xs[i] := by
        rw [List.getElem?_take_of_lt hi, List.getElem?_eq_getElem hlt]
      rw [if_neg (by omega), hdrawn.pixels i _ hx, List.getD_eq_getElem?_getD,
        List.getElem?_eq_getElem hlt,
        Option.getD_some]
    · rw [if_pos (by omega), List.getD_eq_getElem?_getD,
        List.getElem?_eq_none (not_lt.mp hlt), Option.getD_none]

/-- No array is longer than an int can count. -/
theorem decodeImageData_length (buf : EarlierBuffers) {r r' : Reader} {turns n : Nat}
    {pixels : Int → Byte}
    {prefixes : Int → Int} {suffixes : Int → Byte}
    (h : decodeImageData iw ih buf.toBuffers r turns =
      .ok (some (r', ⟨some (n, pixels), prefixes, suffixes⟩))) : n < 2 ^ 31 := by
  rw [decodeImageData] at h
  cases hstart : start iw ih buf.toBuffers r with
  | error e =>
    rw [hstart] at h
    cases h
  | ok p =>
    obtain ⟨k, s⟩ := p
    have hlength : k.pixelsLength = n := by
      rw [hstart] at h
      simp only at h
      split at h
      · cases h
      · cases h
      · cases h
        rfl
    rw [start] at hstart
    obtain ⟨⟨len, pixels'⟩, hpixels, hstart⟩ := eq_ok_of_bind hstart
    have hk : len = k.pixelsLength := by
      simp only at hstart
      split at hstart
      · cases hstart
      · cases hstart
        rfl
    have hint : (npixOf iw ih).toNat < 2 ^ 31 := by
      have hlt := BitVec.toInt_lt (x := BitVec.ofNat 32 (iw * ih))
      rw [npixOf]
      omega
    rw [← hlength, ← hk]
    cases hbuf : buf.pixels with
    | none =>
      rw [hbuf, pixelsFor] at hpixels
      split at hpixels
      · cases hpixels
      · cases hpixels
        exact hint
    | some p =>
      rw [hbuf, pixelsFor] at hpixels
      split at hpixels
      · cases hpixels
        exact buf.length_lt _ hbuf
      · cases hpixels
        exact hint

/-- Any well-formed stream fills the pixels of an image that an array can hold. -/
theorem fills_iff (h : Spelled m bytes rest xs) (buf : EarlierBuffers) (source : Source) :
    Fills iw ih buf.toBuffers ⟨source, bytes, false⟩ xs ↔ iw * ih < 2 ^ 31 := by
  constructor
  · intro ⟨turns, r', n, pixels, prefixes, suffixes, hdecode, hle, _⟩
    exact hle.trans_lt (decodeImageData_length buf hdecode)
  · intro hsize
    exact fills_of_size h hsize buf.toBuffers source

/-- A clear, the symbol 1, the next free code for two of it, the symbol 0 and the end of
information. -/
theorem spelled_ones : Spelled 2 [2, 2, 0x8c, 0x51, 0] [] [1, 1, 1, 0] := by
  have hstream : Stream symbol 4 12 [] none [(3, 4), (3, 1), (3, 6), (3, 0), (4, 5)] [1, 1, 1, 0] :=
    .clear (.code (w := [1]) (by decide) (by decide) (.code (w := [1, 1]) (by decide) (by decide)
      (.code (w := [0]) (by decide) (by decide) (.stop [[1, 1], [1, 1, 0]] (some [0])))))
  refine ⟨le_rfl, by decide, [2, 0x8c, 0x51, 0], [0x8c, 0x51], _, rfl, ?_, hstream, by
    decide, by decide⟩
  have hblock := Blocks.block 2 (List.cons_ne_nil 0x8c [0x51]) rfl (.stop [])
  exact hblock

def noBuffers : EarlierBuffers := ⟨⟨none, fun _ => 0, fun _ => 0⟩, nofun⟩

theorem fills_fourPixels : Fills 2 2 noBuffers.toBuffers
    ⟨.stream, [2, 2, 0x8c, 0x51, 0], false⟩ [1, 1, 1, 0] :=
  (fills_iff spelled_ones noBuffers .stream).mpr (by decide)

/-- A clear and the end of information, of three bits each. -/
theorem spelled_nothing : Spelled 2 [2, 1, 0x2c, 0] [] [] := by
  refine ⟨le_rfl, by decide, [1, 0x2c, 0], [0x2c], [(3, 4),
    (3, 5)], rfl, ?_, .clear (.stop [] none), by decide, by decide⟩
  have hblock := Blocks.block 1 (List.cons_ne_nil 0x2c []) rfl (.stop [])
  exact hblock

/-- The size of the largest image is negative as an int. -/
theorem not_fills_largest : Spelled 2 [2, 1, 0x2c, 0] [] [] ∧
    ¬ Fills 65535 65535 noBuffers.toBuffers ⟨.stream, [2, 1, 0x2c, 0], false⟩ [] := by
  refine ⟨spelled_nothing, ?_⟩
  intro ⟨turns, r', n, pixels, prefixes, suffixes, hdecode, hle, _⟩
  have hlt := decodeImageData_length noBuffers hdecode
  omega

end GifLzwDecoder
