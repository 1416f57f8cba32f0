import AndroidWork.GifLzwImages
import AndroidWork.LzwStream

/-!
# Decoding any stream of codes

`decodeImageData` reads what a stream spells, also where the stream keeps a full
table, and stays inside the blocks that hold it.
-/
namespace GifLzwDecoder

open BitPacking (pack size bytesValue)
open Lzw (Usable Descends Spells)
open LzwStream (lookup word extend Stream)
open GifLzwEncoder (limit)
open SubBlocks (Blocks)

/-- A code below the clear code is a colour index. -/
def symbol (c : Nat) : Byte := BitVec.ofNat 8 c

/-- The decoder behind the word `prev`, or behind a clear, with a table of words. -/
structure Behind (m : Nat) (words : List (List Byte)) (prev : Option (List Byte))
    (s : Decoder) : Prop where
  tables : Tables m words s
  fresh : prev = none → words = [] ∧ s.oldCode = nullCode
  old : ∀ q, prev = some q → Usable (2 ^ m : Nat) s.available s.oldCode ∧
    Spells s.prefixes s.suffixes (2 ^ m : Nat) s.oldCode q ∧ ∃ b tail,
      q = b :: tail ∧ s.first = b.toNat

section

variable {m : Nat} {words : List (List Byte)} {prev : Option (List Byte)} {k : Params}
    {s : Decoder} {c : Nat}
  {w : List Byte}

/-- Codes with a word are in the tables. -/
theorem Tables.lookup (hm : m ≤ 8) (h : Tables m words s)
    (hw : lookup symbol (2 ^ m) words c = some w) :
    Usable (2 ^ m : Nat) s.available (c : Int) ∧
    Spells s.prefixes s.suffixes (2 ^ m : Nat) (c : Int) w := by
  have hpow : 2 ^ m ≤ 2 ^ 8 := Nat.pow_le_pow_right two_pos hm
  rw [LzwStream.lookup] at hw
  split at hw
  · rename_i hc
    cases hw
    have hnat : (symbol c).toNat = c := by
      rw [symbol, BitVec.toNat_ofNat, Nat.mod_eq_of_lt (by omega)]
    refine ⟨.inl ⟨Int.natCast_nonneg _, Int.ofNat_lt.mpr hc⟩, ?_⟩
    have hroot : Spells s.prefixes s.suffixes (2 ^ m : Nat) (c : Int) [s.suffixes c] :=
      .root (Int.natCast_nonneg _) (Int.ofNat_lt.mpr hc)
    have hsuffix := h.roots (symbol c) (by rwa [hnat])
    rw [hnat] at hsuffix
    rwa [hsuffix] at hroot
  · split at hw
    · cases hw
    · obtain ⟨i, rfl⟩ : ∃ i, c = 2 ^ m + 2 + i := ⟨c - (2 ^ m + 2), by omega⟩
      rw [Nat.add_sub_cancel_left] at hw
      have hi := (List.getElem?_eq_some_iff.mp hw).1
      have havail := h.available
      exact ⟨.inr ⟨by omega, by omega⟩, h.words i w hw⟩

/-- The code size is the width of the stream's next code. -/
theorem Tables.width (hm : m ≤ 8) (h : Tables m words s) :
    s.codeSize = LzwStream.width (2 ^ m) 12 words.length := by
  have hpow : 2 ^ m ≤ 2 ^ 8 := Nat.pow_le_pow_right two_pos hm
  have hlen := h.length
  rw [limit] at hlen
  have hnext : LzwParse.width (2 ^ m) (words.length + 1) =
      Nat.log2 (2 ^ m + 2 + words.length) + 1 := by
    rw [LzwParse.width]
    congr 2
    omega
  rw [h.codeSize, LzwStream.width, ← hnext]
  split
  · rename_i hlt
    have hmono := GifLzwEncoder.width_mono (2 ^ m) (show words.length + 1 ≤ limit m - 1 by omega)
    rw [GifLzwEncoder.width_limit hm (show limit m - 1 + 1 = limit m by omega)] at hmono
    exact (Nat.min_eq_right hmono).symm
  · rename_i hge
    rw [limit] at hge
    have hfull : 2 ^ m + 2 + words.length = 4096 := by omega
    rw [hnext, hfull]
    decide

theorem Behind.congr {s' : Decoder} (h : Behind m words prev s) (hp : s'.prefixes = s.prefixes)
    (hs : s'.suffixes = s.suffixes) (ha : s'.available = s.available)
    (hc : s'.codeSize = s.codeSize)
    (hm : s'.codeMask = s.codeMask) (ho : s'.oldCode = s.oldCode) (hf : s'.first = s.first) :
    Behind m words prev s' := by
  refine ⟨h.tables.congr hp hs ha hc hm, ?_, ?_⟩
  · rw [ho]
    exact h.fresh
  · rw [hp, hs, ha, ho, hf]
    exact h.old

theorem Behind.ne_nil (hm : m ≤ 8) (h : Behind m words prev s)
    (hword : word symbol (2 ^ m) words prev c = some w) :
    w ≠ [] := by
  rw [word] at hword
  split at hword
  · obtain ⟨p, -, hp⟩ := Option.bind_eq_some_iff.mp hword
    obtain ⟨a, -, rfl⟩ := Option.map_eq_some_iff.mp hp
    exact List.append_ne_nil_of_right_ne_nil _ (List.cons_ne_nil _ _)
  · exact (h.tables.lookup hm hword).2.ne_nil

/-- A code behind a word, interpreted. -/
theorem Behind.interpret (hk : Kit m k) {q : List Byte} (h : Behind m words (some q) s)
    (hs : s.stack = [])
    (hword : word symbol (2 ^ m) words (some q) c = some w) :
    ∃ b tail, w = b :: tail ∧ interpret k c s = .ok (withWord c b w s) := by
  have hclear := hk.clear
  have hpow : 2 ^ m ≤ 2 ^ 8 := Nat.pow_le_pow_right two_pos hk.le_eight
  have havail := h.tables.available
  obtain ⟨hpos, hmax⟩ := hk.clear_bounds
  have hsafe := h.tables.safe hk hs
  obtain ⟨husable, hspells, b, tail, rfl, hfirst⟩ := h.old q rfl
  rw [word] at hword
  split at hword
  · rename_i hc
    have hnext : (c : Int) = s.available := by omega
    cases hword
    rw [← hclear] at husable hspells
    obtain ⟨b', tail', heq, hint⟩ :=
      interpret_eq k c s hpos hmax (by omega) hsafe hs (if_pos hnext).symm husable hspells
    cases heq
    refine ⟨b, tail ++ [b], rfl, ?_⟩
    rw [hint, if_pos hnext, hfirst, ofInt_toNat]
  · rename_i hc
    have hnext : (c : Int) ≠ s.available := by omega
    obtain ⟨husable', hspells'⟩ := h.tables.lookup hk.le_eight hword
    rw [← hclear] at husable' hspells'
    obtain ⟨b', tail', rfl, hint⟩ :=
      interpret_eq k c s hpos hmax (by omega) hsafe hs (if_neg hnext).symm husable' hspells'
    refine ⟨b', tail', rfl, ?_⟩
    rw [hint, if_neg hnext, List.append_nil]

/-- The decoder behind a word that follows another one. -/
theorem Behind.next (hm : m ≤ 8) {q tail : List Byte} {b : Byte}
    (h : Behind m words (some q) s) (hc : c < 2 ^ 12)
    (hword : word symbol (2 ^ m) words (some q) c = some (b :: tail)) :
    Behind m (extend (2 ^ m) 12 words (some q) (b :: tail)) (some (b :: tail))
    (withWord c b (b :: tail) s) := by
  have hpow : 2 ^ m ≤ 2 ^ 8 := Nat.pow_le_pow_right two_pos hm
  have havail := h.tables.available
  have hlen := h.tables.length
  obtain ⟨husable, hspells, -⟩ := h.old q rfl
  have htables : Tables m (extend (2 ^ m) 12 words (some q) (b :: tail))
      (withWord c b (b :: tail) s) := by
    rw [withWord, extend]
    have hset : Tables m words (s.setWord b.toNat (b :: tail)) := h.tables.congr rfl rfl rfl rfl rfl
    by_cases hroom : s.available < maxStackSize
    · have hfree : 2 ^ m + 2 + words.length < 2 ^ 12 := by
        rw [maxStackSize] at hroom
        omega
      rw [if_pos hfree, if_pos (by exact hroom)]
      have hgrown := hset.extended hm husable hspells (b := b) rfl (by rw [limit]; omega)
      exact hgrown.congr rfl rfl rfl rfl rfl
    · have hfull : ¬ 2 ^ m + 2 + words.length < 2 ^ 12 := by
        rw [maxStackSize] at hroom
        omega
      rw [if_neg hfull, if_neg (by exact hroom)]
      exact hset.congr rfl rfl rfl rfl rfl
  refine ⟨htables, by rintro ⟨⟩, ?_⟩
  rintro q' ⟨⟩
  obtain ⟨husable', hspells'⟩ := htables.lookup hm (LzwStream.lookup_extend hc hword)
  refine ⟨husable', hspells', b, tail, rfl, ?_⟩
  rw [withWord]
  split <;> rfl

variable {xs rest : List Byte} {v room n p : Nat}

/-- Reading the code of a word: at the end of the turn the word is on the stack,
or its first symbol is drawn already. -/
theorem push_word (hk : Kit m k) (h : Behind m words prev s) (hs : s.stack = []) (hd : Drawn xs s)
    (hlt : c < 2 ^ LzwStream.width (2 ^ m) 12 words.length)
    (hword : word symbol (2 ^ m) words prev c = some w)
    (hpi : s.pi < k.npix) (hroom : LzwStream.width (2 ^ m) 12 words.length ≤ room)
    (hv : v % 2 ^ LzwStream.width (2 ^ m) 12 words.length = c) (hholds : Holds rest v room s) :
    ∃ s' drawn, Reached k s s' ∧ Behind m (extend (2 ^ m) 12 words prev w)
    (some w) s' ∧ drawn ++ s'.stack = w ∧
      Drawn (xs ++ drawn) s' ∧ ((xs ++ drawn).length : Int) ≤ k.npix ∧
      Holds rest (v / 2 ^ LzwStream.width (2 ^ m) 12 words.length)
        (room - LzwStream.width (2 ^ m) 12 words.length) s' := by
  have hsize := h.tables.width hk.le_eight
  have hwide : LzwStream.width (2 ^ m) 12 words.length ≤ 12 := min_le_left _ _
  have hc12 : c < 2 ^ 12 := hlt.trans_le (Nat.pow_le_pow_right two_pos hwide)
  have hclear := hk.clear
  have havail := h.tables.available
  rw [← hsize] at hlt hroom hv hwide ⊢
  obtain ⟨r, block, datum, bits, hreach, hbits, hnext, hdrop⟩ :=
    read_low (k := k) hs hpi hwide h.tables.codeMask hroom hv hholds
  have htakes (hle : (c : Int) ≤ s.available) (hne : c ≠ 2 ^ m) (hne' : c ≠ 2 ^ m + 1) :
      TakesCode k (s.fed r block datum bits) := by
    refine ⟨hs, hbits, ?_, ?_, ?_⟩
    · rw [hnext]
      exact hle
    · rw [hnext, Params.endOfInformation, hclear]
      omega
    · rw [hnext, hclear]
      omega
  cases prev with
  | none =>
    -- behind a clear there are symbols only
    obtain ⟨rfl, hold⟩ := h.fresh rfl
    have hpow : 2 ^ m ≤ 2 ^ 8 := Nat.pow_le_pow_right two_pos hk.le_eight
    obtain ⟨hroot, rfl⟩ : c < 2 ^ m ∧ w = [symbol c] := by
      rw [word] at hword
      split at hword
      · cases hword
      · rw [lookup] at hword
        split at hword
        · cases hword
          exact ⟨‹_›, rfl⟩
        · split at hword <;> cases hword
    have hturn := turn_first (htakes (by omega) hroot.ne (by omega)) hold
    obtain ⟨husable, hspells⟩ := h.tables.lookup hk.le_eight
      (show lookup symbol (2 ^ m) [] c = some [symbol c] from if_pos hroot)
    have hsuffix : suffixAt (s.fed r block datum bits).suffixes c = .ok (symbol c) := by
      rw [suffixAt_ok _ (Int.natCast_nonneg _) (by rw [maxStackSize]; omega)]
      have hnat : (symbol c).toNat = c := by
        rw [symbol, BitVec.toNat_ofNat, Nat.mod_eq_of_lt (by omega)]
      have := h.tables.roots (symbol c) (by rwa [hnat])
      rw [hnat] at this
      exact congrArg _ this
    rw [hnext, hsuffix, ok_bind] at hturn
    have hdrawn : Drawn xs ((dropCode (s.fed r block datum bits)).firstCode c (symbol c)) :=
      hd.congr rfl rfl
    refine ⟨_, [], hreach.turn hpi hturn, ?_, rfl, ?_, ?_, hdrop.congr rfl rfl rfl rfl⟩
    · refine ⟨h.tables.congr rfl rfl rfl rfl rfl, by rintro ⟨⟩, ?_⟩
      rintro q ⟨⟩
      refine ⟨husable, hspells, symbol c, [], rfl, ?_⟩
      show (c : Int) = (symbol c).toNat
      rw [symbol, BitVec.toNat_ofNat, Nat.mod_eq_of_lt (by omega)]
    · rwa [List.append_nil]
    · rw [List.append_nil, ← hd.pi]
      exact hpi.le
  | some q =>
    have hfed : Behind m words (some q) (dropCode (s.fed r block datum bits)) :=
      h.congr rfl rfl rfl rfl rfl rfl rfl
    obtain ⟨b, tail, rfl, hint⟩ := hfed.interpret hk hs hword
    obtain ⟨hle, hne, hne'⟩ : (c : Int) ≤ s.available ∧ c ≠ 2 ^ m ∧ c ≠ 2 ^ m + 1 := by
      rw [word] at hword
      split at hword
      · omega
      · obtain ⟨hu, -⟩ := h.tables.lookup hk.le_eight hword
        have hpos := hu.ne_roots
        rcases hu with hu | hu <;> omega
    have hold : (s.fed r block datum bits).oldCode ≠ nullCode := by
      show s.oldCode ≠ nullCode
      obtain ⟨hu, -⟩ := h.old q rfl
      rw [nullCode]
      have hroots : (0 : Int) ≤ (2 ^ m : Nat) := Int.natCast_nonneg _
      rcases hu with hu | hu <;> omega
    have hturn := turn_code (htakes hle hne hne') hold
    rw [hnext, hint, ok_bind] at hturn
    have hword' := hfed.next hk.le_eight hc12 hword
    obtain ⟨hr, hb, hdat, hbit, hstack, hpi', hpix⟩ :=
      withWord_keeps c b (b :: tail) (dropCode (s.fed r block datum bits))
    generalize withWord c b (b :: tail) (dropCode (s.fed r block datum bits)) = t at *
    have hdrawn : Drawn xs t := hd.congr hpi' hpix
    have hnpix := hk.npix
    have hpop := popPixel_ok (k := k) hstack (by rw [hdrawn.pi]; omega)
      (by rw [hpi']; exact hpi.trans_le hnpix)
    rw [hpop, ok_bind] at hturn
    refine ⟨_, [b], hreach.turn hpi hturn, hword'.congr rfl rfl rfl rfl rfl rfl rfl, rfl,
      hdrawn.popped b tail, ?_,
      hdrop.congr hr hb hdat hbit⟩
    rw [hd.pi] at hpi
    rw [List.length_append, List.length_singleton]
    omega

/-- Reading the code of a word that fits. -/
theorem read_word (hk : Kit m k) (h : Behind m words prev s) (hs : s.stack = []) (hd : Drawn xs s)
    (hlt : c < 2 ^ LzwStream.width (2 ^ m) 12 words.length)
    (hword : word symbol (2 ^ m) words prev c = some w)
    (hpi : s.pi < k.npix) (hfit : (xs.length + w.length : Int) ≤ k.npix)
    (hroom : LzwStream.width (2 ^ m) 12 words.length ≤ room)
    (hv : v % 2 ^ LzwStream.width (2 ^ m) 12 words.length = c) (hholds : Holds rest v room s) :
    ∃ s', Reached k s s' ∧ Behind m (extend (2 ^ m) 12 words prev w) (some w) s' ∧ s'.stack = [] ∧
      Drawn (xs ++ w) s' ∧
      Holds rest (v / 2 ^ LzwStream.width (2 ^ m) 12 words.length)
        (room - LzwStream.width (2 ^ m) 12 words.length) s' := by
  obtain ⟨t, drawn, hreach, hbehind, happ, hdrawn, -, hholds'⟩ :=
    push_word hk h hs hd hlt hword hpi hroom hv hholds
  have hlength := congrArg List.length happ
  rw [List.length_append] at hlength
  obtain ⟨pixels, pi, hpops, hdrawn'⟩ :=
    pop_all hk.npix hdrawn rfl (by rw [List.length_append]; omega)
  rw [List.append_assoc, happ] at hdrawn'
  exact ⟨_, hreach.trans hpops, hbehind.congr rfl rfl rfl rfl rfl rfl rfl, rfl, hdrawn',
    hholds'.congr rfl rfl rfl rfl⟩

/-- Reading a clear code. -/
theorem read_clearing (hk : Kit m k) (h : Behind m words prev s)
    (hs : s.stack = []) (hd : Drawn xs s)
    (hpi : s.pi < k.npix) (hroom : LzwStream.width (2 ^ m) 12 words.length ≤ room)
    (hv : v % 2 ^ LzwStream.width (2 ^ m) 12 words.length = 2 ^ m) (hholds : Holds rest v room s) :
    ∃ s', Reached k s s' ∧ Behind m [] none s' ∧ s'.stack = [] ∧ Drawn xs s' ∧
      Holds rest (v / 2 ^ LzwStream.width (2 ^ m) 12 words.length)
        (room - LzwStream.width (2 ^ m) 12 words.length) s' := by
  have hwide : LzwStream.width (2 ^ m) 12 words.length ≤ 12 := min_le_left _ _
  have hclear := hk.clear
  have havail := h.tables.available
  rw [← h.tables.width hk.le_eight] at hroom hv hwide ⊢
  obtain ⟨r, block, datum, bits, hreach, hbits, hnext, hdrop⟩ :=
    read_low (k := k) hs hpi hwide h.tables.codeMask hroom hv hholds
  have hturn := turn_clear (k := k) (s := s.fed r block datum bits) hs hbits
    (by rw [hnext]; show _ ≤ s.available; omega) (by rw [hnext, Params.endOfInformation]; omega)
      (by rw [hnext, hclear])
  have hfresh : Fresh m (reset k (dropCode (s.fed r block datum bits))) :=
    .mk' hk h.tables.roots rfl rfl rfl rfl
  exact ⟨_, hreach.turn hpi hturn, ⟨hfresh.tables, fun _ => ⟨rfl, hfresh.old⟩, by rintro _ ⟨⟩⟩,
    hs, hd.congr rfl rfl,
    hdrop.congr rfl rfl rfl rfl⟩

/-- The decoder draws what a stream spells. -/
theorem read_stream (hk : Kit m k) {cs : List (Nat × Nat)} {ys : List Byte}
    (hstream : Stream symbol (2 ^ m) 12 words prev cs ys) (h : Behind m words prev s)
    (hs : s.stack = [])
    (hd : Drawn xs s) (hfit : (xs.length + ys.length : Int) = k.npix) (hroom : size cs ≤ room)
    (hv : v % 2 ^ size cs = pack cs) (hholds : Holds rest v room s) :
    ∃ s' v' room', Reached k s s' ∧ Drawn (xs ++ ys) s' ∧ Holds rest v' room' s' := by
  induction hstream generalizing s xs v room with
  | stop words prev =>
    refine ⟨s, v, room, .start, ?_, hholds⟩
    rwa [List.append_nil]
  | @clear words prev cs ys hrest ih =>
    rcases List.eq_nil_or_concat ys with rfl | ⟨_, _, rfl⟩
    · refine ⟨s, v, room, .start, ?_, hholds⟩
      rwa [List.append_nil]
    · have hpi : s.pi < k.npix := by
        rw [hd.pi, ← hfit, List.concat_eq_append, List.length_append]
        simp
      have hlt : 2 ^ m < 2 ^ LzwStream.width (2 ^ m) 12 words.length := by
        have hne : 2 ^ m + 2 + words.length ≠ 0 := by
          have := Nat.two_pow_pos m
          omega
        have hlog : m ≤ Nat.log2 (2 ^ m + 2 + words.length) := (Nat.le_log2 hne).mpr (by omega)
        have hm := hk.le_eight
        have hwide : m < LzwStream.width (2 ^ m) 12 words.length := by
          rw [LzwStream.width]
          omega
        exact Nat.pow_lt_pow_right (by decide) hwide
      obtain ⟨hlow, hhigh⟩ := BitPacking.pack_cons_low hlt hv
      rw [size] at hroom
      obtain ⟨s₁, hreach, h₁, hs₁, hd₁, hholds₁⟩ :=
        read_clearing hk h hs hd hpi (by omega) hlow hholds
      obtain ⟨s', v', room', hreach', hd', hholds'⟩ := ih h₁ hs₁ hd₁ hfit (by omega) hhigh hholds₁
      exact ⟨s', v', room', hreach.trans hreach', hd', hholds'⟩
  | @code words prev c w cs ys hlt hword hrest ih =>
    obtain ⟨hlow, hhigh⟩ := BitPacking.pack_cons_low hlt hv
    rw [size] at hroom
    rw [List.length_append] at hfit
    have hpos := List.length_pos_iff.mpr (h.ne_nil hk.le_eight hword)
    obtain ⟨s₁, hreach, h₁, hs₁, hd₁, hholds₁⟩ :=
      read_word hk h hs hd hlt hword (by rw [hd.pi]; omega) (by omega) (by omega) hlow hholds
    obtain ⟨s', v', room', hreach', hd', hholds'⟩ := ih h₁ hs₁ hd₁
      (by rw [List.length_append]; omega) (by omega) hhigh hholds₁
    rw [List.append_assoc] at hd'
    exact ⟨s', v', room', hreach.trans hreach', hd', hholds'⟩

end

section

variable {k : Params} {s s' s₀ : Decoder}

theorem read_source (r : Reader) : r.read.2.source = r.source := by
  rw [Reader.read]
  split
  · split
    · rfl
    · rfl
  · rfl

theorem readBlock_source (r : Reader) : r.readBlock.2.source = r.source := by
  have hread := read_source r
  rw [Reader.readBlock]
  split
  · split
    · exact hread
    · split
      · exact hread
      · exact hread
  · exact hread

theorem loadByte_source (s : Decoder) : (loadByte s).2.reader.source = s.reader.source := by
  have hreader : (if s.block = [] then s.reader.readBlock else (s.block, s.reader)).2.source =
      s.reader.source := by
    split
    · exact readBlock_source s.reader
    · rfl
  rw [loadByte]
  generalize (if s.block = [] then s.reader.readBlock else (s.block, s.reader)) = r at hreader
  obtain ⟨block, reader⟩ := r
  cases block with
  | nil => exact hreader
  | cons b block => exact hreader

theorem popPixel_reader (h : popPixel k s = .ok s') : s'.reader = s.reader := by
  rw [popPixel] at h
  split at h
  · cases h
  · split at h
    · cases h
      rfl
    · cases h

theorem interpret_reader {code : Int} (h : interpret k code s = .ok s') : s'.reader = s.reader := by
  obtain ⟨b, w, t, ht, rfl⟩ := interpret_ok h
  rw [addString] at ht
  split at ht
  · split at ht
    · cases ht
      rfl
    · cases ht
  · cases ht
    rfl

theorem turn_source {go : Bool} (h : turn k s = .ok (go, s')) :
    s'.reader.source = s.reader.source := by
  rcases turn_cases k s with hpop | ⟨hs, hbits⟩ | ⟨hs, hbits, hstop⟩
    | ⟨hs, hbits, hle, hne, hclear⟩ | htakes
  · rw [turn, if_neg hpop] at h
    obtain ⟨t, ht, h⟩ := eq_ok_of_bind h
    cases h
    rw [popPixel_reader ht]
  · rw [turn_load hs hbits] at h
    have hload := loadByte_source s
    rwa [Except.ok.inj h] at hload
  · rw [turn_stop hs hbits hstop] at h
    cases h
    rfl
  · rw [turn_clear hs hbits hle hne hclear] at h
    cases h
    rfl
  · by_cases hold : s.oldCode = nullCode
    · rw [turn_first htakes hold] at h
      obtain ⟨b, -, h⟩ := eq_ok_of_bind h
      cases h
      rfl
    · rw [turn_code htakes hold] at h
      obtain ⟨t, ht, h⟩ := eq_ok_of_bind h
      obtain ⟨u, hu, h⟩ := eq_ok_of_bind h
      cases h
      rw [popPixel_reader hu, interpret_reader ht]
      rfl

theorem Reached.source (h : Reached k s₀ s) : s.reader.source = s₀.reader.source := by
  induction h with
  | start => rfl
  | turn h hpi ht ih => rw [turn_source ht, ih]

theorem start_source {iw ih : Nat} {buf : Buffers} {r : Reader}
    (h : start iw ih buf r = .ok (k, s)) :
    s.reader.source = r.source := by
  rw [start] at h
  obtain ⟨⟨n, pixels⟩, -, h⟩ := eq_ok_of_bind h
  simp only at h
  split at h
  · cases h
  · cases h
    exact read_source r

end

/-- The image data spells the pixels `xs`: root codes of `m` bits, then blocks
whose bits start with the codes of a stream. -/
structure Spelled (m : Nat) (bytes rest xs : List Byte) : Prop where
  two_le : 2 ≤ m
  le_eight : m ≤ 8
  stream : ∃ body data cs, bytes = BitVec.ofNat 8 m :: body ∧ Blocks body data rest ∧
    Stream symbol (2 ^ m) 12 [] none cs xs ∧ size cs ≤ 8 * data.length ∧
    bytesValue data % 2 ^ size cs = pack cs

/-- `decodeImageData` leaves these pixels, and a reader inside the blocks before `rest`. -/
def Leaves (iw ih : Nat) (buf : Buffers) (r : Reader) (xs rest : List Byte) : Prop :=
  ∃ turns r' n pixels prefixes suffixes,
    decodeImageData iw ih buf r turns = .ok (some (r', ⟨some (n, pixels), prefixes, suffixes⟩)) ∧
      iw * ih ≤ n ∧ (∀ (i : Nat) (x : Byte), xs[i]? = some x → pixels i = x) ∧
      r'.source = r.source ∧ r'.formatError = false ∧ ∃ data, Blocks r'.bytes data rest

theorem decodeImageData_spelled {m iw ih : Nat} {bytes rest xs : List Byte}
    (h : Spelled m bytes rest xs)
    (hlen : xs.length = iw * ih) (hsize : iw * ih < 2 ^ 31) (buf : Buffers) (source : Source) :
    Leaves iw ih buf ⟨source, bytes, false⟩ xs rest := by
  obtain ⟨hm, hm8, body, data, cs, rfl, hblocks, hstream, hroom, hv⟩ := h
  obtain ⟨k, s₀, hstart, hk, hnpix, hfresh, hs, hd, hholds⟩ :=
    start_fresh hm hm8 hsize buf source body
  have hbehind : Behind m [] none s₀ := ⟨hfresh.tables, fun _ => ⟨rfl, hfresh.old⟩, nofun⟩
  obtain ⟨s, v', room', hreach, hdrawn, hholds'⟩ :=
    read_stream hk hstream hbehind hs hd (by rw [hnpix, hlen]; simp) hroom hv
      (hholds data rest hblocks)
  rw [List.nil_append] at hdrawn
  have hend : loop k 0 s = .ok (some s) := loop_done (by rw [hdrawn.pi, hnpix, hlen]; omega) 0
  obtain ⟨more, hloop⟩ := hreach.loop hend
  refine ⟨0 + more, s.reader, k.pixelsLength, cleared k s, s.prefixes, s.suffixes, ?_, ?_, ?_, ?_,
    hholds'.error, ?_⟩
  · rw [decodeImageData, hstart]
    simp only [hloop]
  · have := hk.npix
    omega
  · intro i x hx
    have hi := (List.getElem?_eq_some_iff.mp hx).1
    rw [cleared, if_neg (by rw [hdrawn.pi]; omega)]
    exact hdrawn.pixels i x hx
  · rw [hreach.source, start_source hstart]
  · obtain ⟨-, -, -, data', hblocks', -, -⟩ := hholds'
    exact ⟨data', hblocks'⟩

/-- More turns change nothing. -/
theorem decodeImageData_more {iw ih : Nat} {buf : Buffers} {r : Reader} {turns turns' : Nat}
    {res : Reader × Buffers}
    (h : decodeImageData iw ih buf r turns = .ok (some res)) (hle : turns ≤ turns') :
    decodeImageData iw ih buf r turns' = .ok (some res) := by
  obtain ⟨more, rfl⟩ := Nat.exists_eq_add_of_le hle
  rw [decodeImageData] at h ⊢
  rcases hstart : start iw ih buf r with e | ⟨k, s⟩
  · rw [hstart] at h
    cases h
  · rw [hstart] at h
    simp only at h ⊢
    rcases hl : loop k turns s with e | _ | t
    · rw [hl] at h
      cases h
    · rw [hl] at h
      cases h
    · rw [hl] at h
      rw [loop_more hl more]
      exact h

end GifLzwDecoder
