import AndroidWork.GifLzwDecoder

/-!
# Safety of the image data decoder

What keeps `decodeImageData` inside its arrays is that every parent in the table
is an older code. One code can break it: the next free code, when it comes first.
-/
namespace GifLzwDecoder

open Lzw (Usable Descends Spells)

/-- The next free code is the first code after the start or a clear only inside
the tables, and no further code makes use of it then: a string of the next free
code would be its own parent. Behind the tables, where none is added, the next
free code does not follow itself. -/
def StepSafe (k : Params) (s : Decoder) : Prop :=
  TakesCode k s →
    (s.oldCode = nullCode → nextCode s = s.available → s.available < maxStackSize) ∧
    (s.oldCode = s.available → maxStackSize ≤ s.available ∧ nextCode s ≠ s.available)

/-- The decoder stops before it starts because the 32-bit size is negative, or
every state keeps the tables safe, no turn faults, and the loop ends. -/
def Safe (iw ih : Nat) (buf : Buffers) (r : Reader) : Prop :=
  start iw ih buf r = .error .negativeArraySize ∨
  ∃ k s₀, start iw ih buf r = .ok (k, s₀) ∧
    (∀ s, Reached k s₀ s → TableSafe k s ∧ (s.pi < k.npix → ∀ e, turn k s ≠ .error e)) ∧
    ∃ turns res, decodeImageData iw ih buf r turns = .ok (some res)

/-- The parameters of a decoder whose roots fit into its tables. -/
structure Fits (k : Params) : Prop where
  pos : 0 < k.clear
  le : k.clear ≤ maxStackSize
  codeSize : 0 < k.codeSize
  codeMask : k.codeMask.toNat < 8192
  npix : k.npix ≤ k.pixelsLength

/-- What every turn keeps. -/
structure Busy (k : Params) (s : Decoder) : Prop where
  table : TableSafe k s
  available : k.clear + 2 ≤ s.available
  mask : s.codeMask.toNat < 8192
  old : s.oldCode = nullCode ∨ Usable k.clear s.available s.oldCode ∨ s.oldCode = s.available
  codeSize : 0 < s.codeSize
  pi : 0 ≤ s.pi

/-- With a minimum code size of 31 modulo 32 the mask is empty, and the decoder
stops at the first code. -/
structure Idle (k : Params) (s : Decoder) : Prop where
  stack : s.stack = []
  mask : s.codeMask = 0
  available : s.available = k.clear + 2
  neg : s.available < 0

/-- Pixels are written, or input is read, or bits are used up. -/
def rank (k : Params) (s : Decoder) : Nat ×ₗ Nat ×ₗ Nat :=
  toLex ((k.npix - s.pi).toNat, toLex (s.reader.bytes.length + s.block.length, s.bits))

theorem rank_lt_pixel {k : Params} {s s' : Decoder} (h : s.pi < k.npix) (h' : s'.pi = s.pi + 1) :
    rank k s' < rank k s := by
  rw [rank, rank, Prod.Lex.toLex_lt_toLex]
  left
  show (k.npix - s'.pi).toNat < (k.npix - s.pi).toNat
  omega

theorem rank_lt_input {k : Params} {s s' : Decoder} (h : s'.pi = s.pi)
    (h' : s'.reader.bytes.length + s'.block.length < s.reader.bytes.length + s.block.length) :
    rank k s' < rank k s := by
  rw [rank, rank, Prod.Lex.toLex_lt_toLex, h]
  right
  refine ⟨rfl, ?_⟩
  rw [Prod.Lex.toLex_lt_toLex]
  exact .inl h'

theorem rank_lt_bits {k : Params} {s s' : Decoder} (h : s'.pi = s.pi) (hr : s'.reader = s.reader)
    (hb : s'.block = s.block) (h' : s'.bits < s.bits) : rank k s' < rank k s := by
  rw [rank, rank, Prod.Lex.toLex_lt_toLex, h, hr, hb]
  right
  refine ⟨rfl, ?_⟩
  rw [Prod.Lex.toLex_lt_toLex]
  exact .inr ⟨rfl, h'⟩

theorem read_length (r : Reader) : r.read.2.bytes.length ≤ r.bytes.length := by
  rw [Reader.read]
  split
  · split <;> exact le_rfl
  · rename_i h
    rw [h, List.length_cons]
    exact Nat.le_succ _

/-- A block and what is left after it are not longer than what there was. -/
theorem readBlock_length (r : Reader) :
    r.readBlock.2.bytes.length + r.readBlock.1.length ≤ r.bytes.length := by
  have hread := read_length r
  rw [Reader.readBlock]
  split
  · split
    · simp only [List.length_drop, List.length_take]
      omega
    · split
      · simp only [List.length_drop, List.length_take]
        omega
      · simpa using hread
  · simpa using hread

theorem loadByte_true {s s' : Decoder} (h : loadByte s = (true, s')) :
    ∃ r block b, s' = s.loaded r block b ∧
      r.bytes.length + block.length < s.reader.bytes.length + s.block.length := by
  have hlen : (if s.block = [] then s.reader.readBlock else (s.block, s.reader)).2.bytes.length +
      (if s.block = [] then s.reader.readBlock else (s.block, s.reader)).1.length ≤
      s.reader.bytes.length + s.block.length := by
    split
    · have := readBlock_length s.reader
      omega
    · exact le_rfl
  rw [loadByte] at h
  generalize (if s.block = [] then s.reader.readBlock else (s.block, s.reader)) = r at h hlen
  obtain ⟨block, reader⟩ := r
  cases block with
  | nil => cases h
  | cons b block =>
    refine ⟨reader, block, b, (congrArg Prod.snd h).symm, ?_⟩
    simp only [List.length_cons] at hlen
    omega

section

variable {k : Params} {s : Decoder}

/-- A code is a number below 8192. -/
theorem nextCode_nonneg (h : s.codeMask.toNat < 8192) : 0 ≤ nextCode s := by
  have hle : (s.datum &&& s.codeMask).toNat ≤ s.codeMask.toNat := by
    rw [BitVec.toNat_and]
    exact Nat.and_le_right
  rw [nextCode, BitVec.toInt_eq_toNat_of_lt (by omega)]
  exact Int.natCast_nonneg _

theorem Idle.nextCode (h : Idle k s) : nextCode s = 0 := by
  rw [GifLzwDecoder.nextCode, h.mask]
  simp

/-- A code of a safe step is in the tables, or it is the next free one. -/
theorem TakesCode.usable (h : TakesCode k s) (hb : Busy k s) :
    Usable k.clear s.available (nextCode s) ∨ nextCode s = s.available := by
  obtain ⟨-, -, hle, hend, hclear⟩ := h
  have h0 := nextCode_nonneg hb.mask
  rw [Params.endOfInformation] at hend
  rcases hle.lt_or_eq with hlt | heq
  · left
    rcases lt_or_gt_of_ne hclear with h | h
    · exact .inl ⟨h0, h⟩
    · exact .inr ⟨by omega, hlt⟩
  · exact .inr heq

theorem Busy.usable_lt (hb : Busy k s) (hk : Fits k) {c : Int} (h : Usable k.clear s.available c) :
    0 ≤ c ∧ c < maxStackSize := by
  have hpos := hk.pos
  have hle := hk.le
  rcases h with h | h
  · omega
  · exact ⟨by omega, hb.table.inRange c h.1 h.2⟩

/-- The new mask is the old one with one more bit. -/
theorem withString_mask (hm : s.codeMask.toNat < 8192) (h0 : 0 ≤ s.available) :
    (withString s).codeMask.toNat < 8192 := by
  simp only [withString]
  split
  · rename_i hgrow
    rw [Bool.and_eq_true, decide_eq_true_eq, decide_eq_true_eq, maxStackSize] at hgrow
    obtain ⟨hdisjoint, hlt⟩ := hgrow
    rw [BitVec.add_eq_or_of_and_eq_zero _ _ (by rw [BitVec.and_comm]; exact hdisjoint),
      BitVec.toNat_or]
    have hnew : (BitVec.ofInt 32 (s.available + 1)).toNat < 2 ^ 13 := by
      rw [BitVec.toNat_ofInt]
      omega
    exact Nat.or_lt_two_pow (n := 13) hm hnew
  · exact hm

theorem withString_codeSize (s : Decoder) : s.codeSize ≤ (withString s).codeSize := by
  simp only [withString]
  split <;> omega

theorem short_eq {c : Int} (h0 : 0 ≤ c) (h : c < maxStackSize) : (BitVec.ofInt 16 c).toInt = c := by
  rw [maxStackSize] at h
  rw [BitVec.toInt_ofInt, Int.bmod_def]
  omega

/-- A string whose parent is an older code keeps the tables safe. -/
theorem withString_table (hk : Fits k) (hb : Busy k s) (hold : Usable k.clear s.available s.oldCode)
    (hlt : s.available < maxStackSize) :
    (∀ c, k.clear + 1 < c → c < (withString s).available → c < maxStackSize) ∧
      Descends (withString s).prefixes k.clear (withString s).available := by
  obtain ⟨h0, hmax⟩ := hb.usable_lt hk hold
  have hlow := hb.available
  refine ⟨fun c _ hc => ?_, ?_⟩
  · have : c < s.available + 1 := hc
    omega
  · simp only [withString]
    rw [short_eq h0 hmax]
    exact hb.table.descends.extend (by omega) hold

/-- A string whose parent is the code it gets itself does not. -/
theorem withString_unsafe (hk : Fits k) (hb : Busy k s) (hold : s.oldCode = s.available)
    (hlt : s.available < maxStackSize) :
    ¬ Descends (withString s).prefixes k.clear (withString s).available := by
  have hlow := hb.available
  have hpos := hk.pos
  intro hd
  have hself : (withString s).prefixes s.available = s.available := by
    simp only [withString]
    rw [Function.update_self, hold, short_eq (by omega) hlt]
  have hlast : s.available < (withString s).available := by
    simp only [withString]
    omega
  have hdown := (hd s.available (by omega) hlast).1
  omega

theorem Busy.popped (hb : Busy k s) {b : Byte} {stack : List Byte} (h : s.stack = b :: stack) :
    Busy k (s.popped b stack) := by
  have hlen := hb.table.stack
  rw [h, List.length_cons] at hlen
  refine ⟨⟨hb.table.inRange, hb.table.descends, ?_⟩, hb.available, hb.mask, hb.old, hb.codeSize, ?_⟩
  · show (stack.length : Int) ≤ maxStackSize + 1
    omega
  · show 0 ≤ s.pi + 1
    have := hb.pi
    omega

theorem Busy.loaded (hb : Busy k s) (r : Reader) (block : List Byte) (b : Byte) :
    Busy k (s.loaded r block b) :=
  ⟨⟨hb.table.inRange, hb.table.descends, hb.table.stack⟩, hb.available, hb.mask, hb.old,
    hb.codeSize, hb.pi⟩

theorem Busy.dropCode (hb : Busy k s) : Busy k (dropCode s) :=
  ⟨⟨hb.table.inRange, hb.table.descends, hb.table.stack⟩, hb.available, hb.mask, hb.old,
    hb.codeSize, hb.pi⟩

theorem Busy.reset (hk : Fits k) (hb : Busy k s) : Busy k (reset k s) := by
  refine ⟨⟨fun c h₁ h₂ => ?_, Descends.empty _ _, hb.table.stack⟩, le_rfl, hk.codeMask, .inl rfl,
    hk.codeSize, hb.pi⟩
  have : c < k.clear + 2 := h₂
  omega

theorem Busy.firstCode (hb : Busy k s) (b : Byte) {code : Int}
    (hc : Usable k.clear s.available code ∨ code = s.available) : Busy k (s.firstCode code b) := by
  refine ⟨⟨hb.table.inRange, hb.table.descends, ?_⟩, hb.available, hb.mask, .inr hc,
    hb.codeSize, hb.pi⟩
  show (([b] : List Byte).length : Int) ≤ maxStackSize + 1
  simp [maxStackSize]

/-- The word and the string that a code puts on the stack and into the table. -/
theorem Busy.withWord (hk : Fits k) (hb : Busy k s) {code : Int} (b : Byte) {w : List Byte}
    (hc : Usable k.clear s.available code ∨ code = s.available)
    (hold : s.available < maxStackSize → Usable k.clear s.available s.oldCode)
    (hw : (w.length : Int) ≤ maxStackSize + 1) : Busy k (withWord code b w s) := by
  have hlow := hb.available
  have hpos := hk.pos
  rw [GifLzwDecoder.withWord]
  split
  · rename_i h
    have hlt : s.available < maxStackSize := h
    obtain ⟨hrange, hdesc⟩ := withString_table hk hb (hold hlt) hlt
    refine ⟨⟨hrange, hdesc, hw⟩, ?_, withString_mask hb.mask (show 0 ≤ s.available by omega),
      .inr (.inl ?_), ?_, hb.pi⟩
    · show k.clear + 2 ≤ s.available + 1
      omega
    · show Usable k.clear (s.available + 1) code
      rcases hc with hc | rfl
      · exact hc.mono (by omega)
      · exact .inr ⟨by omega, by omega⟩
    · exact hb.codeSize.trans_le (withString_codeSize _)
  · exact ⟨⟨hb.table.inRange, hb.table.descends, hw⟩, hlow, hb.mask, .inr hc, hb.codeSize, hb.pi⟩

/-- What a code puts on the stack in a safe step. -/
theorem interpret_busy (hk : Fits k) (hb : Busy k s) (hstack : s.stack = []) {code : Int}
    (hc : Usable k.clear s.available code ∨ code = s.available)
    (hold : code = s.available → Usable k.clear s.available s.oldCode) :
    ∃ b w, w.length ≤ 4096 ∧ w ≠ [] ∧ interpret k code s = .ok (withWord code b w s) := by
  have hpos := hk.pos
  have hlow := hb.available
  have husable : Usable k.clear s.available (if code = s.available then s.oldCode else code) := by
    split
    · rename_i h
      exact hold h
    · rename_i h
      exact hc.resolve_right h
  obtain ⟨w, hw, -⟩ := hb.table.descends.spells hpos.le s.suffixes husable
  have hlen := hb.table.word_length hpos.le husable hw
  obtain ⟨b, tail, hword, hint⟩ :=
    interpret_eq k code s hpos.le hk.le (by omega) hb.table hstack rfl husable hw
  refine ⟨b, _, ?_, ?_, hint⟩
  · rw [List.length_append]
    split
    · rw [List.length_singleton]
      omega
    · rw [List.length_nil]
      omega
  · exact List.append_ne_nil_of_left_ne_nil hw.ne_nil _

/-- A safe step of a decoder that keeps the invariant keeps it, and is progress. -/
theorem turn_busy (hk : Fits k) (hb : Busy k s) (hpi : s.pi < k.npix) (hs : StepSafe k s) :
    ∃ go s', turn k s = .ok (go, s') ∧ (go = true → Busy k s' ∧ rank k s' < rank k s) := by
  have hroom : s.pi < k.pixelsLength := hpi.trans_le hk.npix
  have hused (hbits : s.codeSize ≤ s.bits) : (dropCode s).bits < s.bits := by
    have := hb.codeSize
    simp only [dropCode]
    omega
  rcases turn_cases k s with h | ⟨h, hbits⟩ | ⟨h, hbits, hstop⟩
    | ⟨h, hbits, hle, hend, hclear⟩ | htake
  · obtain ⟨b, stack, h⟩ := List.exists_cons_of_ne_nil h
    exact ⟨true, _, turn_pop h hb.pi hroom, fun _ => ⟨hb.popped h, rank_lt_pixel hpi rfl⟩⟩
  · refine ⟨(loadByte s).1, (loadByte s).2, turn_load h hbits, fun hgo => ?_⟩
    obtain ⟨r, block, b, hload, hlen⟩ :=
      loadByte_true (Prod.ext hgo rfl : loadByte s = (true, (loadByte s).2))
    rw [hload]
    exact ⟨hb.loaded r block b, rank_lt_input rfl hlen⟩
  · exact ⟨false, _, turn_stop h hbits hstop, fun hgo => by cases hgo⟩
  · exact ⟨true, _, turn_clear h hbits hle hend hclear, fun _ =>
      ⟨hb.dropCode.reset hk, rank_lt_bits rfl rfl rfl (hused hbits)⟩⟩
  · have hcode := htake.usable hb
    obtain ⟨hfirst, hnext⟩ := hs htake
    have h0 := nextCode_nonneg hb.mask
    by_cases hold : s.oldCode = nullCode
    · have hlt : nextCode s < maxStackSize := by
        rcases hcode with hu | heq
        · exact (hb.usable_lt hk hu).2
        · exact heq ▸ hfirst hold heq
      have hturn := turn_first htake hold
      rw [suffixAt_ok _ h0 hlt, ok_bind] at hturn
      exact ⟨true, _, hturn, fun _ =>
        ⟨hb.dropCode.firstCode _ hcode, rank_lt_bits rfl rfl rfl (hused htake.2.1)⟩⟩
    · have hold' : s.oldCode ≠ s.available → Usable k.clear s.available s.oldCode := fun hne =>
        (hb.old.resolve_left hold).resolve_right hne
      obtain ⟨b, w, hlen, hne, hint⟩ := interpret_busy hk hb.dropCode htake.1 hcode fun heq =>
        hold' fun h => (hnext h).2 heq
      have hlow : s.available < maxStackSize → Usable k.clear s.available s.oldCode := fun hlt =>
        hold' fun h => hlt.not_ge (hnext h).1
      have hword : Busy k (withWord (nextCode s) b w (dropCode s)) :=
        hb.dropCode.withWord hk b hcode hlow (by simp only [maxStackSize]; omega)
      have hpi' : (withWord (nextCode s) b w (dropCode s)).pi = s.pi := by
        rw [withWord]
        split <;> rfl
      have hstack : (withWord (nextCode s) b w (dropCode s)).stack = w := by
        rw [withWord]
        split <;> rfl
      obtain ⟨top, rest, rfl⟩ := List.exists_cons_of_ne_nil hne
      have hturn := turn_code htake hold
      rw [hint, ok_bind, popPixel_ok hstack hword.pi (by rw [hpi']; exact hroom), ok_bind] at hturn
      refine ⟨true, _, hturn, fun _ => ⟨hword.popped hstack, rank_lt_pixel hpi ?_⟩⟩
      show (withWord (nextCode s) b (top :: rest) (dropCode s)).pi + 1 = s.pi + 1
      rw [hpi']

theorem eq_ok_of_bind {α β : Type} {x : Except Fault α} {f : α → Except Fault β} {r : β}
    (h : x >>= f = .ok r) : ∃ a, x = .ok a ∧ f a = .ok r := by
  cases x with
  | error e => cases h
  | ok a => exact ⟨a, rfl, h⟩

theorem popPixel_prefixes {s' : Decoder} (h : popPixel k s = .ok s') :
    s'.prefixes = s.prefixes ∧ s'.available = s.available := by
  rw [popPixel] at h
  split at h
  · cases h
  · split at h
    · cases h
      exact ⟨rfl, rfl⟩
    · cases h

/-- Whatever word a code has, what is left of its turn is to put a string into the table. -/
theorem interpret_ok {inCode : Int} {s' : Decoder} (h : interpret k inCode s = .ok s') :
    ∃ (b : Byte) (stack : List Byte) (t : Decoder), addString (s.setWord b.toNat stack) = .ok t ∧
      s' = t.setOld inCode := by
  rw [interpret] at h
  obtain ⟨⟨c, stack⟩, -, h⟩ := eq_ok_of_bind h
  obtain ⟨⟨root, stack'⟩, -, h⟩ := eq_ok_of_bind h
  obtain ⟨b, -, h⟩ := eq_ok_of_bind h
  obtain ⟨w, -, h⟩ := eq_ok_of_bind h
  obtain ⟨t, ht, h⟩ := eq_ok_of_bind h
  cases h
  exact ⟨b, w, t, ht, rfl⟩

/-- Whatever word a code has, it puts the string of the last code into a table
that is not full. -/
theorem interpret_prefixes {code : Int} {s' : Decoder} (h : interpret k code s = .ok s')
    (h0 : 0 ≤ s.available)
    (hlt : s.available < maxStackSize) :
    s'.prefixes = (withString s).prefixes ∧ s'.available = (withString s).available := by
  obtain ⟨b, w, t, ht, rfl⟩ := interpret_ok h
  have hadd : addString (s.setWord b.toNat w) = .ok (withString (s.setWord b.toNat w)) :=
    (addString_ok (s.setWord b.toNat w) h0).trans (congrArg _ (if_pos hlt))
  cases hadd.symm.trans ht
  exact ⟨rfl, rfl⟩

/-- Behind the tables the next free code does not follow itself. -/
theorem interpret_full {code : Int} (hclear : k.clear < s.available)
    (hfull : maxStackSize ≤ s.available)
    (hold : s.oldCode = s.available) (hcode : code = s.available) (hstack : s.stack = []) :
    ∃ e, interpret k code s = .error e := by
  have hstart : startWord code s = .ok (s.available, [BitVec.ofInt 8 s.first]) := by
    rw [startWord, if_pos hcode, hstack, push_ok _ (by simp [maxStackSize]), hold]
    rfl
  have hslots : freeSlots [BitVec.ofInt 8 s.first] = 4095 + 1 := rfl
  have hout : suffixAt s.suffixes s.available = .error .suffixIndex :=
    if_neg fun h => hfull.not_gt h.2
  refine ⟨.suffixIndex, ?_⟩
  rw [interpret, hstart, ok_bind]
  simp only
  rw [hslots, unwind, if_pos hclear, hout]
  rfl

/-- A step that is not safe leaves the arrays, or it leaves a table with a string
that is its own parent. -/
theorem turn_unsafe (hk : Fits k) (hb : Busy k s) (hs : ¬ StepSafe k s) :
    (∃ e, turn k s = .error e) ∨ ∃ s', turn k s = .ok (true, s') ∧ ¬ TableSafe k s' := by
  have hpos := hk.pos
  have hlow := hb.available
  obtain ⟨htake, hbad⟩ := Classical.not_imp.mp hs
  rw [not_and_or, Classical.not_imp, Classical.not_imp, Classical.not_imp,
    not_and_or, not_le, not_lt,
    ne_eq, not_not] at hbad
  have hself : s.oldCode = s.available → s.oldCode ≠ nullCode := by
    intro h
    rw [h, nullCode]
    omega
  rcases hbad with ⟨hold, hcode, hfull⟩ | ⟨hold, hbad⟩
  · left
    have hout : ¬ (0 ≤ nextCode s ∧ nextCode s < maxStackSize) := by
      rw [hcode]
      exact fun h => hfull.not_gt h.2
    rw [turn_first htake hold, suffixAt, if_neg hout]
    exact ⟨_, rfl⟩
  · rw [turn_code htake (hself hold)]
    rcases hint : interpret k (nextCode s) (dropCode s) with e | s'
    · exact .inl ⟨e, rfl⟩
    rw [ok_bind]
    rcases hpop : popPixel k s' with e | s''
    · exact .inl ⟨e, rfl⟩
    refine .inr ⟨s'', rfl, fun htable => ?_⟩
    rcases lt_or_ge s.available maxStackSize with hlt | hge
    · -- the word may even be found, by way of what an earlier frame left in the tables
      obtain ⟨hp, ha⟩ := popPixel_prefixes hpop
      obtain ⟨hp', ha'⟩ := interpret_prefixes hint (by show 0 ≤ s.available; omega) hlt
      have hdesc := htable.descends
      rw [hp, ha, hp', ha'] at hdesc
      exact withString_unsafe hk hb hold hlt hdesc
    · have hcode := hbad.resolve_left hge.not_gt
      have hclear : k.clear < s.available := by omega
      obtain ⟨e, he⟩ := interpret_full (s := dropCode s) hclear hge hold hcode htake.1
      rw [he] at hint
      cases hint

theorem Idle.tableSafe (h : Idle k s) : TableSafe k s := by
  refine ⟨fun c h₁ h₂ => ?_, ?_, ?_⟩
  · rw [h.available] at h₂
    omega
  · rw [h.available]
    exact Descends.empty _ _
  · rw [h.stack]
    simp [maxStackSize]

theorem Idle.stepSafe (h : Idle k s) : StepSafe k s := by
  intro htake
  have hle := htake.2.2.1
  have hneg := h.neg
  rw [h.nextCode] at hle
  omega

/-- Without a mask the first code is beyond the table and stops the decoder. -/
theorem turn_idle (hi : Idle k s) :
    ∃ go s', turn k s = .ok (go, s') ∧ (go = true → Idle k s' ∧ rank k s' < rank k s) := by
  rcases lt_or_ge s.bits s.codeSize with hbits | hbits
  · refine ⟨(loadByte s).1, (loadByte s).2, turn_load hi.stack hbits, fun hgo => ?_⟩
    obtain ⟨r, block, b, hload, hlen⟩ :=
      loadByte_true (Prod.ext hgo rfl : loadByte s = (true, (loadByte s).2))
    rw [hload]
    exact ⟨⟨hi.stack, hi.mask, hi.available, hi.neg⟩, rank_lt_input rfl hlen⟩
  · have hstop : s.available < nextCode s := by
      rw [hi.nextCode]
      exact hi.neg
    exact ⟨false, _, turn_stop hi.stack hbits (.inl hstop), fun hgo => by cases hgo⟩

/-- What holds at the head of every turn as long as the steps are safe. -/
def Kept (k : Params) (s : Decoder) : Prop := (Fits k ∧ Busy k s) ∨ Idle k s

theorem Kept.tableSafe (h : Kept k s) : TableSafe k s := h.elim (fun h => h.2.table) Idle.tableSafe

theorem turn_kept (h : Kept k s) (hpi : s.pi < k.npix) (hs : StepSafe k s) :
    ∃ go s', turn k s = .ok (go, s') ∧ (go = true → Kept k s' ∧ rank k s' < rank k s) := by
  rcases h with ⟨hk, hb⟩ | hi
  · obtain ⟨go, s', hturn, hgo⟩ := turn_busy hk hb hpi hs
    exact ⟨go, s', hturn, fun h => ⟨.inl ⟨hk, (hgo h).1⟩, (hgo h).2⟩⟩
  · obtain ⟨go, s', hturn, hgo⟩ := turn_idle hi
    exact ⟨go, s', hturn, fun h => ⟨.inr (hgo h).1, (hgo h).2⟩⟩

theorem turn_not_stepSafe (h : Kept k s) (hs : ¬ StepSafe k s) :
    (∃ e, turn k s = .error e) ∨ ∃ s', turn k s = .ok (true, s') ∧ ¬ TableSafe k s' := by
  rcases h with ⟨hk, hb⟩ | hi
  · exact turn_unsafe hk hb hs
  · exact absurd hi.stepSafe hs

variable {s₀ : Decoder}

/-- Whole runs: the invariant holds in every state that safe steps reach. -/
theorem Reached.kept (h₀ : Kept k s₀) (hsafe : ∀ s, Reached k s₀ s → s.pi < k.npix → StepSafe k s)
    (h : Reached k s₀ s) : Kept k s := by
  induction h with
  | start => exact h₀
  | @turn s s' h hpi ht ih =>
    obtain ⟨go, s'', hturn, hgo⟩ := turn_kept ih hpi (hsafe s h hpi)
    rw [ht] at hturn
    cases hturn
    exact (hgo rfl).1

/-- A run of safe steps ends. -/
theorem loop_ends (h₀ : Kept k s₀) (hsafe : ∀ s, Reached k s₀ s → s.pi < k.npix → StepSafe k s)
    (h : Reached k s₀ s) : ∃ turns s', loop k turns s = .ok (some s') := by
  induction hr : rank k s using WellFoundedLT.induction generalizing s with
  | ind r ih =>
    subst hr
    by_cases hpi : s.pi < k.npix
    · obtain ⟨go, s', hturn, hgo⟩ := turn_kept (h.kept h₀ hsafe) hpi (hsafe s h hpi)
      cases go with
      | false => exact ⟨1, s', by rw [loop, if_pos hpi]; simp only [hturn]⟩
      | true =>
        obtain ⟨turns, s'', hloop⟩ := ih (rank k s') (hgo rfl).2 (h.turn hpi hturn) rfl
        exact ⟨turns + 1, s'', by rw [loop, if_pos hpi]; simp only [hturn, hloop]⟩
    · exact ⟨0, s, by rw [loop, if_neg hpi]⟩

/-- Conversely, tables that stay safe come from safe steps. -/
theorem reached_stepSafe (h₀ : Kept k s₀)
    (hsafe : ∀ s, Reached k s₀ s → TableSafe k s ∧ (s.pi < k.npix → ∀ e, turn k s ≠ .error e))
    (h : Reached k s₀ s) : Kept k s ∧ (s.pi < k.npix → StepSafe k s) := by
  have hstep : ∀ {s}, Reached k s₀ s → Kept k s → s.pi < k.npix → StepSafe k s := by
    intro s h hkept hpi
    by_contra hs
    rcases turn_not_stepSafe hkept hs with ⟨e, he⟩ | ⟨s', hturn, hbad⟩
    · exact (hsafe s h).2 hpi e he
    · exact hbad (hsafe s' (h.turn hpi hturn)).1
  have hkept : Kept k s := by
    induction h with
    | start => exact h₀
    | @turn s s' h hpi ht ih =>
      obtain ⟨go, s'', hturn, hgo⟩ := turn_kept ih hpi (hstep h ih hpi)
      rw [ht] at hturn
      cases hturn
      exact (hgo rfl).1
  exact ⟨hkept, hstep h hkept⟩

end

theorem pixelsFor_cases (npix : Int) (pixels : Option (Nat × (Int → Byte))) :
    ((pixels = none ∧ npix < 0) ∧ pixelsFor npix pixels = .error .negativeArraySize) ∨
    (¬ (pixels = none ∧ npix < 0) ∧ ∃ n p, pixelsFor npix pixels = .ok (n, p) ∧
      npix ≤ (n : Int)) := by
  cases pixels with
  | none =>
    by_cases hneg : npix < 0
    · exact .inl ⟨⟨rfl, hneg⟩, if_pos hneg⟩
    · exact .inr ⟨fun h => hneg h.2, _, _, if_neg hneg, by omega⟩
  | some p =>
    refine .inr ⟨(by rintro ⟨h, -⟩; cases h), ?_⟩
    by_cases hle : npix ≤ p.1
    · exact ⟨_, _, if_pos hle, hle⟩
    · exact ⟨_, _, if_neg hle, by omega⟩

theorem initial_busy {k : Params} (hsize : 0 < k.codeSize)
    (hmask : k.codeMask.toNat < 8192) (buf : Buffers)
    (r : Reader) (pixels : Int → Byte) : Busy k (initial k buf r pixels) := by
  refine ⟨⟨fun c h₁ h₂ => ?_, Descends.empty _ _, ?_⟩, le_rfl, hmask, .inl rfl, hsize, le_rfl⟩
  · have : c < k.clear + 2 := h₂
    omega
  · simp [initial, maxStackSize]

/-- How `decodeImageData` can start. -/
theorem start_cases (iw ih : Nat) (buf : Buffers) (r : Reader) :
    ((buf.pixels = none ∧ npixOf iw ih < 0) ∧ start iw ih buf r = .error .negativeArraySize) ∨
    (¬ (buf.pixels = none ∧ npixOf iw ih < 0) ∧ maxStackSize < (shiftOne r.read.1).toInt ∧
      start iw ih buf r = .error .prefixIndex) ∨
    (¬ (buf.pixels = none ∧ npixOf iw ih < 0) ∧ (shiftOne r.read.1).toInt ≤ maxStackSize ∧
      ∃ k s₀, start iw ih buf r = .ok (k, s₀) ∧ Kept k s₀) := by
  rcases pixelsFor_cases (npixOf iw ih) buf.pixels with ⟨hneg, hp⟩ | ⟨hneg, n, pixels, hp, hn⟩
  · exact .inl ⟨hneg, by rw [start, hp]; rfl⟩
  · right
    have hstart : start iw ih buf r = if maxStackSize < (shiftOne r.read.1).toInt then
        .error .prefixIndex
        else .ok (⟨npixOf iw ih, r.read.1, n⟩,
          initial ⟨npixOf iw ih, r.read.1, n⟩ buf r.read.2 pixels) := by
      rw [start, hp]
      rfl
    rcases lt_or_ge maxStackSize (shiftOne r.read.1).toInt with hbig | hfit
    · exact .inl ⟨hneg, hbig, by rw [hstart, if_pos hbig]⟩
    · refine .inr ⟨hneg, hfit, _, _, by rw [hstart, if_neg hfit.not_gt], ?_⟩
      rcases params_cases ⟨npixOf iw ih, r.read.1, n⟩ (read_bounds r).1 with
        ⟨hclear, hmask⟩ | hbig | ⟨hpos, hle, hsize, hmask⟩
      · refine .inr ⟨rfl, hmask, rfl, ?_⟩
        show Params.clear _ + 2 < 0
        rw [hclear]
        decide
      · exact absurd hbig hfit.not_gt
      · exact .inl ⟨⟨hpos, hle, hsize, hmask, hn⟩, initial_busy hsize hmask buf r.read.2 pixels⟩

/-- Decoding stays inside its arrays and ends exactly when the roots fit into the
tables and every step is safe. -/
theorem decodeImageData_safe_iff (iw ih : Nat) (buf : Buffers) (r : Reader) :
    Safe iw ih buf r ↔ (buf.pixels = none ∧ npixOf iw ih < 0) ∨
      ((shiftOne r.read.1).toInt ≤ maxStackSize ∧
        ∀ k s₀, start iw ih buf r = .ok (k, s₀) → ∀ s, Reached k s₀ s → s.pi < k.npix →
          StepSafe k s) := by
  rcases start_cases iw ih buf r with ⟨hneg, hstart⟩ | ⟨hneg, hbig, hstart⟩
    | ⟨hneg, hfit, k, s₀, hstart, hkept⟩
  · exact ⟨fun _ => .inl hneg, fun _ => .inl hstart⟩
  · constructor
    · rintro (h | ⟨k, s₀, h, -⟩)
      · rw [hstart] at h
        cases h
      · rw [hstart] at h
        cases h
    · rintro (h | ⟨hfit, -⟩)
      · exact absurd h hneg
      · exact absurd hfit hbig.not_ge
  · constructor
    · rintro (h | ⟨k', s₀', h, hsafe, -⟩)
      · rw [hstart] at h
        cases h
      · refine .inr ⟨hfit, fun k'' s₀'' h'' s hr hpi => ?_⟩
        rw [hstart] at h h''
        cases h
        cases h''
        exact (reached_stepSafe hkept hsafe hr).2 hpi
    · rintro (h | ⟨-, hsteps⟩)
      · exact absurd h hneg
      · have hsteps := hsteps k s₀ hstart
        refine .inr ⟨k, s₀, hstart, fun s hr =>
          ⟨(hr.kept hkept hsteps).tableSafe, fun hpi e he => ?_⟩, ?_⟩
        · obtain ⟨go, s', hturn, -⟩ := turn_kept (hr.kept hkept hsteps) hpi (hsteps s hr hpi)
          rw [he] at hturn
          cases hturn
        · obtain ⟨turns, s', hloop⟩ := loop_ends hkept hsteps .start
          refine ⟨turns,
            (s'.reader, ⟨some (k.pixelsLength, cleared k s'), s'.prefixes, s'.suffixes⟩), ?_⟩
          rw [decodeImageData, hstart]
          simp only [hloop]

/-- The codes 6, 0, 6 of minimum code size 2: the next free code comes first, and
its string becomes its own parent. -/
theorem decodeImageData_selfParent :
    ¬ Safe 3 1 ⟨none, fun _ => 0, fun _ => 0⟩ ⟨.stream, [2, 2, 0x86, 1, 0], false⟩ := by
  have hstart : start 3 1 ⟨none, fun _ => 0, fun _ => 0⟩ ⟨.stream, [2, 2, 0x86, 1, 0], false⟩ =
    .ok (⟨3, 2, 3⟩, initial ⟨3, 2, 3⟩ ⟨none, fun _ => 0, fun _ => 0⟩
      ⟨.stream, [2, 0x86, 1, 0], false⟩ fun _ => 0) := rfl
  rintro (h | ⟨k, s₀, h, hsafe, -⟩)
  · rw [hstart] at h
    cases h
  · rw [hstart] at h
    cases h
    have hzero : Reached ⟨3, 2, 3⟩
      (initial ⟨3, 2, 3⟩ ⟨none, fun _ => 0, fun _ => 0⟩
        ⟨.stream, [2, 0x86, 1, 0], false⟩ fun _ => 0) _ := .start
    have hload := hzero.turn (by decide) rfl
    have hfirst := hload.turn (by decide) rfl
    have hpopped := hfirst.turn (by decide) rfl
    have hcode := hpopped.turn (by decide) rfl
    have hself := ((hsafe _ hcode).1.descends 6 (by decide) (by decide)).1
    exact absurd hself (by decide)

end GifLzwDecoder
