import AndroidWork.GifFile

/-!
# Where a frame leaves the input

`decodeImageData` takes blocks as it needs them, and `skip` what is left of the
chain. The decoder is compared with itself over the image's data in one piece.
-/
namespace GifLzwDecoder

open SubBlocks (Blocks)

/-- The state with its input replaced. -/
def Decoder.withInput (s : Decoder) (r : Reader) (block : List Byte) : Decoder :=
  { s with reader := r, block := block }

/-- The decoder with the rest of the image's data in its block, and nothing behind. -/
def Decoder.flat (s : Decoder) (data : List Byte) : Decoder :=
  s.withInput ⟨.stream, [], false⟩ (s.block ++ data)

/-- The next turn asks for another byte. -/
def Asks (s : Decoder) : Prop := s.stack = [] ∧ s.bits < s.codeSize

section Input

variable {k : Params} {s s' : Decoder} (r : Reader) (block : List Byte)

theorem popPixel_withInput : popPixel k (s.withInput r block) = (popPixel k s).map fun t =>
  t.withInput r block := by
  have hsame : (s.withInput r block).stack = s.stack := rfl
  rw [popPixel, popPixel, hsame]
  cases s.stack with
  | nil => rfl
  | cons b stack =>
    show (if 0 ≤ s.pi ∧ s.pi < k.pixelsLength then _ else _) = Except.map _ (if _ then _ else _)
    split <;> rfl

theorem addString_withInput : addString (s.withInput r block) = (addString s).map fun t =>
  t.withInput r block := by
  unfold addString
  show (if s.available < maxStackSize then (if 0 ≤ s.available then _ else _) else _) = _
  split
  · split <;> rfl
  · rfl

theorem setWord_withInput (first : Int) (stack : List Byte) :
    (s.withInput r block).setWord first stack = (s.setWord first stack).withInput r block := rfl

/-- A change of the result passes through a bind. -/
theorem bind_map_congr {α β γ : Type} {x : Except Fault α} {f : α → Except Fault β}
    {f' : α → Except Fault γ} {g : β → γ}
    (h : ∀ a, f' a = (f a).map g) : (x >>= f') = (x >>= f).map g := by
  cases x with
  | error e => rfl
  | ok a => exact h a

theorem interpret_withInput (code : Int) :
    interpret k code (s.withInput r block) = (interpret k code s).map fun t =>
  t.withInput r block := by
  unfold interpret
  refine bind_map_congr fun ⟨c, stack⟩ => bind_map_congr fun ⟨c, stack⟩ => bind_map_congr fun b =>
    bind_map_congr fun stack => ?_
  simp only [setWord_withInput, addString_withInput]
  cases addString (s.setWord b.toNat stack) <;> rfl

/-- A turn that asks for no byte has no part in the input. -/
theorem turn_withInput (h : ¬ Asks s) :
    turn k (s.withInput r block) = (turn k s).map fun p => (p.1, p.2.withInput r block) := by
  unfold turn
  show (if s.stack = [] then (if s.bits < s.codeSize then _ else _) else _) = _
  split
  · rename_i hstack
    rw [if_neg fun hbits => h ⟨hstack, hbits⟩, if_neg fun hbits => h ⟨hstack, hbits⟩]
    show (if s.available < nextCode s ∨ nextCode s = k.endOfInformation then _
      else if nextCode s = k.clear then _ else if s.oldCode = nullCode then _ else _) = _
    simp only []
    split
    · rename_i hstop
      rw [if_pos (show (dropCode s).available < nextCode s ∨
        nextCode s = k.endOfInformation from hstop)]
      rfl
    · rename_i hgo
      rw [if_neg (show ¬ ((dropCode s).available < nextCode s ∨
        nextCode s = k.endOfInformation) from hgo)]
      split
      · rfl
      · split
        · rename_i hold
          rw [if_pos (show (dropCode s).oldCode = nullCode from hold)]
          exact bind_map_congr fun b => rfl
        · rename_i hold
          rw [if_neg (show ¬ (dropCode s).oldCode = nullCode from hold)]
          show (interpret k (nextCode s) ((dropCode s).withInput r block) >>= _) = _
          rw [interpret_withInput]
          cases interpret k (nextCode s) (dropCode s) with
          | error e => rfl
          | ok t =>
            show (popPixel k (t.withInput r block) >>= _) = Except.map _ (popPixel k t >>= _)
            rw [popPixel_withInput]
            cases popPixel k t <;> rfl
  · rw [popPixel_withInput]
    cases popPixel k s <;> rfl

theorem withInput_self (s : Decoder) : s.withInput s.reader s.block = s := rfl

theorem turn_input (h : ¬ Asks s) {go : Bool} (hturn : turn k s = .ok (go, s')) :
    s'.reader = s.reader ∧ s'.block = s.block := by
  have hself := turn_withInput (k := k) s.reader s.block h
  rw [withInput_self, hturn] at hself
  have heq : s' = s'.withInput s.reader s.block := (Prod.mk.inj (Except.ok.inj hself)).2
  rw [heq]
  exact ⟨rfl, rfl⟩

end Input

section Flat

variable {k : Params} {s s' f f' : Decoder} {data rest : List Byte}

/-- The reader is inside the chain of the image's blocks. -/
structure InChain (s : Decoder) (data rest : List Byte) : Prop where
  blocks : Blocks s.reader.bytes data rest
  source : s.reader.source = .stream
  noError : s.reader.formatError = false

theorem InChain.reader (h : InChain s data rest) : s.reader = ⟨.stream, s.reader.bytes, false⟩ := by
  rw [← h.source, ← h.noError]

theorem loadByte_cons {b : Byte} {block : List Byte} (h : s.block = b :: block) :
    loadByte s = (true, s.loaded s.reader block b) := by
  simp only [loadByte, h, List.cons_ne_nil, if_false]

/-- Loading takes the next byte of the data, or finds the terminator. -/
theorem InChain.loadByte (h : InChain s data rest) :
    (s.block ++ data = [] ∧ loadByte s = (false, { s with reader := ⟨.stream, rest, false⟩ })) ∨
      ∃ t data', loadByte s = (true, t) ∧ GifLzwDecoder.loadByte (s.flat data) =
        (true, t.flat data') ∧
        InChain t data' rest := by
  cases hblock : s.block with
  | cons b block =>
    refine .inr ⟨s.loaded s.reader block b, data, loadByte_cons hblock, ?_,
      ⟨h.blocks, h.source, h.noError⟩⟩
    have hflat : (s.flat data).block = b :: (block ++ data) := by
      show s.block ++ data = _
      rw [hblock]
      rfl
    rw [loadByte_cons hflat]
    rfl
  | nil =>
    obtain ⟨bytes, hbytes⟩ : ∃ bytes, s.reader = ⟨.stream, bytes, false⟩ := ⟨_, h.reader⟩
    have hblocks := h.blocks
    rw [hbytes] at hblocks
    cases hblocks with
    | stop =>
      refine .inl ⟨rfl, ?_⟩
      simp only [GifLzwDecoder.loadByte, hblock, if_true, hbytes]
      rfl
    | @block bytes data _ size chunk hpos hsize hrest =>
      obtain ⟨b, chunk, rfl⟩ := List.exists_cons_of_ne_nil hpos
      refine .inr ⟨s.loaded ⟨.stream, bytes, false⟩ chunk b, data, ?_, ?_, ⟨hrest, rfl, rfl⟩⟩
      · simp only [GifLzwDecoder.loadByte, hblock, if_true, hbytes, readBlock_block hpos hsize]
      · have hflat : (s.flat (b :: chunk ++ data)).block = b :: (chunk ++ data) := by
          show s.block ++ _ = _
          rw [hblock]
          rfl
        rw [loadByte_cons hflat]
        rfl

/-- The next turn asks for a byte, and there is none. -/
def Wants (s : Decoder) (data : List Byte) : Prop := Asks s ∧ s.block ++ data = []

/-- As long as there are bytes, both decoders take the same turns. -/
theorem InChain.turn (h : InChain s data rest) (hwants : ¬ Wants s data) :
    ∃ data', GifLzwDecoder.turn k (s.flat data) =
      (GifLzwDecoder.turn k s).map (fun p => (p.1, p.2.flat data')) ∧
      ∀ go s', GifLzwDecoder.turn k s = .ok (go, s') → InChain s' data' rest ∧
        (Asks s → go = true) := by
  by_cases hasks : Asks s
  · rcases h.loadByte with ⟨hnone, -⟩ | ⟨t, data', hload, hflat, ht⟩
    · exact absurd ⟨hasks, hnone⟩ hwants
    · rw [turn_load hasks.1 hasks.2, hload, turn_load (s := s.flat data) hasks.1 hasks.2, hflat]
      refine ⟨data', rfl, fun go s' hs' => ?_⟩
      cases hs'
      exact ⟨ht, fun _ => rfl⟩
  · cases hturn : GifLzwDecoder.turn k s with
    | error e => exact ⟨data, by rw [Decoder.flat, turn_withInput _ _ hasks, hturn]; rfl, nofun⟩
    | ok p =>
      obtain ⟨go, s'⟩ := p
      obtain ⟨hreader, hblock⟩ := turn_input hasks hturn
      refine ⟨data, ?_, fun go' s'' hs' => ?_⟩
      · rw [Decoder.flat, turn_withInput _ _ hasks, hturn, ← hblock]
        rfl
      · cases hs'
        exact ⟨⟨by rw [hreader]; exact h.blocks, by rw [hreader]; exact h.source, by
          rw [hreader]; exact h.noError⟩,
          fun ha => absurd ha hasks⟩

theorem InChain.turn_wants (h : InChain s data rest) (hwants : Wants s data) :
    GifLzwDecoder.turn k s = .ok (false, { s with reader := ⟨.stream, rest, false⟩ }) := by
  rcases h.loadByte with ⟨-, hload⟩ | ⟨t, data', hload, hflat, -⟩
  · rw [turn_load hwants.1.1 hwants.1.2, hload]
  · have hempty : (s.flat data).block = [] := hwants.2
    simp only [GifLzwDecoder.loadByte, hempty, if_true] at hflat
    cases hflat

/-- The decoder of the data alone takes no turn without a byte. -/
theorem flat_wants (hwants : Wants s data) :
    ∃ f', GifLzwDecoder.turn k (s.flat data) = .ok (false, f') := by
  have hempty : (s.flat data).block = [] := hwants.2
  rw [turn_load (s := s.flat data) hwants.1.1 hwants.1.2, GifLzwDecoder.loadByte]
  simp only [hempty, if_true]
  exact ⟨_, rfl⟩

/-- The codes run out before all pixels are there. -/
def RunsOut (k : Params) (f : Decoder) : Prop :=
  ∃ f', Reached k f f' ∧ f'.pi < k.npix ∧ Asks f' ∧ f'.block = []

/-- Every state of the data alone is one of the blocks. -/
theorem InChain.of_flat (h : InChain s data rest) (hreach : Reached k (s.flat data) f) :
    ∃ t data', Reached k s t ∧ f = t.flat data' ∧ InChain t data' rest := by
  induction hreach with
  | start => exact ⟨s, data, .start, rfl, h⟩
  | turn _ hpi hturn ih =>
    obtain ⟨t, data', ht, rfl, hchain⟩ := ih
    have hwants : ¬ Wants t data' := by
      intro hwants
      obtain ⟨f', hstop⟩ := flat_wants (k := k) hwants
      rw [hstop] at hturn
      cases hturn
    obtain ⟨data'', hflat, hnext⟩ := hchain.turn (k := k) hwants
    rw [hflat] at hturn
    cases hreal : GifLzwDecoder.turn k t with
    | error e =>
      rw [hreal] at hturn
      cases hturn
    | ok p =>
      obtain ⟨go, u⟩ := p
      rw [hreal] at hturn
      cases hturn
      exact ⟨u, data'', ht.turn hpi hreal, rfl, (hnext true u hreal).1⟩

/-- And the other way round, while the codes do not run out. -/
theorem InChain.to_flat (h : InChain s data rest) (hout : ¬ RunsOut k (s.flat data)) {t : Decoder}
    (hreach : Reached k s t) :
    ∃ data', Reached k (s.flat data) (t.flat data') ∧ InChain t data' rest := by
  induction hreach with
  | start => exact ⟨data, .start, h⟩
  | @turn t u _ hpi hturn ih =>
    obtain ⟨data', ht, hchain⟩ := ih
    have hwants : ¬ Wants t data' := fun hwants => hout ⟨_, ht, hpi, hwants.1, hwants.2⟩
    obtain ⟨data'', hflat, hnext⟩ := hchain.turn (k := k) hwants
    rw [hturn] at hflat
    exact ⟨data'', ht.turn hpi hflat, (hnext _ _ hturn).1⟩

end Flat

section Halts

variable {k : Params} {s s' : Decoder}

theorem popPixel_pi (h : popPixel k s = .ok s') : s'.pi = s.pi + 1 ∧ s'.codeSize = s.codeSize := by
  rw [popPixel] at h
  split at h
  · cases h
  · split at h
    · cases h
      exact ⟨rfl, rfl⟩
    · cases h

theorem addString_pi (h : addString s = .ok s') : s'.pi = s.pi ∧ s.codeSize ≤ s'.codeSize := by
  rw [addString] at h
  split at h
  · split at h
    · cases h
      exact ⟨rfl, withString_codeSize s⟩
    · cases h
  · cases h
    exact ⟨rfl, le_rfl⟩

theorem interpret_pi {code : Int} (h : interpret k code s = .ok s') :
    s'.pi = s.pi ∧ s.codeSize ≤ s'.codeSize := by
  obtain ⟨b, w, t, ht, rfl⟩ := interpret_ok h
  exact ⟨(addString_pi ht).1, (addString_pi ht).2⟩

/-- With codes that are not empty, every turn gets on. -/
theorem turn_rank (hk : 0 < k.codeSize) (hs : 0 < s.codeSize) (hpi : s.pi < k.npix)
    (h : turn k s = .ok (true, s')) :
    rank k s' < rank k s ∧ 0 < s'.codeSize := by
  rcases turn_cases k s with hpop | ⟨hstack, hbits⟩ | ⟨hstack, hbits, hstop⟩ | ⟨hstack, hbits, hle,
    hne, hclear⟩ | htakes
  · rw [turn, if_neg hpop] at h
    obtain ⟨t, ht, h⟩ := eq_ok_of_bind h
    cases h
    obtain ⟨hpi', hsize⟩ := popPixel_pi ht
    exact ⟨rank_lt_pixel hpi hpi', hsize ▸ hs⟩
  · rw [turn_load hstack hbits] at h
    obtain ⟨r, block, b, rfl, hlen⟩ := loadByte_true (Except.ok.inj h)
    exact ⟨rank_lt_input rfl hlen, hs⟩
  · rw [turn_stop hstack hbits hstop] at h
    cases h
  · rw [turn_clear hstack hbits hle hne hclear] at h
    cases h
    exact ⟨rank_lt_bits rfl rfl rfl (Nat.sub_lt (by omega) hs), hk⟩
  · have hbits : s.bits - s.codeSize < s.bits := Nat.sub_lt (by have := htakes.2.1; omega) hs
    by_cases hold : s.oldCode = nullCode
    · rw [turn_first htakes hold] at h
      obtain ⟨b, -, h⟩ := eq_ok_of_bind h
      cases h
      exact ⟨rank_lt_bits rfl rfl rfl hbits, hs⟩
    · rw [turn_code htakes hold] at h
      obtain ⟨t, ht, h⟩ := eq_ok_of_bind h
      obtain ⟨u, hu, h⟩ := eq_ok_of_bind h
      cases h
      obtain ⟨hpi', hsize⟩ := interpret_pi ht
      obtain ⟨hpi'', hsize'⟩ := popPixel_pi hu
      exact ⟨rank_lt_pixel hpi (by rw [hpi'', hpi']; rfl), hsize' ▸ lt_of_lt_of_le hs hsize⟩

/-- The loop comes to an end: behind the last pixel, at its `break`, or with an exception. -/
theorem loop_halts (hk : 0 < k.codeSize) (hs : 0 < s.codeSize) : ∃ n u, Reached k s u ∧
    ((¬ u.pi < k.npix ∧ ∀ turns ≥ n, loop k turns s = .ok (some u)) ∨
      u.pi < k.npix ∧
        ((∃ t, turn k u = .ok (false, t) ∧ ∀ turns ≥ n, loop k turns s = .ok (some t)) ∨
          ∃ e, turn k u = .error e ∧ ∀ turns ≥ n, loop k turns s = .error e)) := by
  induction hr : rank k s using WellFoundedLT.induction generalizing s with
  | ind r ih =>
    subst hr
    by_cases hpi : s.pi < k.npix
    · have hsucc : ∀ turns ≥ 1, ∃ t, turns = t + 1 := fun turns h => ⟨turns - 1, by omega⟩
      cases hturn : turn k s with
      | error e =>
        refine ⟨1, s, .start, .inr ⟨hpi, .inr ⟨e, hturn, fun turns h => ?_⟩⟩⟩
        obtain ⟨turns, rfl⟩ := hsucc turns h
        rw [loop, if_pos hpi]
        simp only [hturn]
      | ok p =>
        obtain ⟨go, t⟩ := p
        cases go with
        | false =>
          refine ⟨1, s, .start, .inr ⟨hpi, .inl ⟨t, hturn, fun turns h => ?_⟩⟩⟩
          obtain ⟨turns, rfl⟩ := hsucc turns h
          rw [loop, if_pos hpi]
          simp only [hturn]
        | true =>
          obtain ⟨hlt, ht⟩ := turn_rank hk hs hpi hturn
          obtain ⟨n, u, hreach, hend⟩ := ih (rank k t) hlt ht rfl
          have hfirst : Reached k s u := (Reached.start.turn hpi hturn).trans hreach
          have hmore : ∀ {res}, (∀ turns ≥ n, loop k turns t = res) → ∀ turns ≥ n + 1,
              loop k turns s = res := by
            intro res hres turns h
            obtain ⟨turns, rfl⟩ := hsucc turns (by omega)
            rw [loop, if_pos hpi]
            simp only [hturn]
            exact hres turns (by omega)
          refine ⟨n + 1, u, hfirst, hend.imp (fun h => ⟨h.1, hmore h.2⟩) fun h =>
            ⟨h.1, h.2.imp ?_ ?_⟩⟩
          · rintro ⟨t', hstop, h⟩
            exact ⟨t', hstop, hmore h⟩
          · rintro ⟨e, hstop, h⟩
            exact ⟨e, hstop, hmore h⟩
    · exact ⟨0, s, .start, .inl ⟨hpi, fun turns _ => loop_done hpi turns⟩⟩

variable {data rest : List Byte}

/-- Codes that run out leave the input behind the terminator. -/
theorem InChain.loop_runsOut (h : InChain s data rest) (hout : RunsOut k (s.flat data)) :
    ∃ n t, (∀ turns ≥ n, loop k turns s = .ok (some t)) ∧ t.reader = ⟨.stream, rest, false⟩ := by
  obtain ⟨f, hreach, hpi, hasks, hempty⟩ := hout
  obtain ⟨u, data', hu, rfl, hchain⟩ := h.of_flat hreach
  have hturn := hchain.turn_wants (k := k) ⟨hasks, hempty⟩
  have hloop : loop k 1 u = .ok (some { u with reader := ⟨.stream, rest, false⟩ }) := by
    rw [loop, if_pos (show u.pi < k.npix from hpi), hturn]
  obtain ⟨more, hmore⟩ := hu.loop hloop
  refine ⟨1 + more, { u with reader := ⟨.stream, rest, false⟩ }, fun turns hturns => ?_, rfl⟩
  obtain ⟨d, rfl⟩ := Nat.exists_eq_add_of_le hturns
  exact loop_more hmore d

/-- Otherwise the input is left inside the chain. -/
theorem InChain.loop_complete (h : InChain s data rest) (hout : ¬ RunsOut k (s.flat data))
    (hk : 0 < k.codeSize)
    (hs : 0 < s.codeSize) : ∃ n, (∃ e, ∀ turns ≥ n, loop k turns s = .error e) ∨
      ∃ t data', (∀ turns ≥ n, loop k turns s = .ok (some t)) ∧ InChain t data' rest := by
  obtain ⟨n, u, hreach, ⟨-, hloop⟩ | ⟨hpi, ⟨t, hturn, hloop⟩ | ⟨e, -, hloop⟩⟩⟩ :=
    loop_halts (k := k) hk hs
  · obtain ⟨data', -, hchain⟩ := h.to_flat hout hreach
    exact ⟨n, .inr ⟨u, data', hloop, hchain⟩⟩
  · obtain ⟨data', hflat, hchain⟩ := h.to_flat hout hreach
    have hwants : ¬ Wants u data' := fun hwants => hout ⟨_, hflat, hpi, hwants.1, hwants.2⟩
    obtain ⟨data'', -, hnext⟩ := hchain.turn (k := k) hwants
    exact ⟨n, .inr ⟨t, data'', hloop, (hnext _ _ hturn).1⟩⟩
  · exact ⟨n, .inl ⟨e, hloop⟩⟩

end Halts

end GifLzwDecoder

namespace BaseGifDecoder

open GifLzwDecoder (Byte Reader Source Buffers RunsOut InChain start npixOf)
open SubBlocks (Blocks)

/-- What playing a frame of a stream takes from the input. -/
def Decoder.passImage (turns : Nat) (frame : GifFrameData) (s : Decoder) : Except Fault Reader := do
  let s ← s.decodeImageData turns frame
  s.leaveImage turns

/-- A stream at the root code size of an image. -/
def Decoder.atImage (s : Decoder) (dataSize : Byte) (bytes : List Byte) : Decoder :=
  s.withReader ⟨.stream, dataSize :: bytes, false⟩

/-- With enough turns the decoder throws, or the input is left at `rest`. -/
def LeavesAt (rest : List Byte) (run : Nat → Except Fault Reader) : Prop :=
  ∃ n, ∀ turns ≥ n, (∃ f, run turns = .error (.lzw f)) ∨ run turns = .ok ⟨.stream, rest, false⟩

/-- The codes in the data of an image run out before all its pixels are there. -/
def ImageRunsOut (frame : GifFrameData) (buf : Buffers) (dataSize : Byte)
    (data : List Byte) : Prop :=
  ∃ k s₀, start (BitVec.ofInt 32 frame.iw).toNat (BitVec.ofInt 32 frame.ih).toNat buf
    ⟨.stream, [dataSize], false⟩ =
    .ok (k, s₀) ∧ RunsOut k (s₀.flat data)

theorem start_bytes (iw ih : Nat) (buf : Buffers) (dataSize : Byte) (bytes : List Byte) :
    (∃ e, start iw ih buf ⟨.stream, [dataSize], false⟩ = .error e ∧
      start iw ih buf ⟨.stream, dataSize :: bytes, false⟩ = .error e) ∨
      ∃ k s₀, start iw ih buf ⟨.stream, [dataSize], false⟩ = .ok (k, s₀) ∧
        start iw ih buf ⟨.stream, dataSize :: bytes, false⟩ =
          .ok (k, s₀.withInput ⟨.stream, bytes, false⟩ []) ∧
        0 < k.codeSize ∧ s₀.codeSize = k.codeSize ∧ s₀.block = [] := by
  cases hp : GifLzwDecoder.pixelsFor (npixOf iw ih) buf.pixels with
  | error e => exact .inl ⟨e, by rw [start, hp]; rfl, by rw [start, hp]; rfl⟩
  | ok p =>
    obtain ⟨n, pixels⟩ := p
    have heq : ∀ bytes, start iw ih buf ⟨.stream, dataSize :: bytes, false⟩ =
        if GifLzwDecoder.maxStackSize < GifLzwDecoder.Params.clear
          ⟨npixOf iw ih, dataSize.toNat, n⟩ then .error .prefixIndex
        else .ok (⟨npixOf iw ih, dataSize.toNat, n⟩,
          GifLzwDecoder.initial ⟨npixOf iw ih, dataSize.toNat, n⟩ buf
            ⟨.stream, bytes, false⟩ pixels) := by
      intro bytes
      rw [start, hp]
      rfl
    rw [heq, heq]
    split
    · exact .inl ⟨_, rfl, rfl⟩
    · refine .inr ⟨_, _, rfl, rfl, ?_, rfl, rfl⟩
      show 0 < ((dataSize.toNat : Int) + 1).toNat
      omega

/-- A block is taken from an input that is not at its end. -/
theorem skip_length {turns : Nat} {r r' : Reader} (h : skip turns r = .ok r') :
    r'.bytes.length ≤ r.bytes.length := by
  induction turns generalizing r with
  | zero => cases h
  | succ turns ih =>
    have hblock := GifLzwDecoder.readBlock_length r
    rw [skip] at h
    split at h
    · have := ih h
      omega
    · cases h
      omega

theorem skip_shorter {turns : Nat} {b : Byte} {rest : List Byte} {r' : Reader}
    (h : skip turns ⟨.stream, b :: rest, false⟩ = .ok r') :
    r'.bytes.length < (b :: rest).length := by
  have hread : (Reader.readBlock ⟨.stream, b :: rest, false⟩).2.bytes.length ≤ rest.length := by
    show (if 0 < (b.toNat : Int) then _ else _ : List Byte × Reader).2.bytes.length ≤ _
    split
    · show (rest.drop _).length ≤ rest.length
      rw [List.length_drop]
      exact Nat.sub_le _ _
    · exact le_rfl
  rw [List.length_cons, Nat.lt_succ_iff]
  cases turns with
  | zero => cases h
  | succ turns =>
    rw [skip] at h
    split at h
    · exact (skip_length h).trans hread
    · cases h
      exact hread

theorem skip_ne_lzw (f : GifLzwDecoder.Fault) (turns : Nat) (r : Reader) :
    skip turns r ≠ .error (.lzw f) := by
  induction turns generalizing r with
  | zero => simp [skip]
  | succ turns ih =>
    rw [skip]
    split
    · exact ih _
    · simp

theorem skip_end (turns : Nat) : skip (turns + 1) ⟨.stream, [], false⟩ = .ok ⟨.stream, [], false⟩ :=
  rfl

/-- What is left of the input behind an image that is decoded so. -/
def left (turns : Nat) : Except GifLzwDecoder.Fault (Option (Reader × Buffers)) →
    Except Fault Reader
  | .error f => .error (.lzw f)
  | .ok none => .error .cutOff
  | .ok (some (r, _)) =>
    match r.source with
    | .stream => skip turns r
    | .rawData => .ok r

theorem passImage_eq (s : Decoder) (frame : GifFrameData) (turns : Nat) :
    s.passImage turns frame = left turns
      (GifLzwDecoder.decodeImageData (BitVec.ofInt 32 frame.iw).toNat
      (BitVec.ofInt 32 frame.ih).toNat s.buffers (s.imageReader frame) turns) := by
  rw [Decoder.passImage, Decoder.decodeImageData]
  cases GifLzwDecoder.decodeImageData (BitVec.ofInt 32 frame.iw).toNat
    (BitVec.ofInt 32 frame.ih).toNat s.buffers
    (s.imageReader frame) turns with
  | error f => rfl
  | ok res =>
    cases res with
    | none => rfl
    | some p => rfl

/-- A frame leaves the input behind its terminator, unless its codes run out and
something follows. -/
theorem passImage_leavesAt_iff (s : Decoder) (frame : GifFrameData) (dataSize : Byte)
    {bytes data rest : List Byte}
    (h : Blocks bytes data rest) :
    LeavesAt rest (fun turns => (s.atImage dataSize bytes).passImage turns frame) ↔
      ¬ ImageRunsOut frame s.buffers dataSize data ∨ rest = [] := by
  have hpass : ∀ turns, (s.atImage dataSize bytes).passImage turns frame =
      left turns (GifLzwDecoder.decodeImageData (BitVec.ofInt 32 frame.iw).toNat
        (BitVec.ofInt 32 frame.ih).toNat s.buffers
        ⟨.stream, dataSize :: bytes, false⟩ turns) := passImage_eq (s.atImage dataSize bytes) frame
  simp only [hpass, GifLzwDecoder.decodeImageData]
  rcases start_bytes (BitVec.ofInt 32 frame.iw).toNat (BitVec.ofInt 32 frame.ih).toNat s.buffers
    dataSize bytes with
    ⟨e, halone, hstart⟩ | ⟨k, s₀, halone, hstart, hk, hsize, hblock⟩
  · have hnot : ¬ ImageRunsOut frame s.buffers dataSize data := by
      rintro ⟨k, s₀, hs₀, -⟩
      rw [halone] at hs₀
      cases hs₀
    refine iff_of_true ⟨0, fun turns _ => .inl ⟨e, ?_⟩⟩ (.inl hnot)
    rw [hstart]
    rfl
  · have hchain : InChain (s₀.withInput ⟨.stream, bytes, false⟩ []) data rest := ⟨h, rfl, rfl⟩
    have hflat : (s₀.withInput ⟨.stream, bytes, false⟩ []).flat data = s₀.flat data := by
      show s₀.withInput _ ([] ++ data) = s₀.withInput _ (s₀.block ++ data)
      rw [hblock]
    have hout : ImageRunsOut frame s.buffers dataSize data ↔ RunsOut k (s₀.flat data) := by
      constructor
      · rintro ⟨k', s₀', hs₀, hout⟩
        cases halone.symm.trans hs₀
        exact hout
      · exact fun hout => ⟨k, s₀, halone, hout⟩
    rw [hout, ← hflat]
    simp only [hstart]
    by_cases hruns : RunsOut k ((s₀.withInput ⟨.stream, bytes, false⟩ []).flat data)
    · obtain ⟨n, t, hloop, hreader⟩ := hchain.loop_runsOut hruns
      cases rest with
      | nil =>
        refine iff_of_true ⟨n + 1, fun turns hturns => .inr ?_⟩ (.inr rfl)
        obtain ⟨turns, rfl⟩ : ∃ m, turns = m + 1 := ⟨turns - 1, by omega⟩
        simp only [hloop (turns + 1) (by omega), left, hreader]
        exact skip_end turns
      | cons b rest =>
        refine iff_of_false ?_ (fun h => h.elim (fun h => h hruns) (List.cons_ne_nil b rest))
        rintro ⟨m, hleaves⟩
        have hend := hleaves (max n m) (le_max_right n m)
        simp only [hloop (max n m) (le_max_left n m), left, hreader] at hend
        rcases hend with ⟨f, hskip⟩ | hskip
        · exact skip_ne_lzw f _ _ hskip
        · exact lt_irrefl _ (skip_shorter hskip)
    · refine iff_of_true ?_ (.inl hruns)
      obtain ⟨n, ⟨e, hloop⟩ | ⟨t, data', hloop, ht⟩⟩ := hchain.loop_complete hruns hk (hsize ▸ hk)
      · exact ⟨n, fun turns hturns => .inl ⟨e, by simp only [hloop turns hturns, left]⟩⟩
      · obtain ⟨m, hskip⟩ := GifFile.skip_blocks .stream ht.blocks
        refine ⟨max n m, fun turns hturns => .inr ?_⟩
        simp only [hloop turns (le_trans (le_max_left n m) hturns), left]
        rw [ht.reader]
        exact hskip turns (le_trans (le_max_right n m) hturns)

/-- Two pixels; their codes are in one block, and another block follows unread. -/
def pairFrame : GifFrameData := { newFrameData with iw := 2, ih := 1 }

theorem passImage_leavesAt_iff_pair :
    ¬ ImageRunsOut pairFrame (initial .stream []).buffers 2 [0x8c, 0x0a, 0xff] ∧
    LeavesAt [0x3b] fun turns =>
      ((initial .stream []).atImage 2 [2, 0x8c, 0x0a, 1, 0xff, 0, 0x3b]).passImage
          turns pairFrame := by
  have hblocks : Blocks [2, 0x8c, 0x0a, 1, 0xff, 0, 0x3b] [0x8c, 0x0a, 0xff] [0x3b] :=
    .block 2 (List.cons_ne_nil 0x8c [0x0a]) rfl
      (.block 1 (List.cons_ne_nil 0xff []) rfl (.stop [0x3b]))
  have hleaves : LeavesAt [0x3b] fun turns =>
      ((initial .stream []).atImage 2 [2, 0x8c, 0x0a, 1, 0xff, 0, 0x3b]).passImage
          turns pairFrame := by
    refine ⟨20, fun turns hturns => .inr ?_⟩
    obtain ⟨n, rfl⟩ : ∃ n, turns = n + 20 := ⟨turns - 20, by omega⟩
    rfl
  have hiff := passImage_leavesAt_iff (initial .stream []) pairFrame 2 hblocks
  exact ⟨(hiff.mp hleaves).resolve_right (by decide), hleaves⟩

/-- One pixel, its codes ended by the terminator at once. -/
def dotFrame : GifFrameData := { newFrameData with iw := 1, ih := 1 }

/-- The trailer behind an image without codes is taken for the size of a block. -/
theorem not_leavesAt_dotFrame : Blocks [0, 0x3b] [] [0x3b] ∧
    ((initial .stream []).atImage 2 [0, 0x3b]).passImage 1 dotFrame = .ok ⟨.stream, [], true⟩ ∧
    ¬ LeavesAt [0x3b] fun turns => ((initial .stream []).atImage 2 [0, 0x3b]).passImage
      turns dotFrame := by
  refine ⟨.stop _, rfl, ?_⟩
  rintro ⟨n, hn⟩
  have hend : ((initial .stream []).atImage 2 [0, 0x3b]).passImage (n + 1) dotFrame =
      .ok ⟨.stream, [], true⟩ := rfl
  rcases hn (n + 1) (Nat.le_succ n) with ⟨f, h⟩ | h
  · cases hend.symm.trans h
  · cases hend.symm.trans h

end BaseGifDecoder
