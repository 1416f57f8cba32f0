import AndroidWork.GifRawVerdicts

/-!
# Raw data read at once and one read at a time

A machine whose data are not dropped comes to the decoder that `readFile` comes
to, or throws where it does. The loop count may differ: `mBlock` keeps what
earlier blocks had, and a short block of an application shows it again.
-/
namespace GifRawReading

open BaseGifDecoder
open GifLzwDecoder (Byte Reader)

/-- Without a required size. -/
def Machine.Reaches (m m' : Machine) : Prop := ∃ n, (Machine.step (-1) (-1))^[n] m = m'

/-- The machine has this decoder but for the loop count, and reads its data. -/
structure Holds (s : Decoder) (m : Machine) : Prop where
  here : m.dropped = false
  thrown : m.thrown = none
  decoder : m.decoder = { s with loopCount := m.decoder.loopCount }
  source : s.reader.source = .rawData
  current : ∀ ref, s.header.currentFrame = some ref → ref < s.objects.length

/-- From here the machine comes to what a computation comes to. -/
def Runs {α : Type} (m : Machine) (post : α → Machine → Prop) : Except Fault α → Prop
  | .ok a => ∃ m', m.Reaches m' ∧ post a m'
  | .error .bufferUnderflow =>
    ∃ m', m.Reaches m' ∧ m'.point = .finished ∧ m'.thrown = some .bufferUnderflow
  | .error .cutOff => True
  | .error _ => False

section

variable {α β : Type} {m m' m'' : Machine} {post : α → Machine → Prop} {post' : β → Machine → Prop}

theorem Machine.Reaches.refl (m : Machine) : m.Reaches m := ⟨0, rfl⟩

theorem Machine.Reaches.trans (h : m.Reaches m') (h' : m'.Reaches m'') : m.Reaches m'' := by
  obtain ⟨n, rfl⟩ := h
  obtain ⟨k, rfl⟩ := h'
  exact ⟨k + n, Function.iterate_add_apply _ k n m⟩

theorem Machine.Reaches.step (h : (m.step (-1) (-1)).Reaches m') : m.Reaches m' := by
  obtain ⟨n, rfl⟩ := h
  exact ⟨n + 1, rfl⟩

theorem Runs.ok {a : α} (h : post a m) : Runs m post (.ok a) := ⟨m, .refl m, h⟩

theorem Runs.fault {e : Fault} (h : Runs m post (.error e)) : Runs m post' (.error e) := by
  cases e with
  | bufferUnderflow => exact h
  | cutOff => trivial
  | _ => exact False.elim h

theorem Runs.reach {x : Except Fault α} (hreach : m.Reaches m') (h : Runs m' post x) :
    Runs m post x := by
  cases x with
  | ok a =>
    obtain ⟨t, ht, hpost⟩ := h
    exact ⟨t, hreach.trans ht, hpost⟩
  | error e =>
    cases e with
    | bufferUnderflow =>
      obtain ⟨t, ht, hend⟩ := h
      exact ⟨t, hreach.trans ht, hend⟩
    | cutOff => trivial
    | _ => exact False.elim h

theorem Runs.step {x : Except Fault α} (h : Runs (m.step (-1) (-1)) post x) : Runs m post x :=
  .reach (.step (.refl _)) h

theorem Runs.bind {x : Except Fault α} {f : α → Except Fault β} (h : Runs m post x)
    (hf : ∀ a m', post a m' → Runs m' post' (f a)) : Runs m post' (x >>= f) := by
  cases x with
  | ok a =>
    obtain ⟨t, ht, hpost⟩ := h
    exact .reach ht (hf a t hpost)
  | error e => exact h.fault

theorem Runs.map {x : Except Fault α} {f : α → β} (h : Runs m (fun a => post' (f a)) x) :
    Runs m post' (x.map f) := by
  cases x with
  | ok a => exact h
  | error e => exact h.fault

theorem Runs.imp {post'' : α → Machine → Prop} {x : Except Fault α} (h : Runs m post x)
    (himp : ∀ a m', post a m' → post'' a m') : Runs m post'' x := by
  cases x with
  | ok a =>
    obtain ⟨t, ht, hpost⟩ := h
    exact ⟨t, ht, himp a t hpost⟩
  | error e => exact h.fault

end

section

variable {r : Reader}

theorem read_nil (hsource : r.source = .rawData) (h : r.bytes = []) :
    r.read = (0, { r with formatError := true }) := by
  obtain ⟨source, bytes, formatError⟩ := r
  cases hsource
  cases h
  rfl

theorem read_cons {b : Byte} {bs : List Byte} (h : r.bytes = b :: bs) :
    r.read = ((b.toNat : Int), { r with bytes := bs }) := by
  obtain ⟨source, bytes, formatError⟩ := r
  cases h
  rfl

theorem readBlock_raw {size : Nat} (hsource : r.read.2.source = .rawData) (hsize : 0 < size)
    (hread : r.read.1 = size) : r.readBlock.2 =
      if r.read.2.bytes.length < size then { r.read.2 with formatError := true }
      else { r.read.2 with bytes := r.read.2.bytes.drop size } := by
  rw [Reader.readBlock]
  generalize r.read = p at hsource hread
  obtain ⟨blockSize, source, bytes, formatError⟩ := p
  cases hsource
  obtain rfl : blockSize = (size : Int) := hread
  have hpos : (0 : Int) < size := by omega
  simp only [if_pos hpos, Nat.cast_le, Int.toNat_natCast]
  by_cases hshort : bytes.length < size
  · rw [if_pos hshort, if_neg (Nat.not_le_of_lt hshort)]
  · rw [if_neg hshort, if_pos (Nat.le_of_not_lt hshort)]

theorem readColorTable_raw (hsource : r.source = .rawData) (ncolors : Nat) :
    readColorTable ncolors r =
    if r.bytes.length < 3 * ncolors then (some (colorAt [] ncolors), r)
    else (some (colorAt (r.bytes.take (3 * ncolors)) ncolors),
      { r with bytes := r.bytes.drop (3 * ncolors) }) := by
  obtain ⟨source, bytes, formatError⟩ := r
  cases hsource
  rfl

theorem readShort_short (hsource : r.source = .rawData) (h : r.bytes.length < 2) :
    readShort r = .error .bufferUnderflow := by
  obtain ⟨source, bytes, formatError⟩ := r
  cases hsource
  cases bytes with
  | nil => rfl
  | cons low bytes =>
    cases bytes with
    | nil => rfl
    | cons high bytes =>
      simp only [List.length_cons] at h
      omega

theorem readShort_cons (hsource : r.source = .rawData) {low high : Byte} {bs : List Byte}
    (h : r.bytes = low :: high :: bs) :
    readShort r = .ok ((high ++ low).toInt, { r with bytes := bs }) := by
  obtain ⟨source, bytes, formatError⟩ := r
  cases hsource
  cases h
  rfl

end

section

variable {s : Decoder} {m : Machine}

theorem Holds.bytes (h : Holds s m) : m.bytes = s.reader.bytes := by rw [Machine.bytes, h.decoder]

theorem Holds.err (h : Holds s m) : m.err = s.reader.formatError := by rw [Machine.err, h.decoder]

theorem Holds.header (h : Holds s m) : m.decoder.header = s.header := by rw [h.decoder]

theorem Holds.data (h : Holds s m) : m.decoder.data = s.data := by rw [h.decoder]

theorem Holds.not_dropped (h : Holds s m) : ¬ m.dropped = true := by
  rw [h.here]
  decide

theorem Holds.goto (h : Holds s m) (p : Point) : Holds s (m.goto p) :=
  ⟨h.here, h.thrown, h.decoder, h.source, h.current⟩

theorem Holds.withBytes (h : Holds s m) (bytes : List Byte) :
    Holds (s.withReader { s.reader with bytes := bytes }) (m.withBytes bytes) := by
  refine ⟨h.here, h.thrown, ?_, h.source, h.current⟩
  rw [Machine.withBytes, Machine.withDecoder, h.decoder]
  rfl

theorem Holds.fail (h : Holds s m) : Holds s.fail m.fail := by
  refine ⟨h.here, h.thrown, ?_, h.source, h.current⟩
  rw [Machine.fail, Machine.withDecoder, h.decoder]
  rfl

theorem Holds.failShort (h : Holds s m) : Holds s.fail m.failShort :=
  ⟨h.fail.here, h.fail.thrown, h.fail.decoder, h.fail.source, h.fail.current⟩

theorem Holds.updateHeader (h : Holds s m) (f : GifHeaderData → GifHeaderData)
    (hcurrent : ∀ header, (f header).currentFrame = header.currentFrame) :
    Holds { s with header := f s.header } (m.updateHeader f) := by
  refine ⟨h.here, h.thrown, ?_, h.source,
    fun ref href => h.current ref ((hcurrent s.header).symm.trans href)⟩
  rw [Machine.updateHeader, Machine.withDecoder, h.decoder]

theorem Holds.withScreen (h : Holds s m) (f : Screen → Screen) :
    Holds { s with screen := f s.screen }
    (m.withDecoder { m.decoder with screen := f m.decoder.screen }) := by
  refine ⟨h.here, h.thrown, ?_, h.source, h.current⟩
  rw [Machine.withDecoder, h.decoder]

theorem Holds.read (h : Holds s m) :
    (m.read.1.toNat : Int) = s.reader.read.1 ∧ Holds (s.withReader s.reader.read.2) m.read.2 := by
  have hbytes := h.bytes
  obtain ⟨hdropped, -⟩ | ⟨-, hempty, hread⟩ | ⟨b, bs, -, hcons, hread⟩ := m.read_cases
  · exact absurd hdropped h.not_dropped
  · rw [hread, read_nil h.source (hbytes.symm.trans hempty)]
    exact ⟨rfl, h.failShort⟩
  · rw [hread, read_cons (hbytes.symm.trans hcons)]
    exact ⟨rfl, h.withBytes bs⟩

/-- The block behind its size. -/
theorem Holds.getBlock {size : Byte} (h : Holds (s.withReader s.reader.read.2) m)
    (hsize : 0 < size.toNat)
    (hread : s.reader.read.1 = size.toNat) : Holds (s.withReader s.reader.readBlock.2)
    (m.getBlock size) := by
  rw [readBlock_raw h.source hsize hread, Machine.getBlock, if_neg h.not_dropped, h.bytes]
  by_cases hshort : s.reader.read.2.bytes.length < size.toNat
  · rw [if_pos hshort, if_pos (show (s.withReader s.reader.read.2).reader.bytes.length <
      size.toNat from hshort)]
    exact h.failShort
  · rw [if_neg hshort, if_neg (show ¬ (s.withReader s.reader.read.2).reader.bytes.length <
      size.toNat from hshort)]
    have hrest := h.withBytes (s.reader.read.2.bytes.drop size.toNat)
    exact ⟨hrest.here, hrest.thrown, hrest.decoder, hrest.source, hrest.current⟩

theorem Holds.readColorTable (h : Holds s m) (ncolors : Nat) :
    (m.readColorTable ncolors).1 = (BaseGifDecoder.readColorTable ncolors s.reader).1 ∧
      Holds (s.withReader (BaseGifDecoder.readColorTable ncolors s.reader).2)
      (m.readColorTable ncolors).2 := by
  rw [Machine.readColorTable, if_neg h.not_dropped, h.bytes, readColorTable_raw h.source]
  split
  · exact ⟨rfl, h.here, h.thrown, h.decoder, h.source, h.current⟩
  · exact ⟨rfl, h.withBytes _⟩

/-- A step that reads a number. -/
theorem runs_readShort {α : Type} {post : α → Machine → Prop} {k : Int → Machine → Machine}
    {f : Int × Reader → Except Fault α}
    (h : Holds s m) (hstep : m.step (-1) (-1) = m.readShort k)
    (hk : ∀ v r t, Holds (s.withReader r) t → Runs (k v t) post (f (v, r))) :
    Runs m post (readShort s.reader >>= f) := by
  apply Runs.step
  have hbytes := h.bytes
  rw [hstep]
  obtain ⟨hdropped, -⟩ | ⟨-, hshort, hread⟩ | ⟨low, high, bs, -, hcons, hread⟩ :=
    m.readShort_cases k
  · exact absurd hdropped h.not_dropped
  · rw [hread, readShort_short h.source (hbytes ▸ hshort)]
    exact ⟨_, .refl _, rfl, rfl⟩
  · rw [hread, readShort_cons h.source (hbytes.symm.trans hcons)]
    exact hk _ _ _ (h.withBytes bs)

/-- A step that reads a byte. -/
theorem runs_read {α : Type} {post : α → Machine → Prop} {x : Except Fault α}
    {k : Byte → Machine → Machine} (h : Holds s m)
    (hstep : m.step (-1) (-1) = k m.read.1 m.read.2)
    (hk : ∀ b t, (b.toNat : Int) = s.reader.read.1 → Holds (s.withReader s.reader.read.2) t →
      Runs (k b t) post x) :
    Runs m post x := by
  apply Runs.step
  rw [hstep]
  obtain ⟨hread, hheld⟩ := h.read
  exact hk _ _ hread hheld

theorem Holds.newFrame (h : Holds s m) : Holds s.newFrame m.newFrame := by
  refine ⟨h.here, h.thrown, ?_, h.source, ?_⟩
  · rw [Machine.newFrame, Machine.withDecoder, h.decoder]
    rfl
  · rintro _ ⟨⟩
    rw [Decoder.newFrame, List.length_append, List.length_singleton]
    exact Nat.lt_succ_self _

/-- The decoder with a frame and the reader changed. -/
def put (s : Decoder) (ref : Nat) (frame : GifFrameData) (r : Reader) : Decoder :=
  { s with reader := r, objects := s.objects.set ref frame }

theorem put_eq {ref : Nat} {frame : GifFrameData}
    (hframe : s.objects[ref]? = some frame) (r : Reader) :
    put s ref frame r = s.withReader r := by
  obtain ⟨hlt, rfl⟩ := List.getElem?_eq_some_iff.mp hframe
  rw [put, List.set_getElem_self]
  rfl

theorem Holds.updateFrame {ref : Nat} {frame : GifFrameData} {r : Reader}
    (h : Holds (put s ref frame r) m)
    (hcurrent : s.header.currentFrame = some ref) (f : GifFrameData → GifFrameData) :
    Holds (put s ref (f frame) r) (m.updateFrame f) := by
  have hheader : m.decoder.header.currentFrame = some ref := by
    rw [h.header]
    exact hcurrent
  have hlt : ref < s.objects.length := by
    have := h.current ref hcurrent
    rwa [put, List.length_set] at this
  have hmodify : (s.objects.set ref frame).modify ref f = s.objects.set ref (f frame) := by
    rw [List.modify_eq_set_getElem?, List.getElem?_set_self hlt]
    exact List.set_set ..
  simp only [Machine.updateFrame, hheader]
  refine ⟨h.here, h.thrown, ?_, h.source, ?_⟩
  · rw [Machine.withDecoder, h.decoder]
    simp only [put, hmodify]
  · intro ref' href
    have := h.current ref' href
    simpa only [put, List.length_set] using this

theorem Holds.ofLoopCount {loopCount : Int} (h : Holds s m) :
    Holds { s with loopCount := loopCount } m :=
  ⟨h.here, h.thrown, h.decoder, h.source, h.current⟩

theorem Holds.count (h : Holds s m) (blocks : Blocks) : Holds s (m.count blocks) := by
  rw [Machine.count]
  split
  · refine ⟨h.here, h.thrown, ?_, h.source, h.current⟩
    rw [Machine.withDecoder, h.decoder]
  · exact h

/-- Behind a record. -/
structure Recorded (s : Decoder) (m : Machine) : Prop where
  holds : Holds s m
  point : m.point = if s.reader.formatError then .finished else .code

theorem Holds.loop (h : Holds s m) : Recorded s m.loop := by
  refine ⟨h.goto _, ?_⟩
  rw [Machine.loop_point, h.err]

theorem readBlock_empty {r : Reader} (h : ¬ 0 < r.read.1) : r.readBlock.2 = r.read.2 := by
  rw [Reader.readBlock]
  simp only [if_neg h]

theorem runs_blocks {blocks : Blocks} {turns : Nat} (h : Holds s m)
    (hpoint : m.point = .blockSize blocks) :
    Runs m (fun r m' => ∃ t, Holds (s.withReader r) t ∧ m' = t.leaveBlocks blocks)
    (skip turns s.reader) := by
  induction turns generalizing s m with
  | zero => trivial
  | succ turns ih =>
    refine runs_read (k := fun size t => if 0 < size.toNat then
      t.goto (.block blocks size) else t.nextBlock blocks size) h
      (by simp only [Machine.step, hpoint]) fun size t hread ht => ?_
    rw [skip]
    by_cases hsize : 0 < size.toNat
    · have hget := ((ht.goto (.block blocks size)).getBlock hsize hread.symm).count blocks
      have hpos : 0 < s.reader.read.1 := by omega
      simp only [if_pos hsize]
      apply Runs.step
      show Runs (((t.goto (.block blocks size)).getBlock size).nextBlock blocks size) _ _
      rw [Machine.nextBlock]
      by_cases hmore : s.reader.readBlock.2.formatError = false
      · rw [if_pos ⟨hsize, hget.err.trans hmore⟩, if_pos ⟨hpos, hmore⟩]
        exact ih (hget.goto _) rfl
      · rw [if_neg fun hand => hmore (hget.err.symm.trans hand.2), if_neg fun hand => hmore hand.2]
        exact .ok ⟨_, hget, rfl⟩
    · have hempty : ¬ 0 < s.reader.read.1 := by omega
      simp only [if_neg hsize]
      rw [Machine.nextBlock, if_neg fun hand => hsize hand.1, if_neg fun hand => hempty hand.1,
        readBlock_empty hempty]
      exact .ok ⟨_, ht.count blocks, rfl⟩

/-- But for the loop count, a NETSCAPE extension is skipped. -/
theorem readNetscapeExt_eq (turns : Nat) (s : Decoder) : ∃ loopCount, s.readNetscapeExt turns =
    (skip turns s.reader).map fun r => { s with reader := r, loopCount := loopCount } := by
  induction turns generalizing s with
  | zero => exact ⟨0, rfl⟩
  | succ turns ih =>
    rw [Decoder.readNetscapeExt, skip]
    split
    · obtain ⟨loopCount, h⟩ :=
        ih { s with reader := s.reader.readBlock.2, loopCount :=
          loopCountOf s.reader.readBlock.1 s.loopCount }
      exact ⟨loopCount, h⟩
    · exact ⟨_, rfl⟩

variable {ref : Nat} {frame : GifFrameData}

theorem runs_graphicControlExt (h : Holds s m) (hpoint : m.point = .gceBlockSize)
    (hcurrent : s.header.currentFrame = some ref)
    (hframe : s.objects[ref]? = some frame) :
    Runs m (fun p m' => Recorded (put s ref p.1 p.2) m')
    (readGraphicControlExt frame s.reader) := by
  refine runs_read (k := fun _ t => t.goto .gcePacked) h
    (by simp only [Machine.step, hpoint]) fun _ t _ ht => ?_
  refine runs_read (k := fun packed t => t.goto (.gceDelay packed))
    (ht.goto .gcePacked) rfl fun packed t hpacked ht => ?_
  refine runs_readShort (k := fun delay t => t.goto (.transIndex packed delay))
    (ht.goto (.gceDelay packed)) rfl
    fun delay r t ht => ?_
  refine runs_read (k := fun transIndex t =>
    (t.updateFrame fun frame => frame.controlled packed.toNat delay transIndex.toNat).goto
      .gceTerminator)
    (ht.goto (.transIndex packed delay)) rfl fun transIndex t htransIndex ht => ?_
  have hput : Holds (put s ref frame r.read.2) t := by
    rw [put_eq hframe]
    exact ht
  have hcontrolled := hput.updateFrame hcurrent fun frame =>
    frame.controlled packed.toNat delay transIndex.toNat
  refine runs_read (k := fun _ t => t.loop) (hcontrolled.goto .gceTerminator) rfl fun _ t _ ht => ?_
  refine .ok ?_
  have hloop := ht.loop
  rw [hpacked, htransIndex] at hloop
  exact hloop

/-- A number that becomes a field of the frame. -/
theorem runs_field {α : Type} {post : α → Machine → Prop}
    {f : Int × Reader → Except Fault α} {r : Reader}
    (p : Point) (g : Int → GifFrameData → GifFrameData) (h : Holds (put s ref frame r) m)
    (hcurrent : s.header.currentFrame = some ref)
    (hstep : m.step (-1) (-1) = m.readShort fun v t => (t.updateFrame (g v)).goto p)
    (hk : ∀ v r t, Holds (put s ref (g v frame) r) t → t.point = p → Runs t post (f (v, r))) :
    Runs m post (readShort r >>= f) :=
  runs_readShort (s := put s ref frame r) h hstep fun v r _ ht =>
    hk v r _ ((Holds.updateFrame (s := s) (r := r) ht hcurrent (g v)).goto p) rfl

theorem runs_localTable {lctSize : Nat} {r : Reader} (h : Holds (put s ref frame r) m)
    (hcurrent : s.header.currentFrame = some ref)
    (hpoint : m.point = .localTable lctSize) :
    ∃ t, m.Reaches t ∧ Holds (put s ref { frame with lct := (readColorTable lctSize r).1 }
      (readColorTable lctSize r).2) t ∧
      t.point = .position := by
  obtain ⟨htable, hheld⟩ := h.readColorTable lctSize
  have hstep : m.step (-1) (-1) = ((m.readColorTable lctSize).2.updateFrame fun frame =>
      { frame with lct := (m.readColorTable lctSize).1 }).goto .position := by
    simp only [Machine.step, hpoint]
  refine ⟨_, .step (.refl _), ?_, congrArg Machine.point hstep⟩
  rw [hstep, htable]
  exact (Holds.updateFrame (s := s) hheld hcurrent fun frame =>
    { frame with lct := (readColorTable lctSize r).1 }).goto .position

theorem runs_readDescriptor (h : Holds s m) (hpoint : m.point = .ix)
    (hcurrent : s.header.currentFrame = some ref)
    (hframe : s.objects[ref]? = some frame) :
    Runs m (fun p m' => Holds (put s ref p.1 p.2) m' ∧ m'.point = .position)
    (readDescriptor frame s.reader) := by
  have hput : Holds (put s ref frame s.reader) m := by
    rw [put_eq hframe]
    exact h
  refine runs_field .iy (fun ix frame => { frame with ix := ix }) hput hcurrent
    (by simp only [Machine.step, hpoint]) ?_
  intro ix r t ht hpoint
  refine runs_field .iw (fun iy frame => { frame with iy := iy }) ht hcurrent
    (by simp only [Machine.step, hpoint]) ?_
  intro iy r t ht hpoint
  refine runs_field .ih (fun iw frame => { frame with iw := iw }) ht hcurrent
    (by simp only [Machine.step, hpoint]) ?_
  intro iw r t ht hpoint
  refine runs_field .imagePacked (fun ih frame => { frame with ih := ih }) ht hcurrent
    (by simp only [Machine.step, hpoint]) ?_
  intro ih r t ht hpoint
  refine runs_read (s := put s ref _ r) (k := fun packed t =>
    (t.updateFrame fun frame => { frame with
      lctFlag := decide (field packed.toNat 0x80 ≠ 0)
      interlace := decide (field packed.toNat 0x40 ≠ 0)
      lctSize := 2 <<< (field packed.toNat 7).toNat
      lct := none }).goto
        (if decide (field packed.toNat 0x80 ≠ 0) then
          .localTable (2 <<< (field packed.toNat 7).toNat) else .position))
    ht (by simp only [Machine.step, hpoint]) fun packed t hpacked ht => ?_
  have hpacked : r.read.1 = packed.toNat := hpacked.symm
  have ht := Holds.updateFrame (s := s) (r := r.read.2) ht hcurrent fun frame => { frame with
    lctFlag := decide (field packed.toNat 0x80 ≠ 0)
    interlace := decide (field packed.toNat 0x40 ≠ 0)
    lctSize := 2 <<< (field packed.toNat 7).toNat
    lct := none }
  simp only [hpacked]
  by_cases hflag : decide (field packed.toNat 0x80 ≠ 0) = true
  · simp only [hflag, if_true] at ht ⊢
    obtain ⟨t', hreach, ht', hpoint'⟩ :=
      runs_localTable (ht.goto (.localTable (2 <<< (field packed.toNat 7).toNat))) hcurrent rfl
    exact .reach hreach (.ok ⟨ht', hpoint'⟩)
  · simp only [hflag] at ht ⊢
    exact .ok ⟨ht.goto .position, rfl⟩

/-- The frame is listed behind its blocks. -/
theorem Holds.listFrame (h : Holds s m) (hcurrent : s.header.currentFrame = some ref) :
    Holds
      { s with header :=
        { s.header with frameCount := s.header.frameCount + 1, frames := s.header.frames ++ [ref] }
          }
      m.listFrame := by
  have hheader : m.decoder.header.currentFrame = some ref := by
    rw [h.header]
    exact hcurrent
  rw [Machine.listFrame, if_neg fun hand => h.not_dropped hand.1]
  simp only [hheader]
  exact h.updateHeader (fun header =>
    { header with frameCount := header.frameCount + 1, frames := header.frames ++ [ref] })
    fun _ => rfl

theorem runs_listFrame {turns : Nat} (h : Holds s m) (hpoint : m.point = .position)
    (hcurrent : s.header.currentFrame = some ref) (hframe : s.objects[ref]? = some frame) :
    Runs m Recorded (s.listFrame turns ref) := by
  have hput : Holds (put s ref frame s.reader) m := by
    rw [put_eq hframe]
    exact h
  have hmodify : s.objects.modify ref
      (fun frame => { frame with bufferFrameStart := s.data.length - s.reader.bytes.length }) =
      s.objects.set ref { frame with bufferFrameStart := s.data.length -
        s.reader.bytes.length } := by
    rw [List.modify_eq_set_getElem?, hframe]
    rfl
  have hstart := Holds.updateFrame (s := s) hput hcurrent fun frame =>
    { frame with bufferFrameStart := s.data.length - s.reader.bytes.length }
  have hstep : m.step (-1) (-1) =
      let t := m.updateFrame fun frame =>
        { frame with bufferFrameStart := s.data.length - s.reader.bytes.length }
      if t.err then t.loop else t.goto .codeSize := by
    simp only [Machine.step, hpoint, if_neg h.not_dropped, h.data, h.bytes]
  apply Runs.step
  rw [hstep, Decoder.listFrame, hmodify]
  simp only [hstart.err]
  show Runs (if s.reader.formatError then _ else _) _ _
  cases herr : s.reader.formatError with
  | true =>
    simp only [if_true]
    exact .ok hstart.loop
  | false =>
    simp only [Bool.false_eq_true, if_false]
    refine runs_read (k := fun _ t => t.goto (.blockSize .image)) (hstart.goto .codeSize)
      rfl fun _ t _ ht => ?_
    refine (runs_blocks (ht.goto (.blockSize .image)) rfl).bind ?_
    rintro r _ ⟨t, ht, rfl⟩
    exact .ok (Holds.listFrame ht hcurrent).loop

variable (argb4444 : Color → Color)

theorem runs_readImage {turns : Nat} (h : Holds s m) (hpoint : m.point = .ix)
    (hcurrent : s.header.currentFrame = some ref) :
    Runs m Recorded (s.readImage argb4444 turns ref) := by
  obtain ⟨frame, hframe⟩ : ∃ frame, s.objects[ref]? = some frame :=
    ⟨_, List.getElem?_eq_getElem (h.current ref hcurrent)⟩
  rw [Decoder.readImage, hframe]
  refine (runs_readDescriptor h hpoint hcurrent hframe).bind ?_
  rintro ⟨frame', r⟩ t ⟨ht, hposition⟩
  have hsource : r.source = .rawData := ht.source
  have hlt : ref < s.objects.length := h.current ref hcurrent
  simp only [hsource]
  exact runs_listFrame ht hposition hcurrent (List.getElem?_set_self hlt)

/-- Blocks that are skipped behind an extension, in a loop of either kind. -/
theorem runs_skip {turns : Nat} {blocks : Blocks} (h : Holds s m)
    (hpoint : m.point = .blockSize blocks) (hblocks : blocks ≠ .image) :
    Runs m (fun r => Recorded (s.withReader r)) (skip turns s.reader) := by
  apply (runs_blocks h hpoint).imp
  rintro r _ ⟨t, ht, rfl⟩
  cases blocks with
  | extension => exact ht.loop
  | netscape => exact ht.loop
  | image => exact absurd rfl hblocks

theorem runs_application {turns : Nat} (h : Holds s m) :
    Runs m.application (fun r => Recorded (s.withReader r)) (skip turns s.reader) := by
  rw [Machine.application]
  split
  · exact runs_skip (h.goto (.blockSize .netscape)) rfl (by simp)
  · exact runs_skip (h.goto (.blockSize .extension)) rfl (by simp)

theorem toNat_eq_iff (b c : Byte) : (b.toNat : Int) = c.toNat ↔ b = c := by
  rw [Nat.cast_inj, BitVec.toNat_inj]

/-- The block of an application extension, from its size on. -/
theorem runs_appBlock {turns : Nat} (h : Holds s m) (hpoint : m.point = .appBlockSize) :
    Runs m (fun r => Recorded (s.withReader r)) (skip turns s.reader.readBlock.2) := by
  refine runs_read (k := fun size t => if 0 < size.toNat then
    t.goto (.appBlock size) else t.application) h
    (by simp only [Machine.step, hpoint]) fun size t hread ht => ?_
  by_cases hsize : 0 < size.toNat
  · simp only [if_pos hsize]
    apply Runs.step
    exact runs_application ((ht.goto (.appBlock size)).getBlock hsize hread.symm)
  · simp only [if_neg hsize]
    rw [readBlock_empty (by omega)]
    exact runs_application ht

theorem runs_readExtension {turns : Nat} (h : Holds s m) (hpoint : m.point = .label) :
    Runs m Recorded (s.readExtension turns) := by
  refine runs_read (k := fun label t =>
    if label = 0xf9 then t.newFrame.goto .gceBlockSize
    else if label = 0xff then t.goto .appBlockSize
    else t.goto (.blockSize .extension)) h
      (by simp only [Machine.step, hpoint]) fun label t hlabel ht => ?_
  have hcontrol : (label.toNat : Int) = 0xf9 ↔ label = 0xf9 := toNat_eq_iff label 0xf9
  have happlication : (label.toNat : Int) = 0xff ↔ label = 0xff := toNat_eq_iff label 0xff
  simp only [Decoder.readExtension, ← hlabel, hcontrol, happlication]
  split
  · have hobject : (s.withReader s.reader.read.2).newFrame.objects[s.objects.length]? =
        some newFrameData :=
      List.getElem?_concat_length
    have hlast : (s.withReader s.reader.read.2).newFrame.objects.length - 1 = s.objects.length := by
      rw [Decoder.newFrame, List.length_append, List.length_singleton]
      rfl
    rw [hlast]
    exact (runs_graphicControlExt (ht.newFrame.goto .gceBlockSize) rfl rfl hobject).map
  · split
    · have hskip := @runs_appBlock (s.withReader s.reader.read.2) _ turns
        (ht.goto .appBlockSize) rfl
      split
      · obtain ⟨loopCount, heq⟩ := readNetscapeExt_eq turns
          ((s.withReader s.reader.read.2).withReader
            (s.withReader s.reader.read.2).reader.readBlock.2)
        rw [heq]
        exact (hskip.imp fun r t' ht' => ⟨ht'.holds.ofLoopCount, ht'.point⟩).map
      · exact hskip.map
    · exact (runs_skip (ht.goto (.blockSize .extension)) rfl (by simp)).map

/-- Behind a turn of `readContents`. -/
structure Turned (p : Bool × Decoder) (m : Machine) : Prop where
  holds : Holds p.2 m
  point : m.point = if p.1 ∨ p.2.reader.formatError then .finished else .code

theorem Recorded.turned (h : Recorded s m) : Turned (false, s) m :=
  ⟨h.holds, by simpa using h.point⟩

theorem runs_readContent {turns : Nat} (h : Holds s m) (hpoint : m.point = .code) :
    Runs m Turned (s.readContent argb4444 turns) := by
  refine runs_read (k := fun code t =>
    if code = 0x2c then (if t.decoder.header.currentFrame = none then t.newFrame else t).goto .ix
    else if code = 0x21 then t.goto .label
    else if code = 0x3b then t.goto .finished
    else if code = 0 then t.loop
    else t.fail.loop) h (by simp only [Machine.step, hpoint]) fun code t hcode ht => ?_
  have himage : (code.toNat : Int) = 0x2c ↔ code = 0x2c := toNat_eq_iff code 0x2c
  have hextension : (code.toNat : Int) = 0x21 ↔ code = 0x21 := toNat_eq_iff code 0x21
  have htrailer : (code.toNat : Int) = 0x3b ↔ code = 0x3b := toNat_eq_iff code 0x3b
  have hzero : (code.toNat : Int) = 0 ↔ code = 0 := toNat_eq_iff code 0
  simp only [Decoder.readContent, ← hcode, himage, hextension, htrailer, hzero, ht.header]
  split
  · split
    · exact ((runs_readImage argb4444 (ht.newFrame.goto .ix) rfl rfl).imp fun _ _ =>
        Recorded.turned).map
    · rename_i hsome
      obtain ⟨ref, hcurrent⟩ := Option.ne_none_iff_exists'.mp hsome
      simp only [hcurrent]
      exact ((runs_readImage argb4444 (ht.goto .ix) rfl hcurrent).imp fun _ _ =>
        Recorded.turned).map
  · split
    · exact ((runs_readExtension (ht.goto .label) rfl).imp fun _ _ => Recorded.turned).map
    · split
      · exact .ok ⟨ht.goto .finished, rfl⟩
      · split
        · exact .ok ht.loop.turned
        · exact .ok ht.fail.loop.turned

/-- What was thrown, or else the decoder. -/
def outcome (e : Ended) : Except Fault Decoder :=
  match e.fault with
  | none => .ok e.decoder
  | some f => .error f

/-- At the end. -/
structure Over (s : Decoder) (m : Machine) : Prop where
  holds : Holds s m
  point : m.point = .finished

theorem runs_readContents {turns n : Nat} (h : Recorded s m) :
    Runs m Over (outcome (s.readContents argb4444 turns n)) := by
  induction n generalizing s m with
  | zero => trivial
  | succ n ih =>
    rw [Decoder.readContents]
    have hpoint := h.point
    cases herr : s.reader.formatError with
    | true =>
      rw [herr] at hpoint
      exact .ok ⟨h.holds, hpoint⟩
    | false =>
      rw [herr] at hpoint
      have hturn : Runs m Turned (s.readContent argb4444 turns) :=
        runs_readContent argb4444 h.holds hpoint
      simp only [Bool.false_eq_true, if_false]
      cases hcontent : s.readContent argb4444 turns with
      | error e =>
        rw [hcontent] at hturn
        exact hturn.fault
      | ok p =>
        obtain ⟨done, s'⟩ := p
        rw [hcontent] at hturn
        obtain ⟨t, hreach, ht⟩ := hturn
        cases done with
        | true => exact .reach hreach (.ok ⟨ht.holds, ht.point⟩)
        | false =>
          refine .reach hreach (ih ⟨ht.holds, ?_⟩)
          simpa using ht.point

end

section

variable {s : Decoder} {m : Machine}

theorem runs_readId {n : Nat} {chars : List Byte} (h : Holds s m) (hpoint : m.point = .id chars)
    (hlength : chars.length + (n + 1) = 6) :
    ∃ more t, (readId (n + 1) s.reader).1 = more.map (fun b : Byte => (b.toNat : Int)) ∧
      Holds (s.withReader (readId (n + 1) s.reader).2) t ∧
      m.Reaches (if (chars ++ more).take 3 = [0x47, 0x49, 0x46] then
        t.goto .width else t.fail.goto .finished) := by
  have hstep : m.step (-1) (-1) =
      if (chars ++ [m.read.1]).length < 6 then m.read.2.goto (.id (chars ++ [m.read.1]))
      else if (chars ++ [m.read.1]).take 3 = [0x47, 0x49, 0x46] then m.read.2.goto .width
      else m.read.2.fail.goto .finished := by
    simp only [Machine.step, hpoint]
  obtain ⟨hread, ht⟩ := h.read
  induction n generalizing s m chars with
  | zero =>
    have hlast : ¬ (chars ++ [m.read.1]).length < 6 := by
      rw [List.length_append, List.length_singleton]
      omega
    rw [if_neg hlast] at hstep
    refine ⟨[m.read.1], m.read.2, ?_, ht, hstep ▸ .step (.refl _)⟩
    rw [List.map_singleton, hread]
    rfl
  | succ n ih =>
    have hnext : (chars ++ [m.read.1]).length + (n + 1) = 6 := by
      rw [List.length_append, List.length_singleton]
      omega
    rw [if_pos (by omega)] at hstep
    have hgoto := ht.goto (.id (chars ++ [m.read.1]))
    obtain ⟨more, t, hid, hheld, hreach⟩ := ih hgoto rfl hnext rfl hgoto.read.1 hgoto.read.2
    refine ⟨m.read.1 :: more, t, ?_, hheld, ?_⟩
    · rw [readId, List.map_cons, hread]
      exact congrArg _ hid
    · rw [List.append_assoc, List.singleton_append] at hreach
      exact .step (hstep ▸ hreach)

theorem take_id_iff (more : List Byte) :
    (more.map fun b : Byte => (b.toNat : Int)).take 3 = [0x47, 0x49, 0x46] ↔
    more.take 3 = [0x47, 0x49, 0x46] := by
  have hinjective : Function.Injective fun b : Byte => (b.toNat : Int) :=
    fun b c h => (toNat_eq_iff b c).mp h
  rw [← List.map_take]
  exact (List.map_injective_iff.mpr hinjective).eq_iff (b := [0x47, 0x49, 0x46])

theorem screenSize_unrequired (width height : Int) :
    screenSize (-1) (-1) width height = some (width, height) := by
  simp [screenSize, scaleFor]

/-- The screen is described, with a background index that is a byte. -/
structure Described (s : Decoder) (m : Machine) : Prop where
  holds : Holds s m
  bgIndex : 0 ≤ s.header.bgIndex ∧ s.header.bgIndex < 256

theorem runs_readLSD (h : Holds s m) (hpoint : m.point = .width) :
    Runs m (fun s' m' => ∃ t, Described s' t ∧ m' = t.leaveLSD) (readLSD s) := by
  refine runs_readShort (k := fun width t => t.goto (.height width)) h
    (by simp only [Machine.step, hpoint]) fun width r t ht => ?_
  refine runs_readShort (k := fun height t => t.setScreen (-1) (-1) width height)
    (ht.goto (.height width)) rfl
    fun height r t ht => ?_
  have hscreen :=
    ((ht.updateHeader (fun header => { header with width := width, height := height }) fun _ =>
      rfl).withScreen
    fun screen => { screen with width := width, height := height }).goto .lsdPacked
  rw [Machine.setScreen, screenSize_unrequired]
  refine runs_read (k := fun packed t => (t.updateHeader fun header => { header with
    gctFlag := decide (field packed.toNat 0x80 ≠ 0)
    gctSize := 2 <<< (field packed.toNat 7).toNat }).goto .bgIndex) hscreen rfl fun packed
      t hpacked ht => ?_
  have ht := ht.updateHeader (fun header => { header with
    gctFlag := decide (field packed.toNat 0x80 ≠ 0)
    gctSize := 2 <<< (field packed.toNat 7).toNat }) fun _ => rfl
  refine runs_read (k := fun b t => (t.updateHeader fun header =>
    { header with bgIndex := b.toNat }).goto .pixelAspect)
    (ht.goto .bgIndex) rfl fun bgIndex t hbgIndex ht => ?_
  have ht := ht.updateHeader (fun header => { header with bgIndex := bgIndex.toNat }) fun _ => rfl
  refine runs_read
    (k := fun b t => (t.updateHeader fun header => { header with pixelAspect := b.toNat }).leaveLSD)
    (ht.goto .pixelAspect) rfl fun pixelAspect t hpixelAspect ht => ?_
  have ht :=
    ht.updateHeader (fun header => { header with pixelAspect := pixelAspect.toNat }) fun _ => rfl
  have hbyte : 0 ≤ (bgIndex.toNat : Int) ∧ (bgIndex.toNat : Int) < 256 :=
    ⟨Int.natCast_nonneg _, Int.ofNat_lt.mpr bgIndex.isLt⟩
  have hpacked : r.read.1 = packed.toNat := hpacked.symm
  have hbgIndex : r.read.2.read.1 = bgIndex.toNat := hbgIndex.symm
  have hpixelAspect : r.read.2.read.2.read.1 = pixelAspect.toNat := hpixelAspect.symm
  simp only [hpacked, hbgIndex, hpixelAspect]
  exact .ok ⟨_, ⟨ht, hbyte⟩, rfl⟩

theorem Holds.gctFlag (h : Holds s m) : m.gctFlag = s.header.gctFlag := by
  rw [Machine.gctFlag, h.header, h.here, Bool.false_and, Bool.not_false, Bool.and_true]

theorem readColorTable_some {r : Reader} (hsource : r.source = .rawData) (ncolors : Nat) :
    ∃ gct r', readColorTable ncolors r = (some gct, r') := by
  rw [readColorTable_raw hsource]
  split
  · exact ⟨_, _, rfl⟩
  · exact ⟨_, _, rfl⟩

theorem runs_globalTable {gct : Table} {r : Reader} (h : Holds s m)
    (hpoint : m.point = .globalTable)
    (htable : readColorTable s.header.gctSize.toNat s.reader = (some gct, r)) :
    Runs m Recorded (.ok { s with
      reader := r
      header := { s.header with gct := some gct }
      screen := { s.screen with bgColor := gct s.header.bgIndex } }) := by
  obtain ⟨hgct, hrest⟩ := h.readColorTable s.header.gctSize.toNat
  rw [htable] at hgct hrest
  generalize htaken : m.readColorTable s.header.gctSize.toNat = taken at hgct hrest
  obtain ⟨_, t⟩ := taken
  obtain rfl : _ = some gct := hgct
  have hrest : Holds (s.withReader r) t := hrest
  have hheader := hrest.updateHeader (fun header => { header with gct := some gct }) fun _ => rfl
  have hscreen := hheader.withScreen fun screen => { screen with bgColor := gct s.header.bgIndex }
  have hbgIndex : (t.updateHeader fun header =>
    { header with gct := some gct }).decoder.header.bgIndex = s.header.bgIndex := by
    rw [hheader.header]
    rfl
  apply Runs.step
  simp only [Machine.step, hpoint, h.header, htaken, hbgIndex]
  exact .ok hscreen.loop

theorem runs_readHeader (h : Holds s m) (hpoint : m.point = .id []) :
    Runs m Recorded (readHeader s) := by
  obtain ⟨more, t, hid, ht, hreach⟩ := @runs_readId s m 5 [] h hpoint rfl
  apply Runs.reach hreach
  simp only [readHeader, hid, take_id_iff, List.nil_append]
  split
  · refine (runs_readLSD (ht.goto .width) rfl).bind ?_
    rintro s' _ ⟨t, ⟨ht, hbgIndex⟩, rfl⟩
    rw [Machine.leaveLSD]
    simp only [ht.gctFlag, ht.err]
    split
    · obtain ⟨gct, r, htable⟩ := readColorTable_some ht.source s'.header.gctSize.toNat
      simp only [htable]
      exact runs_globalTable (ht.goto .globalTable) rfl htable
    · exact .ok ht.loop
  · exact .ok ⟨ht.fail.goto .finished, rfl⟩

theorem holds_start (data : List Byte) : Holds (initial .rawData data) (start data) :=
  ⟨rfl, rfl, rfl, rfl, nofun⟩

variable (argb4444 : Color → Color)

/-- Read one read at a time, the data come to what `readFile` makes of them. -/
theorem readFile_agrees (turns : Nat) (data : List Byte) :
    Runs (start data) Over (outcome (readFile argb4444 turns .rawData data)) := by
  have hheader := runs_readHeader (holds_start data) rfl
  rw [readFile]
  cases hread : readHeader (initial .rawData data) with
  | error e =>
    rw [hread] at hheader
    exact hheader.fault
  | ok s =>
    rw [hread] at hheader
    obtain ⟨t, hreach, ht⟩ := hheader
    apply Runs.reach hreach
    have hpoint := ht.point
    cases herr : s.reader.formatError with
    | true =>
      rw [herr] at hpoint
      simp only [herr, if_true]
      exact .ok ⟨ht.holds, hpoint⟩
    | false =>
      simp only [herr, Bool.false_eq_true, if_false]
      exact runs_readContents argb4444 ht

/-- `readFile` throws nothing where every read is whole, but for a run that is cut off. -/
theorem readFile_of_whole {data : List Byte}
    (hwhole : ∀ k, ((Machine.step (-1) (-1))^[k] (start data)).Whole (-1) (-1))
    (turns : Nat) : (readFile argb4444 turns .rawData data).fault = none ∨
      (readFile argb4444 turns .rawData data).fault = some .cutOff := by
  have hagrees := readFile_agrees argb4444 turns data
  rw [outcome] at hagrees
  cases hfault : (readFile argb4444 turns .rawData data).fault with
  | none => exact .inl rfl
  | some f =>
    rw [hfault] at hagrees
    match f with
    | .cutOff => exact .inr rfl
    | .bufferUnderflow =>
      obtain ⟨_, ⟨n, rfl⟩, -, hthrown⟩ := hagrees
      have hreading := Machine.reading_iterate fun k (_ : k < n) => hwhole k
      exact absurd (hthrown.symm.trans hreading.thrown) nofun

end

end GifRawReading
